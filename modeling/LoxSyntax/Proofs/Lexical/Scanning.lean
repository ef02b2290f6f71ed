/-
  LoxSyntax.Proofs.Lexical.Scanning — the scanner takes a source segment by segment.

  Between two tokens the cursor stands between two segments. One step takes exactly the
  next segment and adds its token or its problem; the whole scan takes all of them.

  - `scanToken_mark`: a step takes the next segment.
  - `scan_eq`: the tokens and the problems of a source are those of its segments.
-/

import LoxSyntax.Proofs.Lexical.Reading

namespace LoxSyntax

open Lexical

namespace Scanner

variable {s : Scanner} {seg : Segment} {before text rest : List Char} {c : Char} {kind : TokenKind}

/-- The scanner that marked the start of a token and took the text. -/
def taking (s : Scanner) (text : List Char) : Scanner := { s.mark with cursor := s.cursor.pastAll text }

/-- The scanner behind a segment. -/
def behind (s : Scanner) (seg : Segment) : Scanner :=
  { s.taking seg.text with
    tokens := s.tokens ++ (seg.token? s.cursor.spot).toArray
    diagnostics := s.diagnostics ++ (seg.diagnostic? s.cursor.spot).toArray }

theorem lexeme_taking (h : s.cursor.Between before (text ++ rest)) : (s.taking text).lexeme = String.ofList text := by
  have hs : (s.cursor.pastAll text).slice s.cursor.position (s.cursor.pastAll text).position = text := by
    refine Cursor.slice_eq before rest ?_ h.position ?_
    · rw [Cursor.source_pastAll, h.source]
    · rw [Cursor.position_pastAll, h.position]
  exact congrArg String.ofList hs

theorem addToken_taking (seg : Segment) (h : s.cursor.Between before (seg.text ++ rest)) (hk : seg.kind? = some kind)
    (hp : seg.problem? = none) : (s.taking seg.text).addToken kind seg.literal = s.behind seg := by
  have ht : (seg.token? s.cursor.spot).toArray =
      #[⟨kind, (s.taking seg.text).lexeme, seg.literal, (s.cursor.pastAll seg.text).line, s.cursor.column⟩] := by
    rw [Segment.token?, hk, lexeme_taking h, Cursor.line_pastAll]
    rfl
  have hd : (seg.diagnostic? s.cursor.spot).toArray = #[] := by rw [Segment.diagnostic?, hp]; rfl
  rw [behind, ht, hd, Array.append_empty, ← Array.push_eq_append]
  rfl

theorem report_taking (s : Scanner) (seg : Segment) {message : String} (hk : seg.kind? = none)
    (hp : seg.problem? = some message) : (s.taking seg.text).report message = s.behind seg := by
  have ht : (seg.token? s.cursor.spot).toArray = #[] := by rw [Segment.token?, hk]; rfl
  have hd : (seg.diagnostic? s.cursor.spot).toArray = #[.lexical (s.cursor.pastAll seg.text).line message] := by
    rw [Segment.diagnostic?, hp, Cursor.line_pastAll]
    rfl
  rw [behind, ht, hd, Array.append_empty, ← Array.push_eq_append]
  rfl

theorem taking_eq_behind (s : Scanner) (seg : Segment) (hk : seg.kind? = none) (hp : seg.problem? = none) :
    s.taking seg.text = s.behind seg := by
  rw [behind, Segment.token?, hk, Segment.diagnostic?, hp]
  simp only [Option.map_none, Option.toArray_none, Array.append_empty]
  rfl

theorem scanToken_eq (h : s.cursor.Between before (c :: rest)) : s.mark.scanToken = (s.taking [c]).finishToken c := by
  have hnext : s.mark.cursor.next = .ok (c, s.cursor.past c) := h.next
  rw [scanToken, hnext]
  rfl

/-! ## The rest of a token -/

theorem between_taking (h : s.cursor.Between before (text ++ rest)) :
    (s.taking text).cursor.Between (before ++ text) rest :=
  h.pastAll

theorem taking_next {t : List Char} (h : s.cursor.Between before (t ++ c :: rest)) :
    (s.taking t).cursor.next = .ok (c, (s.taking (t ++ [c])).cursor) := by
  rw [(between_taking h).next, taking, taking, Cursor.pastAll_append]
  rfl

variable {t w : List Char} {p : Char → Bool}

theorem taking_skipWhile (h : s.cursor.Between before (t ++ (w ++ rest))) (hw : ∀ c ∈ w, p c = true)
    (hr : Stops p rest) : (s.taking t).cursor.skipWhile p = .ok (s.taking (t ++ w)).cursor := by
  rw [(between_taking h).skipWhile hw hr, taking, taking, Cursor.pastAll_append]

theorem skipComment_taking (h : s.cursor.Between before (t ++ (w ++ rest))) (hw : ∀ c ∈ w, (c != '\n') = true)
    (hr : Stops (· != '\n') rest) : (s.taking t).skipComment = .ok (s.taking (t ++ w)) := by
  rw [skipComment, taking_skipWhile h hw hr]
  rfl

theorem identifier_taking (h : s.cursor.Between before (t ++ (w ++ rest))) (hw : ∀ c ∈ w, isAlphanumeric c = true)
    (hr : Stops isAlphanumeric rest) : (s.taking t).identifier =
      .ok ((s.taking (t ++ w)).addToken (wordKind (s.taking (t ++ w)).lexeme) .nil) := by
  rw [identifier, taking_skipWhile h hw hr]
  rfl

theorem unclosed_taking (h : s.cursor.Between before (t ++ (w ++ []))) (hw : ∀ c ∈ w, (c != '"') = true) :
    (s.taking t).string = .ok ((s.taking (t ++ w)).report "Unterminated string.") := by
  have hend : (s.taking (t ++ w)).cursor.atEnd = true := by
    rw [← List.append_assoc] at h
    exact (between_taking h).atEnd
  rw [string, taking_skipWhile h hw (by simp [Stops]), onward, if_pos hend]
  rfl

theorem string_taking (h : s.cursor.Between before ('"' :: (w ++ ['"']) ++ rest)) (hw : ∀ c ∈ w, (c != '"') = true) :
    (s.taking ['"']).string =
      .ok ((s.taking ('"' :: (w ++ ['"']))).addToken .string (.text (String.ofList w))) := by
  have hsource : before ++ ('"' :: (w ++ ['"']) ++ rest) = before ++ (['"'] ++ (w ++ '"' :: rest)) := by simp
  have h1 : s.cursor.Between before (['"'] ++ (w ++ '"' :: rest)) := ⟨hsource ▸ h.source, h.position⟩
  have h2 : s.cursor.Between before ((['"'] ++ w) ++ '"' :: rest) := by rwa [List.append_assoc]
  have hend : (s.taking (['"'] ++ w)).cursor.atEnd = false := (between_taking h2).atEnd
  have hvalue : (s.taking ('"' :: (w ++ ['"']))).cursor.slice (s.cursor.position + 1)
      ((s.taking ('"' :: (w ++ ['"']))).cursor.position - 1) = w := by
    refine Cursor.slice_eq (before ++ ['"']) ('"' :: rest) ?_ ?_ ?_
    · rw [taking, Cursor.source_pastAll, h1.source]
      simp
    · rw [h.position]
      simp
    · rw [taking, Cursor.position_pastAll, h.position]
      simp
      omega
  rw [string, taking_skipWhile h1 hw (by simp [Stops]), onward]
  simp only [hend, taking_next h2, onward, Bool.false_eq_true, if_false]
  show Except.ok ((s.taking ('"' :: (w ++ ['"']))).addToken .string (.text (String.ofList
    ((s.taking ('"' :: (w ++ ['"']))).cursor.slice (s.cursor.position + 1)
      ((s.taking ('"' :: (w ++ ['"']))).cursor.position - 1))))) = _
  rw [hvalue]

/-! ## Numbers -/

theorem finishNumber_taking {whole fraction : List Char} (h : s.cursor.Between before (text ++ rest))
    (hb : (Segment.mk (.number whole fraction) text).Before rest) :
    (s.taking text).finishNumber = .ok (s.behind ⟨.number whole fraction, text⟩) := by
  rw [finishNumber, lexeme_taking h, ofText?_number hb]
  exact congrArg Except.ok (addToken_taking ⟨.number whole fraction, text⟩ h rfl rfl)

theorem whole_taking {d : Char} {ds : List Char} (h : s.cursor.Between before (d :: ds ++ rest))
    (hd : ∀ c ∈ d :: ds, isDigit c = true) (hr : Stops isDigit rest) (hp : ¬PointDigit rest) :
    (s.taking [d]).number = .ok (s.behind ⟨.number (d :: ds) [], d :: ds⟩) := by
  have hpeek : ¬((s.taking (d :: ds)).cursor.peek 0 = some '.' &&
      ((s.taking (d :: ds)).cursor.peek 1).any isDigit) = true :=
    mt (between_taking h).point_ahead_iff.1 hp
  rw [number, taking_skipWhile (t := [d]) h (List.forall_mem_cons.1 hd).2 hr, onward]
  exact (if_neg hpeek).trans (finishNumber_taking h (.whole hd hr hp))

theorem fraction_taking {d f : Char} {ds fs : List Char}
    (h : s.cursor.Between before (d :: ds ++ '.' :: f :: fs ++ rest)) (hd : ∀ c ∈ d :: ds, isDigit c = true)
    (hf : ∀ c ∈ f :: fs, isDigit c = true) (hr : Stops isDigit rest) :
    (s.taking [d]).number = .ok (s.behind ⟨.number (d :: ds) (f :: fs), d :: ds ++ '.' :: f :: fs⟩) := by
  have hpoint : Stops isDigit ('.' :: (f :: fs ++ rest)) := stops_cons.2 (by decide)
  have h1 : s.cursor.Between before (d :: ds ++ '.' :: (f :: fs ++ rest)) := by simpa using h
  have h2 : s.cursor.Between before ((d :: ds ++ ['.']) ++ (f :: fs ++ rest)) := by simpa using h
  have hpeek : ((s.taking (d :: ds)).cursor.peek 0 = some '.' &&
      ((s.taking (d :: ds)).cursor.peek 1).any isDigit) = true :=
    (between_taking h1).point_ahead_iff.2 ⟨rfl, hf f List.mem_cons_self⟩
  have hfinish := finishNumber_taking h (.fraction hd hf hr)
  have hskip := taking_skipWhile h2 hf hr
  have htext : d :: ds ++ ['.'] ++ (f :: fs) = d :: ds ++ '.' :: f :: fs := by simp
  rw [htext] at hskip
  rw [number, taking_skipWhile (t := [d]) h1 (List.forall_mem_cons.1 hd).2 hpoint, onward]
  refine (if_pos hpeek).trans ?_
  have hnext : (s.taking ([d] ++ ds)).cursor.next = .ok ('.', (s.taking (d :: ds ++ ['.'])).cursor) := taking_next h1
  rw [hnext]
  simp only [onward, hskip]
  exact hfinish

/-! ## One segment -/

theorem finishToken_of_isDigit (s : Scanner) (hc : isDigit c = true) : s.finishToken c = s.number := by
  obtain ⟨h1, h2, h3, h4, h5⟩ := not_mark_start (isDigit_start hc)
  simp only [finishToken, h1, h2, h3, h4, h5, hc, Bool.false_eq_true, if_true, if_false]

theorem finishToken_of_isAlpha (s : Scanner) (hc : isAlpha c = true) : s.finishToken c = s.identifier := by
  obtain ⟨h1, h2, h3, h4, h5⟩ := not_mark_start (isAlpha_start hc)
  simp only [finishToken, h1, h2, h3, h4, h5, isDigit_of_isAlpha hc, hc, Bool.false_eq_true, if_true, if_false]

theorem finishToken_taking (h : s.cursor.Between before (seg.text ++ rest)) (hb : seg.Before rest) {ds : List Char}
    (hc : seg.text = c :: ds) : (s.taking [c]).finishToken c = .ok (s.behind seg) := by
  cases hb with
  | blank hs =>
    obtain ⟨rfl, -⟩ := List.cons.inj hc
    obtain ⟨h1, h2, h3⟩ := isSpace_start hs
    simp only [finishToken, h1, h2, h3, hs, if_true, if_false]
    exact congrArg Except.ok (taking_eq_behind s ⟨.blank, [_]⟩ rfl rfl)
  | @comment text rest ht hr =>
    obtain ⟨rfl, -⟩ := List.cons.inj hc
    have h' : s.cursor.Between before (['/', '/'] ++ (text ++ rest)) := h
    have hslash : s.cursor.Between before (['/'] ++ '/' :: (text ++ rest)) := h
    have haccept : (s.taking ['/']).cursor.accept "/" = .ok (true, (s.taking ['/', '/']).cursor) :=
      (between_taking hslash).accept rfl
    have hskip := skipComment_taking h' ht hr
    simp only [finishToken, punctuation?, comparison?, if_true, haccept, onward]
    exact hskip.trans (congrArg Except.ok (taking_eq_behind s ⟨.comment, '/' :: '/' :: text⟩ rfl rfl))
  | punctuation hk =>
    obtain ⟨rfl, -⟩ := List.cons.inj hc
    simp only [finishToken, hk]
    exact congrArg Except.ok (addToken_taking _ h rfl rfl)
  | @extended c' _ _ rest hk =>
    obtain ⟨rfl, -⟩ := List.cons.inj hc
    have h' : s.cursor.Between before ([c'] ++ '=' :: rest) := h
    have haccept : (s.taking [c']).cursor.accept "=" = .ok (true, (s.taking [c', '=']).cursor) :=
      (between_taking h').accept rfl
    simp only [finishToken, punctuation?_of_comparison? hk, hk, haccept, onward]
    exact congrArg Except.ok (addToken_taking _ h rfl rfl)
  | @alone c' _ _ rest hk hr =>
    obtain ⟨rfl, -⟩ := List.cons.inj hc
    have haccept : (s.taking [c']).cursor.accept "=" = .ok (false, (s.taking [c']).cursor) :=
      (between_taking h).accept_ne rfl hr
    simp only [finishToken, punctuation?_of_comparison? hk, hk, haccept, onward]
    exact congrArg Except.ok (addToken_taking _ h rfl rfl)
  | slash hr =>
    obtain ⟨rfl, -⟩ := List.cons.inj hc
    have haccept : (s.taking ['/']).cursor.accept "/" = .ok (false, (s.taking ['/']).cursor) :=
      (between_taking h).accept_ne rfl hr
    simp only [finishToken, punctuation?, comparison?, if_true, haccept, onward]
    exact congrArg Except.ok (addToken_taking _ h rfl rfl)
  | string hv =>
    obtain ⟨rfl, -⟩ := List.cons.inj hc
    exact (string_taking h hv).trans (congrArg Except.ok (addToken_taking _ h rfl rfl))
  | @unclosed text ht =>
    obtain ⟨rfl, -⟩ := List.cons.inj hc
    have h' : s.cursor.Between before (['"'] ++ (text ++ [])) := h
    exact (unclosed_taking h' ht).trans (congrArg Except.ok (report_taking s ⟨.unclosed, '"' :: text⟩ rfl rfl))
  | whole hd hr hp =>
    obtain ⟨rfl, -⟩ := List.cons.inj hc
    rw [finishToken_of_isDigit _ (hd _ List.mem_cons_self)]
    exact whole_taking h hd hr hp
  | fraction hd hf hr =>
    obtain ⟨rfl, -⟩ := List.cons.inj hc
    rw [finishToken_of_isDigit _ (hd _ List.mem_cons_self)]
    exact fraction_taking h hd hf hr
  | @word c' cs rest hw hs hr =>
    obtain ⟨rfl, -⟩ := List.cons.inj hc
    have hkind : (Segment.mk .word (c' :: cs)).kind? = some (wordKind (s.taking (c' :: cs)).lexeme) := by
      rw [lexeme_taking h, wordKind, ofWord?_eq_lookup]
      rfl
    rw [finishToken_of_isAlpha _ hw]
    exact (identifier_taking (t := [c']) h hs hr).trans (congrArg Except.ok (addToken_taking _ h hkind rfl))
  | other hn =>
    obtain ⟨rfl, -⟩ := List.cons.inj hc
    obtain ⟨h1, h2, h3, h4, h5, h6, h7⟩ := hn
    simp only [finishToken, h1, h2, h3, h4, h5, h6, h7, Bool.false_eq_true, if_false]
    exact congrArg Except.ok (report_taking s ⟨.other, [_]⟩ rfl rfl)

/-- A step takes the next segment, and adds its token or its problem. -/
theorem scanToken_mark (h : s.cursor.Between before (seg.text ++ rest)) (hb : seg.Before rest) :
    s.mark.scanToken = .ok (s.behind seg) := by
  obtain ⟨c, ds, hc⟩ := List.exists_cons_of_ne_nil hb.text_ne_nil
  rw [scanToken_eq (by rw [← List.cons_append, ← hc]; exact h), finishToken_taking h hb hc]

/-! ## All segments -/

theorem scanRest_eq {ss : List Segment} {cs : List Char} (h : Splits ss cs) (hc : s.cursor.Between before cs) {n : Nat}
    (hn : cs.length ≤ n) : s.scanRest n = .ok (ss.foldl behind s) := by
  induction h generalizing s before n with
  | nil =>
    cases n with
    | zero => rfl
    | succ n => rw [scanRest, hc.atEnd]; rfl
  | @cons seg ss rest hb _ ih =>
    have hpos := List.length_pos_iff.2 hb.text_ne_nil
    rw [List.length_append] at hn
    cases n with
    | zero => omega
    | succ n =>
      have hend : s.cursor.atEnd = false := by
        rw [hc.atEnd, List.isEmpty_eq_false_iff]
        exact List.append_ne_nil_of_left_ne_nil hb.text_ne_nil rest
      have hrest : (s.behind seg).cursor.Between (before ++ seg.text) rest := hc.pastAll
      rw [scanRest, hend, if_neg Bool.false_ne_true, scanToken_mark hc hb]
      exact ih hrest (by omega)

theorem cursor_foldl_behind (s : Scanner) (ss : List Segment) :
    (ss.foldl behind s).cursor = s.cursor.pastAll (ss.flatMap (·.text)) := by
  induction ss generalizing s with
  | nil => rfl
  | cons seg ss ih =>
    rw [List.foldl_cons, ih, List.flatMap_cons, Cursor.pastAll_append]
    rfl

theorem spot_behind (s : Scanner) (seg : Segment) : (s.behind seg).cursor.spot = s.cursor.spot.pastAll seg.text :=
  Cursor.spot_pastAll _ _

theorem tokens_foldl_behind (s : Scanner) (ss : List Segment) :
    (ss.foldl behind s).tokens.toList = s.tokens.toList ++ Lexical.tokens s.cursor.spot ss := by
  induction ss generalizing s with
  | nil => exact (List.append_nil _).symm
  | cons seg ss ih =>
    rw [List.foldl_cons, ih, spot_behind, Lexical.tokens, ← List.append_assoc]
    simp [behind]

theorem diagnostics_foldl_behind (s : Scanner) (ss : List Segment) :
    (ss.foldl behind s).diagnostics.toList = s.diagnostics.toList ++ Lexical.diagnostics s.cursor.spot ss := by
  induction ss generalizing s with
  | nil => exact (List.append_nil _).symm
  | cons seg ss ih =>
    rw [List.foldl_cons, ih, spot_behind, Lexical.diagnostics, ← List.append_assoc]
    simp [behind]

end Scanner

/-- A scan takes all segments, and does not fail. -/
theorem scanTokens_eq {source : String} {ss : List Segment} (h : Splits ss source.toList) :
    (Scanner.ofSource source).scanTokens = .ok (ss.foldl Scanner.behind (.ofSource source)).addEof := by
  have hc : (Scanner.ofSource source).cursor.Between [] source.toList := Cursor.between_ofSource source
  rw [Scanner.scanTokens, Scanner.scanRest_eq h hc (Nat.le_of_eq hc.remaining.symm)]

/-- The tokens and the problems of a source are those of its segments. -/
theorem scan_eq {source : String} {ss : List Segment} (h : Splits ss source.toList) :
    scan source = ⟨tokens .start ss ++ [eofToken .start ss], diagnostics .start ss⟩ := by
  have heof : (ss.foldl Scanner.behind (.ofSource source)).addEof.tokens.toList =
      tokens .start ss ++ [eofToken .start ss] := by
    rw [Scanner.addEof, Array.toList_push, Scanner.tokens_foldl_behind, Scanner.cursor_foldl_behind,
      Cursor.line_pastAll, Cursor.column_pastAll]
    rfl
  have hdiag := Scanner.diagnostics_foldl_behind (.ofSource source) ss
  rw [scan, scanTokens_eq h]
  exact congrArg₂ Scan.mk heof hdiag

end LoxSyntax
