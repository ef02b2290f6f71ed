/-
  LoxSyntax.Proofs.ScanSafety — scanning a source never fails.

  A scan moves from segment to segment, so between two tokens the cursor stands inside its
  source. From there each token takes at least one character, and all that is asked of the
  source on the way is there: the characters that are read, the slices that are cut out,
  and a numeral where a number is read.

  - `stands_of_reaches`: a scan stands inside its source between any two tokens.
  - `safe_asked`: what is asked for one segment is there.
  - `scan_safe`: a scan ends behind its source without a failure, each token moves it on,
    all that it asks is there, and the value of a string is its lexeme without the quotes.
-/

import LoxSyntax.Proofs.Lexical.Kinds
import LoxSyntax.Proofs.Lexical.Recording

namespace LoxSyntax

open Lexical

/-! ## What may be asked -/

/-- One digit or more. -/
def DigitRun (cs : List Char) : Prop := cs ≠ [] ∧ ∀ c ∈ cs, isDigit c = true

/-- Digits, or digits around a point. -/
def PlainNumeral (cs : List Char) : Prop :=
  DigitRun cs ∨ ∃ whole fraction, DigitRun whole ∧ DigitRun fraction ∧ cs = whole ++ '.' :: fraction

/-- The slice has a quote on each side and none inside. -/
def Quoted (cs : List Char) (first last : Int) : Prop :=
  ∃ before value rest, cs = before ++ '"' :: (value ++ '"' :: rest) ∧ '"' ∉ value ∧
    first = before.length + 1 ∧ last = first + value.length

/-- What is asked of the source `cs` is there. -/
def Access.Safe (cs : List Char) : Access → Prop
  | .read position => 0 ≤ position ∧ position < cs.length
  | .lexeme first last => 0 ≤ first ∧ first ≤ last ∧ last ≤ cs.length
  | .value first last => 0 ≤ first ∧ first ≤ last ∧ last ≤ cs.length ∧ Quoted cs first last
  | .number text => PlainNumeral text.toList

theorem Lexical.Segment.Before.plainNumeral {whole fraction text rest : List Char}
    (h : (Segment.mk (.number whole fraction) text).Before rest) : PlainNumeral text := by
  cases h with
  | whole hd => exact .inl ⟨List.cons_ne_nil _ _, hd⟩
  | fraction hd hf => exact .inr ⟨_, _, ⟨List.cons_ne_nil _ _, hd⟩, ⟨List.cons_ne_nil _ _, hf⟩, rfl⟩

theorem Lexical.Segment.Before.quoted {value text rest : List Char} (h : (Segment.mk (.string value) text).Before rest)
    (before : List Char) :
    Quoted (before ++ (text ++ rest)) (before.length + 1) (before.length + 1 + value.length) := by
  cases h with
  | string hv =>
    have hquote : '"' ∉ value := fun hc => by simpa using hv _ hc
    exact ⟨before, value, rest, by simp, hquote, rfl, rfl⟩

theorem Quoted.safe {cs : List Char} {first last : Int} (h : Quoted cs first last) :
    (Access.value first last).Safe cs := by
  have ⟨before, value, rest, hcs, _, hfirst, hlast⟩ := h
  have hlen := congrArg List.length hcs
  simp only [List.length_append, List.length_cons] at hlen
  exact ⟨by omega, by omega, by omega, h⟩

/-- What is asked for one segment is there. -/
theorem safe_asked {before rest : List Char} {seg : Segment} (hb : seg.Before rest) :
    ∀ a ∈ Recording.asked before.length seg, a.Safe (before ++ (seg.text ++ rest)) := by
  have hlen : (before ++ (seg.text ++ rest)).length = before.length + (seg.text.length + rest.length) := by
    rw [List.length_append, List.length_append]
  have hlexeme : (Access.lexeme before.length (before.length + seg.text.length)).Safe
      (before ++ (seg.text ++ rest)) := ⟨by omega, by omega, by omega⟩
  intro a ha
  rcases List.mem_append.1 ha with ha | ha
  · obtain ⟨i, hi, rfl⟩ := Recording.mem_reads ha
    exact ⟨by omega, by omega⟩
  · obtain ⟨form, text⟩ := seg
    cases form with
    | operator kind =>
      obtain rfl := List.mem_singleton.1 ha
      exact hlexeme
    | string value =>
      simp only [Recording.cuts, List.mem_cons, List.not_mem_nil, or_false] at ha
      rcases ha with rfl | rfl
      · exact (hb.quoted before).safe
      · exact hlexeme
    | number whole fraction =>
      have hnumber : (Access.number (Segment.mk (.number whole fraction) text).lexeme).Safe
          (before ++ (text ++ rest)) := by
        simpa [Access.Safe, Segment.lexeme] using hb.plainNumeral
      simp only [Recording.cuts, List.mem_cons, List.not_mem_nil, or_false] at ha
      rcases ha with rfl | rfl | rfl
      · exact hlexeme
      · exact hnumber
      · exact hlexeme
    | word =>
      simp only [Recording.cuts, List.mem_cons, List.not_mem_nil, or_false, or_self] at ha
      obtain rfl := ha
      exact hlexeme
    | blank | comment | unclosed | other => cases ha

/-- What is asked for a row of segments is there. -/
theorem safe_askedAll {ss : List Segment} {cs : List Char} (h : Splits ss cs) (before : List Char) :
    ∀ a ∈ Recording.askedAll before.length ss, a.Safe (before ++ cs) := by
  induction h generalizing before with
  | nil => intro a ha; cases ha
  | @cons seg ss rest hb _ ih =>
    intro a ha
    rcases List.mem_append.1 ha with ha | ha
    · exact safe_asked hb a ha
    · have hrest := ih (before ++ seg.text)
      rw [List.length_append, Int.natCast_add, List.append_assoc] at hrest
      exact hrest a ha

/-! ## From token to token -/

/-- A scan that started as `s` has come to a place between two tokens. -/
inductive Scanner.Reaches (s : Scanner) : Scanner → Prop where
  | start : Reaches s s
  | step {t t' : Scanner} (h : Reaches s t) (hend : t.cursor.atEnd = false) (ht : t.mark.scanToken = .ok t') :
      Reaches s t'

/-- The cursor stands inside the source, or behind it. -/
def Scanner.Stands (s : Scanner) (cs : List Char) : Prop :=
  ∃ before rest, s.cursor.Between before rest ∧ before ++ rest = cs

namespace Scanner

variable {s t : Scanner} {cs : List Char}

/-- One token is scanned: it takes the next segment, and what it asks is what is asked for
    this segment. -/
structure Takes (cs : List Char) (s s' : Scanner) (seg : Segment) (rest : List Char) : Prop where
  token : s.mark.scanToken = .ok s'
  segment : seg.Before rest
  ahead : cs.drop s.cursor.position.toNat = seg.text ++ rest
  position : s'.cursor.position = s.cursor.position + seg.text.length
  accesses : (Recording.scanToken s.mark).accesses = Recording.asked s.cursor.position seg

/-- In front of the end a token is scanned, and what it asks is there. -/
theorem Stands.step (h : s.Stands cs) (hend : s.cursor.atEnd = false) :
    ∃ s' seg rest, s.Takes cs s' seg rest ∧ s'.Stands cs ∧ s.cursor.position < s'.cursor.position ∧
      ∀ a ∈ (Recording.scanToken s.mark).accesses, a.Safe cs := by
  obtain ⟨before, cs', hc, rfl⟩ := h
  rw [hc.atEnd, List.isEmpty_eq_false_iff] at hend
  obtain ⟨c, ds, rfl⟩ := List.exists_cons_of_ne_nil hend
  obtain ⟨seg, rest, hb, htext⟩ := exists_before c ds
  rw [htext] at hc ⊢
  have hbehind : (s.behind seg).cursor.Between (before ++ seg.text) rest := hc.pastAll
  have hpos : (s.behind seg).cursor.position = s.cursor.position + seg.text.length := Cursor.position_pastAll _ _
  have hlen := List.length_pos_iff.2 hb.text_ne_nil
  have hasked := Recording.accesses_scanToken hc hb
  have hahead : (before ++ (seg.text ++ rest)).drop s.cursor.position.toNat = seg.text ++ rest := by
    rw [hc.position, Int.toNat_natCast, List.drop_left]
  refine ⟨s.behind seg, seg, rest, ⟨scanToken_mark hc hb, hb, hahead, hpos, hasked⟩,
    ⟨_, rest, hbehind, List.append_assoc _ _ _⟩, by omega, ?_⟩
  rw [hasked, hc.position]
  exact safe_asked hb

/-- A scan stands inside its source between any two tokens. -/
theorem stands_of_reaches (h : s.Reaches t) (hs : s.Stands cs) : t.Stands cs := by
  induction h with
  | start => exact hs
  | step _ hend ht ih =>
    obtain ⟨t'', seg, rest, htakes, hstands, -⟩ := ih.step hend
    cases ht.symm.trans htakes.token
    exact hstands

/-- What is left to be scanned is scanned token by token. -/
theorem reaches_scanRest {n : Nat} {s' : Scanner} (h : s.Reaches t) (hn : t.scanRest n = .ok s') : s.Reaches s' := by
  induction n generalizing t with
  | zero =>
    cases hn
    exact h
  | succ n ih =>
    rw [scanRest] at hn
    split at hn
    · cases hn
      exact h
    · next hend =>
      split at hn
      · next t' ht => exact ih (h.step (Bool.eq_false_iff.2 hend) ht) hn
      · cases hn

theorem Stands.position_le (h : s.Stands cs) : s.cursor.position ≤ cs.length := by
  obtain ⟨before, rest, hc, rfl⟩ := h
  rw [hc.position, List.length_append]
  omega

theorem stands_ofSource (source : String) : (ofSource source).Stands source.toList :=
  ⟨[], source.toList, Cursor.between_ofSource source, rfl⟩

end Scanner

/-- A string token is what stands between its quotes. -/
theorem string_of_mem_scan {source : String} {t : Token} (ht : t ∈ (scan source).tokens) (hk : t.kind = .string) :
    ∃ value, '"' ∉ value ∧ t.literal = .text (String.ofList value) ∧ t.lexeme.toList = '"' :: (value ++ ['"']) := by
  obtain ⟨l, hkind, hlexeme, hliteral⟩ := scanned_of_mem_scan ht (by rw [hk]; decide)
  rw [hk] at hkind
  cases l with
  | string value hv =>
    have hquote : '"' ∉ value := fun hc => by simpa using hv _ hc
    exact ⟨value, hquote, hliteral, by rw [hlexeme]; exact String.toList_ofList⟩
  | operator text kind h => exact absurd hkind.symm (operators_not_word _ h).2.2
  | word c cs hc hs =>
    have hword : TokenKind.string ∈ wordKinds := hkind ▸ mem_wordKinds _
    exact absurd hword (by decide)
  | whole | fraction => cases hkind

/-- A scan ends behind its source without a failure. From each place between two tokens one
    token takes the next segment and so moves the scan on, never past the end. What it asks
    of the source, as recording it shows, is exactly what is asked for this segment, and all
    of it is there; so it is for the whole scan and all segments. The value of a string
    token is its lexeme without the two quotes. -/
theorem scan_safe (source : String) :
    (∀ s, (Recording.scanTokens s).outcome = s.scanTokens) ∧ (∀ s, (Recording.scanToken s).outcome = s.scanToken) ∧
    (∃ s, (Scanner.ofSource source).scanTokens = .ok s.addEof ∧ (Scanner.ofSource source).Reaches s ∧
      s.cursor.position = source.toList.length) ∧
    (∀ s, (Scanner.ofSource source).Reaches s → s.cursor.atEnd = false →
      ∃ s' seg rest, s.Takes source.toList s' seg rest ∧ s.cursor.position < s'.cursor.position ∧
        s'.cursor.position ≤ source.toList.length ∧
        ∀ a ∈ (Recording.scanToken s.mark).accesses, a.Safe source.toList) ∧
    (∃ ss, Splits ss source.toList ∧
      (Recording.scanTokens (.ofSource source)).accesses = Recording.askedAll 0 ss ∧
      ∀ a ∈ (Recording.scanTokens (.ofSource source)).accesses, a.Safe source.toList) ∧
    ∀ t ∈ (scan source).tokens, t.kind = .string →
      ∃ value, '"' ∉ value ∧ t.literal = .text (String.ofList value) ∧ t.lexeme.toList = '"' :: (value ++ ['"']) := by
  obtain ⟨ss, hs⟩ := exists_splits _ (Nat.le_refl source.toList.length)
  have hstart := Scanner.stands_ofSource source
  refine ⟨Recording.outcome_scanTokens, Recording.outcome_scanToken, ?ends, ?step, ?asked, ?strings⟩
  case ends =>
    have hc : (Scanner.ofSource source).cursor.Between [] source.toList := Cursor.between_ofSource source
    have hrest := Scanner.scanRest_eq hs hc (Nat.le_of_eq hc.remaining.symm)
    refine ⟨_, scanTokens_eq hs, Scanner.reaches_scanRest .start hrest, ?_⟩
    rw [Scanner.cursor_foldl_behind, hs.flatMap_text, Cursor.position_pastAll]
    exact Int.zero_add _
  case step =>
    intro s hreach hend
    obtain ⟨s', seg, rest, htakes, hstands, hlt, hsafe⟩ := (Scanner.stands_of_reaches hreach hstart).step hend
    exact ⟨s', seg, rest, htakes, hlt, hstands.position_le, hsafe⟩
  case asked =>
    have hasked := Recording.accesses_scanTokens hs
    exact ⟨ss, hs, hasked, hasked ▸ safe_askedAll hs []⟩
  case strings => exact fun t ht hk => string_of_mem_scan ht hk

/-- A string, a number with a point and a quote that nothing closes. -/
theorem scan_safe_unclosed :
    (∃ s, (Scanner.ofSource "\"ab\"1.5\"c").mark.scanToken = .ok s ∧ 0 < s.cursor.position) ∧
    (∃ ss, Splits ss "\"ab\"1.5\"c".toList ∧
      (Recording.scanTokens (.ofSource "\"ab\"1.5\"c")).accesses = Recording.askedAll 0 ss) ∧
    (Access.value 1 3).Safe "\"ab\"1.5\"c".toList ∧ (Access.number "1.5").Safe "\"ab\"1.5\"c".toList ∧
    (Access.read 8).Safe "\"ab\"1.5\"c".toList ∧
    ∃ value, '"' ∉ value ∧ Literal.text "ab" = .text (String.ofList value) ∧
      "\"ab\"".toList = '"' :: (value ++ ['"']) := by
  obtain ⟨-, -, -, hstep, hasked, hstrings⟩ := scan_safe "\"ab\"1.5\"c"
  obtain ⟨s, seg, rest, htakes, hlt, -⟩ := hstep _ .start (by decide)
  obtain ⟨ss, hss, haccesses, hsafe⟩ := hasked
  exact ⟨⟨s, htakes.token, hlt⟩, ⟨ss, hss, haccesses⟩, hsafe _ (by decide +kernel), hsafe _ (by decide +kernel),
    hsafe _ (by decide +kernel), hstrings ⟨.string, "\"ab\"", .text "ab", 1, 1⟩ (by decide +kernel) rfl⟩

end LoxSyntax
