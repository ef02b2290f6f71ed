/-
  LoxSyntax.Proofs.PrintedNumbers — what the scanner makes of the numbers that are printed.

  The scanner knows no exponents. A numeral without one is the text of one number, with the
  value that it stands for; an exponent is scanned as a name, an operator and a number
  behind it, and the name of infinity is a name. So of the numbers that a source can write,
  zero and those from 10 ^ (-4) up to below 10 ^ 16 are printed as they can be scanned
  again, and no others are. Nothing is reported about any.

  - `scan_of_plain`, `scan_of_not_plain`: what a finite number is printed as.
  - `printed_numbers`: the numbers of any source.
  - `printed_number_tenQuadrillion`: a number that is printed as three tokens.
-/

import LoxSyntax.Proofs.AcceptedSources
import LoxSyntax.Proofs.Printing.NumberForms

namespace LoxSyntax

open Lexical

/-- The text is that of one number and the end of file, with that value, and nothing is
    reported about it. -/
def ScansAs (text : String) (x : Binary64) : Prop :=
  ∃ number eof, scan text = ⟨[number, eof], []⟩ ∧ number.kind = .number ∧ number.literal = .number x ∧ eof.kind = .eof

/-- The kinds of the tokens in the text of a number. -/
def printedKinds : Binary64 → List TokenKind
  | .finite _ rank =>
    if Binary64.Plain rank then [.number, .eof]
    else [.number, .identifier, if Binary64.Tiny rank then .minus else .plus, .number, .eof]
  | .infinite _ | .nan => [.identifier, .eof]

theorem ScansAs.kinds {text : String} {x : Binary64} (h : ScansAs text x) :
    (scan text).tokens.map (·.kind) = [.number, .eof] := by
  obtain ⟨number, eof, hs, hk, -, he⟩ := h
  simp [hs, hk, he]

/-! ## Lexemes of numbers -/

namespace Lexical

theorem Lexeme.IsNumber.kind {l : Lexeme} (h : l.IsNumber) : l.kind = .number := by
  cases l with
  | whole | fraction => rfl
  | _ => exact h.elim

theorem Lexeme.isNumber_of_kind {l : Lexeme} (h : l.kind = .number) : l.IsNumber := by
  cases l with
  | operator text kind hk => exact absurd h (operators_not_word _ hk).2.1
  | word c cs hc hs => exact absurd (mem_wordKinds _) (show (Lexeme.word c cs hc hs).kind ∉ wordKinds by rw [h]; decide)
  | whole | fraction => trivial
  | string => cases h

theorem Lexeme.IsNumber.literal {l : Lexeme} (h : l.IsNumber) :
    ∃ d, l.segment.literal = .number (.ofDecimal false d) := by
  cases l with
  | whole | fraction => exact ⟨_, rfl⟩
  | _ => exact h.elim

/-- A number ends in front of a letter. -/
theorem Lexeme.IsNumber.before {l : Lexeme} (h : l.IsNumber) {c : Char} (hc : isAlpha c = true) (rest : List Char) :
    l.segment.Before (c :: rest) := by
  have hstops : Stops isDigit (c :: rest) := by
    intro d hd
    cases hd
    exact isDigit_of_isAlpha hc
  cases l with
  | whole d ds hd =>
    refine .whole hd hstops fun hp => ?_
    rw [Option.some.inj hp.1] at hc
    exact absurd hc (by decide)
  | fraction d ds f fs hd hf => exact .fraction hd hf hstops
  | _ => exact h.elim

theorem map_kind_tokens (p : Spot) (ss : List Segment) : (tokens p ss).map (·.kind) = ss.filterMap (·.kind?) := by
  have h := congrArg (List.map Prod.fst) (map_tokens p ss)
  rw [List.map_map, List.map_filterMap] at h
  simpa [Function.comp_def] using h

end Lexical

namespace JsonText

/-! ## Numerals as lexemes -/

theorem IsDigits.exists_lexical {ds : List Char} (h : IsDigits ds) :
    ∃ d cs, ds = d :: cs ∧ ∀ c ∈ d :: cs, LoxSyntax.isDigit c = true := by
  obtain ⟨d, cs, rfl, -⟩ := h.exists_cons
  exact ⟨d, cs, rfl, fun c hc => by rw [isDigit_eq]; exact h.2 c hc⟩

/-- The digits of a numeral and its point are the lexeme of a number. -/
theorem Numeral.exists_lexeme (n : Numeral) : ∃ l : Lexeme, l.IsNumber ∧
    l.text = n.whole ++ fractionText n.fraction ∧
    l.segment.literal = .number (.ofDecimal false (.ofNumeral n.whole (n.fraction.getD []))) := by
  obtain ⟨d, ds, hw, hd⟩ := n.whole_isDigits.exists_lexical
  cases hf : n.fraction with
  | none => exact ⟨.whole d ds hd, trivial, by rw [hw]; exact (List.append_nil _).symm, by rw [hw]; rfl⟩
  | some fs =>
    obtain ⟨f, gs, rfl, hg⟩ := (n.fraction_isDigits fs hf).exists_lexical
    exact ⟨.fraction d ds f gs hd hg, trivial, by rw [hw]; rfl, by rw [hw]; rfl⟩

/-- A numeral without an exponent is scanned as the number that it stands for. -/
theorem Numeral.scansAs {n : Numeral} (hn : n.negative = false) (he : n.exponent = none) :
    ScansAs (String.ofList n.text) (.ofDecimal false n.decimal) := by
  obtain ⟨l, hl, htext, hliteral⟩ := n.exists_lexeme
  obtain ⟨number, eof, hs, heof, hkind, hvalue⟩ := l.scan_alone
  have hn : n.text = l.text := by
    rw [htext, text, hn, he]
    simp [Binary64.signText, exponentText]
  have hd : Decimal.ofNumeral n.whole (n.fraction.getD []) = n.decimal := by
    simp [Decimal.ofNumeral, decimal, he, digitsValue]
  rw [hd] at hliteral
  exact ⟨number, eof, by rw [hn]; exact hs, hkind.trans (hl.kind), hvalue.trans hliteral, heof⟩

/-! ## Exponents -/

/-- Behind a number, an exponent is a name, its sign and a number. -/
theorem exists_splits_exponent {l : Lexeme} (h : l.IsNumber) (e : Exponent) {sign : Char} {kind : TokenKind}
    (hs : e.sign = [sign]) (hk : punctuation? sign = some kind) :
    ∃ digits : Lexeme, digits.IsNumber ∧
      Splits [l.segment, ⟨.word, [e.mark]⟩, ⟨.operator kind, [sign]⟩, digits.segment] (l.text ++ e.text) := by
  obtain ⟨d, ds, hd, hdigits⟩ := e.isDigits.exists_lexical
  have hletters : ['e', 'E'].all isAlpha = true := by decide
  have hmark : isAlpha e.mark = true := List.all_eq_true.1 hletters _ e.mark_mem
  have hsign : isAlphanumeric sign = false :=
    Bool.eq_false_iff.2 fun h => not_mem_of_all h (by decide) (mem_of_punctuation? hk)
  have hrest : Splits [(Lexeme.whole d ds hdigits).segment] (d :: ds ++ []) :=
    .cons (Lexeme.whole d ds hdigits).before_nil .nil
  have hoperator : Splits [⟨.operator kind, [sign]⟩, (Lexeme.whole d ds hdigits).segment] (sign :: (d :: ds ++ [])) :=
    .cons (.punctuation hk) hrest
  have hword : Splits [⟨.word, [e.mark]⟩, ⟨.operator kind, [sign]⟩, (Lexeme.whole d ds hdigits).segment]
      (e.mark :: sign :: (d :: ds ++ [])) :=
    .cons (.word hmark (List.forall_mem_nil _) (stops_cons.2 hsign)) hoperator
  have htext : e.text = e.mark :: sign :: (d :: ds ++ []) := by rw [Exponent.text, hs, hd, List.append_nil]; rfl
  exact ⟨.whole d ds hdigits, trivial, htext ▸ .cons (h.before hmark _) hword⟩

/-- What the scanner makes of a numeral with an exponent that has a sign. -/
theorem Numeral.scan_exponent {n : Numeral} (hn : n.negative = false) {e : Exponent} (he : n.exponent = some e)
    {sign : Char} {kind : TokenKind} (hs : e.sign = [sign]) (hk : punctuation? sign = some kind) :
    (scan (String.ofList n.text)).diagnostics = [] ∧
    (scan (String.ofList n.text)).tokens.map (·.kind) = [.number, .identifier, kind, .number, .eof] := by
  obtain ⟨l, hl, htext, -⟩ := n.exists_lexeme
  obtain ⟨digits, hdigits, hsplits⟩ := exists_splits_exponent hl e hs hk
  have hn : (String.ofList n.text).toList = l.text ++ e.text := by
    rw [String.toList_ofList, htext, text, hn, he]
    simp [Binary64.signText, exponentText]
  have hword : (Segment.mk .word [e.mark]).kind? = some .identifier := by
    have hm := e.mark_mem
    simp only [List.mem_cons, List.not_mem_nil, or_false] at hm
    rcases hm with hm | hm <;> rw [hm] <;> decide +kernel
  have hoperator : (Segment.mk (.operator kind) [sign]).kind? = some kind := rfl
  rw [scan_eq (hn ▸ hsplits)]
  constructor
  · refine List.map_eq_nil_iff.1 ((map_diagnostics _ _).trans ?_)
    simp only [List.filterMap_cons, l.problem?_segment, digits.problem?_segment]
    rfl
  · rw [List.map_append, map_kind_tokens]
    simp only [List.filterMap_cons, l.kind?_segment, digits.kind?_segment, hword, hoperator,
      hl.kind, hdigits.kind]
    rfl

end JsonText

open JsonText

/-! ## Numbers -/

theorem scan_of_plain {rank : Fin magnitudes} (h : Binary64.Plain rank) :
    ScansAs (Literal.number (.finite false rank)).spelling (.finite false rank) := by
  obtain ⟨n, hn, he, htext, hvalue⟩ := exists_numeral_plain h
  have hs := Numeral.scansAs hn he
  rwa [← htext, String.ofList_toList, hvalue] at hs

theorem scan_of_not_plain {rank : Fin magnitudes} (h : ¬Binary64.Plain rank) :
    (scan (Literal.number (.finite false rank)).spelling).diagnostics = [] ∧
    (scan (Literal.number (.finite false rank)).spelling).tokens.map (·.kind) =
      printedKinds (.finite false rank) := by
  obtain ⟨n, e, hn, he, hsign, htext⟩ := exists_numeral_exponent h
  have hs := Numeral.scan_exponent hn he hsign
    (show punctuation? _ = some (if Binary64.Tiny rank then .minus else .plus) by split <;> rfl)
  rw [← htext, String.ofList_toList] at hs
  rw [printedKinds, if_neg h]
  exact hs

/-- The numbers that a source can write: none has a sign, and none is nan. -/
theorem number_of_mem_scan {source : String} {t : Token} (ht : t ∈ (scan source).tokens) (hk : t.kind = .number) :
    t.literal = .number (.infinite false) ∨ ∃ rank, t.literal = .number (.finite false rank) := by
  have hscanned := scanned_of_mem_scan ht (by rw [hk]; decide)
  have hspelled := hscanned.spelled
  obtain ⟨l, hkind, -, hliteral⟩ := hscanned
  obtain ⟨d, hd⟩ := (Lexeme.isNumber_of_kind (hkind ▸ hk)).literal
  rw [hliteral, hd] at hspelled ⊢
  generalize Binary64.ofDecimal false d = x at hspelled ⊢
  cases hspelled with
  | finite rank => exact .inr ⟨rank, rfl⟩
  | infinite => exact .inl rfl

/-- The numbers of a source are printed without anything to report. Zero and those from
    10 ^ (-4) up to below 10 ^ 16 are scanned as the same number again, and no others. -/
theorem printed_numbers (source : String) {t : Token} (ht : t ∈ (scan source).tokens) (hk : t.kind = .number) :
    ∃ x, t.literal = .number x ∧ (scan t.literal.spelling).diagnostics = [] ∧
      (scan t.literal.spelling).tokens.map (·.kind) = printedKinds x ∧
      (ScansAs t.literal.spelling x ↔ ∃ rank, x = .finite false rank ∧ Binary64.Plain rank) := by
  rcases number_of_mem_scan ht hk with hx | ⟨rank, hx⟩
  · have hkinds : (scan (Literal.number (.infinite false)).spelling).tokens.map (·.kind) = [.identifier, .eof] := by
      decide +kernel
    refine ⟨_, hx, by rw [hx]; decide +kernel, by rw [hx]; exact hkinds, ?_⟩
    rw [hx]
    refine iff_of_false (fun h => ?_) ?_
    · exact absurd (h.kinds.symm.trans hkinds) (by decide)
    · rintro ⟨rank, he, -⟩
      cases he
  · refine ⟨_, hx, ?_⟩
    rw [hx]
    by_cases hplain : Binary64.Plain rank
    · have hs := scan_of_plain hplain
      refine ⟨?_, by rw [hs.kinds, printedKinds, if_pos hplain], iff_of_true hs ⟨rank, rfl, hplain⟩⟩
      obtain ⟨number, eof, he, -⟩ := hs
      rw [he]
    · obtain ⟨hdiagnostics, hkinds⟩ := scan_of_not_plain hplain
      refine ⟨hdiagnostics, hkinds, iff_of_false (fun h => ?_) ?_⟩
      · have hlength := congrArg List.length (h.kinds.symm.trans hkinds)
        rw [printedKinds, if_neg hplain] at hlength
        cases hlength
      · rintro ⟨rank', he, hplain'⟩
        cases he
        exact hplain hplain'

theorem printed_numbers_half :
    let half : Binary64 := .finite false ⟨1022 * Nat.pow 2 52, by decide⟩
    let t : Token := ⟨.number, "0.50", .number half, 1, 5⟩
    t ∈ (scan "x = 0.50;").tokens ∧ t.kind = .number ∧ t.literal.spelling = "0.5" ∧
      ScansAs t.literal.spelling half := by
  intro half t
  have ht : t ∈ (scan "x = 0.50;").tokens := by decide +kernel
  obtain ⟨x, hx, -, -, hscans⟩ := printed_numbers "x = 0.50;" ht rfl
  obtain rfl : half = x := Literal.number.inj hx
  exact ⟨ht, rfl, by decide +kernel, hscans.2 ⟨_, rfl, by decide +kernel⟩⟩

/-- A number that is printed as three tokens. -/
theorem printed_number_tenQuadrillion :
    ∃ t ∈ (scan "10000000000000000").tokens, t.kind = .number ∧ t.literal.spelling = "1e+16" ∧
      (scan t.literal.spelling).tokens.map (·.kind) = [.number, .identifier, .plus, .number, .eof] ∧
      ∀ x, ¬ScansAs t.literal.spelling x := by
  have hkinds : (scan "1e+16").tokens.map (·.kind) = [.number, .identifier, .plus, .number, .eof] := by decide +kernel
  refine ⟨⟨.number, "10000000000000000", .number (.finite false Binary64.tenQuadrillion), 1, 1⟩, by decide +kernel, rfl,
    by decide +kernel, ?_⟩
  rw [show Literal.spelling _ = "1e+16" by decide +kernel]
  refine ⟨hkinds, fun x h => ?_⟩
  have hlength := congrArg List.length (h.kinds.symm.trans hkinds)
  cases hlength

end LoxSyntax
