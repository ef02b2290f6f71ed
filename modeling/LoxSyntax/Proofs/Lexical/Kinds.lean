/-
  LoxSyntax.Proofs.Lexical.Kinds — the kind of a token tells its text.

  A segment that gives a token is that of a lexeme. An operator and a reserved word have a
  kind of their own, so all tokens of that kind have one text, and they carry no value.

  - `Segment.Before.exists_lexeme`: the lexeme of a segment that gives a token.
  - `Lexeme.text_of_operator`, `Lexeme.lexeme_of_reserved`: the text that a kind tells.
  - `scanned_of_mem_tokens`, `scanned_of_mem_scan`: the tokens of a source are those of lexemes.
-/

import LoxSyntax.Proofs.LexicalGrammar
import LoxSyntax.Proofs.Lexical.Lexeme

namespace LoxSyntax.Lexical

/-! ## Operators -/

theorem mem_operators_of_punctuation? {c : Char} {kind : TokenKind} (h : punctuation? c = some kind) :
    ([c], kind) ∈ operators := by
  unfold punctuation? at h
  split at h <;> cases h <;> decide

theorem mem_operators_of_comparison? {c : Char} {extended alone : TokenKind}
    (h : comparison? c = some (extended, alone)) : ([c, '='], extended) ∈ operators ∧ ([c], alone) ∈ operators := by
  unfold comparison? at h
  split at h <;> cases h <;> decide

/-- The kind of an operator tells its text. -/
theorem operators_unique : ∀ p ∈ operators, ∀ q ∈ operators, p.2 = q.2 → p.1 = q.1 := by decide

/-- A segment that gives a token is that of a lexeme. -/
theorem Segment.Before.exists_lexeme {s : Segment} {rest : List Char} (h : s.Before rest) {kind : TokenKind}
    (hk : s.kind? = some kind) : ∃ l : Lexeme, s = l.segment := by
  cases h with
  | punctuation h => exact ⟨.operator _ _ (mem_operators_of_punctuation? h), rfl⟩
  | extended h => exact ⟨.operator _ _ (mem_operators_of_comparison? h).1, rfl⟩
  | alone h => exact ⟨.operator _ _ (mem_operators_of_comparison? h).2, rfl⟩
  | slash => exact ⟨.operator ['/'] .slash (by decide), rfl⟩
  | string hv => exact ⟨.string _ hv, rfl⟩
  | whole hd => exact ⟨.whole _ _ hd, rfl⟩
  | fraction hd hf => exact ⟨.fraction _ _ _ _ hd hf, rfl⟩
  | word hc hs => exact ⟨.word _ _ hc hs, rfl⟩
  | _ => cases hk

/-! ## Words -/

/-- The kinds of words: those of the reserved words, and that of a name. -/
def wordKinds : List TokenKind := .identifier :: reservedWords.map Prod.snd

theorem mem_of_lookup {word : String} {kind : TokenKind} {table : List (String × TokenKind)}
    (h : table.lookup word = some kind) : (word, kind) ∈ table := by
  obtain ⟨before, after, rfl, -⟩ := List.lookup_eq_some_iff.1 h
  simp

theorem mem_wordKinds (word : String) : (reservedWords.lookup word).getD .identifier ∈ wordKinds := by
  cases h : reservedWords.lookup word with
  | none => exact List.mem_cons_self
  | some kind => exact List.mem_cons_of_mem _ (List.mem_map_of_mem (mem_of_lookup h))

theorem operators_not_word : ∀ p ∈ operators, p.2 ∉ wordKinds ∧ p.2 ≠ .number ∧ p.2 ≠ .string := by decide

theorem reservedWords_unique : ∀ p ∈ reservedWords, ∀ q ∈ reservedWords, p.2 = q.2 → p.1 = q.1 := by decide

theorem reservedWords_kind : ∀ p ∈ reservedWords, p.2 ≠ .identifier ∧ p.2 ≠ .number ∧ p.2 ≠ .string := by decide

namespace Lexeme

theorem text_of_operator {l : Lexeme} {text : List Char} (h : (text, l.kind) ∈ operators) : l.text = text := by
  obtain ⟨hword, hnumber, hstring⟩ := operators_not_word _ h
  cases l with
  | operator text' kind h' => exact operators_unique _ h' _ h rfl
  | word => exact absurd (mem_wordKinds _) hword
  | whole | fraction => exact absurd rfl hnumber
  | string => exact absurd rfl hstring

theorem lexeme_of_reserved {l : Lexeme} {word : String} (h : (word, l.kind) ∈ reservedWords) :
    l.segment.lexeme = word := by
  obtain ⟨hname, hnumber, hstring⟩ := reservedWords_kind _ h
  cases l with
  | operator text kind h' =>
    exact absurd (List.mem_cons_of_mem _ (List.mem_map_of_mem (f := Prod.snd) h)) (operators_not_word _ h').1
  | word c cs hc hs =>
    rw [kind] at h hname
    cases hk : reservedWords.lookup (Lexeme.word c cs hc hs).segment.lexeme with
    | none => exact absurd (by rw [hk]; rfl) hname
    | some k =>
      rw [hk] at h
      exact reservedWords_unique _ (mem_of_lookup hk) _ h rfl
  | whole | fraction => exact absurd rfl hnumber
  | string => exact absurd rfl hstring

end Lexeme

/-- A segment whose token has the kind of a bracket or of a point is that character. -/
theorem Segment.Before.text_of_punctuation {s : Segment} {rest : List Char} (h : s.Before rest) {c : Char}
    {kind : TokenKind} (hc : punctuation? c = some kind) (hk : s.kind? = some kind) : s.text = [c] := by
  obtain ⟨l, rfl⟩ := h.exists_lexeme hk
  rw [l.kind?_segment, Option.some.injEq] at hk
  exact Lexeme.text_of_operator (hk ▸ mem_operators_of_punctuation? hc)

/-! ## Tokens -/

/-- The token is that of a lexeme, wherever it stands. -/
def Scanned (t : Token) : Prop :=
  ∃ l : Lexeme, t.kind = l.kind ∧ t.lexeme = l.segment.lexeme ∧ t.literal = l.segment.literal

/-- The tokens of a source are those of lexemes. -/
theorem scanned_of_mem_tokens {p : Spot} {ss : List Segment} {cs : List Char} (h : Splits ss cs) {t : Token}
    (ht : t ∈ tokens p ss) : Scanned t := by
  have hm := List.mem_map_of_mem (f := fun t : Token => (t.kind, t.lexeme, t.literal)) ht
  rw [map_tokens] at hm
  obtain ⟨s, hs, he⟩ := List.mem_filterMap.1 hm
  obtain ⟨kind, hk, he⟩ := Option.map_eq_some_iff.1 he
  obtain ⟨rest, hb⟩ := h.exists_before hs
  obtain ⟨l, rfl⟩ := hb.exists_lexeme hk
  simp only [Prod.mk.injEq] at he
  rw [l.kind?_segment, Option.some.injEq] at hk
  exact ⟨l, he.1.symm.trans hk.symm, he.2.1.symm, he.2.2.symm⟩

theorem scanned_of_mem_scan {source : String} {t : Token} (ht : t ∈ (scan source).tokens) (hk : t.kind ≠ .eof) :
    Scanned t := by
  obtain ⟨ss, hs⟩ := exists_splits _ (Nat.le_refl source.toList.length)
  rw [scan_eq hs] at ht
  rcases List.mem_append.1 ht with ht | ht
  · exact scanned_of_mem_tokens hs ht
  · rw [List.mem_singleton.1 ht] at hk
    exact absurd rfl hk

end LoxSyntax.Lexical
