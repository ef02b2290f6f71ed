/-
  LoxSyntax.Proofs.AcceptedSources — what is known of a source about which nothing is reported.

  Its tokens are the word of a program and the end of file behind it, and its statements
  are the tree of that program. So the tokens that the statements keep are those of
  lexemes, and the values are those that a source can spell: none of its numbers has a
  sign, none is nan, and no text has a quote in it.

  - `derivation_of_parseSource`: the program of an accepted source.
  - `scanned_of_parseSource`, `spelled_of_parseSource`: the tokens and the values of its statements.
-/

import LoxSyntax.Proofs.Drivers
import LoxSyntax.Proofs.Lexical.Kinds
import LoxSyntax.Proofs.Tree.Tokens
import LoxSyntax.Proofs.Tree.Values

namespace LoxSyntax

open Grammar Lexical

/-! ## Values that a source can spell -/

inductive Literal.Spelled : Literal → Prop where
  | nil : Spelled .nil
  | boolean (b : Bool) : Spelled (.boolean b)
  | finite (rank : Fin magnitudes) : Spelled (.number (.finite false rank))
  | infinite : Spelled (.number (.infinite false))
  | text {value : List Char} (h : ∀ c ∈ value, (c != '"') = true) : Spelled (.text (String.ofList value))

theorem spelled_nearest (n d : Nat) : (Literal.number (.nearest false n d)).Spelled := by
  unfold Binary64.nearest
  split
  · exact .finite _
  · exact .infinite

theorem spelled_ofDecimal (d : Decimal) : (Literal.number (.ofDecimal false d)).Spelled := by
  unfold Binary64.ofDecimal
  split
  · exact .finite _
  · split
    · exact .infinite
    · split <;> exact spelled_nearest _ _

/-- The value of a lexeme can be spelled. -/
theorem Lexical.Lexeme.spelled (l : Lexeme) : l.segment.literal.Spelled := by
  cases l with
  | operator | word => exact .nil
  | whole | fraction => exact spelled_ofDecimal _
  | string value h => exact .text h

theorem Lexical.Scanned.spelled {t : Token} (h : Scanned t) : t.literal.Spelled := by
  obtain ⟨l, -, -, hl⟩ := h
  exact hl ▸ l.spelled

theorem spelled_of_literalValue? {t : Token} (h : Scanned t) {v : Literal} (hv : literalValue? t = some v) :
    v.Spelled := by
  unfold literalValue? at hv
  split at hv <;> cases hv
  · exact .boolean true
  · exact .boolean false
  · exact .nil
  · exact h.spelled
  · exact h.spelled

/-! ## Accepted sources -/

def AllScanned (ts : List Token) : Prop := ∀ t ∈ ts, Scanned t

theorem allScanned_cons {t : Token} {ts : List Token} : AllScanned (t :: ts) ↔ Scanned t ∧ AllScanned ts :=
  List.forall_mem_cons

theorem allScanned_append {ts us : List Token} : AllScanned (ts ++ us) ↔ AllScanned ts ∧ AllScanned us :=
  List.forall_mem_append

/-- An accepted source is the word of a program, and its statements are the tree. -/
theorem derivation_of_parseSource {source : String} (h : (parseSource source).diagnostics = []) :
    ∃ (d : Clause .program) (eof : Token), (scan source).tokens = d.word ++ [eof] ∧ eof.kind = .eof ∧
      (scan source).diagnostics = [] ∧ d.NearestElse ∧ d.Documented ∧ (parseSource source).statements = d.tree := by
  obtain ⟨l, hl, htokens⟩ := exists_sourceTokens source
  rw [parseSource_eq hl] at h ⊢
  obtain ⟨hscan, hparse⟩ := List.append_eq_nil_iff.1 h
  obtain ⟨d, hword, hnearest, hdocumented, htree⟩ := TokenList.nearest_of_parse hparse
  rw [← hword] at htokens
  obtain ⟨us, eof, hus, heof⟩ : ∃ us eof, (scan source).tokens = us ++ [eof] ∧ eof.kind = .eof := by
    obtain ⟨ss, hs⟩ := exists_splits _ (Nat.le_refl source.toList.length)
    exact ⟨_, _, by rw [scan_eq hs], rfl⟩
  obtain ⟨-, he⟩ := List.append_inj' (htokens.symm.trans hus) rfl
  obtain rfl : l.eof = eof := by simpa using he
  exact ⟨d, l.eof, htokens, heof, hscan, hnearest, hdocumented, htree⟩

theorem scanned_of_word {source : String} {d : Clause .program} {eof : Token}
    (h : (scan source).tokens = d.word ++ [eof]) : ∀ t ∈ d.word, Scanned t := by
  obtain ⟨ss, hs⟩ := exists_splits _ (Nat.le_refl source.toList.length)
  rw [scan_eq hs] at h
  obtain ⟨hword, -⟩ := List.append_inj' h rfl
  rw [← hword]
  exact fun t ht => scanned_of_mem_tokens hs ht

/-- The tokens that the statements of an accepted source keep are those of lexemes. -/
theorem scanned_of_parseSource {source : String} (h : (parseSource source).diagnostics = []) :
    AllScanned (stmtsTokens (parseSource source).statements) := by
  obtain ⟨d, eof, hword, -, -, -, -, htree⟩ := derivation_of_parseSource h
  rw [htree]
  exact fun t ht => scanned_of_word hword t (d.drawn.subperm.subset ht)

/-- The values in the statements of an accepted source can be spelled. -/
theorem spelled_of_parseSource {source : String} (h : (parseSource source).diagnostics = []) :
    ∀ v ∈ stmtsValues (parseSource source).statements, v.Spelled := by
  obtain ⟨d, eof, hword, -, -, -, -, htree⟩ := derivation_of_parseSource h
  rw [htree]
  intro v hv
  rcases d.values_among v hv with rfl | ⟨t, ht, he⟩
  · exact .boolean true
  · exact spelled_of_literalValue? (scanned_of_word hword t ht) he

end LoxSyntax
