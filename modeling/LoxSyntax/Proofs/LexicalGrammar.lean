/-
  LoxSyntax.Proofs.LexicalGrammar — scanning follows the lexical grammar on every source.

  - `scan_lexicalGrammar`: a source is one row of segments; the tokens are those of its
    operators, strings, numbers and words in order, then one end of file, and the problems
    are those of its other characters and of a quote that nothing closes.
-/

import LoxSyntax.Proofs.Lexical.Scanning

namespace LoxSyntax

open Lexical

namespace Lexical

theorem kind_punctuation_ne_eof {c : Char} {kind : TokenKind} (h : punctuation? c = some kind) : kind ≠ .eof := by
  unfold punctuation? at h
  split at h <;> cases h <;> decide

theorem kinds_comparison_ne_eof {c : Char} {kinds : TokenKind × TokenKind} (h : comparison? c = some kinds) :
    kinds.1 ≠ .eof ∧ kinds.2 ≠ .eof := by
  unfold comparison? at h
  split at h <;> cases h <;> decide

theorem lookup_reservedWords_ne_eof (word : String) : (reservedWords.lookup word).getD .identifier ≠ .eof := by
  rw [← ofWord?_eq_lookup]
  unfold TokenKind.ofWord?
  split <;> decide

/-- No segment gives an end of file. -/
theorem Segment.Before.kind?_ne_eof {s : Segment} {rest : List Char} (h : s.Before rest) : s.kind? ≠ some .eof := by
  cases h with
  | punctuation h => simpa [Segment.kind?] using kind_punctuation_ne_eof h
  | extended h => simpa [Segment.kind?] using (kinds_comparison_ne_eof h).1
  | alone h => simpa [Segment.kind?] using (kinds_comparison_ne_eof h).2
  | word => simpa [Segment.kind?] using lookup_reservedWords_ne_eof _
  | _ => simp [Segment.kind?]

/-- Each segment of a row has its place in it. -/
theorem Splits.exists_before {ss : List Segment} {cs : List Char} (h : Splits ss cs) {s : Segment} (hs : s ∈ ss) :
    ∃ rest, s.Before rest := by
  induction h with
  | nil => cases hs
  | @cons s' ss rest hb _ ih =>
    rcases List.mem_cons.1 hs with rfl | hs
    · exact ⟨rest, hb⟩
    · exact ih hs

theorem map_tokens (p : Spot) (ss : List Segment) : (tokens p ss).map (fun t => (t.kind, t.lexeme, t.literal)) =
    ss.filterMap fun s => s.kind?.map fun kind => (kind, s.lexeme, s.literal) := by
  induction ss generalizing p with
  | nil => rfl
  | cons s ss ih =>
    rw [tokens, List.map_append, ih, List.filterMap_cons, Segment.token?]
    cases s.kind? <;> rfl

theorem map_diagnostics (p : Spot) (ss : List Segment) :
    (diagnostics p ss).map (·.message) = ss.filterMap (·.problem?) := by
  induction ss generalizing p with
  | nil => rfl
  | cons s ss ih =>
    rw [diagnostics, List.map_append, ih, List.filterMap_cons, Segment.diagnostic?]
    cases s.problem? <;> rfl

theorem mem_tokens {p : Spot} {ss : List Segment} {t : Token} (h : t ∈ tokens p ss) :
    ∃ s ∈ ss, s.kind? = some t.kind := by
  have hm := List.mem_map_of_mem (f := fun t : Token => (t.kind, t.lexeme, t.literal)) h
  rw [map_tokens] at hm
  obtain ⟨s, hs, hk⟩ := List.mem_filterMap.1 hm
  obtain ⟨kind, hkind, he⟩ := Option.map_eq_some_iff.1 hk
  exact ⟨s, hs, hkind.trans (congrArg some (Prod.mk.inj he).1)⟩

/-- No segment gives an end of file. -/
theorem kind_ne_eof {p : Spot} {ss : List Segment} {cs : List Char} (h : Splits ss cs) :
    ∀ t ∈ tokens p ss, t.kind ≠ .eof := by
  intro t ht he
  obtain ⟨s, hm, hk⟩ := mem_tokens ht
  obtain ⟨rest, hb⟩ := h.exists_before hm
  exact hb.kind?_ne_eof (he ▸ hk)

end Lexical

theorem scan_lexicalGrammar (source : String) :
    ∃ ss, Splits ss source.toList ∧ (∀ ss', Splits ss' source.toList → ss' = ss) ∧
      ss.flatMap (·.text) = source.toList ∧ (∀ s ∈ ss, s.text ≠ []) ∧
      scan source = ⟨tokens .start ss ++ [eofToken .start ss], diagnostics .start ss⟩ ∧
      (tokens .start ss).map (fun t => (t.kind, t.lexeme, t.literal)) =
        (ss.filterMap fun s => s.kind?.map fun kind => (kind, s.lexeme, s.literal)) ∧
      (∀ s ∈ ss, ∀ whole fraction, s.form = .number whole fraction →
        Binary64.ofText? s.lexeme = some (.ofDecimal false (.ofNumeral whole fraction))) ∧
      (∀ t ∈ tokens .start ss, t.kind ≠ .eof) ∧ (eofToken .start ss).kind = .eof ∧
      (diagnostics .start ss).map (·.message) = ss.filterMap (·.problem?) := by
  obtain ⟨ss, hs, hunique⟩ := existsUnique_splits source.toList
  refine ⟨ss, hs, hunique, hs.flatMap_text, fun s hm => ?_, scan_eq hs, map_tokens _ _,
    fun s hm whole fraction hf => ?_, kind_ne_eof hs, rfl, map_diagnostics _ _⟩
  · obtain ⟨rest, hb⟩ := hs.exists_before hm
    exact hb.text_ne_nil
  · obtain ⟨rest, hb⟩ := hs.exists_before hm
    obtain ⟨form, text⟩ := s
    obtain rfl : form = .number whole fraction := hf
    exact ofText?_number hb

end LoxSyntax
