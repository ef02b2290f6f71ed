/-
  LoxSyntax.Proofs.ErrorOrder — problems are reported in the order of the tokens they blame.

  The course of a program leads through all of its tokens, so a place on it is an index,
  and the end of file has the last one. Invalid targets apart, the indices never decrease.
  A token is skipped with each declaration that is abandoned, so no two of the errors that
  abandon one blame the same token, unless it is the end of file. That one is blamed by
  each open block on the way out, and once more.

  - `TokenList.toward`: the course that a program is parsed along.
  - `parseTokens_errorOrder`: the order of the problems, and how many blame the end of file.
-/

import LoxSyntax.Proofs.PanicRecovery
import LoxSyntax.Proofs.Reading.OrderlyReaders

namespace LoxSyntax

open Grammar Parse

/-! ## Indices -/

namespace Report

/-- Which of `n` tokens is blamed; the end of file behind them is number `n`. -/
def index (n : Nat) (r : Report) : Nat := n - r.place.length

variable {r r' : Report} {body : List Token}

theorem getElem?_index (h : r.place <:+ body) (eof : Token) (more : List Token) :
    (body ++ eof :: more)[r.index body.length]? = some (r.blamed eof) := by
  obtain ⟨front, hf⟩ := h
  have hi : r.index body.length = front.length := by
    rw [index, ← hf, List.length_append, Nat.add_sub_cancel]
  rw [hi, ← hf, List.append_assoc, List.getElem?_append_right (Nat.le_refl _), Nat.sub_self, blamed]
  cases r.place <;> rfl

theorem index_eq_length_iff (h : r.place <:+ body) : r.index body.length = body.length ↔ r.place = [] := by
  have := h.length_le
  rw [index, ← List.length_eq_zero_iff]
  omega

/-- The token with the last index is the end of file, and no other. -/
theorem blamed_kind_eq_eof_iff (h : r.place <:+ body) (hbody : ∀ t ∈ body, t.isEof = false) {eof : Token}
    (he : eof.kind = .eof) : (r.blamed eof).kind = .eof ↔ r.index body.length = body.length := by
  rw [index_eq_length_iff h, blamed]
  cases hp : r.place with
  | nil => simpa using he
  | cons t place =>
    rw [hp] at h
    have ht := hbody t (h.subset List.mem_cons_self)
    simpa [Token.isEof] using ht

theorem index_le_index (n : Nat) (h : r'.place <:+ r.place) : r.index n ≤ r'.index n :=
  Nat.sub_le_sub_left h.length_le n

theorem index_lt_index (hr : r.place <:+ body) (h : r'.place <:+ r.place.tail) :
    r.index body.length < r'.index body.length ∨ r'.index body.length = body.length := by
  have := hr.length_le
  have := h.length_le
  rw [List.length_tail] at this
  unfold index
  omega

end Report

/-! ## Programs -/

namespace TokenList

variable {l : TokenList}

/-- The errors that are reported, each with the index of the token that it blames. -/
def indexedErrors (l : TokenList) : List (SyntaxError × Nat) :=
  (l.parseWithin (l.body.length + 1)).reports.map fun r => (r.error, r.index l.body.length)

theorem toward (l : TokenList) : Toward l.body 1 l.body (l.parseWithin (l.body.length + 1)).reports [] := by
  have h := orderly_program (l.body.length + 1) l.body (List.suffix_refl l.body)
  obtain ⟨rs, statements, hq, -⟩ := l.exists_reading
  rw [hq] at h
  rw [parseWithin, hq]
  cases h with
  | value _ h => exact h

theorem places (l : TokenList) : ∀ r ∈ (l.parseWithin (l.body.length + 1)).reports, r.place <:+ l.body :=
  l.toward.course.places (List.suffix_refl l.body)

/-- Each problem is about the token at its index. -/
theorem diagnostics_indexed (hbody : ∀ t ∈ l.body, t.isEof = false) (he : l.eof.kind = .eof) (more : List Token) :
    List.Forall₂ (fun d s => ∃ t, (l.body ++ l.eof :: more)[s.2]? = some t ∧
      (t.kind = .eof ↔ s.2 = l.body.length) ∧ d = .syntactic t s.1.message) l.parse.diagnostics l.indexedErrors := by
  rw [parse, diagnostics, indexedErrors, List.forall₂_map_left_iff, List.forall₂_map_right_iff, List.forall₂_same]
  intro r hr
  have hp := l.places r hr
  exact ⟨r.blamed l.eof, r.getElem?_index hp l.eof more, r.blamed_kind_eq_eof_iff hp hbody he, rfl⟩

theorem indexedErrors_ordered (l : TokenList) : l.indexedErrors.Pairwise fun s s' =>
    (s.1 ≠ .invalidAssignmentTarget → s'.1 ≠ .invalidAssignmentTarget → s.2 ≤ s'.2) ∧
    (s.1.isSoft = false → s'.1.isSoft = false → s.2 < s'.2 ∨ s'.2 = l.body.length) := by
  rw [indexedErrors, List.pairwise_map]
  refine l.toward.course.pairwise.imp_of_mem ?_
  intro r r' hr _ h
  exact ⟨fun hne hne' => Report.index_le_index _ (h.1 hne hne'),
    fun hard hard' => Report.index_lt_index (l.places r hr) (h.2 hard hard')⟩

theorem countP_indexedErrors_le (l : TokenList) :
    l.indexedErrors.countP (fun s => !s.1.isSoft && s.2 == l.body.length) ≤
      1 + l.body.countP (·.kind == .leftBrace) := by
  have hends : l.indexedErrors.countP (fun s => !s.1.isSoft && s.2 == l.body.length) =
      ends (l.parseWithin (l.body.length + 1)).reports := by
    rw [indexedErrors, List.countP_map, ends]
    refine List.countP_congr ?_
    intro r hr
    simp [Report.index_eq_length_iff (l.places r hr)]
  rw [hends]
  exact l.toward.ends_le

end TokenList

/-- The errors that are no invalid targets blame tokens in their order. No token is blamed
    by two errors that abandon a declaration, but for the end of file: that one is blamed
    by no more of them than there are opening braces, and one. -/
theorem parseTokens_errorOrder (ts : List Token) (eof : Terminal .eof) :
    ∃ (l : TokenList) (p : Program), TokenList.ofTokens? (ts ++ [eof.1]) = .ok l ∧
      l.body = (ts ++ [eof.1]).takeWhile (!·.isEof) ∧ parseTokens (ts ++ [eof.1]) = .ok p ∧
      List.Forall₂ (fun d s => ∃ t, (ts ++ [eof.1])[s.2]? = some t ∧ (t.kind = .eof ↔ s.2 = l.body.length) ∧
        d = .syntactic t s.1.message) p.diagnostics l.indexedErrors ∧
      l.indexedErrors.Pairwise (fun s s' => s.1.message ≠ "Invalid assignment target." →
        s'.1.message ≠ "Invalid assignment target." → s.2 ≤ s'.2) ∧
      l.indexedErrors.Pairwise (fun s s' => s.1.isSoft = false → s'.1.isSoft = false →
        s.2 < s'.2 ∨ s'.2 = l.body.length) ∧
      l.indexedErrors.countP (fun s => !s.1.isSoft && s.2 == l.body.length) ≤
        1 + l.body.countP (·.kind == .leftBrace) := by
  obtain ⟨l, more, hl, hts, he⟩ := parseTokens_eof ts eof
  have hindexed := l.diagnostics_indexed (TokenList.body_ofTokens? hl) he more
  rw [← hts] at hindexed
  refine ⟨l, l.parse, hl, TokenList.body_eq_of_ofTokens? hl, parseTokens_of_ofTokens? hl, hindexed, ?_, ?_,
    l.countP_indexedErrors_le⟩
  · refine l.indexedErrors_ordered.imp ?_
    intro s s' h hm hm'
    exact h.1 (fun e => hm (congrArg SyntaxError.message e)) fun e => hm' (congrArg SyntaxError.message e)
  · exact l.indexedErrors_ordered.imp And.right

/-- As many as can be: both blocks are open, and so is the declaration inside. -/
example : (parseTokens [.bare .leftBrace "\x7b", .bare .leftBrace "\x7b", .bare .kwVar "var", .bare .eof ""]).map
    (·.diagnostics) = .ok [.syntactic (.bare .eof "") "Expect variable name.",
      .syntactic (.bare .eof "") "Expect '\x7d' after block.",
      .syntactic (.bare .eof "") "Expect '\x7d' after block."] := rfl

end LoxSyntax
