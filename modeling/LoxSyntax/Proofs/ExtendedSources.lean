/-
  LoxSyntax.Proofs.ExtendedSources — what is scanned stays when more is written behind it.

  Where a segment ends is told by the next character, so characters behind the end of a
  source can change only the segment that reaches the end. There is one exception: a number
  looks at two characters, since a point behind it is taken only with a digit. So a number
  and a point at the end may be read as one number when a digit follows.

  - `Segment.Before.append_or`: what a segment may be in front of, with more behind it.
  - `Splits.exists_kept`: the segments that stay, and the loose ones behind them.
  - `scan_append`: the tokens and the problems that stay.
-/

import LoxSyntax.Proofs.ScannedLines

namespace LoxSyntax

/-- The problem of a character that starts nothing. -/
def Diagnostic.isUnexpected (d : Diagnostic) : Bool := d.message == "Unexpected character."

/-- The last two tokens are a number and a point directly behind it. A number stands on one
    line, so that is where its column and its length say. -/
def EndsInPoint (us : List Token) : Prop :=
  ∃ (before : List Token) (number point : Token), us = before ++ [number, point] ∧ number.kind = .number ∧
    point.kind = .dot ∧ point.line = number.line ∧ point.column = number.column + number.lexeme.length

namespace Lexical

/-- Segments at the end of a source that may be read otherwise when more follows. -/
inductive Loose : List Segment → Prop where
  | none : Loose []
  | last {s : Segment} (h : s.form ≠ .other) : Loose [s]
  | point {ds : List Char} (hd : ∀ c ∈ ds, isDigit c = true) :
      Loose [⟨.number ds [], ds⟩, ⟨.operator .dot, ['.']⟩]

/-! ## In front of more characters -/

variable {rest : List Char}

theorem Stops.append {p : Char → Bool} (h : Stops p rest) (hr : rest ≠ []) (more : List Char) :
    Stops p (rest ++ more) := by
  intro c hc
  rw [List.head?_append_of_ne_nil _ hr] at hc
  exact h c hc

theorem PointDigit.of_append {more : List Char} (hr : rest ≠ []) (hp : rest ≠ ['.'])
    (h : PointDigit (rest ++ more)) : PointDigit rest := by
  obtain ⟨hpoint, hdigit⟩ := h
  rw [List.head?_append_of_ne_nil _ hr] at hpoint
  obtain ⟨rest, rfl⟩ := List.head?_eq_some_iff.1 hpoint
  have hne : rest ≠ [] := fun h => hp (by rw [h])
  refine ⟨rfl, ?_⟩
  rw [List.cons_append, List.tail_cons, List.head?_append_of_ne_nil _ hne] at hdigit
  exact hdigit

/-- With more behind it a segment stays what it is, unless it reaches the end or is a number
    in front of a last point. -/
theorem Segment.Before.append_or {s : Segment} (h : s.Before rest) (more : List Char) :
    s.Before (rest ++ more) ∨ rest = [] ∧ s.form ≠ .other ∨
      rest = ['.'] ∧ ∃ ds, s = ⟨.number ds [], ds⟩ ∧ ∀ c ∈ ds, isDigit c = true := by
  by_cases hr : rest = []
  · cases h with
    | other h => exact .inl (.other h)
    | _ => exact .inr (.inl ⟨hr, by simp⟩)
  · have hhead : (rest ++ more).head? = rest.head? := List.head?_append_of_ne_nil _ hr
    cases h with
    | blank h => exact .inl (.blank h)
    | comment ht hs => exact .inl (.comment ht (hs.append hr more))
    | punctuation h => exact .inl (.punctuation h)
    | extended h => exact .inl (.extended h)
    | alone h hn => exact .inl (.alone h (hhead ▸ hn))
    | slash hn => exact .inl (.slash (hhead ▸ hn))
    | string hv => exact .inl (.string hv)
    | unclosed => exact absurd rfl hr
    | whole hd hs hp =>
      by_cases hpoint : rest = ['.']
      · exact .inr (.inr ⟨hpoint, _, rfl, hd⟩)
      · exact .inl (.whole hd (hs.append hr more) fun h => hp (h.of_append hr hpoint))
    | fraction hd hf hs => exact .inl (.fraction hd hf (hs.append hr more))
    | word hc hcs hs => exact .inl (.word hc hcs (hs.append hr more))
    | other h => exact .inl (.other h)

/-- The segments of a source stay when more is written behind it, but for the loose ones. -/
theorem Splits.exists_kept {ss : List Segment} {cs : List Char} (h : Splits ss cs) (more : List Char) :
    ∃ kept loose ss', ss = kept ++ loose ∧ Loose loose ∧ Splits (kept ++ ss') (cs ++ more) := by
  induction h with
  | nil =>
    obtain ⟨ss', hs'⟩ := exists_splits _ (Nat.le_refl more.length)
    exact ⟨[], [], ss', rfl, .none, hs'⟩
  | @cons s ss rest hb hs ih =>
    obtain ⟨ss', hs'⟩ := exists_splits _ (Nat.le_refl (s.text ++ rest ++ more).length)
    rcases hb.append_or more with hkept | ⟨rfl, hform⟩ | ⟨rfl, ds, rfl, hd⟩
    · obtain ⟨kept, loose, ss', rfl, hl, hlong⟩ := ih
      refine ⟨s :: kept, loose, ss', rfl, hl, ?_⟩
      rw [List.append_assoc]
      exact .cons hkept hlong
    · obtain rfl := hs.unique .nil
      exact ⟨[], [s], ss', rfl, .last hform, hs'⟩
    · obtain rfl := hs.unique (.cons (s := ⟨.operator .dot, ['.']⟩) (.punctuation rfl) .nil)
      exact ⟨[], _, ss', rfl, .point hd, hs'⟩

/-! ## What the loose segments give -/

theorem Spot.pastAll_digits {ds : List Char} (h : ∀ c ∈ ds, isDigit c = true) :
    ∀ p : Spot, p.pastAll ds = ⟨p.line, p.column + ds.length⟩ := by
  induction ds with
  | nil => exact fun p => by simp [pastAll]
  | cons d ds ih =>
    obtain ⟨hd, h⟩ := List.forall_mem_cons.1 h
    have hn : d ≠ '\n' := by
      rintro rfl
      cases hd
    intro p
    show (p.past d).pastAll ds = _
    rw [ih h, past, if_neg hn, List.length_cons, mk.injEq]
    exact ⟨rfl, by simp; omega⟩

/-- Loose segments give one token at most, or a number and a point. -/
theorem Loose.tokens {ss : List Segment} (h : Loose ss) (p : Spot) :
    (along Segment.token? p ss).length ≤ 1 ∨
      (along Segment.token? p ss).length = 2 ∧ EndsInPoint (along Segment.token? p ss) := by
  cases h with
  | none => exact .inl (Nat.zero_le 1)
  | @last s _ =>
    refine .inl ?_
    rw [along, along, List.append_nil]
    cases s.token? p <;> simp
  | @point ds hd =>
    refine .inr ⟨rfl, [], _, _, rfl, rfl, rfl, ?_, ?_⟩
    · rfl
    · show (p.pastAll ds).column = p.column + (String.ofList ds).length
      rw [Spot.pastAll_digits hd, String.length_ofList]

/-- A character that starts nothing is never loose. -/
theorem Loose.diagnostics {ss : List Segment} (h : Loose ss) (p : Spot) :
    (along Segment.diagnostic? p ss).filter Diagnostic.isUnexpected = [] := by
  cases h with
  | none => rfl
  | @last s hs =>
    rw [along, along, List.append_nil, Segment.diagnostic?, Segment.problem?]
    cases hf : s.form with
    | other => exact absurd hf hs
    | _ => simp [Diagnostic.isUnexpected, Diagnostic.lexical]
  | point => rfl

end Lexical

open Lexical

theorem EndsInPoint.append {us : List Token} (h : EndsInPoint us) (before : List Token) :
    EndsInPoint (before ++ us) := by
  obtain ⟨more, number, point, rfl, h⟩ := h
  exact ⟨before ++ more, number, point, (List.append_assoc ..).symm, h⟩

/-- Without what stands behind it, and some more. -/
theorem take_append_prefix {α : Type} {kept loose : List α} {n : Nat} (h : loose.length ≤ n) (more : List α) :
    (kept ++ loose).take ((kept ++ loose).length - n) <+: kept ++ more := by
  rw [List.take_append_of_le_length (by rw [List.length_append]; omega)]
  exact (List.take_prefix _ _).trans (List.prefix_append _ _)

/-- Whatever is written behind a source, its tokens stay where they are, each as it is, but
    for the last two and the end of file. But for the last one they stay unless they end in
    a point directly behind a number. The characters that start nothing stay reported. -/
theorem scan_append (a b : String) : ∃ us eof, (scan a).tokens = us ++ [eof] ∧ eof.kind = .eof ∧
    us.take (us.length - 2) <+: (scan (a ++ b)).tokens ∧
    (¬EndsInPoint us → us.take (us.length - 1) <+: (scan (a ++ b)).tokens) ∧
    (scan a).diagnostics.filter Diagnostic.isUnexpected <+:
      (scan (a ++ b)).diagnostics.filter Diagnostic.isUnexpected := by
  obtain ⟨ss, hs⟩ := exists_splits _ (Nat.le_refl a.toList.length)
  obtain ⟨kept, loose, ss', rfl, hloose, hlong⟩ := hs.exists_kept b.toList
  rw [← String.toList_append] at hlong
  rw [scan_eq hs, scan_eq hlong]
  simp only [tokens_eq_along, diagnostics_eq_along, along_append]
  refine ⟨_, _, rfl, rfl, ?_, ?_, ?_⟩
  · rw [List.append_assoc]
    refine take_append_prefix ?_ _
    rcases hloose.tokens (Spot.start.pastAll (kept.flatMap (·.text))) with h | ⟨h, -⟩ <;> omega
  · intro hpoint
    rw [List.append_assoc]
    refine take_append_prefix ?_ _
    rcases hloose.tokens (Spot.start.pastAll (kept.flatMap (·.text))) with h | ⟨-, h⟩
    · exact h
    · exact absurd (h.append _) hpoint
  · rw [List.filter_append, hloose.diagnostics, List.append_nil, List.filter_append]
    exact List.prefix_append _ _

/-- A digit makes one number of a number and a point. -/
example : (scan "1.").tokens.length = 3 ∧ (scan ("1." ++ "5")).tokens.length = 2 := by decide +kernel

end LoxSyntax
