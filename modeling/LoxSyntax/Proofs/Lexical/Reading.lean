/-
  LoxSyntax.Proofs.Lexical.Reading — a cursor inside its source.

  The cursor stands between the characters that were read and those that are left. Then
  looking ahead gives the first of them, reading moves past it, and skipping moves past
  the longest run; none of it fails as long as something is left.

  - `Between.skipWhile`: skipping stops exactly behind the run.
  - `slice_eq`: the slice between two places is the text between them.
-/

import LoxSyntax.Proofs.Lexical.Listing

namespace LoxSyntax

open Lexical

namespace Cursor

def spot (c : Cursor) : Spot := ⟨c.line, c.column⟩

def pastAll (c : Cursor) (cs : List Char) : Cursor := cs.foldl past c

@[simp] theorem pastAll_nil (c : Cursor) : c.pastAll [] = c := rfl

@[simp] theorem pastAll_cons (c : Cursor) (ch : Char) (cs : List Char) :
    c.pastAll (ch :: cs) = (c.past ch).pastAll cs := rfl

theorem pastAll_append (c : Cursor) (cs ds : List Char) : c.pastAll (cs ++ ds) = (c.pastAll cs).pastAll ds :=
  List.foldl_append

@[simp] theorem source_past (c : Cursor) (ch : Char) : (c.past ch).source = c.source := by
  rw [past]
  split <;> rfl

@[simp] theorem position_past (c : Cursor) (ch : Char) : (c.past ch).position = c.position + 1 := by
  rw [past]
  split <;> rfl

theorem spot_past (c : Cursor) (ch : Char) : (c.past ch).spot = c.spot.past ch := by
  rw [past, Spot.past]
  split <;> rfl

theorem spot_pastAll (c : Cursor) (cs : List Char) : (c.pastAll cs).spot = c.spot.pastAll cs := by
  induction cs generalizing c with
  | nil => rfl
  | cons ch cs ih =>
    rw [pastAll_cons, ih, spot_past]
    rfl

theorem line_pastAll (c : Cursor) (cs : List Char) : (c.pastAll cs).line = (c.spot.pastAll cs).line := by
  rw [← spot_pastAll]
  rfl

theorem column_pastAll (c : Cursor) (cs : List Char) : (c.pastAll cs).column = (c.spot.pastAll cs).column := by
  rw [← spot_pastAll]
  rfl

@[simp] theorem source_pastAll (c : Cursor) (cs : List Char) : (c.pastAll cs).source = c.source := by
  induction cs generalizing c with
  | nil => rfl
  | cons ch cs ih => rw [pastAll_cons, ih, source_past]

@[simp] theorem position_pastAll (c : Cursor) (cs : List Char) : (c.pastAll cs).position = c.position + cs.length := by
  induction cs generalizing c with
  | nil => simp
  | cons ch cs ih =>
    rw [pastAll_cons, ih, position_past, List.length_cons]
    omega

/-- What stands between two places of the source. -/
theorem slice_eq {c : Cursor} (before : List Char) {text : List Char} (rest : List Char)
    (h : c.source.toList = before ++ (text ++ rest)) {first last : Int} (hf : first = before.length)
    (hl : last = before.length + text.length) : c.slice first last = text := by
  have hlen : last.toNat - first.toNat = text.length := by omega
  have hfirst : first.toNat = before.length := by omega
  rw [slice, Array.toList_extract, List.extract_eq_take_drop, hlen, hfirst, h, List.drop_left, List.take_left]

/-- The cursor stands between what was read and what is left. -/
structure Between (c : Cursor) (before rest : List Char) : Prop where
  source : c.source.toList = before ++ rest
  position : c.position = before.length

theorem between_ofSource (source : String) : (ofSource source).Between [] source.toList := ⟨rfl, rfl⟩

namespace Between

variable {c : Cursor} {ch : Char} {before text rest : List Char} {p : Char → Bool} {expected : String}

theorem size (h : c.Between before rest) : c.source.size = before.length + rest.length := by
  rw [← Array.length_toList, h.source, List.length_append]

theorem getElem? (h : c.Between before rest) (n : Nat) : c.source[before.length + n]? = rest[n]? := by
  rw [← Array.getElem?_toList, h.source, List.getElem?_append_right (Nat.le_add_right _ _), Nat.add_sub_cancel_left]

theorem peek (h : c.Between before rest) (n : Nat) : c.peek n = rest[n]? := by
  have hpos : ¬c.position + n < 0 := by rw [h.position]; omega
  have hnat : (c.position + n).toNat = before.length + n := by rw [h.position]; omega
  rw [Cursor.peek, charAt?, if_neg hpos, hnat, h.getElem?]

theorem peek_zero (h : c.Between before rest) : c.peek 0 = rest.head? := by
  rw [List.head?_eq_getElem?]
  exact h.peek 0

theorem peek_one (h : c.Between before rest) : c.peek 1 = rest.tail.head? := by
  rw [List.head?_eq_getElem?, List.getElem?_tail]
  exact h.peek 1

theorem atEnd (h : c.Between before rest) : c.atEnd = rest.isEmpty := by
  rw [Bool.eq_iff_iff, Cursor.atEnd, decide_eq_true_iff, h.size, h.position, List.isEmpty_iff_length_eq_zero]
  omega

theorem remaining (h : c.Between before rest) : c.remaining = rest.length := by
  rw [Cursor.remaining, h.size, h.position]
  omega

/-! ## Looking ahead -/

theorem any_ahead_of_stops (h : c.Between before rest) (hr : Stops p rest) : (c.peek 0).any p = false := by
  rw [h.peek_zero]
  cases rest with
  | nil => rfl
  | cons r rest => exact hr r rfl

theorem any_ahead (h : c.Between before (ch :: rest)) (hch : p ch = true) : (c.peek 0).any p = true := by
  rw [h.peek_zero]
  exact hch

theorem expected_ahead (h : c.Between before (ch :: rest)) (he : expected.toList = [ch]) :
    (c.peek 0).toList = expected.toList := by
  rw [h.peek_zero, he]
  rfl

theorem not_expected_ahead (h : c.Between before rest) (he : expected.toList = [ch]) (hr : rest.head? ≠ some ch) :
    (c.peek 0).toList ≠ expected.toList := by
  rw [h.peek_zero, he]
  cases rest with
  | nil => simp
  | cons r rest => simpa using hr

theorem point_ahead_iff (h : c.Between before rest) :
    (c.peek 0 = some '.' && (c.peek 1).any isDigit) = true ↔ PointDigit rest := by
  rw [h.peek_zero, h.peek_one, PointDigit, Bool.and_eq_true, decide_eq_true_iff]

/-! ## Moving on -/

theorem pastAll (h : c.Between before (text ++ rest)) : (c.pastAll text).Between (before ++ text) rest := by
  constructor
  · rw [source_pastAll, h.source, List.append_assoc]
  · rw [position_pastAll, h.position, List.length_append, Int.natCast_add]

theorem past (h : c.Between before (ch :: rest)) : (c.past ch).Between (before ++ [ch]) rest :=
  have h' : c.Between before ([ch] ++ rest) := h
  h'.pastAll

theorem next (h : c.Between before (ch :: rest)) : c.next = .ok (ch, c.past ch) := by
  refine next_of_nonneg (by rw [h.position]; omega) ?_
  rw [h.position, Int.toNat_natCast]
  exact h.getElem? 0

theorem accept (h : c.Between before (ch :: rest)) (he : expected.toList = [ch]) :
    c.accept expected = .ok (true, c.past ch) := by
  rw [Cursor.accept, if_pos (h.expected_ahead he), h.next]

theorem accept_ne (h : c.Between before rest) (he : expected.toList = [ch]) (hr : rest.head? ≠ some ch) :
    c.accept expected = .ok (false, c) :=
  accept_of_ne (h.not_expected_ahead he hr)

theorem advanceWhile (h : c.Between before (text ++ rest)) (ht : ∀ ch ∈ text, p ch = true) (hr : Stops p rest) {n : Nat}
    (hn : text.length ≤ n) : c.advanceWhile p n = .ok (c.pastAll text) := by
  induction text generalizing c before n with
  | nil =>
    cases n with
    | zero => rfl
    | succ n => rw [Cursor.advanceWhile, h.any_ahead_of_stops hr]; rfl
  | cons ch text ih =>
    obtain ⟨hch, ht⟩ := List.forall_mem_cons.1 ht
    cases n with
    | zero => cases hn
    | succ n =>
      have hnext := h.next
      rw [Cursor.advanceWhile, if_pos (h.any_ahead hch), hnext]
      exact ih h.past ht (Nat.le_of_succ_le_succ hn)

/-- Skipping stops exactly behind the run. -/
theorem skipWhile (h : c.Between before (text ++ rest)) (ht : ∀ ch ∈ text, p ch = true) (hr : Stops p rest) :
    c.skipWhile p = .ok (c.pastAll text) := by
  refine h.advanceWhile ht hr ?_
  rw [h.remaining, List.length_append]
  exact Nat.le_add_right _ _

end Between

end Cursor

end LoxSyntax
