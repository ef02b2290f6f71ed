/-
  LoxSyntax.Proofs.Grammar.NearestElse — every word of the grammar has a derivation in
  which each `else` belongs to the nearest `if`.

  An `else` behind an open statement is moved down to the `if` that the statement ends
  with; the word and the marks stay as they are.

  - `Clause.word_nearest`, `Clause.marks_nearest`: moving changes neither.
  - `Clause.nearestElse_nearest`: in the result no `else` can move.
-/

import LoxSyntax.Proofs.Grammar.Clause

namespace LoxSyntax.Grammar

/-- The open statement with an `else` for the `if` that it ends with. -/
def Clause.takeElse {p : Part} : Clause p → Terminal .kwElse → Clause .statement → Clause p
  | .while keyword opening condition closing body, otherwise, elseBranch =>
    .while keyword opening condition closing (body.takeElse otherwise elseBranch)
  | .ifThen keyword opening condition closing thenBranch, otherwise, elseBranch =>
    if thenBranch.isOpen then .ifThen keyword opening condition closing (thenBranch.takeElse otherwise elseBranch)
    else .ifElse keyword opening condition closing thenBranch otherwise elseBranch
  | .ifElse keyword opening condition closing thenBranch otherwise' elseBranch', otherwise, elseBranch =>
    .ifElse keyword opening condition closing thenBranch otherwise' (elseBranch'.takeElse otherwise elseBranch)
  | .for keyword opening initializer condition semicolon increment closing body, otherwise, elseBranch =>
    .for keyword opening initializer condition semicolon increment closing (body.takeElse otherwise elseBranch)
  | .statement s, otherwise, elseBranch => .statement (s.takeElse otherwise elseBranch)
  | d, _, _ => d

/-- Each `else` moved to the nearest `if`. -/
def Clause.nearest {p : Part} : Clause p → Clause p
  | .nil => .nil
  | .cons first others => .cons first.nearest others.nearest
  | .class keyword name superclass opening methods closing =>
    .class keyword name superclass opening methods.nearest closing
  | .fun keyword f => .fun keyword f.nearest
  | .var d => .var d
  | .statement s => .statement s.nearest
  | .function name opening parameters closing bodyOpening body bodyClosing =>
    .function name opening parameters closing bodyOpening body.nearest bodyClosing
  | .noMethods => .noMethods
  | .moreMethods f others => .moreMethods f.nearest others.nearest
  | .expression e semicolon => .expression e semicolon
  | .print keyword e semicolon => .print keyword e semicolon
  | .return keyword e semicolon => .return keyword e semicolon
  | .block opening body closing => .block opening body.nearest closing
  | .while keyword opening condition closing body => .while keyword opening condition closing body.nearest
  | .ifThen keyword opening condition closing thenBranch => .ifThen keyword opening condition closing thenBranch.nearest
  | .ifElse keyword opening condition closing thenBranch otherwise elseBranch =>
    if thenBranch.nearest.isOpen then
      .ifThen keyword opening condition closing (thenBranch.nearest.takeElse otherwise elseBranch.nearest)
    else .ifElse keyword opening condition closing thenBranch.nearest otherwise elseBranch.nearest
  | .for keyword opening initializer condition semicolon increment closing body =>
    .for keyword opening initializer condition semicolon increment closing body.nearest

variable {p : Part} {otherwise : Terminal .kwElse} {elseBranch : Clause .statement}

theorem Clause.word_takeElse {d : Clause p} (h : d.isOpen = true) :
    (d.takeElse otherwise elseBranch).word = d.word ++ otherwise.1 :: elseBranch.word := by
  induction d with
  | statement s ih => exact ih h
  | ifThen keyword opening condition closing thenBranch ih =>
    simp only [takeElse]
    split
    next ho => simp [word, ih ho]
    next => simp [word]
  | «while» _ _ _ _ _ ih | ifElse _ _ _ _ _ _ _ _ ih | «for» _ _ _ _ _ _ _ _ ih => simp [takeElse, word, ih h]
  | _ => cases h

theorem Clause.marks_takeElse {d : Clause p} (h : d.isOpen = true) :
    (d.takeElse otherwise elseBranch).marks = d.marks ++ elseBranch.marks := by
  induction d with
  | statement s ih => exact ih h
  | ifThen keyword opening condition closing thenBranch ih =>
    simp only [takeElse]
    split
    next ho => simp [marks, ih ho]
    next => simp [marks]
  | «while» _ _ _ _ _ ih | ifElse _ _ _ _ _ _ _ _ ih | «for» _ _ _ _ _ _ _ _ ih => simp [takeElse, marks, ih h]
  | _ => cases h

theorem Clause.nearestElse_takeElse (he : elseBranch.NearestElse) {d : Clause p} (h : d.isOpen = true)
    (hd : d.NearestElse) : (d.takeElse otherwise elseBranch).NearestElse := by
  induction d with
  | statement s ih => exact ih h hd
  | ifThen keyword opening condition closing thenBranch ih =>
    simp only [takeElse]
    split
    next ho => exact ih ho hd
    next ho => exact ⟨by simpa using ho, hd, he⟩
  | «while» _ _ _ _ _ ih | «for» _ _ _ _ _ _ _ _ ih => exact ih h hd
  | ifElse _ _ _ _ _ _ _ _ ih => exact ⟨hd.1, hd.2.1, ih h hd.2.2⟩
  | _ => cases h

theorem Clause.word_nearest (d : Clause p) : d.nearest.word = d.word := by
  induction d with
  | ifElse keyword opening condition closing thenBranch otherwise elseBranch ih1 ih2 =>
    simp only [nearest]
    split
    next ho => simp [word, word_takeElse ho, ih1, ih2]
    next => simp [word, ih1, ih2]
  | _ => simp [nearest, word, *]

theorem Clause.marks_nearest (d : Clause p) : d.nearest.marks = d.marks := by
  induction d with
  | ifElse keyword opening condition closing thenBranch otherwise elseBranch ih1 ih2 =>
    simp only [nearest]
    split
    next ho => simp [marks, marks_takeElse ho, ih1, ih2]
    next => simp [marks, ih1, ih2]
  | _ => simp [nearest, marks, *]

theorem Clause.documented_nearest {d : Clause p} (h : d.Documented) : d.nearest.Documented := by
  rw [documented_iff, marks_nearest]
  exact d.documented_iff.1 h

theorem Clause.nearestElse_nearest (d : Clause p) : d.nearest.NearestElse := by
  induction d with
  | ifElse keyword opening condition closing thenBranch otherwise elseBranch ih1 ih2 =>
    simp only [nearest]
    split
    next ho => exact nearestElse_takeElse ih2 ho ih1
    next ho => exact ⟨by simpa using ho, ih1, ih2⟩
  | _ => simp [nearest, NearestElse, *]

end LoxSyntax.Grammar
