/-
  LoxSyntax.Proofs.PrintedForm — the printed form determines the program.

  An accepted source is printed as the proper forms of its statements. These are told by
  the text, and the statements are read back from them, without the places of the tokens
  and with infinity read as a name. Nothing of that is printed, so two accepted sources
  print the same text exactly if their statements are the same without it.

  - `shown_of_parseSource`: the forms of an accepted source.
  - `erased_of_printed`: what is printed is known of the statements.
  - `printed_eq_iff_erased`: and nothing else is.
-/

import LoxSyntax.Proofs.Printing.ReadBack

namespace LoxSyntax

open Printing Form

/-- The forms of an accepted source show its statements, without what is not printed. -/
theorem shown_of_parseSource {source : String} (h : (parseSource source).diagnostics = []) :
    ShowStmts (stmtForms (parseSource source).statements) (erasedStmts (parseSource source).statements) := by
  obtain ⟨d, -, -, -, -, hnearest, hdocumented, htree⟩ := derivation_of_parseSource h
  have hshaped := d.shaped hdocumented hnearest
  rw [← htree] at hshaped
  exact hshaped.shown (scanned_of_parseSource h) (spelled_of_parseSource h)

theorem erased_of_printed {a b : String} (ha : (parseSource a).diagnostics = [])
    (hb : (parseSource b).diagnostics = []) (h : (parseSource a).printed = (parseSource b).printed) :
    erasedStmts (parseSource a).statements = erasedStmts (parseSource b).statements := by
  have hshown := shown_of_parseSource ha
  have hshown' := shown_of_parseSource hb
  rw [Program.printed, Program.printed, printProgram_eq, printProgram_eq] at h
  have hforms := lines_injective hshown.proper hshown'.proper (String.ofList_injective h)
  have hread := hshown.reads
  rw [hforms, hshown'.reads] at hread
  exact (List.map_injective_iff.2 (Option.some_injective _) hread).symm

/-- Two accepted sources print the same text exactly if their statements are the same
    without the places of their tokens, and with infinity read as the name that it is printed as. -/
theorem printed_eq_iff_erased {a b : String} (ha : (parseSource a).diagnostics = [])
    (hb : (parseSource b).diagnostics = []) : (parseSource a).printed = (parseSource b).printed ↔
      erasedStmts (parseSource a).statements = erasedStmts (parseSource b).statements := by
  refine ⟨erased_of_printed ha hb, fun h => ?_⟩
  have hforms := congrArg stmtForms h
  rw [stmtForms_erased, stmtForms_erased] at hforms
  rw [Program.printed, Program.printed, printProgram_eq, printProgram_eq, hforms]

theorem printed_eq_iff_erased_moved :
    (parseSource "print a;").diagnostics = [] ∧ (parseSource "print\n  a ;").diagnostics = [] ∧
      (parseSource "print a;").printed = (parseSource "print\n  a ;").printed ∧
      erasedStmts (parseSource "print a;").statements = erasedStmts (parseSource "print\n  a ;").statements :=
  have ha : (parseSource "print a;").diagnostics = [] := by decide +kernel
  have hb : (parseSource "print\n  a ;").diagnostics = [] := by decide +kernel
  have hp : (parseSource "print a;").printed = (parseSource "print\n  a ;").printed := by decide +kernel
  ⟨ha, hb, hp, (printed_eq_iff_erased ha hb).1 hp⟩

end LoxSyntax
