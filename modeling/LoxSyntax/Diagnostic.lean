/-
  LoxSyntax.Diagnostic — reported problems, and the reporter that collects them.

  A lexical problem is known by its line only; a syntactic one names the token it blames,
  or the end of the program. A reporter keeps the problems since its last reset, and an
  echo of all those that were reported while its echo was on: each one's text and a line
  end. Switching the echo and resetting the list leave what was echoed as it is.

  - `diagnostics_report` / `echoed_report`: what one report adds.
  - `reportAll_eq_foldl`: reporting a list is reporting its members one by one.
  - `reportAll_reportAll`: two lists one behind the other are reported as one.
-/

import LoxSyntax.Token

namespace LoxSyntax

structure Diagnostic where
  kind : String
  line : Int
  /-- What stands between "Error" and the colon: the place in the text of the line. -/
  place : String
  message : String
  deriving DecidableEq, Repr

namespace Diagnostic

def text (d : Diagnostic) : String :=
  "[line " ++ toString d.line ++ "] Error" ++ d.place ++ ": " ++ d.message

def lexical (line : Int) (message : String) : Diagnostic := ⟨"lexical", line, "", message⟩

def placeOf (t : Token) : String := if t.isEof then " at end" else " at '" ++ t.lexeme ++ "'"

def syntactic (t : Token) (message : String) : Diagnostic := ⟨"syntax", t.line, placeOf t, message⟩

end Diagnostic

structure Reporter where
  echo : Bool
  diagnostics : List Diagnostic
  echoed : String
  deriving DecidableEq, Repr

namespace Reporter

def new (echo : Bool) : Reporter := ⟨echo, [], ""⟩

def echoLine (d : Diagnostic) : String := d.text ++ "\n"

def report (r : Reporter) (d : Diagnostic) : Reporter :=
  { r with diagnostics := r.diagnostics ++ [d]
           echoed := if r.echo then r.echoed ++ echoLine d else r.echoed }

def reportAll (r : Reporter) (ds : List Diagnostic) : Reporter :=
  { r with diagnostics := r.diagnostics ++ ds
           echoed := if r.echo then r.echoed ++ String.join (ds.map echoLine) else r.echoed }

def errorLine (r : Reporter) (line : Int) (message : String) : Reporter :=
  r.report (.lexical line message)

def errorToken (r : Reporter) (t : Token) (message : String) : Reporter :=
  r.report (.syntactic t message)

def reset (r : Reporter) : Reporter := { r with diagnostics := [] }

def setEcho (r : Reporter) (on : Bool) : Reporter := { r with echo := on }

def count (r : Reporter) : Nat := r.diagnostics.length

def hadError (r : Reporter) : Bool := !r.diagnostics.isEmpty

/-! ## What a report adds -/

@[simp] theorem diagnostics_report (r : Reporter) (d : Diagnostic) :
    (r.report d).diagnostics = r.diagnostics ++ [d] := rfl

@[simp] theorem echoed_report (r : Reporter) (d : Diagnostic) :
    (r.report d).echoed = if r.echo then r.echoed ++ echoLine d else r.echoed := rfl

@[simp] theorem echo_report (r : Reporter) (d : Diagnostic) : (r.report d).echo = r.echo := rfl

theorem reportAll_cons (r : Reporter) (d : Diagnostic) (ds : List Diagnostic) :
    r.reportAll (d :: ds) = (r.report d).reportAll ds := by
  cases h : r.echo <;> simp [reportAll, report, h, String.append_assoc]

theorem reportAll_eq_foldl (r : Reporter) (ds : List Diagnostic) : r.reportAll ds = ds.foldl report r := by
  induction ds generalizing r with
  | nil =>
    obtain ⟨echo, ds, echoed⟩ := r
    cases echo <;> simp [reportAll]
  | cons d ds ih => rw [reportAll_cons, ih, List.foldl_cons]

@[simp] theorem diagnostics_reportAll (r : Reporter) (ds : List Diagnostic) :
    (r.reportAll ds).diagnostics = r.diagnostics ++ ds := rfl

@[simp] theorem echo_reportAll (r : Reporter) (ds : List Diagnostic) : (r.reportAll ds).echo = r.echo := rfl

theorem echoed_reportAll_of_quiet {r : Reporter} (h : r.echo = false) (ds : List Diagnostic) :
    (r.reportAll ds).echoed = r.echoed := by
  simp [reportAll, h]

@[simp] theorem reportAll_nil (r : Reporter) : r.reportAll [] = r := reportAll_eq_foldl r []

@[simp] theorem reportAll_reportAll (r : Reporter) (ds ds' : List Diagnostic) :
    (r.reportAll ds).reportAll ds' = r.reportAll (ds ++ ds') := by
  rw [reportAll_eq_foldl, reportAll_eq_foldl, reportAll_eq_foldl, List.foldl_append]

@[simp] theorem diagnostics_reset (r : Reporter) : r.reset.diagnostics = [] := rfl

@[simp] theorem echo_reset (r : Reporter) : r.reset.echo = r.echo := rfl

@[simp] theorem echoed_reset (r : Reporter) : r.reset.echoed = r.echoed := rfl

end Reporter

end LoxSyntax
