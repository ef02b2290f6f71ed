/-
  LoxSyntax.Stack — how deep a run goes into what is nested.

  Reading a text, printing its trees and writing them as data go into what is nested one
  call inside another, so the stack of the machine bounds how deep they go. How many
  levels that are depends on the machine, on where the run is called from and on what is
  nested: a parenthesis costs more of a stack than a sign. So the levels are a parameter,
  for each text and for each list of trees. Of a machine this much is known: a level costs
  one frame of its stack at least, so the levels are no more than its frames (`Within`).

  A chain of operators is read level by level, without going deeper; its tree is as high
  as the chain is long. A text may be read, then, whose tree is not printed.
-/

import LoxSyntax.Node

namespace LoxSyntax

structure Stack where
  /-- The levels of nesting that are followed when these tokens are parsed. -/
  parsing : List Token → Nat
  /-- The levels that printing these trees goes down. -/
  printing : List Stmt → Nat
  /-- The levels that writing these trees as data goes down. -/
  writing : List Stmt → Nat
  /-- What is shown of how far the parsing of an entry came before it was given up. -/
  trace : String → String

/-- How high the highest of the trees is. -/
def height (statements : List Stmt) : Nat := Node.heightAll (stmtNodes statements)

namespace Stack

/-- The trees can be printed. -/
def prints (k : Stack) (statements : List Stmt) : Bool := height statements ≤ k.printing statements

/-- The trees can be written as data. -/
def writes (k : Stack) (statements : List Stmt) : Bool := height statements ≤ k.writing statements

/-- A stack of so many frames: each level that is followed takes one at least. -/
structure Within (k : Stack) (frames : Nat) : Prop where
  parsing : ∀ ts, k.parsing ts ≤ frames
  printing : ∀ statements, k.printing statements ≤ frames
  writing : ∀ statements, k.writing statements ≤ frames

/-- A stack that holds whatever is nested. -/
def ample : Stack := ⟨fun ts => ts.length + 1, height, height, fun _ => ""⟩

/-- The same number of levels for every text and every tree. -/
def uniform (levels : Nat) : Stack := ⟨fun _ => levels, fun _ => levels, fun _ => levels, fun _ => ""⟩

theorem within_uniform (levels : Nat) : (uniform levels).Within levels :=
  ⟨fun _ => Nat.le_refl _, fun _ => Nat.le_refl _, fun _ => Nat.le_refl _⟩

end Stack

end LoxSyntax
