/-
  LoxSyntax.Proofs.SharedReporter — one reporter, and the results that were handed out on the way.

  A reporter keeps one list, which grows with each report and which a reset empties in
  place; whoever holds that list sees both. The problems of a parsed source are handed out
  in a list of their own, a copy of what was added, so no report and no reset comes near
  them again. Here each list has a place: the reporter writes to its own place only, and a
  result points to a place that was new when it was handed out.

  - `Memory.view_perform`: by what is in its place, the reporter is the one without places.
  - `Memory.lists_perform`: an operation changes no place but the reporter's.
  - `Memory.read_performAll`: what was handed out, read after all that follows.
  - `shared_reporter`: what one reporter records, echoes and gives.
-/

import LoxSyntax.Proofs.Reporting.Operations

namespace LoxSyntax.Reporter

/-- A reporter whose list has a place among others. -/
structure Memory where
  lists : List (List Diagnostic)
  /-- The place of the reporter's list. -/
  own : Nat
  echo : Bool
  echoed : String
  own_lt : own < lists.length

/-- What is handed out: the problems of a program are in a place. -/
inductive Handed where
  | nothing
  | tokens (ts : List Token)
  | program (statements : List Stmt) (place : Nat)

/-- What is handed out, by what is in the places. -/
def Handed.read (lists : List (List Diagnostic)) : Handed → Answer
  | .nothing => .nothing
  | .tokens ts => .tokens ts
  | .program statements place => .program ⟨statements, lists[place]?.getD []⟩

namespace Memory

def new (echo : Bool) : Memory := ⟨[[]], 0, echo, "", Nat.one_pos⟩

/-- The reporter, with what is in its place. -/
def view (m : Memory) : Reporter := ⟨m.echo, m.lists[m.own]?.getD [], m.echoed⟩

/-- The reporter's list is changed in place. -/
def put (m : Memory) (r : Reporter) : Memory :=
  ⟨m.lists.set m.own r.diagnostics, m.own, r.echo, r.echoed, by rw [List.length_set]; exact m.own_lt⟩

/-- A list in a new place. -/
def add (m : Memory) (ds : List Diagnostic) : Memory :=
  ⟨m.lists ++ [ds], m.own, m.echo, m.echoed, by rw [List.length_append]; exact Nat.lt_add_right _ m.own_lt⟩

def hand (m : Memory) : Answer → Handed × Memory
  | .nothing => (.nothing, m)
  | .tokens ts => (.tokens ts, m)
  | .program p => (.program p.statements m.lists.length, m.add p.diagnostics)

def perform (m : Memory) (op : Operation) : Handed × Memory :=
  let (answer, r) := m.view.perform op
  (m.put r).hand answer

def performAll (m : Memory) : List Operation → List Handed × Memory
  | [] => ([], m)
  | op :: ops =>
    let (handed, m) := m.perform op
    let (rest, m) := m.performAll ops
    (handed :: rest, m)

variable (m : Memory)

/-! ## One operation -/

@[simp] theorem view_put (r : Reporter) : (m.put r).view = r := by
  obtain ⟨echo, ds, echoed⟩ := r
  simp [view, put, m.own_lt]

@[simp] theorem own_hand (answer : Answer) : (m.hand answer).2.own = m.own := by cases answer <;> rfl

/-- Handing out leaves all places as they are. -/
theorem lists_hand (answer : Answer) {place : Nat} (h : place < m.lists.length) :
    (m.hand answer).2.lists[place]? = m.lists[place]? := by
  cases answer with
  | program p => exact List.getElem?_append_left h
  | _ => rfl

theorem length_hand (answer : Answer) : m.lists.length ≤ (m.hand answer).2.lists.length := by
  cases answer with
  | program p => simp [hand, add]
  | _ => exact Nat.le_refl _

@[simp] theorem view_hand (answer : Answer) : (m.hand answer).2.view = m.view := by
  have hlist := m.lists_hand answer m.own_lt
  cases answer with
  | program p => rw [view, view, own_hand, hlist]; rfl
  | _ => rfl

/-- By what is in its place, the reporter is the one without places. -/
theorem view_perform (op : Operation) : (m.perform op).2.view = (m.view.perform op).2 := by
  simp [perform]

theorem own_perform (op : Operation) : (m.perform op).2.own = m.own := by
  simp [perform, put]

theorem length_perform (op : Operation) : m.lists.length ≤ (m.perform op).2.lists.length := by
  refine Nat.le_trans (Nat.le_of_eq ?_) (length_hand _ _)
  exact List.length_set.symm

/-- An operation changes no place but the reporter's. -/
theorem lists_perform (op : Operation) {place : Nat} (hlt : place < m.lists.length) (hne : place ≠ m.own) :
    (m.perform op).2.lists[place]? = m.lists[place]? := by
  have hput : (m.put (m.view.perform op).2).lists[place]? = m.lists[place]? := List.getElem?_set_ne hne.symm
  rw [← hput]
  exact lists_hand _ _ (by simpa [put] using hlt)

/-! ## Results -/

/-- The result points to no place that the reporter writes to, now or later. -/
def Apart (h : Handed) : Prop :=
  match h with
  | .program _ place => place < m.lists.length ∧ place ≠ m.own
  | _ => True

variable {m}

theorem apart_hand (answer : Answer) : (m.hand answer).2.Apart (m.hand answer).1 := by
  cases answer with
  | program p => exact ⟨by simp [hand, add], Nat.ne_of_gt m.own_lt⟩
  | _ => trivial

theorem read_hand (answer : Answer) : (m.hand answer).1.read (m.hand answer).2.lists = answer := by
  cases answer with
  | program p => simp [hand, add, Handed.read]
  | _ => rfl

/-- An operation hands out what it gives, in a place apart. -/
theorem read_perform (op : Operation) : (m.perform op).1.read (m.perform op).2.lists = op.answer :=
  (read_hand _).trans (answer_perform _ op)

theorem apart_perform (op : Operation) : (m.perform op).2.Apart (m.perform op).1 := apart_hand _

/-- What is apart stays apart, -/
theorem Apart.perform {h : Handed} (ha : m.Apart h) (op : Operation) : (m.perform op).2.Apart h := by
  cases h with
  | program statements place =>
    obtain ⟨hlt, hne⟩ := ha
    exact ⟨Nat.lt_of_lt_of_le hlt (m.length_perform op), by rwa [own_perform]⟩
  | _ => trivial

/-- and is read as before. -/
theorem Apart.read_perform {h : Handed} (ha : m.Apart h) (op : Operation) :
    h.read (m.perform op).2.lists = h.read m.lists := by
  cases h with
  | program statements place => rw [Handed.read, Handed.read, m.lists_perform op ha.1 ha.2]
  | _ => rfl

/-! ## All operations -/

theorem view_performAll (ops : List Operation) : (m.performAll ops).2.view = m.view.after ops := by
  induction ops generalizing m with
  | nil => rfl
  | cons op ops ih =>
    rw [performAll, after, List.foldl_cons, ← view_perform]
    exact ih

theorem Apart.read_performAll {h : Handed} (ha : m.Apart h) (ops : List Operation) :
    h.read (m.performAll ops).2.lists = h.read m.lists := by
  induction ops generalizing m with
  | nil => rfl
  | cons op ops ih => exact (ih (ha.perform op)).trans (ha.read_perform op)

/-- What was handed out, read after all that follows, is what was given. -/
theorem read_performAll (ops : List Operation) :
    (m.performAll ops).1.map (Handed.read (m.performAll ops).2.lists) = ops.map Operation.answer := by
  induction ops generalizing m with
  | nil => rfl
  | cons op ops ih =>
    rw [List.map_cons, ← ih (m := (m.perform op).2), ← m.read_perform op]
    exact congrArg (· :: _) ((apart_perform op).read_performAll ops)

end Memory

/-- One reporter, from the start to any moment. What was handed out up to then reads as what
    a new reporter gives; recorded is what was reported since the last reset, each operation
    adding what a new reporter records of it, a source its lexical problems and then its
    syntactic ones; and echoed is what was reported while the echo was on. -/
theorem shared_reporter (echo : Bool) (ops : List Operation) :
    let handed := ((Memory.new echo).performAll ops).1
    let m := ((Memory.new echo).performAll ops).2
    m.view = (new echo).after ops ∧
    (∀ fresh, handed.map (Handed.read m.lists) = ops.map fun op => ((new fresh).perform op).1) ∧
    (∀ fresh op, ((new fresh).perform op).2.diagnostics = op.reports) ∧
    (∀ op, (m.perform op).2.view.diagnostics = (if op.isReset then [] else m.view.diagnostics) ++ op.reports) ∧
    m.view.diagnostics = (sinceReset ops).flatMap Operation.reports ∧
    m.view.count = ((sinceReset ops).flatMap Operation.reports).length ∧
    (m.view.hadError = true ↔ ∃ op ∈ sinceReset ops, op.reports ≠ []) ∧
    m.view.echoed = String.join ((heard echo ops).map echoLine) ∧
    ∀ source, ∃ syntactic, (Operation.parseSource source).reports = (Operation.scan source).reports ++ syntactic ∧
      (∀ d ∈ (Operation.scan source).reports, d.kind = "lexical") ∧ ∀ d ∈ syntactic, d.kind = "syntax" := by
  intro handed m
  have hview : m.view = (new echo).after ops := Memory.view_performAll ops
  have hrecorded : m.view.diagnostics = (sinceReset ops).flatMap Operation.reports := by
    rw [hview, diagnostics_after]
  refine ⟨hview, fun fresh => ?_, reports_eq, fun op => ?_, hrecorded, congrArg List.length hrecorded, ?_, ?_,
    reports_parseSource⟩
  · have hanswer : (fun op => ((new fresh).perform op).1) = Operation.answer := funext (answer_perform _)
    rw [hanswer]
    exact Memory.read_performAll ops
  · rw [Memory.view_perform, diagnostics_perform]
  · rw [hadError, hrecorded, Bool.not_eq_true', List.isEmpty_eq_false_iff, Ne, List.flatMap_eq_nil_iff]
    simp
  · rw [hview, echoed_after, join_echoLine]
    exact String.empty_append

end LoxSyntax.Reporter
