/-
  LoxSyntax.Proofs.Reporting.Operations — what is done with one reporter, in any order.

  An operation reports problems of its own, whatever the reporter holds: a scan those of
  its source, and parsing a source the lexical ones and then the syntactic ones. It gives
  the same as with a new reporter. What is recorded after some operations is what those
  behind the last reset reported; what is echoed is what was reported while the echo was
  on, and a reset does not change it.

  - `perform_eq`: what an operation gives, and the reporter behind it.
  - `diagnostics_after`: what is recorded after some operations.
  - `echoed_after`: what is echoed after some operations.
  - `reports_parseSource`: the lexical and the syntactic problems of a source.
-/

import Mathlib.Data.List.DropRight
import LoxSyntax.Proofs.Drivers
import LoxSyntax.Proofs.Lexical.Scanning

namespace LoxSyntax

namespace Reporter

inductive Operation where
  | errorLine (line : Int) (message : String)
  | errorToken (t : Token) (message : String)
  | report (d : Diagnostic)
  | reset
  | setEcho (on : Bool)
  | scan (source : String)
  | parseSource (source : String)
  deriving DecidableEq, Repr

/-- What an operation gives. -/
inductive Answer where
  | nothing
  | tokens (ts : List Token)
  | program (p : Program)

def perform (r : Reporter) : Operation → Answer × Reporter
  | .errorLine line message => (.nothing, r.errorLine line message)
  | .errorToken t message => (.nothing, r.errorToken t message)
  | .report d => (.nothing, r.report d)
  | .reset => (.nothing, r.reset)
  | .setEcho on => (.nothing, r.setEcho on)
  | .scan source => let (ts, r) := r.scan source; (.tokens ts, r)
  | .parseSource source => let (p, r) := r.parseSource source; (.program p, r)

/-- The reporter after some operations. -/
def after (r : Reporter) (ops : List Operation) : Reporter := ops.foldl (fun r op => (r.perform op).2) r

namespace Operation

def isReset : Operation → Bool
  | .reset => true
  | _ => false

/-- The echo behind an operation, from that in front of it. -/
def switch (on : Bool) : Operation → Bool
  | .setEcho on => on
  | _ => on

/-- What the operation reports. -/
def reports : Operation → List Diagnostic
  | .errorLine line message => [.lexical line message]
  | .errorToken t message => [.syntactic t message]
  | .report d => [d]
  | .reset | .setEcho _ => []
  | .scan source => (LoxSyntax.scan source).diagnostics
  | .parseSource source => (LoxSyntax.parseSource source).diagnostics

def answer : Operation → Answer
  | .scan source => .tokens (LoxSyntax.scan source).tokens
  | .parseSource source => .program (LoxSyntax.parseSource source)
  | _ => .nothing

end Operation

/-! ## One operation -/

/-- A source is parsed as with a new reporter, and what it reports is added. -/
theorem parseSource_perform (r : Reporter) (source : String) :
    r.parseSource source = (LoxSyntax.parseSource source, r.reportAll (LoxSyntax.parseSource source).diagnostics) := by
  obtain ⟨l, hl, -⟩ := exists_sourceTokens source
  rw [parseSource_eq hl, LoxSyntax.parseSource_eq hl]

/-- What an operation gives, and the reporter behind it. -/
theorem perform_eq (r : Reporter) (op : Operation) : r.perform op =
    (op.answer, { (if op.isReset then r.reset else r).reportAll op.reports with echo := op.switch r.echo }) := by
  cases op with
  | reset => simp [perform, Operation.isReset, Operation.reports, Operation.switch, Operation.answer, reset]
  | setEcho on => simp [perform, Operation.isReset, Operation.reports, Operation.switch, Operation.answer, setEcho]
  | parseSource source => rw [perform, parseSource_perform]; rfl
  | scan source => rfl
  | errorLine line message => rw [perform, errorLine, ← reportAll_nil (r.report _), ← reportAll_cons]; rfl
  | errorToken t message => rw [perform, errorToken, ← reportAll_nil (r.report _), ← reportAll_cons]; rfl
  | report d => rw [perform, ← reportAll_nil (r.report _), ← reportAll_cons]; rfl

@[simp] theorem answer_perform (r : Reporter) (op : Operation) : (r.perform op).1 = op.answer := by rw [perform_eq]

theorem echo_perform (r : Reporter) (op : Operation) : (r.perform op).2.echo = op.switch r.echo := by rw [perform_eq]

theorem diagnostics_perform (r : Reporter) (op : Operation) :
    (r.perform op).2.diagnostics = (if op.isReset then [] else r.diagnostics) ++ op.reports := by
  rw [perform_eq]
  cases op.isReset <;> rfl

theorem echoed_perform (r : Reporter) (op : Operation) :
    (r.perform op).2.echoed = r.echoed ++ problemLines (if r.echo then op.reports else []) := by
  rw [perform_eq]
  cases hr : op.isReset <;> cases he : r.echo <;> simp [reportAll, he, problemLines]

/-- What an operation reports is what a new reporter has recorded behind it. -/
theorem reports_eq (echo : Bool) (op : Operation) : ((new echo).perform op).2.diagnostics = op.reports := by
  rw [diagnostics_perform]
  cases op.isReset <;> rfl

/-! ## Some operations -/

theorem after_append (r : Reporter) (ops ops' : List Operation) : r.after (ops ++ ops') = (r.after ops).after ops' :=
  List.foldl_append

/-- The operations behind the last reset. -/
def sinceReset (ops : List Operation) : List Operation := ops.rtakeWhile (!·.isReset)

/-- What is reported while the echo is on. -/
def heard (on : Bool) : List Operation → List Diagnostic
  | [] => []
  | op :: ops => (if on then op.reports else []) ++ heard (op.switch on) ops

/-- Recorded is what was reported since the last reset. -/
theorem diagnostics_after (echo : Bool) (ops : List Operation) :
    ((new echo).after ops).diagnostics = (sinceReset ops).flatMap Operation.reports := by
  induction ops using List.reverseRecOn with
  | nil => rfl
  | append_singleton ops op ih =>
    rw [after_append, sinceReset, List.rtakeWhile_concat]
    show (((new echo).after ops).perform op).2.diagnostics = _
    rw [diagnostics_perform, ih]
    cases hr : op.isReset with
    | true =>
      cases op with
      | reset => rfl
      | _ => cases hr
    | false => simp [sinceReset]

/-- Echoed is what was reported while the echo was on. -/
theorem echoed_after (r : Reporter) (ops : List Operation) :
    (r.after ops).echoed = r.echoed ++ problemLines (heard r.echo ops) := by
  induction ops generalizing r with
  | nil => simp [after, heard, problemLines]
  | cons op ops ih =>
    rw [after, List.foldl_cons]
    refine (ih _).trans ?_
    rw [echoed_perform, echo_perform, heard, String.append_assoc]
    simp [problemLines]

/-! ## The problems of a source -/

theorem kind_diagnostics {p : Lexical.Spot} {ss : List Lexical.Segment} {d : Diagnostic}
    (h : d ∈ Lexical.diagnostics p ss) : d.kind = "lexical" := by
  induction ss generalizing p with
  | nil => cases h
  | cons s ss ih =>
    rcases List.mem_append.1 h with h | h
    · obtain ⟨message, -, rfl⟩ := Option.map_eq_some_iff.1 (Option.mem_toList.1 h)
      rfl
    · exact ih h

theorem kind_scan {source : String} {d : Diagnostic} (h : d ∈ (LoxSyntax.scan source).diagnostics) :
    d.kind = "lexical" := by
  obtain ⟨ss, hs⟩ := Lexical.exists_splits _ (Nat.le_refl source.toList.length)
  rw [scan_eq hs] at h
  exact kind_diagnostics h

/-- The problems of a source are those of its scan, which are lexical, and then syntactic ones. -/
theorem reports_parseSource (source : String) : ∃ syntactic, (Operation.parseSource source).reports =
    (Operation.scan source).reports ++ syntactic ∧ (∀ d ∈ (Operation.scan source).reports, d.kind = "lexical") ∧
    ∀ d ∈ syntactic, d.kind = "syntax" := by
  obtain ⟨l, hl, -⟩ := exists_sourceTokens source
  refine ⟨l.parse.diagnostics, ?_, fun d hd => kind_scan hd, fun d hd => ?_⟩
  · show (LoxSyntax.parseSource source).diagnostics = _
    rw [LoxSyntax.parseSource_eq hl]
    rfl
  · obtain ⟨report, -, rfl⟩ := List.mem_map.1 hd
    rfl

end Reporter

end LoxSyntax
