/-
  LoxSyntax.Proofs.Prompt.Answers — an answer depends on the entry and on the mode.

  One reporter serves the whole conversation. It is reset before an entry is scanned, and
  what is parsed does not depend on what it holds; so an answer is the one of a shell that
  was just started in the same mode, whatever was reported before and left there; whether
  it breaks the conversation off does not even depend on the mode. The mode changes with
  `:tokens` only, and the reporter of a prompt never echoes.

  - `evaluate_eq`: an entry evaluated by any shell.
  - `respond_eq`: the response to any entry.
  - `errors_converse`: nothing is written to the error output of a conversation.
-/

import Mathlib.Data.List.Induction
import LoxSyntax.Prompt.Conversation

namespace LoxSyntax

/-- Into any reporter the same is parsed, and the same is reported. -/
theorem Reporter.parseWithin_eq (r : Reporter) (depth : Nat) (ts : List Token) : r.parseWithin depth ts =
    (((new false).parseWithin depth ts).1, r.reportAll ((new false).parseWithin depth ts).2.diagnostics) := by
  unfold parseWithin
  cases TokenList.ofTokens? ts with
  | ok l => simp [new]
  | error e => simp [new]

namespace Prompt

/-- The entry switches the display of tokens. -/
def isToggle (entry : String) : Bool := Text.strip entry = ":tokens"

/-- The entry is scanned and parsed. -/
def isProgram (entry : String) : Bool := Text.strip entry ≠ "" && !isToggle entry

/-- The mode behind an entry. -/
def modeBehind (showTokens : Bool) (entry : String) : Bool := if isToggle entry then !showTokens else showTokens

variable (k : Stack)

/-- The answer to an entry, in a mode. -/
def answer (showTokens : Bool) (entry : String) : String := (respond k (.start showTokens) entry).output

/-- The entry ends the conversation. -/
def breaks (entry : String) : Bool := (respond k (.start false) entry).broken

/-! ## Any shell -/

theorem respond_of_isProgram {entry : String} (h : isProgram entry = true) (s : Shell) :
    respond k s entry = evaluate k s entry := by
  simp only [isProgram, isToggle, Bool.and_eq_true, decide_eq_true_eq, Bool.not_eq_true', decide_eq_false_iff_not] at h
  simp [respond, h.1, h.2]

/-- What is reported about an entry that is evaluated. -/
def found (entry : String) : List Diagnostic := (evaluate k (.start false) entry).shell.reporter.diagnostics

/-- Any shell of the mode gives the same output and breaks off alike, and then its reporter
    holds what was found in this entry. -/
theorem evaluate_eq (s : Shell) (entry : String) : evaluate k s entry =
    ⟨(evaluate k (.start s.showTokens) entry).output, ⟨s.showTokens, s.reporter.reset.reportAll (found k entry)⟩,
      (evaluate k (.start false) entry).broken⟩ := by
  obtain ⟨showTokens, r⟩ := s
  have hp := fun r : Reporter => r.parseWithin_eq (k.parsing (scan entry).tokens) (scan entry).tokens
  simp only [found, evaluate, Reporter.scan, Shell.start, hp (Reporter.reportAll _ _)]
  generalize (Reporter.new false).parseWithin (k.parsing (scan entry).tokens) (scan entry).tokens = parsed
  obtain ⟨_ | statements, r'⟩ := parsed
  · cases showTokens <;> simp [Reporter.new]
  · by_cases hd : (scan entry).diagnostics = [] ∧ r'.diagnostics = []
    · cases ht : trees? k statements <;> cases showTokens <;> simp [Reporter.hadError, hd, ht]
    · cases showTokens <;> simp [Reporter.hadError, hd]

/-- The reporter behind an entry. -/
def reporterBehind (r : Reporter) (entry : String) : Reporter :=
  if isProgram entry then r.reset.reportAll (found k entry) else r

theorem respond_eq (s : Shell) (entry : String) : respond k s entry =
    ⟨answer k s.showTokens entry, ⟨modeBehind s.showTokens entry, reporterBehind k s.reporter entry⟩,
      breaks k entry⟩ := by
  by_cases hp : isProgram entry = true
  · have ht : isToggle entry = false := by
      simp only [isProgram, Bool.and_eq_true, Bool.not_eq_true'] at hp
      exact hp.2
    rw [respond_of_isProgram k hp, evaluate_eq, answer, breaks, respond_of_isProgram k hp, respond_of_isProgram k hp]
    simp only [modeBehind, reporterBehind, hp, ht, if_true, Bool.false_eq_true, if_false]
  · by_cases hb : Text.strip entry = ""
    · simp [answer, breaks, respond, modeBehind, reporterBehind, hp, isToggle, hb]
    · have ht : Text.strip entry = ":tokens" := by simpa [isProgram, isToggle, hb] using hp
      simp [answer, breaks, respond, modeBehind, reporterBehind, hp, isToggle, ht, Shell.start]

@[simp] theorem output_respond (s : Shell) (entry : String) :
    (respond k s entry).output = answer k s.showTokens entry := by rw [respond_eq]

@[simp] theorem broken_respond (s : Shell) (entry : String) : (respond k s entry).broken = breaks k entry := by
  rw [respond_eq]

@[simp] theorem showTokens_respond (s : Shell) (entry : String) :
    (respond k s entry).shell.showTokens = modeBehind s.showTokens entry := by rw [respond_eq]

@[simp] theorem reporter_respond (s : Shell) (entry : String) :
    (respond k s entry).shell.reporter = reporterBehind k s.reporter entry := by rw [respond_eq]

/-! ## No echo -/

theorem echo_reporterBehind (r : Reporter) (entry : String) : (reporterBehind k r entry).echo = r.echo := by
  unfold reporterBehind
  split <;> simp

theorem echoed_reporterBehind {r : Reporter} (h : r.echo = false) (entry : String) :
    (reporterBehind k r entry).echoed = r.echoed := by
  unfold reporterBehind
  split
  · exact Reporter.echoed_reportAll_of_quiet h _
  · rfl

theorem errors_converseFrom {s : Shell} (h : s.reporter.echo = false) (n : Nat) (input : List (List Char)) :
    (converseFrom k n s input).errors = s.reporter.echoed := by
  induction n generalizing s input with
  | zero => rfl
  | succ n ih =>
    simp only [converseFrom]
    split
    · rfl
    · next entry _ =>
      have he : (respond k s entry).shell.reporter.echo = false := by rw [reporter_respond, echo_reporterBehind, h]
      have ht : (respond k s entry).shell.reporter.echoed = s.reporter.echoed := by
        rw [reporter_respond, echoed_reporterBehind k h]
      split
      · exact ht
      · exact (ih he _).trans ht

/-- The shell behind some entries of a conversation. -/
def Shell.behind (showTokens : Bool) (entries : List String) : Shell :=
  entries.foldl (fun s entry => (respond k s entry).shell) (.start showTokens)

theorem reporter_behind (showTokens : Bool) (entries : List String) :
    (Shell.behind k showTokens entries).reporter.echo = false ∧
      (Shell.behind k showTokens entries).reporter.echoed = "" := by
  induction entries using List.reverseRecOn with
  | nil => exact ⟨rfl, rfl⟩
  | append_singleton entries entry ih =>
    obtain ⟨he, ht⟩ := ih
    have hs : (Shell.behind k showTokens (entries ++ [entry])).reporter =
        reporterBehind k (Shell.behind k showTokens entries).reporter entry := by
      rw [Shell.behind, List.foldl_append, List.foldl_cons, List.foldl_nil, reporter_respond, Shell.behind]
    rw [hs, echo_reporterBehind, echoed_reporterBehind k he]
    exact ⟨he, ht⟩

/-- Nothing is written to the error output of a conversation. -/
theorem errors_converse (showTokens : Bool) (input : List (List Char)) : (converse k showTokens input).errors = "" :=
  errors_converseFrom k rfl _ _

end Prompt

end LoxSyntax
