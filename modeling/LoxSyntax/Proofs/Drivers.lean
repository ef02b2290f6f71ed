/-
  LoxSyntax.Proofs.Drivers — the command, the prompt and the library agree.

  Each of them scans a source into a reporter and parses the tokens into the same one. The
  reporters differ in what they held before and in their echo; what is added is the same,
  and so are the statements, as long as the stack holds. It may give way at two places: the
  source is nested too deeply to be parsed, which each driver answers, or its tree is too
  high to be shown, which none does.

  - `parseSource_eq`: the program of a source, by its tokens.
  - `parseWithin_scan`: what a driver reads of it, and reports.
  - `parseWithin_scan_gaveUp`: what is reported of a source that is nested too deeply.
  - `runSource_gaveUp`, `runSource_tooHigh`: the command where the stack gives way.
  - `drivers_agree`: what the command writes, how it exits, and what the prompt answers.
-/

import LoxSyntax.CommandLine.Run
import LoxSyntax.Proofs.Nesting
import LoxSyntax.Proofs.Prompt.Answers

namespace LoxSyntax

open CommandLine Prompt

/-! ## Into any reporter -/

variable {source : String} {l : TokenList}

theorem parseWithin_sourceTokens (hl : TokenList.ofTokens? (scan source).tokens = .ok l) {depth : Nat}
    (hw : l.Within depth) (r : Reporter) : (r.scan source).2.parseWithin depth (r.scan source).1 =
      (some l.parse.statements, r.reportAll ((scan source).diagnostics ++ l.parse.diagnostics)) := by
  obtain ⟨statements, ho⟩ := Parse.program_value (Nat.lt_succ_self l.body.length)
  have ho : (l.parseWithin (l.body.length + 1)).outcome = .value statements [] := ho
  simp [Reporter.scan, Reporter.parseWithin, hl, TokenList.parseWithin_of_within hw, TokenList.parse, ho,
    Outcome.value?]

/-- A source gives its statements, and its lexical and its syntactic problems, which are added
    to those of the reporter. -/
theorem Reporter.parseSource_eq (hl : TokenList.ofTokens? (LoxSyntax.scan source).tokens = .ok l)
    (r : Reporter) : r.parseSource source =
      (⟨l.parse.statements, (LoxSyntax.scan source).diagnostics ++ l.parse.diagnostics⟩,
        r.reportAll ((LoxSyntax.scan source).diagnostics ++ l.parse.diagnostics)) := by
  have hlen : l.body.length < (LoxSyntax.scan source).tokens.length + 1 := by
    rw [TokenList.body_eq_of_ofTokens? hl]
    exact Nat.lt_succ_of_le (List.takeWhile_sublist _).length_le
  have h := parseWithin_sourceTokens hl (TokenList.within_of_length hlen) r
  rw [Reporter.parseSource]
  simp only [Reporter.scan] at h ⊢
  rw [h]
  simp [Reporter.count]

/-- The program of a source: its statements, and its lexical and its syntactic problems. -/
theorem parseSource_eq (hl : TokenList.ofTokens? (scan source).tokens = .ok l) :
    parseSource source = ⟨l.parse.statements, (scan source).diagnostics ++ l.parse.diagnostics⟩ :=
  congrArg Prod.fst (Reporter.parseSource_eq hl (.new false))

variable {k : Stack}

/-- What a driver reads of a source that it follows, and reports. -/
theorem parseWithin_scan (h : k.Parses source) (r : Reporter) :
    (r.scan source).2.parseWithin (k.parsing (scan source).tokens) (scan source).tokens =
      (some (parseSource source).statements, r.reportAll (parseSource source).diagnostics) := by
  obtain ⟨l, hl, -⟩ := exists_sourceTokens source
  rw [parseSource_eq hl]
  exact parseWithin_sourceTokens hl (h l hl) r

/-- Of a source that is nested too deeply the first problems are reported, among them all of
    the scan. -/
theorem parseWithin_scan_gaveUp (h : ¬k.Parses source) : ∃ found : List Diagnostic,
    (scan source).diagnostics <+: found ∧ found <+: (parseSource source).diagnostics ∧
    ∀ r : Reporter, (r.scan source).2.parseWithin (k.parsing (scan source).tokens) (scan source).tokens =
      (none, r.reportAll found) := by
  obtain ⟨l, hl, -⟩ := exists_sourceTokens source
  have hg : (l.parseWithin (k.parsing (scan source).tokens)).GaveUp := by
    by_contra hg
    refine h fun l' hl' => ?_
    cases hl.symm.trans hl'
    exact hg
  obtain ⟨rest, ho⟩ := hg
  refine ⟨(scan source).diagnostics ++ l.diagnostics (l.parseWithin (k.parsing (scan source).tokens)),
    List.prefix_append _ _, ?_, fun r => ?_⟩
  · rw [parseSource_eq hl]
    exact (List.prefix_append_right_inj _).2 ((l.reports_parseWithin _).map _)
  · simp [Reporter.scan, Reporter.parseWithin, hl, ho, Outcome.value?]

/-! ## What is shown -/

/-- The text of each problem, and a line end behind it. -/
def problemLines (ds : List Diagnostic) : String := String.join (ds.map fun d => d.text ++ "\n")

@[simp] theorem join_echoLine (ds : List Diagnostic) : String.join (ds.map Reporter.echoLine) = problemLines ds := rfl

/-- The tree and a line end; nothing for an empty program. -/
def Program.shown (p : Program) : String := if p.statements.isEmpty then "" else p.printed ++ "\n"

/-- The tree, or the list of the statements as data, and a line end. -/
def Program.written (json : Bool) (p : Program) : String :=
  if json then (Json.array (p.statements.map Stmt.data)).write ++ "\n" else p.shown

/-- All tokens of a scan, as data or a line for each. -/
def Scan.written (json : Bool) (s : Scan) : String :=
  if json then (Json.array (s.tokens.map Token.data)).write ++ "\n"
  else String.join (s.tokens.map fun t => t.described ++ "\n")

/-- The trees can be shown, printed or as data. -/
def Stack.shows (k : Stack) (json : Bool) (statements : List Stmt) : Bool :=
  if json then k.writes statements else k.prints statements

/-- The stack holds the source: it is parsed, and its tree is shown if there is no problem. -/
structure Stack.Covers (k : Stack) (json : Bool) (source : String) : Prop where
  parses : k.Parses source
  shows : (parseSource source).ok = true → k.shows json (parseSource source).statements = true

/-- A stack that holds whatever is nested holds every source. -/
theorem Stack.covers_ample (json : Bool) (source : String) : Stack.ample.Covers json source := by
  refine ⟨parses_of_levels (Nat.lt_succ_of_le List.countP_le_length), fun _ => ?_⟩
  cases json <;> simp [shows, writes, prints, ample]

theorem trees?_eq (k : Stack) (p : Program) :
    trees? k p.statements = if k.prints p.statements then some p.shown else none := by
  obtain ⟨statements, diagnostics⟩ := p
  cases statements with
  | nil => simp [trees?, Program.shown, Stack.prints, height, stmtNodes, Node.heightAll]
  | cons s ss => simp [trees?, Program.shown, Program.printed]

theorem treeListing?_eq (k : Stack) (json : Bool) (p : Program) :
    treeListing? k ⟨false, json⟩ p.statements = if k.shows json p.statements then some (p.written json) else none := by
  cases json with
  | true => simp [treeListing?, Stack.shows, Program.written]
  | false => simp [treeListing?, Stack.shows, Program.written, trees?_eq]

/-- What the command does with a source that is parsed. -/
theorem runSource_parsed (h : k.Parses source) (json : Bool) : runSource k ⟨false, json⟩ source =
    if (parseSource source).ok then
      if k.shows json (parseSource source).statements then ⟨(parseSource source).written json, "", .exited 0⟩
      else ⟨"", "", .failed .tooHigh⟩
    else ⟨"", problemLines (parseSource source).diagnostics, .exited 65⟩ := by
  have hp := parseWithin_scan h (.new true)
  simp only [Reporter.scan] at hp
  simp only [runSource, Reporter.scan, hp, Bool.false_eq_true, if_false, treeListing?_eq]
  cases hd : (parseSource source).diagnostics with
  | nil =>
    cases hs : k.shows json (parseSource source).statements with
    | true => simp [Reporter.new, Reporter.hadError, Program.ok, hd, exitOk]
    | false => simp [Reporter.new, Reporter.hadError, Program.ok, hd]
  | cons d ds =>
    simp [Reporter.new, Reporter.hadError, Program.ok, hd, exitProblems, Reporter.reportAll, ← join_echoLine]

theorem runSource_tree {json : Bool} (h : k.Covers json source) : runSource k ⟨false, json⟩ source =
    ⟨if (parseSource source).ok then (parseSource source).written json else "",
      problemLines (parseSource source).diagnostics, .exited (if (parseSource source).ok then 0 else 65)⟩ := by
  rw [runSource_parsed h.parses]
  cases hok : (parseSource source).ok with
  | true =>
    have hd : (parseSource source).diagnostics = [] := List.isEmpty_iff.1 hok
    simp [h.shows hok, hd, problemLines]
  | false => simp

/-- A source that is nested too deeply is answered by its first problems and the code 65. -/
theorem runSource_gaveUp (h : ¬k.Parses source) (json : Bool) : ∃ found : List Diagnostic,
    (scan source).diagnostics <+: found ∧ found <+: (parseSource source).diagnostics ∧
      runSource k ⟨false, json⟩ source = ⟨"", problemLines found ++ tooDeep, .exited 65⟩ := by
  obtain ⟨found, hscan, hall, hfound⟩ := parseWithin_scan_gaveUp h
  refine ⟨found, hscan, hall, ?_⟩
  have hr := hfound (.new true)
  simp only [Reporter.scan] at hr
  simp only [runSource, Reporter.scan, hr, Bool.false_eq_true, if_false]
  simp [exitProblems, Reporter.new, Reporter.reportAll, ← join_echoLine]

/-- A tree that cannot be shown ends the command without a code. -/
theorem runSource_tooHigh {json : Bool} (h : k.Parses source) (hc : ¬k.Covers json source) :
    runSource k ⟨false, json⟩ source = ⟨"", "", .failed .tooHigh⟩ := by
  have hnot : ¬((parseSource source).ok = true → k.shows json (parseSource source).statements = true) :=
    fun hs => hc ⟨h, hs⟩
  rw [Classical.not_imp] at hnot
  rw [runSource_parsed h]
  simp [hnot]

theorem runSource_tokens (k : Stack) (source : String) (json : Bool) : runSource k ⟨true, json⟩ source =
    ⟨(scan source).written json, problemLines (scan source).diagnostics,
      .exited (if (scan source).diagnostics = [] then 0 else 65)⟩ := by
  cases hd : (scan source).diagnostics with
  | nil => simp [runSource, Reporter.scan, hd, tokenListing, Scan.written, Reporter.new, codeFor, Reporter.hadError,
      exitOk, problemLines]
  | cons d ds => simp [runSource, Reporter.scan, hd, tokenListing, Scan.written, Reporter.new, codeFor,
      Reporter.hadError, exitProblems, problemLines, Reporter.reportAll, Reporter.echoLine]

/-- What the prompt answers to a source that is parsed, with the tokens hidden. -/
theorem evaluate_parsed (h : k.Parses source) : evaluate k (.start false) source =
    ⟨if (parseSource source).ok then
        if k.prints (parseSource source).statements then (parseSource source).shown else ""
      else "[error] >>>\n" ++ problemLines (parseSource source).diagnostics,
      ⟨false, (Reporter.new false).reportAll (parseSource source).diagnostics⟩,
      (parseSource source).ok && !k.prints (parseSource source).statements⟩ := by
  have hr := parseWithin_scan h (Reporter.new false).reset
  simp only [Reporter.scan] at hr
  simp only [evaluate, Reporter.scan, Shell.start, hr, trees?_eq]
  cases hd : (parseSource source).diagnostics with
  | nil =>
    cases hs : k.prints (parseSource source).statements with
    | true => simp [Reporter.new, Reporter.reset, Reporter.hadError, Program.ok, hd]
    | false => simp [Reporter.new, Reporter.reset, Reporter.hadError, Program.ok, hd]
  | cons d ds =>
    simp [Reporter.new, Reporter.reset, Reporter.hadError, Program.ok, hd, problems, problemLines, Reporter.echoLine]

/-- The response to a source that the stack holds, with the tokens hidden. -/
theorem respond_program (h : k.Covers false source) (hp : isProgram source = true) :
    Prompt.answer k false source = (if (parseSource source).ok then (parseSource source).shown
      else "[error] >>>\n" ++ problemLines (parseSource source).diagnostics) ∧ breaks k source = false := by
  rw [Prompt.answer, breaks, respond_of_isProgram k hp, evaluate_parsed h.parses]
  cases hok : (parseSource source).ok with
  | true =>
    have hs : k.prints (parseSource source).statements = true := h.shows hok
    simp [hs]
  | false => simp

/-- Within the nesting that the stack holds, the command exits with 0 when the library finds
    no problem and with 65 when it does; it writes the problems that the library finds, or
    else its tree. With tokens the scan alone decides on the code, and all tokens are
    written, whatever the nesting. The prompt with the tokens hidden answers the same tree,
    or the same problems, behind any entries. -/
theorem drivers_agree (k : Stack) (source : String) :
    (∀ json, k.Covers json source → runSource k ⟨false, json⟩ source =
      ⟨if (parseSource source).ok then (parseSource source).written json else "",
        problemLines (parseSource source).diagnostics, .exited (if (parseSource source).ok then 0 else 65)⟩) ∧
    (∀ json, runSource k ⟨true, json⟩ source =
      ⟨(scan source).written json, problemLines (scan source).diagnostics,
        .exited (if (scan source).diagnostics = [] then 0 else 65)⟩) ∧
    (k.Covers false source → ∀ (showTokens : Bool) (entries : List String) (n : Nat) (input : List (List Char)),
      (Shell.behind k showTokens entries).showTokens = false → (readEntry input).entry = some source →
      Text.strip source ≠ "" → Text.strip source ≠ ":tokens" →
        (converseFrom k (n + 1) (Shell.behind k showTokens entries) input).output =
          (readEntry input).prompts ++
            (if (parseSource source).ok then (parseSource source).shown
              else "[error] >>>\n" ++ problemLines (parseSource source).diagnostics) ++
            (converseFrom k n (Shell.behind k showTokens (entries ++ [source])) (readEntry input).unread).output ∧
        (converseFrom k (n + 1) (Shell.behind k showTokens entries) input).errors = "") := by
  refine ⟨fun json => runSource_tree, runSource_tokens k source, ?_⟩
  intro h showTokens entries n input hmode hentry hblank htoggle
  have hp : isProgram source = true := by simp [isProgram, isToggle, hblank, htoggle]
  obtain ⟨hanswer, hbreaks⟩ := respond_program h hp
  have hshell : (respond k (Shell.behind k showTokens entries) source).shell =
      Shell.behind k showTokens (entries ++ [source]) := by
    rw [Shell.behind, Shell.behind, List.foldl_append, List.foldl_cons, List.foldl_nil]
  obtain ⟨he, ht⟩ := reporter_behind k showTokens entries
  refine ⟨?_, by rw [errors_converseFrom k he, ht]⟩
  simp only [converseFrom, hentry, broken_respond, hbreaks, Bool.false_eq_true, if_false]
  rw [output_respond, hmode, hanswer, hshell]

/-- Behind an entry with an error, and one that hides the tokens. -/
theorem drivers_agree_behind :
    Stack.ample.Covers false "x;" ∧ (Shell.behind .ample true ["1 +", ":tokens"]).showTokens = false ∧
    (readEntry ["x;\n".toList]).entry = some "x;" ∧
    runSource .ample ⟨false, false⟩ "x;" = ⟨"(; x)\n", "", .exited 0⟩ ∧
    (converseFrom .ample 2 (Shell.behind .ample true ["1 +", ":tokens"]) ["x;\n".toList]).output =
      "> (; x)\n> Exiting Lox REPL.\n" := by
  have hc := Stack.covers_ample false "x;"
  have hmode : (Shell.behind .ample true ["1 +", ":tokens"]).showTokens = false := by decide +kernel
  have hentry : (readEntry ["x;\n".toList]).entry = some "x;" := by decide +kernel
  obtain ⟨htree, -, hprompt⟩ := drivers_agree .ample "x;"
  obtain ⟨hout, -⟩ := hprompt hc true ["1 +", ":tokens"] 1 _ hmode hentry (by decide +kernel) (by decide +kernel)
  refine ⟨hc, hmode, hentry, ?_, ?_⟩
  · rw [htree false hc]
    decide +kernel
  · rw [hout]
    decide +kernel

end LoxSyntax
