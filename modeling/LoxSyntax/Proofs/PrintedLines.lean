/-
  LoxSyntax.Proofs.PrintedLines — the lines of a printed program.

  Statements are printed one behind the other, with a line end between two. Inside of one
  a line end can only stand between quotes: names and operators are printed as they were
  scanned, and no number is spelled with a line end. A text value is copied as it is, and
  a string of the source may run over lines. So a statement takes one line and one more for
  each line end in its texts, and every statement has a line of its own exactly if no text
  has a line end in it.

  - `shown_statements`: the forms of the statements of any source.
  - `Stmt.quotes_form`: what stands between quotes in the form of a statement.
  - `printed_lines`: the lines of what is printed of a source.
  - `printed_twoLines`: a statement that takes two.
-/

import LoxSyntax.Proofs.Printing.ReadBack
import LoxSyntax.Proofs.ReturnedTrees

namespace LoxSyntax

open Grammar Lexical Printing Form

/-! ## The statements of any source -/

/-- The forms of the statements of a source show them, also where problems were reported. -/
theorem shown_statements (source : String) :
    ShowStmts (stmtForms (parseSource source).statements) (erasedStmts (parseSource source).statements) := by
  obtain ⟨l, hl, htokens⟩ := exists_sourceTokens source
  have hscanned : ∀ t ∈ l.body, Scanned t := fun t ht =>
    scanned_of_mem_scan (htokens ▸ List.mem_append_left _ ht) fun hk => by
      have := TokenList.body_ofTokens? hl t ht
      rw [Token.isEof, hk] at this
      cases this
  rw [parseSource_eq hl]
  refine l.shaped.shown (fun t ht => hscanned t (l.drawn.subperm.subset ht)) fun v hv => ?_
  obtain ⟨d, hword, htree, -⟩ := l.salvaged
  rw [← htree] at hv
  rcases d.values_among v hv with rfl | ⟨t, ht, he⟩
  · exact .boolean true
  · exact spelled_of_literalValue? (hscanned t (hword.subset ht)) he

/-! ## What stands between quotes -/

namespace Printing.Form

mutual

/-- The texts between quotes, in order. -/
def quotes : Form → List String
  | .atom _ => []
  | .quoted text => [text]
  | .list parts => allQuotes parts

def allQuotes : List Form → List String
  | [] => []
  | f :: fs => f.quotes ++ allQuotes fs

end

end Printing.Form

def Literal.text? : Literal → Option String
  | .text s => some s
  | _ => none

/-- The texts among some values. -/
def textsOf (vs : List Literal) : List String := vs.filterMap Literal.text?

@[simp] theorem textsOf_append (vs ws : List Literal) : textsOf (vs ++ ws) = textsOf vs ++ textsOf ws :=
  List.filterMap_append

theorem Literal.quotes_form (v : Literal) : v.form.quotes = textsOf [v] := by cases v <;> rfl

mutual

theorem Expr.quotes_form : ∀ e : Expr, e.form.quotes = textsOf e.values
  | .literal v => v.quotes_form
  | .ident _ | .this _ | .super _ _ => rfl
  | .grouping e | .unary _ e | .assign _ e | .get e _ => by
    simp [Expr.form, Form.node, nameForm, quotes, allQuotes, e.quotes_form, Expr.values]
  | .binary a _ b | .logical a _ b | .set a _ b => by
    simp [Expr.form, Form.node, nameForm, quotes, allQuotes, a.quotes_form, b.quotes_form, Expr.values]
  | .call f _ as => by
    simp [Expr.form, Form.node, quotes, allQuotes, f.quotes_form, allQuotes_exprForms as, Expr.values]

theorem allQuotes_exprForms : ∀ es : List Expr, allQuotes (exprForms es) = textsOf (exprsValues es)
  | [] => rfl
  | e :: es => by rw [exprForms, allQuotes, e.quotes_form, allQuotes_exprForms es, exprsValues, textsOf_append]

end

theorem allQuotes_optionalForms (e : Option Expr) : allQuotes (optionalForms e) = textsOf (optionalValues e) := by
  cases e with
  | none => rfl
  | some e => simp [optionalForms, allQuotes, e.quotes_form, optionalValues]

theorem allQuotes_names (ps : List Token) : allQuotes (ps.map nameForm) = [] := by
  induction ps with
  | nil => rfl
  | cons p ps ih => exact ih

theorem allQuotes_superclassForms (s : Option Token) (fs : List Printing.Form) :
    allQuotes (superclassForms s ++ fs) = allQuotes fs := by
  cases s <;> rfl

mutual

/-- Between quotes stand the texts of a statement, as they are. -/
theorem Stmt.quotes_form : ∀ s : Stmt, s.form.quotes = textsOf s.values
  | .expression e | .print e => by simp [Stmt.form, Form.node, quotes, allQuotes, e.quotes_form, Stmt.values]
  | .var _ e | .return _ e => by
    simp [Stmt.form, Form.node, nameForm, quotes, allQuotes, allQuotes_optionalForms e, Stmt.values]
  | .block body => by simp [Stmt.form, Form.node, quotes, allQuotes, allQuotes_stmtForms body, Stmt.values]
  | .ifThen c t | .while c t => by
    simp [Stmt.form, Form.node, quotes, allQuotes, c.quotes_form, t.quotes_form, Stmt.values]
  | .ifElse c t e => by
    simp [Stmt.form, Form.node, quotes, allQuotes, c.quotes_form, t.quotes_form, e.quotes_form, Stmt.values]
  | .function f => f.quotes_form
  | .class _ s ms => by
    simp [Stmt.form, Form.node, nameForm, quotes, allQuotes, allQuotes_superclassForms s, allQuotes_functionForms ms,
      Stmt.values]

theorem Function.quotes_form : ∀ f : Function, f.form.quotes = textsOf f.values
  | .mk _ ps body => by
    simp [Function.form, Form.node, nameForm, quotes, allQuotes, allQuotes_names ps, allQuotes_stmtForms body,
      Function.values]

theorem allQuotes_stmtForms : ∀ ss : List Stmt, allQuotes (stmtForms ss) = textsOf (stmtsValues ss)
  | [] => rfl
  | s :: ss => by rw [stmtForms, allQuotes, s.quotes_form, allQuotes_stmtForms ss, stmtsValues, textsOf_append]

theorem allQuotes_functionForms : ∀ fs : List Function, allQuotes (functionForms fs) = textsOf (functionsValues fs)
  | [] => rfl
  | f :: fs => by
    rw [functionForms, allQuotes, f.quotes_form, allQuotes_functionForms fs, functionsValues, textsOf_append]

end

/-! ## Line ends -/

/-- How many line ends there are in some texts. -/
def lineEnds (texts : List String) : Nat := (texts.map fun text => text.toList.count '\n').sum

@[simp] theorem lineEnds_append (ts us : List String) : lineEnds (ts ++ us) = lineEnds ts + lineEnds us := by
  simp [lineEnds]

theorem lineEnds_eq_zero_iff (ts : List String) : lineEnds ts = 0 ↔ ∀ t ∈ ts, '\n' ∉ t.toList := by
  rw [lineEnds, List.sum_eq_zero_iff_forall_eq_nat]
  simp [List.count_eq_zero]

theorem count_charsBehind {separator : Char} (hs : separator ≠ '\n') {fs : List Printing.Form}
    (h : ∀ f ∈ fs, f.chars.count '\n' = lineEnds f.quotes) :
    (charsBehind separator fs).count '\n' = lineEnds (allQuotes fs) := by
  induction fs with
  | nil => rfl
  | cons f fs ih =>
    obtain ⟨hf, hfs⟩ := List.forall_mem_cons.1 h
    rw [charsBehind, List.count_cons_of_ne hs, List.count_append, hf, ih hfs, allQuotes, lineEnds_append]

/-- All line ends of a proper form stand between quotes. -/
theorem Printing.Form.Proper.count_chars {f : Printing.Form} (h : f.Proper) :
    f.chars.count '\n' = lineEnds f.quotes := by
  induction h with
  | @atom text _ h =>
    have hnone : '\n' ∉ text.toList := fun hm => absurd (h _ hm) (by decide)
    rw [chars, quotes, List.count_eq_zero.2 hnone]
    rfl
  | quoted _ => simp [chars, quotes, lineEnds]
  | @list parts _ ih =>
    cases parts with
    | nil => rfl
    | cons f fs =>
      obtain ⟨hf, hfs⟩ := List.forall_mem_cons.1 ih
      have hbehind : (charsBehind ' ' fs).count '\n' = lineEnds (allQuotes fs) := count_charsBehind (by decide) hfs
      simp [chars, quotes, allQuotes, hf, hbehind]

/-! ## Lines -/

/-- The lines of a text: what stands between its line ends. -/
def textLines (text : String) : List String := (text.toList.splitOn '\n').map String.ofList

theorem length_splitOn (c : Char) (cs : List Char) : (cs.splitOn c).length = cs.count c + 1 := by
  induction cs with
  | nil => rfl
  | cons d cs ih =>
    rw [List.splitOn_cons_eq_if_modifyHead]
    by_cases h : d = c
    · simp [h, ih]
    · simp [h, ih]

theorem length_textLines (text : String) : (textLines text).length = text.toList.count '\n' + 1 := by
  rw [textLines, List.length_map, length_splitOn]

/-- Lines that are put together stay lines. -/
theorem textLines_intercalate {texts : List String} (h : texts ≠ []) :
    textLines (String.intercalate "\n" texts) = texts.flatMap textLines := by
  induction texts with
  | nil => exact absurd rfl h
  | cons t texts ih =>
    cases texts with
    | nil => simp
    | cons u texts =>
      rw [List.flatMap_cons, ← ih (List.cons_ne_nil _ _), String.intercalate_cons_cons, String.append_assoc]
      simp only [textLines, String.toList_append]
      rw [show "\n".toList = ['\n'] from rfl, List.singleton_append, List.splitOn_append_cons_self, List.map_append]

/-! ## The lines of a program -/

/-- A statement takes a line, and one more for each line end in its texts. -/
theorem Stmt.length_lines {s : Stmt} (h : s.form.Proper) :
    (textLines s.render).length = lineEnds (textsOf s.values) + 1 := by
  rw [length_textLines, Stmt.render, s.render_eq, text, String.toList_ofList, h.count_chars, s.quotes_form]

/-- Without a line end in its texts, the line is all that is printed of it. -/
theorem Stmt.textLines_render {s : Stmt} (h : s.form.Proper) (hn : lineEnds (textsOf s.values) = 0) :
    textLines s.render = [s.render] := by
  have hlen := length_textLines s.render
  rw [s.length_lines h, hn] at hlen
  rw [textLines, List.splitOn_eq_singleton (List.count_eq_zero.1 (by omega)), List.map_singleton, String.ofList_toList]

theorem length_flatMap_lines {ss : List Stmt} (h : ∀ f ∈ stmtForms ss, f.Proper) :
    (ss.flatMap fun s => textLines s.render).length = ss.length + lineEnds (textsOf (stmtsValues ss)) := by
  induction ss with
  | nil => rfl
  | cons s ss ih =>
    obtain ⟨hs, hss⟩ := List.forall_mem_cons.1 h
    rw [List.flatMap_cons, List.length_append, ih hss, s.length_lines hs, stmtsValues, textsOf_append, lineEnds_append,
      List.length_cons]
    omega

theorem flatMap_lines_of_none {ss : List Stmt} (h : ∀ f ∈ stmtForms ss, f.Proper)
    (hn : lineEnds (textsOf (stmtsValues ss)) = 0) : (ss.flatMap fun s => textLines s.render) = ss.map Stmt.render := by
  induction ss with
  | nil => rfl
  | cons s ss ih =>
    obtain ⟨hs, hss⟩ := List.forall_mem_cons.1 h
    rw [stmtsValues, textsOf_append, lineEnds_append, Nat.add_eq_zero_iff] at hn
    rw [List.flatMap_cons, s.textLines_render hs hn.1, ih hss hn.2]
    rfl

theorem form_mem_stmtForms {s : Stmt} {ss : List Stmt} (h : s ∈ ss) : s.form ∈ stmtForms ss := by
  induction ss with
  | nil => cases h
  | cons t ss ih =>
    rcases List.mem_cons.1 h with rfl | h
    · exact List.mem_cons_self
    · exact List.mem_cons_of_mem _ (ih h)

/-- The lines of what is printed of a source are those of its statements, in order. There is
    one for each statement and one more for each line end in a text; so each line is a
    statement exactly if no text has a line end in it. -/
theorem printed_lines (source : String) (h : (parseSource source).statements ≠ []) :
    textLines (parseSource source).printed = ((parseSource source).statements.flatMap fun s => textLines s.render) ∧
    (∀ s ∈ (parseSource source).statements, (textLines s.render).length = lineEnds (textsOf s.values) + 1) ∧
    (textLines (parseSource source).printed).length =
      (parseSource source).statements.length + lineEnds (textsOf (stmtsValues (parseSource source).statements)) ∧
    (textLines (parseSource source).printed = (parseSource source).statements.map Stmt.render ↔
      ∀ t ∈ textsOf (stmtsValues (parseSource source).statements), '\n' ∉ t.toList) := by
  have hproper := (shown_statements source).proper
  have hlines : textLines (parseSource source).printed =
      (parseSource source).statements.flatMap fun s => textLines s.render := by
    rw [Program.printed, printProgram, textLines_intercalate (mt List.map_eq_nil_iff.1 h), List.flatMap_map]
  have hlength := length_flatMap_lines hproper
  refine ⟨hlines, fun s hs => s.length_lines (hproper _ (form_mem_stmtForms hs)), hlines ▸ hlength, ?_⟩
  rw [hlines, ← lineEnds_eq_zero_iff]
  refine ⟨fun he => ?_, flatMap_lines_of_none hproper⟩
  rw [he, List.length_map] at hlength
  omega

theorem printed_lines_recovered :
    let p := parseSource "print 1; ) print \"a b\"; if (x) y = 2;"
    p.statements ≠ [] ∧ p.diagnostics ≠ [] ∧ textLines p.printed = p.statements.map Stmt.render := by
  intro p
  have hsome : p.statements ≠ [] := List.isEmpty_eq_false_iff.1 (by decide +kernel)
  have htexts : ∀ t ∈ textsOf (stmtsValues p.statements), '\n' ∉ t.toList := by decide +kernel
  exact ⟨hsome, by decide +kernel, (printed_lines _ hsome).2.2.2.2 htexts⟩

/-- One statement, printed in two lines. -/
theorem printed_twoLines :
    (parseSource "print \"a\nb\";").diagnostics = [] ∧ (parseSource "print \"a\nb\";").statements.length = 1 ∧
      textLines (parseSource "print \"a\nb\";").printed = ["(print \"a", "b\")"] := by
  decide +kernel

end LoxSyntax
