/-
  LoxSyntax.Proofs.Printing.ReadBack — what is printed is read back.

  The form of a tree that fits its place is proper, and the tree is read back from it
  without what is not printed, if its tokens are scanned and a source can spell its values:
  then an operator is told by its lexeme, and no name is one of the reserved words.

  - `Fits.shows`: expressions.
  - `Shaped.shown`: every part of a program.
-/

import Mathlib.Data.List.Forall2
import LoxSyntax.Proofs.AcceptedSources
import LoxSyntax.Proofs.Grammar.Shape
import LoxSyntax.Proofs.Printing.Reading

namespace LoxSyntax

open Grammar Lexical Printing Form

/-! ## Tokens without their places -/

theorem Lexical.Lexeme.literal_eq_nil {l : Lexeme} (hn : l.kind ≠ .number) (hs : l.kind ≠ .string) :
    l.segment.literal = .nil := by
  cases l with
  | operator | word => rfl
  | whole | fraction => exact absurd rfl hn
  | string => exact absurd rfl hs

/-- The kind is that of an operator or of a reserved word, which has the text. -/
def IsFixed (text : String) (kind : TokenKind) : Prop :=
  (text.toList, kind) ∈ operators ∨ (text, kind) ∈ reservedWords

instance (text : String) (kind : TokenKind) : Decidable (IsFixed text kind) := inferInstanceAs (Decidable (_ ∨ _))

namespace Lexical.Scanned

variable {t : Token}

theorem erased_eq (h : Scanned t) (hn : t.kind ≠ .number) (hs : t.kind ≠ .string) :
    t.erased = symbol t.kind t.lexeme := by
  obtain ⟨l, hk, -, hl⟩ := h
  rw [Token.erased, symbol, hl, Lexeme.literal_eq_nil (hk ▸ hn) (hk ▸ hs)]

/-- A token of an operator or of a reserved word is told by its kind. -/
theorem lexeme_fixed (h : Scanned t) {kind : TokenKind} (hk : t.kind = kind) (text : String) (hf : IsFixed text kind) :
    t.lexeme = text := by
  obtain ⟨l, hkind, hl, -⟩ := h
  rw [hl]
  rw [IsFixed, ← hk, hkind] at hf
  rcases hf with ho | hr
  · rw [Segment.lexeme, ← Lexeme.text, Lexeme.text_of_operator ho, String.ofList_toList]
  · exact Lexeme.lexeme_of_reserved hr

theorem erased_fixed (h : Scanned t) {kind : TokenKind} (hk : t.kind = kind) (text : String) (hf : IsFixed text kind) :
    t.erased = symbol kind text := by
  have hkinds : kind ≠ .number ∧ kind ≠ .string :=
    hf.elim (fun ho => (operators_not_word _ ho).2) (fun hr => (reservedWords_kind _ hr).2)
  rw [h.erased_eq (hk ▸ hkinds.1) (hk ▸ hkinds.2), h.lexeme_fixed hk text hf, hk]

/-- A name is a word that is not reserved. -/
theorem exists_name (h : Scanned t) (hk : t.kind = .identifier) : ∃ c cs, t.lexeme = String.ofList (c :: cs) ∧
    isAlpha c = true ∧ (∀ c ∈ cs, isAlphanumeric c = true) ∧ reservedWords.lookup t.lexeme = none := by
  obtain ⟨l, hkind, hl, -⟩ := h
  rw [hk] at hkind
  cases l with
  | operator text kind h =>
    obtain rfl : kind = .identifier := hkind.symm
    exact absurd List.mem_cons_self (operators_not_word _ h).1
  | word c cs hc hs =>
    refine ⟨c, cs, hl, hc, hs, ?_⟩
    rw [hl]
    cases hlookup : reservedWords.lookup (Lexeme.word c cs hc hs).segment.lexeme with
    | none => rfl
    | some kind =>
      rw [Lexeme.kind, hlookup] at hkind
      exact absurd hkind.symm (reservedWords_kind _ (mem_of_lookup hlookup)).1
  | whole | fraction | string => cases hkind

end Lexical.Scanned

namespace Printing

/-! ## Atoms -/

/-- A proper form that an expression is read from. -/
structure Form.Shows (f : Form) (e : Expr) : Prop where
  proper : f.Proper
  reads : f.expr? = some e

/-- The atom is proper. -/
def isHead (head : String) : Bool := head ≠ "" && head.toList.all isPlain

theorem proper_of_isHead {head : String} (h : isHead head = true) : (Form.atom head).Proper := by
  simp only [isHead, Bool.and_eq_true, decide_eq_true_eq, List.all_eq_true] at h
  exact .atom h.1 h.2

theorem isPlain_of_isAlphanumeric {c : Char} (h : isAlphanumeric c = true) : isPlain c = true := by
  have hc : c ∉ [' ', '\n', '(', ')', '"'] := not_mem_of_all h (by decide)
  simpa [isPlain] using hc

theorem isPlain_of_inNumeral {c : Char} (h : JsonText.inNumeral c = true) : isPlain c = true := by
  have hc : c ∉ [' ', '\n', '(', ')', '"'] := not_mem_of_all h (by decide)
  simpa [isPlain] using hc

/-- A word that is none of those for a value is a name. -/
theorem word?_name {c : Char} {cs : List Char} (hc : isAlpha c = true)
    (h : reservedWords.lookup (String.ofList (c :: cs)) = none) :
    word? (String.ofList (c :: cs)) = some (.ident (symbol .identifier (String.ofList (c :: cs)))) := by
  unfold word?
  split
  case h_5 => rw [String.toList_ofList, List.head?_cons, if_pos (by simpa using hc)]
  all_goals next he => rw [he] at h; cases h

theorem nameForm_shows {t : Token} (h : Scanned t) (hk : t.kind = .identifier) :
    (nameForm t).Shows (.ident t.erased) := by
  obtain ⟨c, cs, hl, hc, hcs, hlookup⟩ := h.exists_name hk
  have herased := h.erased_eq (by rw [hk]; decide) (by rw [hk]; decide)
  rw [hk] at herased
  rw [herased, nameForm]
  rw [hl] at hlookup ⊢
  refine ⟨.atom (by simp) ?_, word?_name hc hlookup⟩
  rw [String.toList_ofList, List.forall_mem_cons]
  exact ⟨isPlain_of_isAlphanumeric (by rw [isAlphanumeric, hc, Bool.true_or]),
    fun c hc => isPlain_of_isAlphanumeric (hcs c hc)⟩

/-- A number is read from its spelling. -/
theorem number_shows (rank : Fin magnitudes) : (Form.atom (Literal.number (.finite false rank)).spelling).Shows
    (.literal (.number (.finite false rank))) := by
  obtain ⟨n, hn, htext, -⟩ := JsonText.exists_numeral_spelling rank
  obtain ⟨d, ds, hd, hdigit⟩ := JsonText.Numeral.text_eq_cons hn
  have hread := readNumber?_spelling rank
  generalize (Literal.number (.finite false rank)).spelling = s at htext hread
  have hfirst : s.toList.head? = some d := by rw [htext, hd]; rfl
  refine ⟨.atom ?_ ?_, ?_⟩
  · rintro rfl
    cases hfirst
  · rw [htext]
    exact fun c hc => isPlain_of_inNumeral (JsonText.Numeral.inNumeral_of_mem hn c hc)
  · have hword : ∀ word ∈ ["nil", "true", "false", "this"], s ≠ word := by
      rintro word hw rfl
      have hnone : ∀ word ∈ ["nil", "true", "false", "this"], word.toList.head?.any Char.isDigit = false := by decide
      exact Bool.false_ne_true ((hnone _ hw).symm.trans (by rw [hfirst]; exact hdigit))
    have halpha : s.toList.head?.any isAlpha = false := by
      rw [hfirst, Option.any_some, Bool.eq_false_iff]
      intro ha
      rw [← isDigit_eq, isDigit_of_isAlpha ha] at hdigit
      cases hdigit
    show word? s = _
    unfold word?
    split
    case h_5 => rw [if_neg (by rw [halpha]; decide), hread, Option.map_some]
    all_goals exact absurd rfl (hword _ (by decide))

/-- A value that a source can spell. -/
theorem value_shows {v : Literal} (h : v.Spelled) : v.form.Shows v.erased := by
  cases h with
  | nil => exact ⟨proper_of_isHead (by decide), rfl⟩
  | boolean b => cases b <;> exact ⟨proper_of_isHead (by decide), rfl⟩
  | finite rank => exact number_shows rank
  | infinite => exact ⟨proper_of_isHead (by decide), rfl⟩
  | text h => exact ⟨.quoted (by simpa using h), rfl⟩

/-! ## Expressions -/

/-- The forms show the expressions, one by one. -/
abbrev ShowAll (fs : List Form) (es : List Expr) : Prop := List.Forall₂ Form.Shows fs es

theorem ShowAll.proper_reads {fs : List Form} {es : List Expr} (h : ShowAll fs es) :
    (∀ f ∈ fs, f.Proper) ∧ exprs? fs = some es := by
  induction h with
  | nil => exact ⟨List.forall_mem_nil _, rfl⟩
  | cons hf _ ih => exact ⟨List.forall_mem_cons.2 ⟨hf.proper, ih.1⟩, by rw [exprs?, hf.reads, ih.2]; rfl⟩

theorem ShowAll.node {head : String} {fs : List Form} {es : List Expr} {e : Expr} (h : ShowAll fs es)
    (hhead : isHead head = true) (he : expression? head es = some e) : (node head fs).Shows e := by
  obtain ⟨hproper, hreads⟩ := h.proper_reads
  refine ⟨.list (List.forall_mem_cons.2 ⟨proper_of_isHead hhead, hproper⟩), ?_⟩
  show (exprs? fs).bind (expression? head) = some e
  rw [hreads, Option.bind_some, he]

/-- The operators of a level, and their kinds. -/
def levelOperators : Level → List (String × TokenKind)
  | .disjunction => [("or", .kwOr)]
  | .conjunction => [("and", .kwAnd)]
  | .equality => [("!=", .bangEqual), ("==", .equalEqual)]
  | .comparison => [(">", .greater), (">=", .greaterEqual), ("<", .less), ("<=", .lessEqual)]
  | .term => [("-", .minus), ("+", .plus)]
  | .factor => [("/", .slash), ("*", .star)]

theorem exists_levelOperator {l : Level} {kind : TokenKind} (h : l.isOperator kind = true) :
    ∃ p ∈ levelOperators l, p.2 = kind := by
  cases l <;> simp only [Level.isOperator, Parse.isEqualityOperator, Parse.isComparisonOperator, Parse.isTermOperator,
    Parse.isFactorOperator, Bool.or_eq_true, beq_iff_eq] at h
  case disjunction | conjunction => subst h; decide
  case comparison => rcases h with ((rfl | rfl) | rfl) | rfl <;> decide
  all_goals rcases h with rfl | rfl <;> decide

theorem levelOperators_fixed (l : Level) : ∀ p ∈ levelOperators l, IsFixed p.1 p.2 ∧ isHead p.1 = true := by
  cases l <;> decide

theorem expression?_levelOperators (l : Level) (a b : Expr) :
    ∀ p ∈ levelOperators l, expression? p.1 [a, b] = some (l.join a (symbol p.2 p.1) b) := by
  cases l <;> simp only [levelOperators, List.forall_mem_cons] <;> and_intros <;>
    first | rfl | exact List.forall_mem_nil _

/-- An operation between two expressions. -/
theorem operator_shows {l : Level} {o : Token} (h : Scanned o) (hk : l.isOperator o.kind = true) {f g : Form}
    {a b : Expr}
    (hf : f.Shows a) (hg : g.Shows b) : (node o.lexeme [f, g]).Shows (l.join a o.erased b) := by
  obtain ⟨p, hp, hkind⟩ := exists_levelOperator hk
  obtain ⟨hfixed, hhead⟩ := levelOperators_fixed l p hp
  rw [h.lexeme_fixed hkind.symm _ hfixed, h.erased_fixed hkind.symm _ hfixed]
  exact ShowAll.node (.cons hf (.cons hg .nil)) hhead (expression?_levelOperators l a b p hp)

/-- An operation in front of an expression. -/
theorem unary_shows {o : Token} (h : Scanned o) (hk : Parse.isUnaryOperator o.kind = true) {f : Form} {e : Expr}
    (hf : f.Shows e) : (node o.lexeme [f]).Shows (.unary o.erased e) := by
  simp only [Parse.isUnaryOperator, Bool.or_eq_true, beq_iff_eq] at hk
  rcases hk with hk | hk
  · have hfixed : IsFixed "!" .bang := by decide
    rw [h.lexeme_fixed hk _ hfixed, h.erased_fixed hk _ hfixed]
    exact ShowAll.node (.cons hf .nil) (by decide) rfl
  · have hfixed : IsFixed "-" .minus := by decide
    rw [h.lexeme_fixed hk _ hfixed, h.erased_fixed hk _ hfixed]
    exact ShowAll.node (.cons hf .nil) (by decide) rfl

theorem erased_join (l : Level) (a b : Expr) (o : Token) :
    (l.join a o b).erased = l.join a.erased o.erased b.erased := by
  cases l <;> rfl

theorem form_join (l : Level) (a b : Expr) (o : Token) : (l.join a o b).form = node o.lexeme [a.form, b.form] := by
  cases l <;> rfl

theorem arguments_show {es : List Expr} (h : ∀ e ∈ es, AllScanned e.tokens → (∀ v ∈ e.values, v.Spelled) →
    e.form.Shows e.erased) (ht : AllScanned (exprsTokens es)) (hv : ∀ v ∈ exprsValues es, v.Spelled) :
    ShowAll (exprForms es) (erasedExprs es) := by
  induction es with
  | nil => exact .nil
  | cons e es ih =>
    obtain ⟨he, hes⟩ := List.forall_mem_cons.1 h
    obtain ⟨hte, htes⟩ := List.forall_mem_append.1 ht
    obtain ⟨hve, hves⟩ := List.forall_mem_append.1 hv
    exact .cons (he hte hve) (ih hes htes hves)

end Printing

variable {Short : Nat → Prop}

/-- The form of an expression that fits its place shows it, without what is not printed. -/
theorem Grammar.Fits.shows {c : Category} {e : Expr} (h : Fits Short c e) (ht : AllScanned e.tokens)
    (hv : ∀ v ∈ e.values, v.Spelled) : e.form.Shows e.erased := by
  induction h with
  | literal value => exact value_shows (hv value List.mem_cons_self)
  | this keyword =>
    have herased := (ht keyword.1 List.mem_cons_self).erased_fixed keyword.2 "this" (by decide)
    rw [Expr.erased, herased]
    exact ⟨proper_of_isHead (by decide), rfl⟩
  | super keyword method =>
    obtain ⟨hk, hm⟩ := allScanned_cons.1 ht
    have herased := hk.erased_fixed keyword.2 "super" (by decide)
    rw [Expr.erased, herased]
    exact ShowAll.node (.cons (nameForm_shows (hm _ List.mem_cons_self) method.2) .nil) (by decide) rfl
  | ident name => exact nameForm_shows (ht name.1 List.mem_cons_self) name.2
  | grouping _ ih => exact ShowAll.node (.cons (ih ht hv) .nil) (by decide) rfl
  | get name _ _ ih =>
    obtain ⟨ho, hn⟩ := allScanned_append.1 ht
    exact ShowAll.node (.cons (ih ho hv) (.cons (nameForm_shows (hn _ List.mem_cons_self) name.2) .nil))
      (by decide) rfl
  | call paren _ _ _ _ ih iha =>
    obtain ⟨hc, ht⟩ := allScanned_append.1 ht
    obtain ⟨ha, hp⟩ := allScanned_append.1 ht
    obtain ⟨hvc, hva⟩ := List.forall_mem_append.1 hv
    have herased := (hp _ List.mem_cons_self).erased_fixed paren.2 ")" (by decide)
    rw [Expr.erased, herased]
    exact ShowAll.node (.cons (ih hc hvc) (arguments_show iha ha hva)) (by decide) rfl
  | unary operator _ _ ih =>
    obtain ⟨ho, he⟩ := allScanned_cons.1 ht
    exact unary_shows ho operator.2 (ih he hv)
  | operator l operator _ _ _ iha ihb =>
    rw [Level.tokens_join] at ht
    rw [Level.values_join] at hv
    obtain ⟨hta, ht⟩ := allScanned_append.1 ht
    obtain ⟨ho, htb⟩ := allScanned_cons.1 ht
    obtain ⟨hva, hvb⟩ := List.forall_mem_append.1 hv
    rw [form_join, erased_join]
    exact operator_shows ho operator.2 (iha hta hva) (ihb htb hvb)
  | assign name _ _ ih =>
    obtain ⟨hn, he⟩ := allScanned_cons.1 ht
    exact ShowAll.node (.cons (nameForm_shows hn name.2) (.cons (ih he hv) .nil)) (by decide) rfl
  | set name _ _ _ iho ihv =>
    obtain ⟨hto, ht⟩ := allScanned_append.1 ht
    obtain ⟨hn, htv⟩ := allScanned_cons.1 ht
    obtain ⟨hvo, hvv⟩ := List.forall_mem_append.1 hv
    have hplace := ShowAll.node (.cons (iho hto hvo) (.cons (nameForm_shows hn name.2) .nil)) (by decide)
      (show expression? "." _ = some _ from rfl)
    exact ShowAll.node (.cons hplace (.cons (ihv htv hvv) .nil)) (by decide) rfl

theorem optional_shows {value : Option Expr} (h : ∀ e ∈ value, Fits Short .expression e)
    (ht : AllScanned (optionalTokens value)) (hv : ∀ v ∈ optionalValues value, v.Spelled) :
    ∀ e ∈ value, e.form.Shows e.erased := by
  cases value with
  | none => simp
  | some e => simpa using Fits.shows (h e rfl) ht hv

/-! ## Statements -/

namespace Printing

/-- Proper forms that statements are read from. -/
structure ShowStmts (fs : List Form) (ss : List Stmt) : Prop where
  proper : ∀ f ∈ fs, f.Proper
  reads : stmts? fs = ss.map some

namespace ShowStmts

variable {fs gs : List Form} {ss us : List Stmt}

theorem nil : ShowStmts [] [] := ⟨List.forall_mem_nil _, rfl⟩

theorem append (h : ShowStmts fs ss) (h' : ShowStmts gs us) : ShowStmts (fs ++ gs) (ss ++ us) := by
  refine ⟨List.forall_mem_append.2 ⟨h.proper, h'.proper⟩, ?_⟩
  have happend : ∀ fs : List Form, stmts? (fs ++ gs) = stmts? fs ++ stmts? gs := by
    intro fs
    induction fs with
    | nil => rfl
    | cons f fs ih => rw [List.cons_append, stmts?, ih, stmts?, List.cons_append]
  rw [happend, h.reads, h'.reads, List.map_append]

/-- The parts of a list that shows a statement. -/
theorem node {head : String} {s : Stmt} (hhead : isHead head = true) (hfs : ∀ f ∈ fs, f.Proper)
    (hs : statement? head fs (stmts? fs) = some s) : ShowStmts [Form.node head fs] [s] := by
  refine ⟨List.forall_mem_singleton.2 (.list (List.forall_mem_cons.2 ⟨proper_of_isHead hhead, hfs⟩)), ?_⟩
  show [statement? head fs (stmts? fs)] = _
  rw [hs]
  rfl

theorem reads_singleton {f : Form} {s : Stmt} (h : ShowStmts [f] [s]) : f.stmt? = some s := (List.cons.inj h.reads).1

theorem proper_singleton {f : Form} {s : Stmt} (h : ShowStmts [f] [s]) : f.Proper := h.proper f List.mem_cons_self

end ShowStmts

/-- The forms of a part of a program. -/
def partForms : (p : Part) → p.Tree → List Form
  | .program => stmtForms
  | .declaration => fun s => [s.form]
  | .statement => fun s => [s.form]
  | .function => fun f => [f.form]
  | .methods => functionForms

/-- The statements of a part of a program, without what is not printed; a method is the statement of a function. -/
def erasedPart : (p : Part) → p.Tree → List Stmt
  | .program => erasedStmts
  | .declaration => fun s => [s.erased]
  | .statement => fun s => [s.erased]
  | .function => fun f => [.function f.erased]
  | .methods => fun fs => (erasedFunctions fs).map .function

theorem name?_nameForm {t : Token} (h : Scanned t) (hk : t.kind = .identifier) :
    (nameForm t).name? = some t.erased := by
  rw [h.erased_eq (by rw [hk]; decide) (by rw [hk]; decide), hk]
  rfl

theorem names_show {params : List (Terminal .identifier)} (h : AllScanned (params.map Subtype.val)) :
    (∀ f ∈ (params.map Subtype.val).map nameForm, f.Proper) ∧
      (Form.list ((params.map Subtype.val).map nameForm)).names? =
        some ((params.map Subtype.val).map Token.erased) := by
  have hkind : ∀ t ∈ params.map Subtype.val, t.kind = .identifier := by simp +contextual
  refine ⟨?_, ?_⟩
  · simp only [List.mem_map (f := nameForm), forall_exists_index, and_imp, forall_apply_eq_imp_iff₂]
    exact fun t ht => (nameForm_shows (h t ht) (hkind t ht)).proper
  · have hnames : (params.map Subtype.val).map (name? ∘ nameForm) =
        (params.map Subtype.val).map (some ∘ Token.erased) :=
      List.map_congr_left fun t ht => name?_nameForm (h t ht) (hkind t ht)
    rw [Form.names?, List.map_map, hnames, ← List.map_map, allSome_map_some]

theorem superclass?_functionForms (fs : List Function) : (functionForms fs).head?.bind superclass? = none := by
  cases fs with
  | nil => rfl
  | cons f fs => cases f; rfl

/-- The form of a class shows it, if the forms of its methods show them. -/
theorem class_shows {name : Token} {superclass : Option (Terminal .identifier)} {methods : List Function}
    (hname : Scanned name) (hk : name.kind = .identifier) (hs : AllScanned (superclass.map Subtype.val).toList)
    (hm : ShowStmts (functionForms methods) ((erasedFunctions methods).map .function)) :
    ShowStmts [(Stmt.class name (superclass.map Subtype.val) methods).form]
      [(Stmt.class name (superclass.map Subtype.val) methods).erased] := by
  have hmethods :
      ((stmts? (functionForms methods)).map (·.bind Stmt.function?)).allSome = some (erasedFunctions methods) := by
    rw [hm.reads, List.map_map, List.map_map]
    exact allSome_map_some _
  cases superclass with
  | none =>
    refine .node (by decide) (List.forall_mem_cons.2 ⟨(nameForm_shows hname hk).proper, hm.proper⟩) ?_
    show class? (nameForm name) (functionForms methods) (stmts? (functionForms methods)) = _
    rw [class?, superclass?_functionForms, name?_nameForm hname hk]
    simp only [Option.isSome_none, Bool.false_eq_true, if_false, hmethods]
    rfl
  | some s =>
    have hsuper := nameForm_shows (hs s.1 List.mem_cons_self) s.2
    refine .node (by decide) (List.forall_mem_cons.2 ⟨(nameForm_shows hname hk).proper,
      List.forall_mem_cons.2 ⟨.list ?_, hm.proper⟩⟩) ?_
    · exact List.forall_mem_cons.2 ⟨proper_of_isHead (by decide), List.forall_mem_singleton.2 hsuper.proper⟩
    · show class? (nameForm name) (Form.node "<" [nameForm s.1] :: functionForms methods)
        (none :: stmts? (functionForms methods)) = _
      have hsign : superclass? (Form.node "<" [nameForm s.1]) = some s.1.erased :=
        name?_nameForm (hs s.1 List.mem_cons_self) s.2
      rw [class?, List.head?_cons, Option.bind_some, hsign, name?_nameForm hname hk]
      simp only [Option.isSome_some, if_true, List.tail_cons, hmethods]
      rfl

end Printing

/-- The forms of a shaped part of a program show it, without what is not printed. -/
theorem Grammar.Shaped.shown {p : Part} {t : p.Tree} (h : Shaped Short p t) (ht : AllScanned (p.tokens t))
    (hv : ∀ v ∈ p.values t, v.Spelled) : ShowStmts (partForms p t) (erasedPart p t) := by
  -- a statement has one form, so where one is due the list of its forms has that alone
  induction h with
  | nil | noMethods => exact .nil
  | cons _ _ ih1 ih2 | moreMethods _ _ ih1 ih2 =>
    obtain ⟨ht1, ht2⟩ := allScanned_append.1 ht
    obtain ⟨hv1, hv2⟩ := List.forall_mem_append.1 hv
    exact (ih1 ht1 hv1).append (ih2 ht2 hv2)
  | «class» name superclass _ ih =>
    obtain ⟨hn, ht⟩ := allScanned_cons.1 ht
    obtain ⟨hs, hm⟩ := allScanned_append.1 ht
    exact class_shows hn name.2 hs (ih hm hv)
  | «fun» _ ih => exact ih ht hv
  | @var name value hvalue =>
    obtain ⟨hn, ht⟩ := allScanned_cons.1 ht
    have hname := nameForm_shows hn name.2
    have hshow := optional_shows hvalue ht hv
    cases value with
    | none =>
      refine .node (by decide) (List.forall_mem_singleton.2 hname.proper) ?_
      simp only [optionalForms, Option.elim_none, statement?, name?_nameForm hn name.2]
      rfl
    | some e =>
      have he := hshow e rfl
      refine .node (by decide)
        (List.forall_mem_cons.2 ⟨hname.proper, List.forall_mem_singleton.2 he.proper⟩) ?_
      simp only [optionalForms, Option.elim_some, statement?, name?_nameForm hn name.2, he.reads]
      rfl
  | statement _ ih => exact ih ht hv
  | function name params _ _ ih =>
    obtain ⟨hn, ht⟩ := allScanned_cons.1 ht
    obtain ⟨hp, hb⟩ := allScanned_append.1 ht
    have hbody := ih hb hv
    obtain ⟨hproper, hnames⟩ := names_show hp
    refine .node (by decide) (List.forall_mem_cons.2 ⟨(nameForm_shows hn name.2).proper,
      List.forall_mem_cons.2 ⟨.list hproper, hbody.proper⟩⟩) ?_
    simp only [stmts?, statement?, name?_nameForm hn name.2, hnames, show stmts? (stmtForms _) = _ from hbody.reads,
      Option.bind_some, allSome_map_some]
    rfl
  | expression hvalue | print hvalue =>
    have he := Fits.shows hvalue ht hv
    refine .node (by decide) (List.forall_mem_singleton.2 he.proper) ?_
    show Option.map _ (Expr.form _).expr? = _
    rw [he.reads]
    rfl
  | @«return» keyword value hvalue =>
    obtain ⟨hk, ht⟩ := allScanned_cons.1 ht
    have hshow := optional_shows hvalue ht hv
    have herased := hk.erased_fixed keyword.2 "return" (by decide)
    show ShowStmts _ [.return keyword.1.erased _]
    rw [herased]
    cases value with
    | none => exact .node (by decide) (List.forall_mem_nil _) rfl
    | some e =>
      have he := hshow e rfl
      refine .node (by decide) (List.forall_mem_singleton.2 he.proper) ?_
      show Option.map _ e.form.expr? = _
      rw [he.reads]
      rfl
  | block _ ih =>
    have hbody := ih ht hv
    refine .node (by decide) hbody.proper ?_
    show Option.map _ (stmts? (stmtForms _)).allSome = _
    rw [show stmts? (stmtForms _) = _ from hbody.reads, allSome_map_some]
    rfl
  | «while» hc _ ih | ifThen hc _ ih =>
    obtain ⟨htc, htb⟩ := allScanned_append.1 ht
    obtain ⟨hvc, hvb⟩ := List.forall_mem_append.1 hv
    have hcondition := Fits.shows hc htc hvc
    have hbody := ih htb hvb
    refine .node (by decide)
      (List.forall_mem_cons.2 ⟨hcondition.proper, List.forall_mem_singleton.2 hbody.proper_singleton⟩) ?_
    show Option.bind (Expr.form _).expr? (fun _ => Option.map _ (Stmt.form _).stmt?) = _
    rw [hcondition.reads, Option.bind_some, hbody.reads_singleton]
    rfl
  | ifElse hc _ _ _ ih1 ih2 =>
    obtain ⟨htc, htb⟩ := allScanned_append.1 ht
    obtain ⟨ht1, ht2⟩ := allScanned_append.1 htb
    obtain ⟨hvc, hvb⟩ := List.forall_mem_append.1 hv
    obtain ⟨hv1, hv2⟩ := List.forall_mem_append.1 hvb
    have hcondition := Fits.shows hc htc hvc
    have hthen := ih1 ht1 hv1
    have helse := ih2 ht2 hv2
    refine .node (by decide) (List.forall_mem_cons.2 ⟨hcondition.proper,
      List.forall_mem_cons.2 ⟨hthen.proper_singleton, List.forall_mem_singleton.2 helse.proper_singleton⟩⟩) ?_
    show Option.bind (Expr.form _).expr? (fun _ => Option.bind (Stmt.form _).stmt? fun _ =>
      Option.map _ (Stmt.form _).stmt?) = _
    rw [hcondition.reads, Option.bind_some, hthen.reads_singleton, Option.bind_some, helse.reads_singleton]
    rfl

end LoxSyntax
