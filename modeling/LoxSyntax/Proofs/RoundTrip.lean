/-
  LoxSyntax.Proofs.RoundTrip — a shaped program is what is read from the tokens that
  write it.

  What is written from a tree that fits is derived by the grammar: a tighter expression
  stands in a looser place through the categories in between. The derivation is documented
  and gives the tree back, and the reader follows it.

  - `Fits.derivable`, `Shaped.writable`: what is written is derived, with its tree.
  - `Shaped.parse_written`, `Shaped.eq_of_written`: parsing undoes writing, so no two shaped
    programs are written alike.
  - `parseTokens_written`: so it does for every shaped program; and whatever was parsed
    without a report is shaped, and comes back when it is written and parsed again.
-/

import LoxSyntax.Proofs.PanicRecovery
import LoxSyntax.Proofs.Grammar.Shape
import LoxSyntax.Proofs.Grammar.Written

namespace LoxSyntax

namespace Grammar

variable (w : Writer)

/-! ## Expressions -/

/-- A documented derivation of what the writer makes of a tree, with that tree. -/
structure Writer.Derives {c : Category} (e : Expr) (d : Phrase c) : Prop where
  word : d.word = w.expr e
  tree : d.tree = e
  documented : d.Documented

/-- What the writer makes of the tree is an expression of the category, with that tree. -/
def Writer.Derivable (c : Category) (e : Expr) : Prop := ∃ d : Phrase c, w.Derives e d

variable {w}

namespace Writer.Derivable

/-- Every category but the last takes in the next one. -/
theorem exists_next {c : Category} (h : c ≠ .primary) : ∃ c' : Category, c'.rank = c.rank + 1 ∧
    ∀ e, w.Derivable c' e → w.Derivable c e := by
  cases c with
  | expression => exact ⟨.level .disjunction, rfl, fun e ⟨d, h⟩ => ⟨.plain d, h.word, h.tree, h.documented⟩⟩
  | level l => exact ⟨l.operand, Category.rank_operand l, fun e ⟨d, h⟩ => ⟨.one l d, h.word, h.tree, h.documented⟩⟩
  | unary => exact ⟨.call, rfl, fun e ⟨d, h⟩ => ⟨.unsigned d, h.word, h.tree, h.documented⟩⟩
  | call => exact ⟨.primary, rfl, fun e ⟨d, h⟩ => ⟨.atom d, h.word, h.tree, h.documented⟩⟩
  | primary => exact absurd rfl h

/-- A tighter expression stands in a looser place. -/
theorem loosen {c c' : Category} {e : Expr} (h : w.Derivable c' e) (hc : c.rank ≤ c'.rank) : w.Derivable c e := by
  obtain ⟨gap, hg⟩ := Nat.exists_eq_add_of_le hc
  -- one category at a time, from the looser side
  induction gap generalizing c with
  | zero =>
    obtain rfl := Category.rank_injective hg
    exact h
  | succ gap ih =>
    have hne : c ≠ .primary := by
      rintro rfl
      have := c'.rank_le_primary
      omega
    obtain ⟨t, ht, hd⟩ := exists_next (w := w) hne
    exact hd e (ih (by omega) (by omega))

theorem of_primary {c : Category} {e : Expr} (h : w.Derivable .primary e) : w.Derivable c e :=
  h.loosen c.rank_le_primary

theorem get {object : Expr} (h : w.Derivable .call object) (name : Terminal .identifier) :
    w.Derivable .call (.get object name.1) := by
  obtain ⟨d, hw, rfl, hd⟩ := h
  refine ⟨.property d (w.token .dot) name, ?_, rfl, hd⟩
  rw [Phrase.word, hw, Writer.expr]

theorem exists_arguments : ∀ (e : Expr) (es : List Expr), (∀ x ∈ e :: es, w.Derivable .expression x) →
    ∃ as : Arguments, as.word = w.separated (w.exprs (e :: es)) ∧ as.trees = e :: es ∧ as.Documented
  | e, [], h => by
    obtain ⟨d, hw, rfl, hd⟩ := h e (by simp)
    refine ⟨.last d, ?_, rfl, hd⟩
    rw [Arguments.word, hw, Writer.exprs, Writer.exprs, Writer.separated_singleton]
  | e, e' :: es, h => by
    obtain ⟨d, hw, rfl, hd⟩ := h e (by simp)
    obtain ⟨as, hws, ht, has⟩ := exists_arguments e' es fun x hx => h x (List.mem_cons_of_mem _ hx)
    refine ⟨.more d (w.token .comma) as, ?_, ?_, hd, has⟩
    · simp [Arguments.word, hw, hws, Writer.exprs, Writer.separated_cons_cons]
    · rw [Arguments.trees, ht]

theorem call {callee : Expr} {arguments : List Expr} (h : w.Derivable .call callee) (paren : Terminal .rightParen)
    (ha : ∀ e ∈ arguments, w.Derivable .expression e) (hs : arguments.length ≤ maxItems) :
    w.Derivable .call (.call callee paren.1 arguments) := by
  obtain ⟨f, hw, rfl, hf⟩ := h
  cases arguments with
  | nil =>
    refine ⟨.callEmpty f (w.token .leftParen) paren, ?_, rfl, hf⟩
    rw [Phrase.word, hw, Writer.expr]
    rfl
  | cons e es =>
    obtain ⟨as, hws, ht, has⟩ := exists_arguments e es ha
    refine ⟨.call f (w.token .leftParen) as paren, ?_, ?_, hf, has, ?_⟩
    · rw [Phrase.word, hw, hws, Writer.expr]
    · rw [Phrase.tree, ht]
    · rwa [← as.length_trees, ht]

/-- The assignment to a place. -/
theorem assignTo? {target value e : Expr} (ht : w.Derivable .call target) (hv : w.Derivable .expression value)
    (he : target.assignTo? value = some e) (hw : w.expr e = w.expr target ++ (w.token .equal).1 :: w.expr value) :
    w.Derivable .expression e := by
  obtain ⟨a, ha⟩ := ht.loosen (c := .level .disjunction) (by decide)
  obtain ⟨b, hb⟩ := hv
  have hp : a.isTarget = true := by
    rw [a.isTarget_iff, ha.tree, ← Expr.assignTo?_isSome target value, he]
    rfl
  refine ⟨.assign a (w.token .equal) b, ?_, ?_, hp, ha.documented, hb.documented⟩
  · rw [Phrase.word, ha.word, hb.word, hw]
  · rw [Phrase.tree, ha.tree, hb.tree, he, Option.getD_some]

end Writer.Derivable

theorem Fits.derivable {c : Category} {e : Expr} (h : Fits (· ≤ maxItems) c e) : w.Derivable c e := by
  induction h with
  | literal value => exact .of_primary ⟨.literal _ value (w.literal value).2, rfl, rfl, trivial⟩
  | this keyword => exact .of_primary ⟨.this keyword, rfl, rfl, trivial⟩
  | super keyword method => exact .of_primary ⟨.super keyword (w.token .dot) method, rfl, rfl, trivial⟩
  | ident name => exact .of_primary ⟨.name name, rfl, rfl, trivial⟩
  | grouping _ ih =>
    obtain ⟨d, hw, rfl, hd⟩ := ih
    refine .of_primary ⟨.group (w.token .leftParen) d (w.token .rightParen), ?_, rfl, hd⟩
    rw [Phrase.word, hw, Writer.expr]
  | get name hr _ ih => exact (ih.get name).loosen hr
  | call paren hr _ _ hs ihf iha => exact (ihf.call paren iha hs).loosen hr
  | unary operator hr _ ih =>
    obtain ⟨d, hw, rfl, hd⟩ := ih
    refine Writer.Derivable.loosen ⟨.signed operator d, ?_, rfl, hd⟩ hr
    rw [Phrase.word, hw, Writer.expr]
  | operator l operator hr _ _ ih1 ih2 =>
    obtain ⟨a, ha, rfl, hda⟩ := ih1
    obtain ⟨b, hb, rfl, hdb⟩ := ih2
    refine Writer.Derivable.loosen ⟨.more l a operator b, ?_, rfl, hda, hdb⟩ hr
    rw [Phrase.word, ha, hb, Writer.expr_join]
  | assign name hr _ ih =>
    -- a target is read as a call first, and turned into an assignment behind its value
    have ht : w.Derivable .call (.ident name.1) := .of_primary ⟨.name name, rfl, rfl, trivial⟩
    exact (ht.assignTo? ih rfl rfl).loosen hr
  | set name hr _ _ ih1 ih2 => exact ((ih1.get name).assignTo? ih2 rfl (by simp [Writer.expr])).loosen hr

/-! ## Statements -/

/-- A derivation of what the writer makes of a tree, with that tree: documented, each
    `else` at the nearest `if`, and open where the tree is. -/
structure Writer.Yields (w : Writer) {p : Part} (t : p.Tree) (d : Clause p) : Prop where
  word : d.word = w.part p t
  tree : d.tree = t
  documented : d.Documented
  nearestElse : d.NearestElse
  isOpen : d.isOpen = p.endsOpen t

/-- What the writer makes of the tree is derived. -/
def Writer.Writable (w : Writer) (p : Part) (t : p.Tree) : Prop := ∃ d : Clause p, w.Yields t d

theorem exists_optional {e : Option Expr} (h : ∀ x ∈ e, Fits (· ≤ maxItems) .expression x) :
    ∃ d : Option (Phrase .expression), optionalWord d = w.optional e ∧ d.map Phrase.tree = e ∧
      OptionalDocumented d := by
  cases e with
  | none => exact ⟨none, rfl, rfl, by simp [OptionalDocumented]⟩
  | some x =>
    obtain ⟨d, hd⟩ := (h x rfl).derivable (w := w)
    exact ⟨some d, hd.word, congrArg some hd.tree, by simpa [OptionalDocumented] using hd.documented⟩

theorem exists_parameters : ∀ (name : Terminal .identifier) (names : List (Terminal .identifier)),
    ∃ ps : Parameters, ps.word = w.parameters ((name :: names).map Subtype.val) ∧
      ps.names = (name :: names).map Subtype.val
  | name, [] => ⟨.last name, (w.separated_singleton [name.1]).symm, rfl⟩
  | name, name' :: names => by
    obtain ⟨ps, hw, hn⟩ := exists_parameters name' names
    refine ⟨.more name (w.token .comma) ps, ?_, ?_⟩
    · simp [Parameters.word, hw, Writer.parameters, Writer.separated_cons_cons]
    · rw [Parameters.names, hn]
      rfl

theorem exists_parameterList (names : List (Terminal .identifier)) : ∃ ps : Option Parameters,
    ps.elim [] Parameters.word = w.parameters (names.map Subtype.val) ∧
      ps.elim [] Parameters.names = names.map Subtype.val := by
  cases names with
  | nil => exact ⟨none, rfl, rfl⟩
  | cons name names =>
    obtain ⟨ps, hw, hn⟩ := exists_parameters (w := w) name names
    exact ⟨some ps, hw, hn⟩

theorem exists_varDeclaration (name : Terminal .identifier) {value : Option Expr}
    (h : ∀ x ∈ value, Fits (· ≤ maxItems) .expression x) :
    ∃ d : VarDeclaration, d.word = w.stmt (.var name.1 value) ∧ d.tree = .var name.1 value ∧ d.Documented := by
  cases value with
  | none =>
    exact ⟨⟨w.token .kwVar, name, none, w.token .semicolon⟩, rfl, rfl, by
      simp [VarDeclaration.Documented, OptionalDocumented]⟩
  | some x =>
    obtain ⟨e, he⟩ := (h x rfl).derivable (w := w)
    refine ⟨⟨w.token .kwVar, name, some (w.token .equal, e), w.token .semicolon⟩, ?_, ?_, ?_⟩
    · simp [VarDeclaration.word, he.word, Writer.stmt, Writer.initializer]
    · simp [VarDeclaration.tree, he.tree]
    · simpa [VarDeclaration.Documented, OptionalDocumented] using he.documented

theorem Shaped.writable {p : Part} {t : p.Tree} (h : Shaped (· ≤ maxItems) p t) : w.Writable p t := by
  -- `isOpen` goes along, since an `else` asks for a closed branch in front of it
  induction h with
  | nil => exact ⟨.nil, rfl, rfl, trivial, trivial, rfl⟩
  | cons _ _ ih1 ih2 =>
    obtain ⟨s, hs, rfl, hds, hns, -⟩ := ih1
    obtain ⟨ss, hss, rfl, hdss, hnss, -⟩ := ih2
    exact ⟨.cons s ss, by rw [Clause.word, hs, hss]; rfl, rfl, ⟨hds, hdss⟩, ⟨hns, hnss⟩, rfl⟩
  | «class» name superclass _ ih =>
    obtain ⟨ms, hw, rfl, hd, hn, -⟩ := ih
    refine ⟨.class (w.token .kwClass) name (superclass.map (w.token .less, ·)) (w.token .leftBrace) ms
      (w.token .rightBrace), ?_, ?_, hd, hn, rfl⟩
    · cases superclass <;> simp [Clause.word, hw, Writer.part, Writer.stmt, Writer.superclass, superclassWord]
    · cases superclass <;> rfl
  | «fun» _ ih =>
    obtain ⟨f, hw, rfl, hd, hn, -⟩ := ih
    exact ⟨.fun (w.token .kwFun) f, by rw [Clause.word, hw]; rfl, rfl, hd, hn, rfl⟩
  | var name hv =>
    obtain ⟨d, hw, ht, hd⟩ := exists_varDeclaration (w := w) name hv
    exact ⟨.var d, hw, ht, hd, trivial, rfl⟩
  | statement _ ih =>
    obtain ⟨s, hw, rfl, hd, hn, ho⟩ := ih
    exact ⟨.statement s, hw, rfl, hd, hn, ho⟩
  | function name params hl _ ih =>
    obtain ⟨body, hw, rfl, hd, hn, -⟩ := ih
    obtain ⟨ps, hps, hnames⟩ := exists_parameterList (w := w) params
    refine ⟨.function name (w.token .leftParen) ps (w.token .rightParen) (w.token .leftBrace) body
      (w.token .rightBrace), ?_, ?_, ⟨?_, hd⟩, hn, rfl⟩
    · rw [Clause.word, hps, hw]
      rfl
    · rw [Clause.tree, hnames]
    · rintro ps rfl
      rw [← Option.elim_some [] Parameters.names ps, hnames, List.length_map]
      exact hl
  | noMethods => exact ⟨.noMethods, rfl, rfl, trivial, trivial, rfl⟩
  | moreMethods _ _ ih1 ih2 =>
    obtain ⟨f, hf, rfl, hdf, hnf, -⟩ := ih1
    obtain ⟨fs, hfs, rfl, hdfs, hnfs, -⟩ := ih2
    exact ⟨.moreMethods f fs, by rw [Clause.word, hf, hfs]; rfl, rfl, ⟨hdf, hdfs⟩, ⟨hnf, hnfs⟩, rfl⟩
  | expression hv =>
    obtain ⟨e, hw, rfl, hd⟩ := hv.derivable (w := w)
    exact ⟨.expression e (w.token .semicolon), by rw [Clause.word, hw]; rfl, rfl, hd, trivial, rfl⟩
  | print hv =>
    obtain ⟨e, hw, rfl, hd⟩ := hv.derivable (w := w)
    exact ⟨.print (w.token .kwPrint) e (w.token .semicolon), by rw [Clause.word, hw]; rfl, rfl, hd, trivial, rfl⟩
  | «return» keyword hv =>
    obtain ⟨e, hw, rfl, hd⟩ := exists_optional (w := w) hv
    exact ⟨.return keyword e (w.token .semicolon), by rw [Clause.word, hw]; rfl, rfl, hd, trivial, rfl⟩
  | block _ ih =>
    obtain ⟨body, hw, rfl, hd, hn, -⟩ := ih
    exact ⟨.block (w.token .leftBrace) body (w.token .rightBrace), by rw [Clause.word, hw]; rfl, rfl, hd, hn, rfl⟩
  | «while» hc _ ih =>
    obtain ⟨e, he, rfl, hde⟩ := hc.derivable (w := w)
    obtain ⟨body, hw, rfl, hd, hn, ho⟩ := ih
    refine ⟨.while (w.token .kwWhile) (w.token .leftParen) e (w.token .rightParen) body, ?_, rfl, ⟨hde, hd⟩, hn, ho⟩
    simp [Clause.word, he, hw, Writer.part, Writer.stmt, Writer.condition]
  | ifThen hc _ ih =>
    obtain ⟨e, he, rfl, hde⟩ := hc.derivable (w := w)
    obtain ⟨s, hw, rfl, hd, hn, -⟩ := ih
    refine ⟨.ifThen (w.token .kwIf) (w.token .leftParen) e (w.token .rightParen) s, ?_, rfl, ⟨hde, hd⟩, hn, rfl⟩
    simp [Clause.word, he, hw, Writer.part, Writer.stmt, Writer.condition]
  | ifElse hc _ hopen _ ih1 ih2 =>
    obtain ⟨e, he, rfl, hde⟩ := hc.derivable (w := w)
    obtain ⟨s1, hw1, rfl, hd1, hn1, ho1⟩ := ih1
    obtain ⟨s2, hw2, rfl, hd2, hn2, ho2⟩ := ih2
    refine ⟨.ifElse (w.token .kwIf) (w.token .leftParen) e (w.token .rightParen) s1 (w.token .kwElse) s2, ?_, rfl,
      ⟨hde, hd1, hd2⟩, ⟨ho1.trans hopen, hn1, hn2⟩, ho2⟩
    simp [Clause.word, he, hw1, hw2, Writer.part, Writer.stmt, Writer.condition]

end Grammar

open Grammar

/-! ## Programs -/

/-- A documented derivation gives the statements, and nothing is reported. -/
theorem TokenList.parse_of_documented {l : TokenList} {d : Clause .program} (hw : d.word = l.body) (hd : d.Documented)
    (hn : d.NearestElse) : l.parse = ⟨d.tree, []⟩ := by
  obtain ⟨hs, hm⟩ := TokenList.parse_of_derivation hw hn
  rw [d.documented_iff.1 hd] at hm
  have hr : l.parse.diagnostics = [] := l.parse_diagnostics_eq_nil_iff.2 (hm.eq_nil_iff.2 rfl)
  rw [← hs, ← hr]

/-- Parsing undoes writing. -/
theorem Grammar.Shaped.parse_written {w : Writer} {trees : List Stmt} (h : Shaped (· ≤ maxItems) .program trees)
    (eof : Terminal .eof) : parseTokens (w.program trees ++ [eof.1]) = .ok ⟨trees, []⟩ := by
  obtain ⟨d, hd⟩ := h.writable (w := w)
  have hw : d.word = w.program trees := hd.word
  rw [← hw, parseTokens_of_ofTokens? (ofTokens?_append_eof d.kind_ne_eof eof),
    TokenList.parse_of_documented rfl hd.documented hd.nearestElse, hd.tree]

/-- No two shaped programs are written alike. -/
theorem Grammar.Shaped.eq_of_written {w : Writer} {trees trees' : List Stmt} (h : Shaped (· ≤ maxItems) .program trees)
    (h' : Shaped (· ≤ maxItems) .program trees') (hw : w.program trees = w.program trees') : trees = trees' := by
  have hp := h.parse_written (w := w) (w.token .eof)
  rw [hw, h'.parse_written] at hp
  cases hp
  rfl

theorem parseTokens_written (w : Writer) (eof : Terminal .eof) :
    (∀ trees, Shaped (· ≤ maxItems) .program trees → parseTokens (w.program trees ++ [eof.1]) = .ok ⟨trees, []⟩) ∧
    ∀ ts p, parseTokens ts = .ok p → p.diagnostics = [] → Shaped (· ≤ maxItems) .program p.statements ∧
      parseTokens (w.program p.statements ++ [eof.1]) = .ok ⟨p.statements, []⟩ := by
  refine ⟨fun trees h => h.parse_written eof, ?_⟩
  intro ts p hp hd
  obtain ⟨l, -, rfl⟩ := ofTokens?_of_parseTokens hp
  obtain ⟨d, -, hn, hdoc, ht⟩ := TokenList.nearest_of_parse hd
  have hs : Shaped (· ≤ maxItems) .program l.parse.statements := by
    rw [ht]
    exact d.shaped hdoc hn
  exact ⟨hs, hs.parse_written eof⟩

/-- The tokens of `for (n; n; n) print nil;`. -/
def loopTokens : List Token :=
  [.bare .kwFor "for", .bare .leftParen "(", .bare .identifier "n", .bare .semicolon ";", .bare .identifier "n",
   .bare .semicolon ";", .bare .identifier "n", .bare .rightParen ")", .bare .kwPrint "print", .bare .kwNil "nil",
   .bare .semicolon ";", .bare .eof ""]

/-- A `for` loop comes back as the loop that it stands for. -/
theorem parseTokens_written_forLoop :
    ∃ p : Program, parseTokens loopTokens = .ok p ∧ p.diagnostics = [] ∧
      p.statements = [.block [.expression (.ident (.bare .identifier "n")),
        .while (.ident (.bare .identifier "n"))
          (.block [.print (.literal .nil), .expression (.ident (.bare .identifier "n"))])]] ∧
      Shaped (· ≤ maxItems) .program p.statements ∧
      parseTokens (Writer.plain.program p.statements ++ [.bare .eof ""]) = .ok ⟨p.statements, []⟩ := by
  obtain ⟨hw, hp⟩ := parseTokens_written Writer.plain ⟨.bare .eof "", rfl⟩
  obtain ⟨hs, -⟩ := hp loopTokens _ rfl rfl
  exact ⟨_, rfl, rfl, rfl, hs, hw _ hs⟩

end LoxSyntax
