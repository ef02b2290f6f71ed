/-
  LoxSyntax.Proofs.Reading.Statements — what the grammar derives as a part of a program
  is read, when each `else` belongs to the nearest `if` and an open part is not followed
  by an `else`.

  - `Clause.reads`: the readings of all parts, by induction on the derivation.
  - `program_steps`: a program in front of more is read, and reading goes on behind it.
  - `reads_program`: a program is read to its end.
-/

import LoxSyntax.Proofs.Grammar.NearestElse
import LoxSyntax.Proofs.Reading.Expressions

namespace LoxSyntax.Parse

open Grammar (Terminal Mark)

variable {α β γ : Type} {ts mid rest : List Token} {ms ms' ms'' : List Mark}

/-! ## Loops over declarations -/

theorem Reads.recover {p : Parse α} {a : α} (h : Reads p ts a rest ms) : Reads (recover p) ts (some a) rest ms := by
  obtain ⟨rs, hm, h⟩ := h
  exact ⟨rs, hm, by simp only [Parse.recover, h]⟩

variable {stop : TokenKind → Bool} {read : Parse (List α)} {xs : List α} {t : Token}

theorem runs_repeatUntil {rs : List Report} (hs : stop t.kind = false) (b : Token) (bound : List Token)
    (h : read (t :: ts) = ⟨rs, .value xs rest⟩) :
    Runs (repeatUntil stop read (b :: bound)) (t :: ts) ((xs ++ ·) <$> repeatUntil stop read bound) rest rs := by
  have hq : repeatUntil stop read (b :: bound) (t :: ts) =
      (read >>= fun xs => (xs ++ ·) <$> repeatUntil stop read bound) (t :: ts) := by
    simp only [repeatUntil, hs, Bool.false_eq_true, if_false]
    rfl
  rw [Runs, hq, run_bind, h]

theorem steps_repeatUntil (hs : stop t.kind = false) (b : Token) (bound : List Token)
    (h : Reads read (t :: ts) xs rest ms) :
    Steps (repeatUntil stop read (b :: bound)) (t :: ts) ((xs ++ ·) <$> repeatUntil stop read bound) rest ms := by
  obtain ⟨rs, hm, h⟩ := h
  exact ⟨rs, hm, runs_repeatUntil hs b bound h⟩

/-- The loop ends before a token that stops it, and at the end. -/
theorem reads_repeatUntil_stop (bound : List Token) (h : ∀ t ∈ rest.head?, stop t.kind = true) :
    Reads (repeatUntil stop read bound) rest [] rest [] := by
  cases bound with
  | nil => exact .pure [] rest
  | cons b bound =>
    refine ⟨[], .nil, ?_⟩
    cases rest with
    | nil => rfl
    | cons t rest => simp only [repeatUntil, h t rfl, if_true]

/-! ## Productions -/

variable {inner : Inner} {e : Expr} {s s' : Stmt} {body : List Stmt}

theorem reads_expressionStatement (semicolon : Terminal .semicolon)
    (h : Reads inner.expression ts e (semicolon.1 :: rest) ms) :
    Reads (expressionStatement inner) ts (.expression e) rest ms :=
  h.bind_last ((Reads.expect semicolon _ rest).then_bind (.pure _ _))

theorem reads_print (semicolon : Terminal .semicolon) (h : Reads inner.expression ts e (semicolon.1 :: rest) ms) :
    Reads (printStatement inner) ts (.print e) rest ms :=
  h.bind_last ((Reads.expect semicolon _ rest).then_bind (.pure _ _))

theorem reads_expressionUnless_none {k : TokenKind} (t : Terminal k) (rest : List Token) :
    Reads (expressionUnless inner k) (t.1 :: rest) none (t.1 :: rest) [] := by
  refine (Reads.nextIs _ _).then_bind ?_
  simp only [List.head?_cons, Option.any_some, t.2, beq_self_eq_true]
  exact .pure _ _

theorem reads_expressionUnless_some {k : TokenKind} (hk : t.kind ≠ k)
    (h : Reads inner.expression (t :: ts) e rest ms) :
    Reads (expressionUnless inner k) (t :: ts) (some e) rest ms := by
  refine (Reads.nextIs _ _).then_bind ?_
  simp only [List.head?_cons, Option.any_some, beq_eq_false_iff_ne.2 hk]
  exact h.map some

theorem reads_return {e : Option Expr} (keyword : Token) (semicolon : Terminal .semicolon)
    (h : Reads (expressionUnless inner .semicolon) ts e (semicolon.1 :: rest) ms) :
    Reads (returnStatement inner keyword) ts (.return keyword e) rest ms :=
  h.bind_last ((Reads.expect semicolon _ rest).then_bind (.pure _ _))

theorem reads_while (opening : Terminal .leftParen) (closing : Terminal .rightParen)
    (hc : Reads inner.expression ts e (closing.1 :: mid) ms) (hb : Reads inner.statement mid s rest ms') :
    Reads (whileStatement inner) (opening.1 :: ts) (.while e s) rest (ms ++ ms') :=
  (Reads.expect opening _ ts).then_bind
    (hc.bind ((Reads.expect closing _ mid).then_bind (hb.bind_last (.pure _ _))))

theorem reads_ifThen (opening : Terminal .leftParen) (closing : Terminal .rightParen)
    (hc : Reads inner.expression ts e (closing.1 :: mid) ms) (ht : Reads inner.statement mid s rest ms')
    (hr : ∀ t ∈ rest.head?, t.kind ≠ .kwElse) :
    Reads (ifStatement inner) (opening.1 :: ts) (.ifThen e s) rest (ms ++ ms') := by
  have h : Steps (whenNext (· == .kwElse) (fun _ => Stmt.ifElse e s <$> inner.statement)
      (Parse.pure (Stmt.ifThen e s))) rest (Parse.pure (Stmt.ifThen e s)) rest [] :=
    Steps.whenNext_none fun t ht => by simpa using hr t ht
  exact (Reads.expect opening _ ts).then_bind
    (hc.bind ((Reads.expect closing _ mid).then_bind (ht.bind_last (h.then_reads (.pure _ _)))))

theorem reads_ifElse (opening : Terminal .leftParen) (closing : Terminal .rightParen) (otherwise : Terminal .kwElse)
    {mid' : List Token} (hc : Reads inner.expression ts e (closing.1 :: mid) ms)
    (ht : Reads inner.statement mid s (otherwise.1 :: mid') ms') (he : Reads inner.statement mid' s' rest ms'') :
    Reads (ifStatement inner) (opening.1 :: ts) (.ifElse e s s') rest (ms ++ (ms' ++ ms'')) := by
  have h : Reads (whenNext (· == .kwElse) (fun _ => Stmt.ifElse e s <$> inner.statement)
      (Parse.pure (Stmt.ifThen e s))) (otherwise.1 :: mid') (.ifElse e s s') rest ms'' :=
    (Steps.whenNext (by rw [otherwise.2]; rfl) mid').then_reads (he.map _)
  exact (Reads.expect opening _ ts).then_bind (hc.bind ((Reads.expect closing _ mid).then_bind (ht.bind h)))

theorem reads_for {i : Option Stmt} {c n : Option Expr} {mid' mid'' : List Token} {body : List Mark}
    (opening : Terminal .leftParen) (semicolon : Terminal .semicolon) (closing : Terminal .rightParen)
    (hi : Reads (loopInitializer inner) ts i mid ms)
    (hc : Reads (expressionUnless inner .semicolon) mid c (semicolon.1 :: mid') ms')
    (hn : Reads (expressionUnless inner .rightParen) mid' n (closing.1 :: mid'') ms'')
    (hb : Reads inner.statement mid'' s rest body) :
    Reads (forStatement inner) (opening.1 :: ts) (Stmt.forLoop i c n s) rest (ms ++ (ms' ++ (ms'' ++ body))) :=
  (Reads.expect opening _ ts).then_bind (hi.bind (hc.bind ((Reads.expect semicolon _ mid').then_bind
    (hn.bind ((Reads.expect closing _ mid'').then_bind (hb.bind_last (.pure _ _)))))))

theorem reads_block (closing : Terminal .rightBrace) {q : Parse (List Stmt)}
    (h : Steps (repeatUntil (· == .rightBrace) (Option.toList <$> inner.declaration) ts) ts ((body ++ ·) <$> q)
      (closing.1 :: rest) ms)
    (hq : Reads q (closing.1 :: rest) [] (closing.1 :: rest) []) : Reads (block inner) ts body rest ms := by
  have hb := h.last (hq.map (body ++ ·))
  rw [List.append_nil] at hb
  exact (Reads.here ts).then_bind (hb.bind_last ((Reads.expect closing _ rest).then_bind (.pure _ _)))

theorem reads_function {what : String} {ps : List Token} (name : Terminal .identifier) (opening : Terminal .leftParen)
    (closing : Terminal .rightParen) (bodyOpening : Terminal .leftBrace)
    (hp : Reads (itemsBeforeParen (expect .identifier .noParameterName) .tooManyParameters) ts ps
      (closing.1 :: bodyOpening.1 :: mid) ms)
    (hb : Reads (block inner) mid body rest ms') :
    Reads (function inner what) (name.1 :: opening.1 :: ts) (.mk name.1 ps body) rest (ms ++ ms') :=
  (Reads.expect name _ _).then_bind ((Reads.expect opening _ ts).then_bind (hp.bind
    ((Reads.expect closing _ _).then_bind ((Reads.expect bodyOpening _ mid).then_bind (hb.bind_last (.pure _ _))))))

theorem reads_class {parent : Option Token} {methods : List Function} (name : Terminal .identifier)
    (opening : Terminal .leftBrace) (closing : Terminal .rightBrace)
    (hs : Reads superclass ts parent (opening.1 :: mid) [])
    (hm : Reads (repeatUntil (· == .rightBrace) ((fun f => [f]) <$> function inner "method") mid) mid methods
      (closing.1 :: rest) ms) :
    Reads (classDeclaration inner) (name.1 :: ts) (.class name.1 parent methods) rest ms :=
  (Reads.expect name _ ts).then_bind (hs.then_bind ((Reads.expect opening _ mid).then_bind
    ((Reads.here mid).then_bind (hm.bind_last ((Reads.expect closing _ rest).then_bind (.pure _ _))))))

theorem reads_varDeclaration {value : Option Expr} (name : Terminal .identifier) (semicolon : Terminal .semicolon)
    (h : Reads (initializer inner) ts value (semicolon.1 :: rest) ms) :
    Reads (varDeclaration inner) (name.1 :: ts) (.var name.1 value) rest ms :=
  (Reads.expect name _ ts).then_bind (h.bind_last ((Reads.expect semicolon _ rest).then_bind (.pure _ _)))

/-! ## Parameters -/

theorem reads_nextParameter (name : Terminal .identifier) (count : Nat) (rest : List Token) :
    Reads (nextItem (expect .identifier .noParameterName) .tooManyParameters count) (name.1 :: rest) name.1 rest
      (Grammar.excess .tooManyParameters count [name.1]) := by
  have h := Grammar.reads_nextItem (e := .tooManyParameters) count rfl (List.cons_ne_nil name.1 [])
    (Reads.expect name .noParameterName rest)
  rwa [List.append_nil] at h

end LoxSyntax.Parse

namespace LoxSyntax.Grammar

open Parse

variable {rest : List Token} {n : Nat}

theorem Parameters.word_eq_cons (ps : Parameters) : ∃ t w, ps.word = t :: w ∧ t.kind = .identifier := by
  cases ps with
  | last name | more name => exact ⟨name.1, _, rfl, name.2⟩

/-- Parameters are read behind a comma. -/
theorem Parameters.reads_more (ps : Parameters) (hr : ∀ t ∈ rest.head?, t.kind ≠ .comma) :
    ∀ (count : Nat) (bound : List Token) (comma : Terminal .comma), (ps.word ++ rest).length < bound.length →
      Reads (moreItems (expect .identifier .noParameterName) .tooManyParameters bound count)
        (comma.1 :: (ps.word ++ rest)) ps.names rest (ps.marks count) := by
  induction ps with
  | last name =>
    intro count bound comma hb
    cases bound with
    | nil => simp at hb
    | cons b bound => exact reads_moreItems_last comma b (reads_nextParameter name count rest) hr
  | more name comma' others ih =>
    intro count bound comma hb
    cases bound with
    | nil => simp at hb
    | cons b bound =>
      exact reads_moreItems_cons comma b (reads_nextParameter name count _)
        (ih (count + 1) bound comma' (by simp [word] at hb ⊢; omega))

theorem Parameters.reads (ps : Parameters) (hr : ∀ t ∈ rest.head?, t.kind ≠ .comma) :
    Reads (items (expect .identifier .noParameterName) .tooManyParameters) (ps.word ++ rest) ps.names rest
      (ps.marks 0) := by
  cases ps with
  | last name =>
    rw [marks, excess_zero]
    exact (Reads.expect name _ rest).then_bind
      ((Reads.here rest).then_bind ((reads_moreItems_nil rest hr).then_bind (.pure _ _)))
  | more name comma others =>
    rw [marks, excess_zero]
    exact (Reads.expect name _ _).then_bind ((Reads.here _).then_bind
      ((others.reads_more hr 1 _ comma (by simp)).bind_last (.pure _ _)))

theorem reads_parameters (ps : Option Parameters) (closing : Terminal .rightParen) (rest : List Token) :
    Reads (itemsBeforeParen (expect .identifier .noParameterName) .tooManyParameters)
      (ps.elim [] Parameters.word ++ closing.1 :: rest) (ps.elim [] Parameters.names) (closing.1 :: rest)
      (ps.elim [] (·.marks 0)) := by
  cases ps with
  | none => exact reads_itemsBeforeParen_nil closing
  | some ps =>
    have hr : ∀ t ∈ (closing.1 :: rest).head?, t.kind ≠ .comma := by simp [closing.2]
    have h := ps.reads hr
    obtain ⟨t, w, hw, ht⟩ := ps.word_eq_cons
    simp only [Option.elim_some]
    rw [hw] at h ⊢
    exact reads_itemsBeforeParen (by simp [ht]) h

/-! ## Clauses -/

/-- The readers for what stands inside a statement or a declaration of `n + 1` levels. -/
def insideOf (n : Nat) : Inner := ⟨Parse.expression (n + 1), Parse.statement n, Parse.declaration n⟩

theorem reads_superclass (s : Option (Terminal .less × Terminal .identifier)) (opening : Terminal .leftBrace)
    (rest : List Token) :
    Reads superclass (superclassWord s ++ opening.1 :: rest) (s.map (·.2.1)) (opening.1 :: rest) [] := by
  cases s with
  | none => exact (Steps.whenNext_none (by simp [superclassWord, opening.2])).then_reads (.pure none _)
  | some s =>
    exact (Steps.whenNext (by rw [s.1.2]; rfl) _).then_reads ((Reads.expect s.2 _ _).map some)

theorem reads_optional {k : TokenKind} (e : Option (Phrase .expression)) (closing : Terminal k)
    (hk : startsExpression k = false) (hs : strength k = 0) (rest : List Token)
    (h : (optionalWord e ++ closing.1 :: rest).length ≤ n) :
    Reads (expressionUnless (insideOf n) k) (optionalWord e ++ closing.1 :: rest) (e.map Phrase.tree)
      (closing.1 :: rest) (optionalMarks e) := by
  cases e with
  | none => exact reads_expressionUnless_none closing rest
  | some e =>
    have he := e.reads h (Category.stops_terminal _ closing hs rest)
    obtain ⟨t, w, hw, ht⟩ := e.word_eq_cons
    simp only [optionalWord, Option.elim_some]
    rw [hw] at he ⊢
    exact reads_expressionUnless_some (fun hk' => by rw [hk'] at ht; exact Bool.false_ne_true (hk.symm.trans ht)) he

theorem VarDeclaration.reads (d : VarDeclaration) (h : (d.word ++ rest).length ≤ n) :
    Reads (varDeclaration (insideOf n)) (d.word.tail ++ rest) d.tree rest d.marks := by
  obtain ⟨keyword, name, value, semicolon⟩ := d
  simp only [word, List.tail_cons, List.cons_append, List.append_assoc, List.nil_append] at h ⊢
  refine reads_varDeclaration name semicolon ?_
  cases value with
  | none => exact (Steps.whenNext_none (by simp [semicolon.2])).then_reads (.pure none _)
  | some value =>
    simp at h
    refine (Steps.whenNext (by rw [value.1.2]; rfl) _).then_reads (Reads.map ?_ some)
    exact value.2.reads (by simp; omega) (Category.stops_terminal _ semicolon rfl rest)

theorem Initializer.reads (i : Initializer) (rest : List Token) (h : (i.word ++ rest).length ≤ n) :
    Reads (loopInitializer (insideOf n)) (i.word ++ rest) i.tree rest i.marks := by
  cases i with
  | none semicolon =>
    have h : initializerRule (insideOf n) semicolon.1 = some (Parse.pure Option.none) := by
      unfold initializerRule; rw [semicolon.2]
    exact (Steps.dispatch h rest).then_reads (.pure _ _)
  | var d =>
    have hd : initializerRule (insideOf n) d.keyword.1 = some (some <$> varDeclaration (insideOf n)) := by
      unfold initializerRule; rw [d.keyword.2]
    exact (Steps.dispatch hd _).then_reads ((d.reads h).map some)
  | expression e semicolon =>
    simp only [word, List.append_assoc, List.cons_append, List.nil_append] at h ⊢
    have he := e.reads h (Category.stops_terminal _ semicolon rfl rest)
    refine (Steps.dispatch_none ?_).then_reads ((reads_expressionStatement semicolon he).map some)
    intro t ht
    obtain ⟨t', w, hw, hs⟩ := e.word_eq_cons
    rw [hw] at ht
    obtain rfl : t' = t := by simpa using ht
    unfold initializerRule
    cases hk : t'.kind <;> rw [hk] at hs <;> first | rfl | exact absurd hs (by decide)

/-- No `else` is next. -/
def NoElse (rest : List Token) : Prop := ∀ t ∈ rest.head?, t.kind ≠ .kwElse

theorem noElse_terminal {k : TokenKind} (t : Terminal k) (hk : k ≠ .kwElse) (rest : List Token) :
    NoElse (t.1 :: rest) := by
  simpa [NoElse, t.2] using hk

/-- What may stand behind a derivation: no `else` behind an open one, or behind a program. -/
def Clause.Admits {p : Part} (d : Clause p) (rest : List Token) : Prop :=
  match p, d with
  | .program, _ => NoElse rest
  | .declaration, d => d.isOpen = true → NoElse rest
  | .statement, d => d.isOpen = true → NoElse rest
  | .function, _ => True
  | .methods, _ => ∀ t ∈ rest.head?, t.kind = .rightBrace

/-- The reading of a derivation, `n` levels followed inside. A loop that reads a program
    goes on behind it. -/
def Clause.Read {p : Part} (d : Clause p) (n : Nat) (rest : List Token) : Prop :=
  match p, d with
  | .program, d => ∀ (stop : TokenKind → Bool) (bound : List Token),
      (∀ k, startsDeclaration k = true → stop k = false) → (d.word ++ rest).length ≤ bound.length →
      ∃ bound' : List Token, rest.length ≤ bound'.length ∧
        Steps (repeatUntil stop (Option.toList <$> Parse.declaration (n + 1)) bound) (d.word ++ rest)
          ((d.tree ++ ·) <$> repeatUntil stop (Option.toList <$> Parse.declaration (n + 1)) bound') rest d.marks
  | .declaration, d => Reads (declarationForm (insideOf n)) (d.word ++ rest) d.tree rest d.marks
  | .statement, d => Reads (statementForm (insideOf n)) (d.word ++ rest) d.tree rest d.marks
  | .function, d => ∀ what, Reads (Parse.function (insideOf n) what) (d.word ++ rest) d.tree rest d.marks
  | .methods, d => ∀ bound : List Token, (d.word ++ rest).length ≤ bound.length →
      Reads (repeatUntil (· == .rightBrace) ((fun f => [f]) <$> Parse.function (insideOf n) "method") bound)
        (d.word ++ rest) d.tree rest d.marks

theorem reads_declaration {d : Clause .declaration} {t : Token} {w : List Token} {p : Parse Stmt} (hw : d.word = t :: w)
    (hr : declarationRule (insideOf n) t = some p) (h : Reads p (w ++ rest) d.tree rest d.marks) : d.Read n rest := by
  simp only [Clause.Read]
  rw [hw]
  exact (Steps.dispatch hr _).then_reads h

theorem reads_statement {s : Clause .statement} {t : Token} {w : List Token} {p : Parse Stmt} (hw : s.word = t :: w)
    (hr : statementRule (insideOf n) t = some p) (h : Reads p (w ++ rest) s.tree rest s.marks) : s.Read n rest := by
  simp only [Clause.Read]
  rw [hw]
  exact (Steps.dispatch hr _).then_reads h

theorem Clause.Read.statement {s : Clause .statement} (h : s.Read n rest) :
    Reads (Parse.statement (n + 1)) (s.word ++ rest) s.tree rest s.marks := h

/-- No declaration begins with a closing brace. -/
theorem startsDeclaration_ne_rightBrace : ∀ k, startsDeclaration k = true → (k == .rightBrace) = false := by
  intro k hk
  cases k <;> first | rfl | exact absurd hk (by decide)

theorem reads_body {body : Clause .program} (closing : Terminal .rightBrace) (h : body.Read n (closing.1 :: rest)) :
    Reads (block (insideOf (n + 1))) (body.word ++ closing.1 :: rest) body.tree rest body.marks := by
  obtain ⟨bound', -, h⟩ := h (· == .rightBrace) (body.word ++ closing.1 :: rest) startsDeclaration_ne_rightBrace
    (Nat.le_refl _)
  exact reads_block closing h (reads_repeatUntil_stop bound' (by simp [closing.2]))

theorem read_nil (n : Nat) (rest : List Token) : Clause.nil.Read n rest := by
  intro stop bound _ hb
  exact ⟨bound, hb, .of_eq (by rw [map_id' (by simp [Clause.tree])]; rfl)⟩

theorem read_cons {first : Clause .declaration} {others : Clause .program} (h : first.Read n (others.word ++ rest))
    (h' : others.Read n rest) : (Clause.cons first others).Read n rest := by
  intro stop bound hs hb
  obtain ⟨t, w, hw, ht⟩ := first.declaration_word_eq_cons
  simp only [Clause.word, hw, List.cons_append, List.append_assoc] at hb ⊢
  cases bound with
  | nil => simp at hb
  | cons b bound =>
    obtain ⟨bound', hb', h'⟩ := h' stop bound hs (by simp at hb ⊢; omega)
    refine ⟨bound', hb', ?_⟩
    have hf : Reads (Option.toList <$> Parse.declaration (n + 1)) (t :: (w ++ (others.word ++ rest))) [first.tree]
        (others.word ++ rest) first.marks := by
      have := (Reads.recover h).map Option.toList
      rwa [hw] at this
    have := (steps_repeatUntil (hs _ ht) b bound hf).trans (h'.map ([first.tree] ++ ·))
    rwa [map_map] at this

theorem read_moreMethods {f : Clause .function} {others : Clause .methods} (h : f.Read n (others.word ++ rest))
    (h' : others.Read n rest) : (Clause.moreMethods f others).Read n rest := by
  intro bound hb
  have hf := (h "method").map fun f => [f]
  obtain ⟨t, w, hw, ht⟩ := f.function_word_eq_cons
  simp only [Clause.word, hw, List.cons_append, List.append_assoc] at hb hf ⊢
  cases bound with
  | nil => simp at hb
  | cons b bound =>
    exact (steps_repeatUntil (by rw [ht]; rfl) b bound hf).reads ((h' bound (by simp at hb ⊢; omega)).map _)

/-! ## Readings of the parts -/

section Parts

variable {e : Phrase .expression} {opening : Terminal .leftParen} {closing : Terminal .rightParen}
  {semicolon : Terminal .semicolon}

theorem read_class {keyword : Terminal .kwClass} {name : Terminal .identifier}
    {superclass : Option (Terminal .less × Terminal .identifier)} {opening : Terminal .leftBrace}
    {methods : Clause .methods} {closing : Terminal .rightBrace} (hm : methods.Read n (closing.1 :: rest)) :
    (Clause.class keyword name superclass opening methods closing).Read n rest := by
  refine reads_declaration rfl (by unfold declarationRule; rw [keyword.2]) ?_
  simp only [List.cons_append, List.append_assoc, List.nil_append]
  exact reads_class name opening closing (reads_superclass superclass opening _) (hm _ (Nat.le_refl _))

theorem read_fun {keyword : Terminal .kwFun} {f : Clause .function} (hf : f.Read n rest) :
    (Clause.fun keyword f).Read n rest := by
  have hr : declarationRule (insideOf n) keyword.1 =
      some (Stmt.function <$> Parse.function (insideOf n) "function") := by
    unfold declarationRule; rw [keyword.2]
  exact reads_declaration rfl hr ((hf "function").map _)

theorem read_statement {s : Clause .statement} (hs : s.Read n rest) : (Clause.statement s).Read n rest := by
  obtain ⟨t, w, hw, ht⟩ := s.statement_word_eq_cons
  refine (Steps.dispatch_none ?_).then_reads hs
  intro t' ht'
  obtain rfl : t = t' := by simpa [Clause.word, hw] using ht'
  unfold declarationRule
  cases hk : t.kind <;> rw [hk] at ht <;> first | rfl | exact absurd ht (by decide)

theorem read_function {name : Terminal .identifier} {parameters : Option Parameters}
    {bodyOpening : Terminal .leftBrace} {body : Clause .program} {bodyClosing : Terminal .rightBrace}
    (hb : body.Read n (bodyClosing.1 :: rest)) :
    (Clause.function name opening parameters closing bodyOpening body bodyClosing).Read (n + 1) rest := by
  intro what
  simp only [Clause.word, List.cons_append, List.append_assoc, List.nil_append]
  exact reads_function name opening closing bodyOpening (reads_parameters parameters closing _)
    (reads_body bodyClosing hb)

theorem read_expression (h : ((Clause.expression e semicolon).word ++ rest).length ≤ n) :
    (Clause.expression e semicolon).Read n rest := by
  simp only [Clause.Read, Clause.word, List.append_assoc, List.cons_append, List.nil_append] at h ⊢
  have he := e.reads h (Category.stops_terminal _ semicolon rfl rest)
  obtain ⟨t, w, hw, hs⟩ := e.word_eq_cons
  refine (Steps.dispatch_none ?_).then_reads (reads_expressionStatement semicolon he)
  intro t' ht
  obtain rfl : t = t' := by simpa [hw] using ht
  unfold statementRule
  cases hk : t.kind <;> rw [hk] at hs <;> first | rfl | exact absurd hs (by decide)

theorem read_print {keyword : Terminal .kwPrint} (h : ((Clause.print keyword e semicolon).word ++ rest).length ≤ n) :
    (Clause.print keyword e semicolon).Read n rest := by
  simp only [Clause.word, List.append_assoc, List.cons_append, List.nil_append] at h
  have he := e.reads (n := n) (by simp at h ⊢; omega) (Category.stops_terminal _ semicolon rfl rest)
  refine reads_statement rfl (by unfold statementRule; rw [keyword.2]) ?_
  simp only [List.append_assoc, List.cons_append, List.nil_append]
  exact reads_print semicolon he

theorem read_return {keyword : Terminal .kwReturn} {e : Option (Phrase .expression)}
    (h : ((Clause.return keyword e semicolon).word ++ rest).length ≤ n) :
    (Clause.return keyword e semicolon).Read n rest := by
  simp only [Clause.word, List.append_assoc, List.cons_append, List.nil_append] at h
  have he := reads_optional (n := n) e semicolon rfl rfl rest (by simp at h ⊢; omega)
  refine reads_statement rfl (by unfold statementRule; rw [keyword.2]) ?_
  simp only [List.append_assoc, List.cons_append, List.nil_append]
  exact reads_return keyword.1 semicolon he

theorem read_block {opening : Terminal .leftBrace} {body : Clause .program} {closing : Terminal .rightBrace}
    (hb : body.Read n (closing.1 :: rest)) : (Clause.block opening body closing).Read (n + 1) rest := by
  have hr : statementRule (insideOf (n + 1)) opening.1 = some (Stmt.block <$> Parse.block (insideOf (n + 1))) := by
    unfold statementRule; rw [opening.2]
  refine reads_statement rfl hr (Reads.map ?_ _)
  simp only [List.append_assoc, List.cons_append, List.nil_append]
  exact reads_body closing hb

variable {condition : Phrase .expression} {s s' : Clause .statement}

/-- The condition in the parentheses behind a keyword. -/
theorem reads_condition {keyword : Token} (h : (keyword :: opening.1 ::
    (condition.word ++ closing.1 :: rest)).length ≤ n + 1) :
    Reads (insideOf (n + 1)).expression (condition.word ++ closing.1 :: rest) condition.tree (closing.1 :: rest)
      condition.marks :=
  condition.reads (n := n + 1) (by simp at h ⊢; omega) (Category.stops_terminal _ closing rfl rest)

theorem read_while {keyword : Terminal .kwWhile}
    (h : ((Clause.while keyword opening condition closing s).word ++ rest).length ≤ n + 1) (hb : s.Read n rest) :
    (Clause.while keyword opening condition closing s).Read (n + 1) rest := by
  simp only [Clause.word, List.append_assoc, List.cons_append] at h
  refine reads_statement rfl (by unfold statementRule; rw [keyword.2]) ?_
  simp only [List.append_assoc, List.cons_append]
  exact reads_while opening closing (reads_condition h) hb

theorem read_ifThen {keyword : Terminal .kwIf}
    (h : ((Clause.ifThen keyword opening condition closing s).word ++ rest).length ≤ n + 1) (ht : s.Read n rest)
    (hr : NoElse rest) : (Clause.ifThen keyword opening condition closing s).Read (n + 1) rest := by
  simp only [Clause.word, List.append_assoc, List.cons_append] at h
  refine reads_statement rfl (by unfold statementRule; rw [keyword.2]) ?_
  simp only [List.append_assoc, List.cons_append]
  exact reads_ifThen opening closing (reads_condition h) ht hr

theorem read_ifElse {keyword : Terminal .kwIf} {otherwise : Terminal .kwElse}
    (h : ((Clause.ifElse keyword opening condition closing s otherwise s').word ++ rest).length ≤ n + 1)
    (ht : s.Read n (otherwise.1 :: (s'.word ++ rest))) (he : s'.Read n rest) :
    (Clause.ifElse keyword opening condition closing s otherwise s').Read (n + 1) rest := by
  simp only [Clause.word, List.append_assoc, List.cons_append] at h
  refine reads_statement rfl (by unfold statementRule; rw [keyword.2]) ?_
  simp only [List.append_assoc, List.cons_append]
  exact reads_ifElse opening closing otherwise (reads_condition h) ht he

theorem read_for {keyword : Terminal .kwFor} {initializer : Initializer}
    {condition increment : Option (Phrase .expression)}
    (h : ((Clause.for keyword opening initializer condition semicolon increment closing s).word ++ rest).length ≤
      n + 1)
    (hb : s.Read n rest) :
    (Clause.for keyword opening initializer condition semicolon increment closing s).Read (n + 1) rest := by
  simp only [Clause.word, List.append_assoc, List.cons_append] at h
  have hi := initializer.reads (n := n + 1) (optionalWord condition ++
    semicolon.1 :: (optionalWord increment ++ closing.1 :: (s.word ++ rest))) (by simp at h ⊢; omega)
  have hc := reads_optional (n := n + 1) condition semicolon rfl rfl
    (optionalWord increment ++ closing.1 :: (s.word ++ rest)) (by simp at h ⊢; omega)
  have hn := reads_optional (n := n + 1) increment closing rfl rfl (s.word ++ rest) (by simp at h ⊢; omega)
  refine reads_statement rfl (by unfold statementRule; rw [keyword.2]) ?_
  simp only [List.append_assoc, List.cons_append]
  exact reads_for opening semicolon closing hi hc hn hb

end Parts

theorem pos_of_length_cons {α : Type} {x : α} {xs ys : List α} (h : (x :: xs ++ ys).length ≤ n) : ∃ m, n = m + 1 :=
  ⟨n - 1, by simp at h; omega⟩

/-- Every part of a program is read; the induction is on its derivation. -/
theorem Clause.reads {p : Part} (d : Clause p) : ∀ {n : Nat} {rest : List Token}, (d.word ++ rest).length ≤ n →
    d.NearestElse → d.Admits rest → d.Read n rest := by
  induction d with
  | nil => exact fun _ _ _ => read_nil _ _
  | cons first others ih1 ih2 =>
    intro n rest h hn ha
    rw [word, List.append_assoc] at h
    refine read_cons (ih1 h hn.1 ?_) (ih2 (by simp at h ⊢; omega) hn.2 ha)
    intro _
    cases others with
    | nil => exact ha
    | cons next others =>
      obtain ⟨t, w, hw, hs⟩ := next.declaration_word_eq_cons
      intro t' ht hk
      obtain rfl : t = t' := by simpa [word, hw] using ht
      rw [hk] at hs
      exact absurd hs (by decide)
  | «class» keyword name superclass opening methods closing ih =>
    intro n rest h hn _
    exact read_class (ih (by simp [word] at h ⊢; omega) hn (by simp [Admits, closing.2]))
  | «fun» keyword f ih =>
    intro n rest h hn _
    exact read_fun (ih (by simp [word] at h ⊢; omega) hn trivial)
  | var d =>
    intro n rest h _ _
    exact reads_declaration rfl (by unfold declarationRule; rw [d.keyword.2]) (d.reads h)
  | statement s ih => exact fun h hn ha => read_statement (ih h hn ha)
  | function name opening parameters closing bodyOpening body bodyClosing ih =>
    intro n rest h hn _
    obtain ⟨n, rfl⟩ := pos_of_length_cons h
    exact read_function (ih (by simp [word] at h ⊢; omega) hn (noElse_terminal bodyClosing (by decide) rest))
  | noMethods => exact fun _ _ ha bound _ => reads_repeatUntil_stop bound (by simpa [word, Admits] using ha)
  | moreMethods f others ih1 ih2 =>
    intro n rest h hn ha
    rw [word, List.append_assoc] at h
    exact read_moreMethods (ih1 h hn.1 trivial) (ih2 (by simp at h ⊢; omega) hn.2 ha)
  | expression e semicolon => exact fun h _ _ => read_expression h
  | print keyword e semicolon => exact fun h _ _ => read_print h
  | «return» keyword e semicolon => exact fun h _ _ => read_return h
  | block opening body closing ih =>
    intro n rest h hn _
    obtain ⟨n, rfl⟩ := pos_of_length_cons h
    exact read_block (ih (by simp [word] at h ⊢; omega) hn (noElse_terminal closing (by decide) rest))
  | «while» keyword opening condition closing body ih =>
    intro n rest h hn ha
    obtain ⟨n, rfl⟩ := pos_of_length_cons h
    exact read_while h (ih (by simp [word] at h ⊢; omega) hn ha)
  | ifThen keyword opening condition closing thenBranch ih =>
    intro n rest h hn ha
    obtain ⟨n, rfl⟩ := pos_of_length_cons h
    exact read_ifThen h (ih (by simp [word] at h ⊢; omega) hn fun _ => ha rfl) (ha rfl)
  | ifElse keyword opening condition closing thenBranch otherwise elseBranch ih1 ih2 =>
    intro n rest h hn ha
    obtain ⟨n, rfl⟩ := pos_of_length_cons h
    have hclosed : thenBranch.Admits (otherwise.1 :: (elseBranch.word ++ rest)) :=
      fun ho => Bool.noConfusion (hn.1.symm.trans ho)
    exact read_ifElse h (ih1 (by simp [word] at h ⊢; omega) hn.2.1 hclosed)
      (ih2 (by simp [word] at h ⊢; omega) hn.2.2 ha)
  | «for» keyword opening initializer condition semicolon increment closing body ih =>
    intro n rest h hn ha
    obtain ⟨n, rfl⟩ := pos_of_length_cons h
    exact read_for h (ih (by simp [word] at h ⊢; omega) hn ha)

/-- A program in front of more is read, and reading goes on behind it. -/
theorem program_steps {d : Clause .program} {depth : Nat} (h : (d.word ++ rest).length < depth) (hn : d.NearestElse)
    (hr : NoElse rest) : ∃ bound : List Token, rest.length ≤ bound.length ∧
      Steps (Parse.program depth) (d.word ++ rest)
        ((d.tree ++ ·) <$> repeatUntil (fun _ => false) (Option.toList <$> Parse.declaration depth) bound) rest
        d.marks := by
  cases depth with
  | zero => exact absurd h (Nat.not_lt_zero _)
  | succ n =>
    exact d.reads (Nat.le_of_lt_succ h) hn hr (fun _ => false) (d.word ++ rest) (fun _ _ => rfl) (Nat.le_refl _)

theorem reads_program {d : Clause .program} {depth : Nat} (h : d.word.length < depth) (hn : d.NearestElse) :
    Reads (Parse.program depth) d.word d.tree [] d.marks := by
  have hr : NoElse [] := by simp [NoElse]
  obtain ⟨bound, -, hs⟩ := program_steps (by simpa using h) hn hr
  simpa using hs.last ((reads_repeatUntil_stop bound (by simp)).map (d.tree ++ ·))

end LoxSyntax.Grammar
