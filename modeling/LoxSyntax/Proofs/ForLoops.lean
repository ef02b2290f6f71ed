/-
  LoxSyntax.Proofs.ForLoops — a `for` loop is read as the loop that it stands for.

  A statement that is read without a report is derived, with each `else` at the nearest
  `if`, and an open one does not leave an `else` behind it: it would have taken it, as it
  does in front of any statement. So the body of a `for` loop ends at the same token where
  an increment and a brace stand behind it, and the loop written by hand is read where the
  `for` loop was, with the same tree.

  - `admits_of_reads`: what is left behind a statement may stand there.
  - `exists_nearest_of_reads`: the derivation of a statement that is read.
  - `forLoop_byHand`: a `for` loop and the loop written by hand, as statements in front of
    anything and at the beginning of any program.
-/

import LoxSyntax.Proofs.Grammar.ForLoop
import LoxSyntax.Proofs.Concatenation

namespace LoxSyntax

open Grammar Parse

variable {ts rest : List Token} {s : Stmt} {depth : Nat} {d : Clause .statement}

/-! ## Statements that are read -/

theorem of_run_map {α β : Type} {p : Parse α} {f : α → β} {rs : List Report} {b : β}
    (h : (f <$> p) ts = ⟨rs, .value b rest⟩) : ∃ a, p ts = ⟨rs, .value a rest⟩ ∧ f a = b := by
  change (p >>= fun a => Parse.pure (f a)) ts = _ at h
  rw [run_bind] at h
  cases hp : p ts with
  | mk rs' o =>
  rw [hp] at h
  cases o with
  | value a rest' =>
    simp only [Parse.pure, List.append_nil, Parsed.mk.injEq, Outcome.value.injEq] at h
    obtain ⟨rfl, rfl, rfl⟩ := h
    exact ⟨a, rfl, rfl⟩
  | abandoned _ | tooDeep _ => cases h

/-- What a reader steps to gives its value, and nothing was reported on the way. -/
theorem Parse.Steps.run_of_value {α : Type} {p q : Parse α} {mid : List Token} {ms : List Mark} {a : α}
    (h : Steps p ts q mid ms) (hp : p ts = ⟨[], .value a rest⟩) : ms = [] ∧ q mid = ⟨[], .value a rest⟩ := by
  obtain ⟨rs, hm, h⟩ := h
  rw [Runs, hp] at h
  cases hq : q mid with
  | mk rs' o =>
  rw [hq] at h
  obtain ⟨hreports, rfl⟩ := Parsed.mk.inj h
  obtain ⟨hrs, rfl⟩ := List.append_eq_nil_iff.1 hreports.symm
  exact ⟨hm.eq_nil_iff.1 hrs, rfl⟩

theorem run_statement (hn : d.NearestElse) (hd : d.Documented) (ha : d.Admits rest)
    (hl : (d.word ++ rest).length < depth) : Parse.statement depth (d.word ++ rest) = ⟨[], .value d.tree rest⟩ := by
  obtain ⟨n, rfl⟩ := Nat.exists_eq_succ_of_ne_zero (Nat.ne_zero_of_lt hl)
  have h := (d.reads (Nat.le_of_lt_succ hl) hn ha).statement
  rw [d.documented_iff.1 hd] at h
  exact h.run

/-- A statement that leaves an `else` is not open. -/
theorem admits_of_reads {rs : List Report} (hn : d.NearestElse) (hl : (d.word ++ rest).length < depth)
    (h : Parse.statement depth (d.word ++ rest) = ⟨rs, .value s rest⟩) : d.Admits rest := by
  intro ho t ht he
  obtain ⟨more, rfl⟩ := List.head?_eq_some_iff.1 ht
  -- behind the `else` a statement is put that can be read: the open one takes both
  let otherwise : Terminal .kwElse := ⟨t, he⟩
  let branch : Clause .statement := .return ⟨.bare .kwReturn "return", rfl⟩ none ⟨.bare .semicolon ";", rfl⟩
  let front := d.word ++ [t]
  have htaken : (d.takeElse otherwise branch).word ++ [] = front ++ branch.word := by
    rw [Clause.word_takeElse ho, List.append_nil, List.append_assoc]
    rfl
  have hbranch : branch.NearestElse := trivial
  have hadmits : (d.takeElse otherwise branch).Admits [] := fun _ => by simp [NoElse]
  have hreads := (d.takeElse otherwise branch).reads (Nat.le_refl _) (Clause.nearestElse_takeElse hbranch ho hn) hadmits
  obtain ⟨rs', -, hread⟩ := hreads.statement
  rw [htaken] at hread
  -- up to the `else` there is no difference to what stands there
  have ha : Alike more branch.word (front.length + 1) (Parse.statement depth)
      (Parse.statement ((front ++ branch.word).length + 1)) :=
    (alike_levels (by simp [front] at hl ⊢; omega) (by simp; omega)).1
  have htogether := ha.at (x := front) (Nat.lt_succ_self _)
  rw [hread, List.append_assoc, List.singleton_append, h] at htogether
  generalize hs : (Outcome.value s (t :: more) : Outcome Stmt) = o at htogether
  generalize hs' : (Outcome.value (d.takeElse otherwise branch).tree [] : Outcome Stmt) = o' at htogether
  cases htogether with
  | value x a hsame =>
    cases x <;> cases hs'
  | abandoned x hsame => cases hs
  | apart _ _ hpast _ =>
    have hpast := hpast (t :: more) (by rw [← hs]; rfl)
    exact absurd hpast (Nat.not_succ_le_self _)

/-- A statement that is read without a report is derived. -/
theorem exists_nearest_of_reads (hl : ts.length < depth) (h : Parse.statement depth ts = ⟨[], .value s rest⟩) :
    ∃ d : Clause .statement, ts = d.word ++ rest ∧ d.tree = s ∧ d.NearestElse ∧ d.Documented ∧ d.Admits rest := by
  have hm := (sound_insideOf depth).statement.meets ts hl
  change Meets _ _ _ ts (Parse.statement depth ts) at hm
  rw [h] at hm
  generalize hP : (⟨[], .value s rest⟩ : Parsed Stmt) = P at hm
  cases hm with
  | broken => simp at hP
  | read hw hmarks hword _ =>
    cases hP
    obtain ⟨d, rfl, -, rfl⟩ := hword
    have hd : d.nearest.Documented := Clause.documented_nearest (d.documented_iff.2 (hmarks.eq_nil_iff.1 rfl))
    rw [← d.word_nearest] at hw
    subst hw
    have ha := admits_of_reads d.nearestElse_nearest hl h
    have hr := run_statement d.nearestElse_nearest hd ha hl
    rw [h] at hr
    cases hr
    exact ⟨d.nearest, rfl, rfl, d.nearestElse_nearest, hd, ha⟩

/-- A statement at the beginning of a program, and the rest of the program. -/
theorem TokenList.parse_statement {l : TokenList} (hn : d.NearestElse) (hd : d.Documented) (ha : d.Admits l.body) :
    (TokenList.mk (d.word ++ l.body) l.eof).parse = ⟨d.tree :: l.parse.statements, l.parse.diagnostics⟩ := by
  obtain ⟨rs, statements, hq, hl⟩ := l.exists_reading
  have hread : Reads (Parse.declaration ((d.word ++ l.body).length + 1)) (d.word ++ l.body) (some d.tree) l.body
      d.marks :=
    Reads.recover (read_statement (d.reads (Nat.le_refl _) hn ha))
  rw [d.documented_iff.1 hd] at hread
  have hrun := hread.run
  have hp : Parse.program ((d.word ++ l.body).length + 1) (d.word ++ l.body) =
      ⟨rs, .value (d.tree :: statements) []⟩ := by
    obtain ⟨t, w, hw, -⟩ := d.statement_word_eq_cons
    rw [hw, List.cons_append] at hrun ⊢
    have hmore : repeatUntil (fun _ => false) (Option.toList <$> Parse.declaration _) (w ++ l.body) l.body =
        Parse.program (l.body.length + 1) l.body :=
      declarations_eq_program (n := (t :: (w ++ l.body)).length + 1) (by simp; omega) (by simp)
    exact (program_cons hrun).value (run_map ([d.tree] ++ ·) (hmore.trans hq))
  rw [hl, TokenList.parse_eq (l := ⟨_, l.eof⟩) rfl hp]

theorem parseTokens_statement (hn : d.NearestElse) (hd : d.Documented) (ha : d.Admits rest)
    (hrest : ∀ t ∈ rest, t.kind ≠ .eof) (eof : Terminal .eof) :
    parseTokens (d.word ++ (rest ++ [eof.1])) =
      .ok ⟨d.tree :: (TokenList.mk rest eof.1).parse.statements, (TokenList.mk rest eof.1).parse.diagnostics⟩ := by
  have hword : ∀ t ∈ d.word ++ rest, t.kind ≠ .eof := List.forall_mem_append.2 ⟨d.kind_ne_eof, hrest⟩
  rw [← List.append_assoc, parseTokens_of_ofTokens? (ofTokens?_append_eof hword eof)]
  exact congrArg Except.ok (TokenList.parse_statement (l := ⟨rest, eof.1⟩) hn hd ha)

/-! ## Loops -/

namespace Grammar.ForLoop

variable {f : ForLoop} {body : List Token}

def marks (f : ForLoop) : List Mark :=
  f.initializer.marks ++ (optionalMarks f.condition ++ optionalMarks f.increment)

/-- Behind the clauses the body is read. -/
theorem steps {n : Nat} (h : (f.word body ++ rest).length ≤ n + 1) :
    Steps (Parse.statement (n + 1)) (f.word body ++ rest)
      (Stmt.forLoop f.initializer.tree (f.condition.map Phrase.tree) (f.increment.map Phrase.tree) <$>
        Parse.statement n) (body ++ rest) f.marks := by
  simp only [word, List.cons_append, List.append_assoc] at h ⊢
  have hi := f.initializer.reads (n := n) (optionalWord f.condition ++
    f.semicolon.1 :: (optionalWord f.increment ++ f.closing.1 :: (body ++ rest))) (by simp at h ⊢; omega)
  have hc := reads_optional (n := n) f.condition f.semicolon rfl rfl
    (optionalWord f.increment ++ f.closing.1 :: (body ++ rest)) (by simp at h ⊢; omega)
  have hn := reads_optional (n := n) f.increment f.closing rfl rfl (body ++ rest) (by simp at h ⊢; omega)
  have hrule : statementRule (insideOf n) f.keyword.1 = some (forStatement (insideOf n)) := by
    unfold statementRule; rw [f.keyword.2]
  show Steps _ _ _ _
    ([] ++ ([] ++ (f.initializer.marks ++ (optionalMarks f.condition ++ ([] ++ optionalMarks f.increment)))))
  refine (Steps.dispatch hrule _).trans ?_
  refine ((Reads.expect f.opening _ _).steps _).trans ?_
  refine (hi.steps _).trans ((hc.steps _).trans ?_)
  refine ((Reads.expect f.semicolon _ _).steps _).trans ?_
  exact (hn.steps _).trans_last ((Reads.expect f.closing _ _).steps _)

theorem admits_clauseByHand {d : Clause .statement} (ha : d.Admits rest) (g : LoopTokens) :
    (f.clauseByHand g d).Admits rest :=
  fun h => ha (isOpen_of_clauseByHand g h)

/-- The body of a loop that is read without a report is derived, and so is the loop. -/
theorem exists_body (hl : (f.word body ++ rest).length < depth)
    (h : Parse.statement depth (f.word body ++ rest) = ⟨[], .value s rest⟩) : ∃ d : Clause .statement,
      d.word = body ∧ (f.clause d).tree = s ∧ d.NearestElse ∧ (f.clause d).Documented ∧ d.Admits rest := by
  obtain ⟨n, rfl⟩ := Nat.exists_eq_succ_of_ne_zero (Nat.ne_zero_of_lt hl)
  obtain ⟨hmarks, hvalue⟩ := (f.steps (Nat.le_of_lt hl)).run_of_value h
  obtain ⟨a, hbody, rfl⟩ := of_run_map hvalue
  obtain ⟨d, hw, rfl, hn, hd, ha⟩ := exists_nearest_of_reads (by simp [word] at hl ⊢; omega) hbody
  refine ⟨d, (List.append_cancel_right hw).symm, rfl, hn, (Clause.documented_iff _).2 ?_, ha⟩
  simp only [marks, List.append_eq_nil_iff] at hmarks
  simp [clause, Clause.marks, hmarks, d.documented_iff.1 hd]

end Grammar.ForLoop

/-- What begins with `for` and is read without a report is a loop of that form. -/
theorem exists_forLoop {t : Token} (ht : t.kind = .kwFor) (hl : (t :: ts).length < depth)
    (h : Parse.statement depth (t :: ts) = ⟨[], .value s rest⟩) :
    ∃ (f : ForLoop) (body : List Token), t :: ts = f.word body ++ rest := by
  obtain ⟨d, hw, -⟩ := exists_nearest_of_reads hl h
  obtain ⟨t', w, hw', hs⟩ := d.statement_word_eq_cons
  cases d with
  | «for» keyword opening initializer condition semicolon increment closing body =>
    exact ⟨⟨keyword, opening, initializer, condition, semicolon, increment, closing⟩, body.word, hw⟩
  | expression e semicolon =>
    obtain ⟨t', w, he, hs⟩ := e.word_eq_cons
    rw [Clause.word, he] at hw
    obtain ⟨rfl, -⟩ := List.cons.inj hw
    rw [ht] at hs
    cases hs
  | print keyword | «return» keyword | «while» keyword | ifThen keyword | ifElse keyword | block keyword =>
    obtain ⟨rfl, -⟩ := List.cons.inj hw
    exact absurd (ht.symm.trans keyword.2) (by decide)

/-- A `for` loop that is read without a report is read as the loop written by hand: as a
    statement in front of anything, and at the beginning of a program. -/
theorem forLoop_byHand {t : Token} (ht : t.kind = .kwFor) (hl : (t :: ts).length < depth)
    (h : Parse.statement depth (t :: ts) = ⟨[], .value s rest⟩) :
    (∃ (f : ForLoop) (body : List Token), t :: ts = f.word body ++ rest) ∧
    ∀ (f : ForLoop) (body : List Token) (g : LoopTokens), t :: ts = f.word body ++ rest →
      (∀ depth', (f.byHand g body ++ rest).length < depth' →
        Parse.statement depth' (f.byHand g body ++ rest) = ⟨[], .value s rest⟩) ∧
      ((∀ u ∈ rest, u.kind ≠ .eof) → ∀ eof : Terminal .eof, ∃ q, parseTokens (rest ++ [eof.1]) = .ok q ∧
        parseTokens (f.word body ++ (rest ++ [eof.1])) = .ok ⟨s :: q.statements, q.diagnostics⟩ ∧
        parseTokens (f.byHand g body ++ (rest ++ [eof.1])) = .ok ⟨s :: q.statements, q.diagnostics⟩) := by
  refine ⟨exists_forLoop ht hl h, ?_⟩
  intro f body g hw
  rw [hw] at hl h
  obtain ⟨d, rfl, rfl, hn, hd, ha⟩ := f.exists_body hl h
  have hn' : (f.clauseByHand g d).NearestElse := ForLoop.nearestElse_clauseByHand g hn
  have hd' : (f.clauseByHand g d).Documented := ForLoop.documented_clauseByHand g hd
  have ha' : (f.clauseByHand g d).Admits rest := ForLoop.admits_clauseByHand ha g
  rw [← f.word_clauseByHand, ← f.word_clause, ← f.tree_clauseByHand g]
  refine ⟨fun depth' hl' => run_statement hn' hd' ha' hl', fun hrest eof => ?_⟩
  refine ⟨(TokenList.mk rest eof.1).parse, parseTokens_of_ofTokens? (ofTokens?_append_eof hrest eof), ?_,
    parseTokens_statement hn' hd' ha' hrest eof⟩
  rw [f.tree_clauseByHand]
  exact parseTokens_statement (d := f.clause d) hn hd ha hrest eof

/-- An open body, with an increment and without the other clauses. -/
theorem forLoop_byHand_open :
    parseTokens [.bare .kwWhile "while", .bare .leftParen "(", .bare .kwTrue "true", .bare .rightParen ")",
        .bare .leftBrace "\x7b", .bare .kwIf "if", .bare .leftParen "(", .bare .kwNil "nil", .bare .rightParen ")",
        .bare .kwNil "nil", .bare .semicolon ";", .bare .kwTrue "true", .bare .semicolon ";", .bare .rightBrace "\x7d",
        .bare .eof ""] =
      .ok ⟨[.while (.literal (.boolean true)) (.block [.ifThen (.literal .nil) (.expression (.literal .nil)),
        .expression (.literal (.boolean true))])], []⟩ := by
  let body : List Token := [.bare .kwIf "if", .bare .leftParen "(", .bare .kwNil "nil", .bare .rightParen ")",
    .bare .kwNil "nil", .bare .semicolon ";"]
  let f : ForLoop := ⟨⟨.bare .kwFor "for", rfl⟩, ⟨.bare .leftParen "(", rfl⟩, .none ⟨.bare .semicolon ";", rfl⟩, none,
    ⟨.bare .semicolon ";", rfl⟩, some (.always ⟨.bare .kwTrue "true", rfl⟩), ⟨.bare .rightParen ")", rfl⟩⟩
  let g : LoopTokens := ⟨⟨.bare .leftBrace "\x7b", rfl⟩, ⟨.bare .kwWhile "while", rfl⟩, ⟨.bare .leftParen "(", rfl⟩,
    ⟨.bare .kwTrue "true", rfl⟩, ⟨.bare .rightParen ")", rfl⟩, ⟨.bare .leftBrace "\x7b", rfl⟩,
    ⟨.bare .semicolon ";", rfl⟩, ⟨.bare .rightBrace "\x7d", rfl⟩, ⟨.bare .rightBrace "\x7d", rfl⟩⟩
  have hread : Parse.statement 20 (f.word body) = ⟨[], .value _ []⟩ := rfl
  have h := forLoop_byHand (by rfl) (by decide) hread
  obtain ⟨q, hq, -, hbyHand⟩ := (h.2 f body g rfl).2 (by simp) ⟨.bare .eof "", rfl⟩
  obtain rfl := Except.ok.inj hq
  exact hbyHand

end LoxSyntax
