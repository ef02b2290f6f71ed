/-
  LoxSyntax.Proofs.SessionSafety — where a session's place can be, whatever was read and
  whatever was abandoned or given up before.

  Every reader of a session leaves an end part of the tokens that were left, so no step
  goes back or beyond the first end of file, with an answer or without. A step is given up
  only if what it reads is nested too deeply, and there it has in front of it as many
  tokens that open a level as levels are followed. Short of that a declaration is never
  abandoned and takes a token unless it is at the end, so the loops over declarations stop
  at the end or at a closing brace and nowhere else.

  - `follows_reader`: where the readers of a session lead.
  - `forward_step`: what one step does to the place.
  - `run_eq`: what any number of steps do to it.
  - `run_safe`: what holds of a session behind any steps.
  - `parens_tooDeep`: a row of parentheses, in which each declaration is given up.
-/

import LoxSyntax.Proofs.Nesting
import LoxSyntax.Session

namespace LoxSyntax

open Grammar Parse

/-- The end of file is no operator, so that a loop over operators does not go on there. -/
def Step.Ends : Step → Prop
  | .binary _ operators => .eof ∉ operators
  | _ => True

namespace Parse

variable {α β : Type} {n k : Nat} {p : Parse α} {f : α → Parse β} {ts : List Token} {P : Parsed α}

/-! ## Where a reading leads -/

/-- What a reading leaves is an end part of the tokens, and it is given up only if `n` of
    them open a level. -/
structure Leads (n : Nat) (ts : List Token) (P : Parsed α) : Prop where
  suffix : P.outcome.rest <:+ ts
  levels : P.GaveUp → n ≤ levels ts

def Follows (n : Nat) (p : Parse α) : Prop := ∀ ts, Leads n ts (p ts)

theorem Leads.of_suffix {mid : List Token} (h : Leads n mid P) (hs : mid <:+ ts) : Leads n ts P :=
  ⟨h.suffix.trans hs, fun hP => Nat.le_trans (h.levels hP) (levels_le hs)⟩

theorem Onward.leads {all : List Token} (h : Onward all n k ts P) : Leads n ts P := by
  refine ⟨?_, levels_of_gaveUp h⟩
  cases h with
  | value _ h | abandoned _ h => exact h.course.suffix
  | tooDeep _ hs _ => exact hs

theorem follows_of_orderly (h : ∀ all, Orderly all n k p) : Follows n p :=
  fun ts => (h ts ts (List.suffix_refl ts)).leads

/-- What comes to its end is not given up. -/
theorem leads_value {rs : List Report} {rest : List Token} (a : α) (h : rest <:+ ts) : Leads n ts ⟨rs, .value a rest⟩ :=
  ⟨h, fun ⟨_, ho⟩ => by cases ho⟩

theorem follows_pure (n : Nat) (a : α) : Follows n (Parse.pure a) := fun ts => leads_value a (List.suffix_refl ts)

theorem follows_bind (hp : Follows n p) (hf : ∀ a, Follows n (f a)) : Follows n (p >>= f) := by
  intro ts
  have h := hp ts
  rw [run_bind]
  generalize p ts = P at h
  obtain ⟨rs, o⟩ := P
  cases o with
  | value a mid =>
    have hq := (hf a mid).of_suffix h.suffix
    exact ⟨hq.suffix, hq.levels⟩
  | abandoned rest => exact ⟨h.suffix, fun ⟨_, ho⟩ => by cases ho⟩
  | tooDeep rest => exact ⟨h.suffix, fun _ => h.levels ⟨rest, rfl⟩⟩

theorem follows_map (g : α → β) (h : Follows n p) : Follows n (g <$> p) := follows_bind h fun a => follows_pure n (g a)

theorem follows_here {g : List Token → Parse α} (h : ∀ ts, Follows n (g ts)) : Follows n (here >>= g) :=
  fun ts => h ts ts

theorem follows_leave (n : Nat) {f : List Token → List Token} (h : ∀ ts, f ts <:+ ts) : Follows n (leave f) :=
  fun ts => leads_value () (h ts)

theorem follows_whenNext {k : TokenKind → Bool} {g : Token → Parse α} {q : Parse α} (hg : ∀ t, Follows n (g t))
    (hq : Follows n q) : Follows n (whenNext k g q) := by
  intro ts
  cases ts with
  | nil => exact hq []
  | cons t ts =>
    rw [whenNext, dispatch]
    split
    · next r hr =>
      split at hr <;> cases hr
      exact (hg t ts).of_suffix (List.suffix_cons t ts)
    · exact hq (t :: ts)

theorem follows_chain {join : α → Token → α → α} {k : TokenKind → Bool} (h : Follows n p) :
    Follows n (chain p join k) := by
  have hfrom : ∀ bound left, Follows n (chainFrom p join k bound left) := by
    intro bound
    induction bound with
    | nil => exact follows_pure n
    | cons b bound ih =>
      exact fun left => follows_whenNext (fun t => follows_bind h fun r => ih _) (follows_pure n left)
  exact follows_bind h fun left => follows_here fun ts => hfrom ts left

/-- What is read behind a reader that is given up is not read. -/
theorem bind_tooDeep {rs : List Report} {rest : List Token} (h : p ts = ⟨rs, .tooDeep rest⟩) (f : α → Parse β) :
    (p >>= f) ts = ⟨rs, .tooDeep rest⟩ := by
  rw [run_bind, h]

theorem map_tooDeep {rs : List Report} {rest : List Token} (g : α → β) (h : p ts = ⟨rs, .tooDeep rest⟩) :
    (g <$> p) ts = ⟨rs, .tooDeep rest⟩ := bind_tooDeep h _

end Parse

namespace Session

variable {s : Session} {p : Parse Reply} {depth : Nat}

/-! ## Readers -/

theorem follows_look (n : Nat) (f : List Token → Reply) : Follows n (look f) :=
  follows_here fun ts => follows_pure n (f ts)

theorem follows_taken (s : Session) (n : Nat) : Follows n s.taken :=
  follows_bind (follows_leave n List.tail_suffix) fun _ => follows_look n _

theorem follows_match (s : Session) (depth : Nat) (kinds : List TokenKind) :
    Follows depth (s.reader depth (.match kinds)) := by
  refine follows_here fun ts => ?_
  split
  · exact s.follows_taken depth
  · exact follows_pure depth _

/-- Where the readers of a session lead. -/
theorem follows_reader (s : Session) (depth : Nat) (r : Reader) : Follows depth (s.reader depth r) := by
  have he : ∀ all, Orderly all depth 0 (Parse.expression depth) := fun all => orderly_expression depth
  have hb : ∀ all, Orderly all (depth - 1) 0 (Parse.expression depth) := fun all => (he all).less (Nat.sub_le _ 1)
  have hi : ∀ all, OrderlyInner all depth (innerAt depth) := fun all => orderlyInner_innerAt depth
  have hw : ∀ all, OrderlyInner all (depth - 1) (innerAt depth) := fun all => (hi all).less (Nat.sub_le _ 1)
  have hu : ∀ all, Orderly all depth 0 (Parse.unary (Parse.expression depth) depth) :=
    fun all => orderly_unary depth (hb all) (Nat.le_refl _)
  have hmap : ∀ {α : Type} {k : Nat} {q : Parse α} (g : α → Reply), (∀ all, Orderly all depth k q) →
      Follows depth (g <$> q) :=
    fun g h => follows_map g (follows_of_orderly h)
  have hc : ∀ {q : Parse Expr} {join k}, (∀ all, Orderly all depth 0 q) → ∀ all, Orderly all depth 0 (chain q join k) :=
    fun h all => orderly_chain (h all)
  cases r with
  | current | previous | isAtEnd | check => exact follows_look _ _
  | advance => exact s.follows_taken _
  | «match» kinds => exact s.follows_match _ kinds
  | synchronize => exact follows_bind (follows_leave _ synchronize_suffix_self) fun _ => follows_pure _ _
  | program => exact hmap _ fun all => orderly_program depth
  | declaration => exact hmap _ fun all => (orderly_levels depth).2
  | statement => exact hmap _ fun all => (orderly_levels depth).1
  | block => exact hmap _ fun all => orderly_block (hi all)
  | classDeclaration => exact hmap _ fun all => orderly_classDeclaration (hw all)
  | function what => exact hmap _ fun all => orderly_function (hw all) what
  | varDeclaration => exact hmap _ fun all => orderly_varDeclaration (he all)
  | forStatement => exact hmap _ fun all => orderly_forStatement (hi all)
  | ifStatement => exact hmap _ fun all => orderly_ifStatement (hi all)
  | printStatement => exact hmap _ fun all => orderly_printStatement (he all)
  | returnStatement => exact follows_here fun ts => hmap _ fun all => orderly_returnStatement (he all) _
  | whileStatement => exact hmap _ fun all => orderly_whileStatement (hi all)
  | expressionStatement => exact hmap _ fun all => orderly_expressionStatement (he all)
  | expression => exact hmap _ he
  | assignment => exact hmap _ fun all => orderly_assignment (hb all) (Nat.le_refl _)
  | disjunction => exact hmap _ fun all => orderly_disjunction (hb all) (Nat.le_refl _)
  | conjunction => exact hmap _ (hc (hc (hc (hc (hc hu)))))
  | equality => exact hmap _ (hc (hc (hc (hc hu))))
  | comparison => exact hmap _ (hc (hc (hc hu)))
  | term => exact hmap _ (hc (hc hu))
  | factor => exact hmap _ (hc hu)
  | unary => exact hmap _ hu
  | call => exact hmap _ fun all => orderly_call (hb all)
  | primary => exact hmap _ fun all => orderly_primary (hb all)

theorem follows_binary {operand : Parse Reply} {n : Nat} (h : Follows n operand) (operators : List TokenKind) :
    Follows n (binary operand operators) := by
  refine follows_bind (follows_chain h) fun left => follows_here fun ts => ?_
  split
  · exact h
  · exact follows_pure n left

theorem follows_finishCall (depth : Nat) (callee : Node) : Follows depth (finishCall depth callee) :=
  follows_map _ (follows_of_orderly fun _ => orderly_arguments (orderly_expression depth))

/-! ## Steps -/

/-- The session goes on from a place that is no further back and not beyond the program;
    what is given up has as many tokens in front of it that open a level as are followed. -/
structure Forward (s : Session) (depth : Nat) (r : Reaction) : Prop where
  session : ∃ i, s.position ≤ i ∧ i ≤ s.input.body.length ∧ r.session = { s with position := i }
  levels : r.answer = .tooDeep → depth ≤ Parse.levels s.rest

theorem le_place {rest : List Token} (hs : s.position ≤ s.input.body.length) (h : rest <:+ s.rest) :
    s.position ≤ s.place rest := by
  have hl := h.length_le
  rw [Session.rest, List.length_drop] at hl
  rw [place]
  omega

theorem gaveUp_of_answer {P : Parsed Reply} (h : answer P.outcome = .tooDeep) : P.GaveUp := by
  obtain ⟨rs, o⟩ := P
  cases o with
  | tooDeep rest => exact ⟨rest, rfl⟩
  | value a rest | abandoned rest => cases h

theorem forward_react (hs : s.position ≤ s.input.body.length) (h : Follows depth p) : s.Forward depth (s.react p) := by
  obtain ⟨hsuffix, hlevels⟩ := h s.rest
  exact ⟨⟨s.place _, le_place hs hsuffix, Nat.sub_le _ _, rfl⟩, fun ha => hlevels (gaveUp_of_answer ha)⟩

/-- A step that takes no token. -/
theorem forward_stay (hs : s.position ≤ s.input.body.length) {a : Answer} (ha : a ≠ .tooDeep)
    (reports : List Diagnostic) : s.Forward depth ⟨a, reports, s⟩ :=
  ⟨⟨s.position, Nat.le_refl _, hs, rfl⟩, fun h => absurd h ha⟩

theorem forward_step (hs : s.position ≤ s.input.body.length) (depth : Nat) (step : Step) :
    s.Forward depth (s.step depth step) := by
  cases step with
  | read r => exact forward_react hs (s.follows_reader depth r)
  | consume kind message =>
    simp only [Session.step]
    split
    · exact forward_react hs (s.follows_taken depth)
    · exact forward_stay hs (by simp) _
  | error message => exact forward_stay hs (by simp) _
  | binary operand operators => exact forward_react hs (follows_binary (s.follows_reader depth operand) operators)
  | finishCall callee => exact forward_react hs (follows_finishCall depth callee)

/-- The session behind some steps, whatever they answer, each with the levels followed in it. -/
def run (s : Session) (steps : List (Nat × Step)) : Session := steps.foldl (fun s c => (s.step c.1 c.2).session) s

theorem run_eq (steps : List (Nat × Step)) : ∀ {s : Session}, s.position ≤ s.input.body.length →
    ∃ i, s.position ≤ i ∧ i ≤ s.input.body.length ∧ s.run steps = { s with position := i } := by
  induction steps with
  | nil => exact fun {s} hs => ⟨s.position, Nat.le_refl _, hs, rfl⟩
  | cons c steps ih =>
    intro s hs
    obtain ⟨i, hi, hl, he⟩ := (forward_step hs c.1 c.2).session
    obtain ⟨j, hj, hl', he'⟩ := @ih { s with position := i } hl
    refine ⟨j, Nat.le_trans hi hj, hl', ?_⟩
    show ((s.step c.1 c.2).session).run steps = _
    rw [he, he']

/-! ## Declarations, programs and blocks -/

theorem react_value {a : Reply} {rest : List Token} (h : (p s.rest).outcome = .value a rest) :
    s.react p = ⟨.reply a, s.input.diagnostics (p s.rest), s.leaving rest⟩ := by
  rw [react, h]
  rfl

theorem react_abandoned {rest : List Token} (h : (p s.rest).outcome = .abandoned rest) :
    s.react p = ⟨.abandoned, s.input.diagnostics (p s.rest), s.leaving rest⟩ := by
  rw [react, h]
  rfl

theorem react_gaveUp {α : Type} {q : Parse α} (g : α → Reply) (h : (q s.rest).GaveUp) :
    (s.react (g <$> q)).answer = .tooDeep := by
  obtain ⟨rest, ho⟩ := h
  show answer ((q >>= _) s.rest).outcome = _
  rw [run_bind]
  generalize q s.rest = P at ho
  obtain ⟨rs, o⟩ := P
  subst ho
  rfl

theorem step_declaration (s : Session) (depth : Nat) :
    (s.step depth (.read .declaration)).answer = .tooDeep ∨
    ∃ a, (s.step depth (.read .declaration)).answer = .reply a ∧
      (s.position < s.input.body.length → s.position < (s.step depth (.read .declaration)).session.position) := by
  refine (gaveUp_or_deep option_stmt_rename_id (fun h => (deepened_levels h).2) depth s.rest).imp (react_gaveUp _) ?_
  rintro ⟨depth', hlen, heq⟩
  obtain ⟨o, rest, ho, hl⟩ := declaration_value hlen
  rw [heq] at ho
  have h := react_value (s := s) (outcome_map (fun d => (d.map fun d => Reply.node d.toNode).getD .nothing) ho)
  refine ⟨_, congrArg Reaction.answer h, ?_⟩
  intro hlt
  rw [show (s.step depth (.read .declaration)).session = s.leaving rest from congrArg Reaction.session h]
  rw [Session.rest, List.length_drop] at hl
  show s.position < s.input.body.length - rest.length
  omega

theorem step_program (s : Session) (depth : Nat) :
    (s.step depth (.read .program)).answer = .tooDeep ∨
    ∃ a, (s.step depth (.read .program)).answer = .reply a ∧
      (s.step depth (.read .program)).session.position = s.input.body.length := by
  refine (gaveUp_or_deep map_stmt_rename_id deepened_program depth s.rest).imp (react_gaveUp _) ?_
  rintro ⟨depth', hlen, heq⟩
  obtain ⟨statements, ho⟩ := program_value hlen
  rw [heq] at ho
  have h := react_value (s := s) (outcome_map (.nodes <| stmtNodes ·) ho)
  exact ⟨_, congrArg Reaction.answer h, congrArg (·.session.position) h⟩

theorem getElem?_of_suffix {t : Token} {rest body : List Token} (h : t :: rest <:+ body) :
    ∃ i, body.length - rest.length = i + 1 ∧ body[i]? = some t := by
  obtain ⟨front, rfl⟩ := h
  exact ⟨front.length, by simp; omega, by simp⟩

/-- A block is read up to its closing brace, or abandoned at the end. -/
theorem step_block (hs : s.position ≤ s.input.body.length) (depth : Nat) :
    (s.step depth (.read .block)).answer = .tooDeep ∨
    (∃ a i brace, (s.step depth (.read .block)).answer = .reply a ∧
      (s.step depth (.read .block)).session.position = i + 1 ∧ s.position ≤ i ∧ s.input.body[i]? = some brace ∧
      brace.kind = .rightBrace) ∨
    (s.step depth (.read .block)).answer = .abandoned ∧
      (s.step depth (.read .block)).session.position = s.input.body.length := by
  refine (gaveUp_or_deep map_stmt_rename_id deepened_block depth s.rest).imp (react_gaveUp _) ?_
  rintro ⟨depth', hlen, heq⟩
  have hends := block_ends hlen
  simp only [heq] at hends
  rcases hends with ⟨body, brace, rest, ho, hk, hsuffix⟩ | ho
  · have h := react_value (s := s) (outcome_map (.nodes <| stmtNodes ·) ho)
    obtain ⟨i, hi, hb⟩ := getElem?_of_suffix (hsuffix.trans (List.drop_suffix _ _))
    refine .inl ⟨_, i, brace, congrArg Reaction.answer h, ?_, ?_, hb, hk⟩
    · rw [← hi]
      exact congrArg (·.session.position) h
    · have hl := hsuffix.length_le
      rw [Session.rest, List.length_drop, List.length_cons] at hl
      omega
  · have h := react_abandoned (s := s) (outcome_map_abandoned (.nodes <| stmtNodes ·) ho)
    exact .inr ⟨congrArg Reaction.answer h, congrArg (·.session.position) h⟩

/-! ## Any steps -/

/-- A session over a list whose program stands in front of its first end of file. -/
structure Over (s : Session) : Prop where
  split : ∃ more, s.tokens = s.input.body ++ s.input.eof :: more
  plain : ∀ t ∈ s.input.body, t.isEof = false
  eof : s.input.eof.isEof = true
  position_le : s.position ≤ s.input.body.length

theorem Over.length_body (h : s.Over) : s.input.body.length = s.tokens.findIdx (·.isEof) := by
  obtain ⟨more, hs⟩ := h.split
  have hb : s.input.body.findIdx (·.isEof) = s.input.body.length :=
    List.findIdx_eq_length.2 h.plain
  rw [hs, List.findIdx_append, hb, if_neg (Nat.lt_irrefl _), List.findIdx_cons, h.eof]
  simp

theorem Over.front (h : s.Over) : s.tokens[s.position]? = some (s.front s.rest) := by
  obtain ⟨more, hs⟩ := h.split
  have hf : s.front s.rest = s.input.body[s.position]?.getD s.input.eof := by
    rw [Session.front, Session.rest, List.headD_eq_head?_getD, List.head?_drop]
  rw [hf, hs]
  rcases Nat.lt_or_eq_of_le h.position_le with hlt | heq
  · rw [List.getElem?_append_left hlt, List.getElem?_eq_getElem hlt, Option.getD_some]
  · simp [heq]

theorem Over.place (h : s.Over) : s.place s.rest = s.position := by
  have := h.position_le
  rw [Session.place, Session.rest, List.length_drop]
  omega

theorem Over.before_zero (h : s.Over) (h0 : s.position = 0) : s.tokens.getLast? = some (s.before s.rest) := by
  obtain ⟨more, hs⟩ := h.split
  have hne : s.tokens ≠ [] := by simp [hs]
  rw [Session.before, h.place, h0]
  simp [List.getLastD_eq_getLast?, List.getLast?_eq_some_getLast hne]

theorem Over.before_succ (h : s.Over) {i : Nat} (hi : s.position = i + 1) : s.tokens[i]? = some (s.before s.rest) := by
  obtain ⟨more, hs⟩ := h.split
  have hlt : i < s.tokens.length := by
    have := h.position_le
    rw [hs, List.length_append]
    omega
  rw [Session.before, h.place, hi]
  simp [List.getD_eq_getElem?_getD, List.getElem?_eq_getElem hlt]

theorem Over.run (h : s.Over) (steps : List (Nat × Step)) : (s.run steps).Over ∧ (s.run steps).tokens = s.tokens := by
  obtain ⟨i, -, hl, heq⟩ := run_eq steps h.position_le
  rw [heq]
  exact ⟨⟨h.split, h.plain, h.eof, hl⟩, rfl⟩

/-- The place is not behind the first end of file, and the tokens that are looked at are
    those of the list there and in front of it. From there no step goes further back or
    behind that end of file, and one is given up only in front of as many tokens that open
    a level as are followed. Unless they are given up, a declaration and a program are
    never abandoned, a declaration takes a token if there is one left, a program is read
    to the end, and a block to its closing brace or to the end. -/
structure Safe (s : Session) : Prop where
  position_le : s.position ≤ s.tokens.findIdx (·.isEof)
  front : s.tokens[s.position]? = some (s.front s.rest)
  before_zero : s.position = 0 → s.tokens.getLast? = some (s.before s.rest)
  before_succ : ∀ i, s.position = i + 1 → s.tokens[i]? = some (s.before s.rest)
  step : ∀ (depth : Nat) (step : Step), step.Ends →
    ((s.step depth step).answer = .tooDeep → depth ≤ Parse.levels s.rest) ∧
    s.position ≤ (s.step depth step).session.position ∧
    (s.step depth step).session.position ≤ s.tokens.findIdx (·.isEof)
  declaration : ∀ depth, (s.step depth (.read .declaration)).answer = .tooDeep ∨
    ∃ a, (s.step depth (.read .declaration)).answer = .reply a ∧
      (s.position < s.tokens.findIdx (·.isEof) → s.position < (s.step depth (.read .declaration)).session.position)
  program : ∀ depth, (s.step depth (.read .program)).answer = .tooDeep ∨
    ∃ a, (s.step depth (.read .program)).answer = .reply a ∧
      (s.step depth (.read .program)).session.position = s.tokens.findIdx (·.isEof)
  block : ∀ depth, (s.step depth (.read .block)).answer = .tooDeep ∨
    (∃ a i brace, (s.step depth (.read .block)).answer = .reply a ∧
      (s.step depth (.read .block)).session.position = i + 1 ∧ s.position ≤ i ∧ s.tokens[i]? = some brace ∧
      brace.kind = .rightBrace) ∨
    (s.step depth (.read .block)).answer = .abandoned ∧
      (s.step depth (.read .block)).session.position = s.tokens.findIdx (·.isEof)

theorem Over.safe (h : s.Over) : s.Safe := by
  have hlen := h.length_body
  refine ⟨hlen ▸ h.position_le, h.front, h.before_zero, fun i => h.before_succ, ?_, hlen ▸ s.step_declaration,
    hlen ▸ s.step_program, ?_⟩
  · intro depth step _
    obtain ⟨⟨i, hi, hl, hs⟩, hlevels⟩ := forward_step h.position_le depth step
    rw [hs]
    exact ⟨hlevels, hi, hlen ▸ hl⟩
  · intro depth
    refine (step_block h.position_le depth).imp_right (Or.imp ?_ fun hb => hlen ▸ hb)
    rintro ⟨a, i, brace, ha, hp, hi, hb, hk⟩
    obtain ⟨more, hs⟩ := h.split
    refine ⟨a, i, brace, ha, hp, hi, ?_, hk⟩
    rw [hs, List.getElem?_append_left (List.getElem?_eq_some_iff.1 hb).1, hb]

/-- Whatever steps are taken on a list that ends with an end of file, however many levels
    are followed in each, and whatever they abandon or give up, the session behind them is
    safe. -/
theorem run_safe (ts : List Token) (eof : Terminal .eof) : ∃ start, ofTokens? (ts ++ [eof.1]) = .ok start ∧
    start.position = 0 ∧ ∀ steps : List (Nat × Step), (∀ c ∈ steps, c.2.Ends) →
      (start.run steps).tokens = ts ++ [eof.1] ∧ (start.run steps).Safe := by
  obtain ⟨l, more, hl, hts, heof⟩ := parseTokens_eof ts eof
  have hover : Over ⟨ts ++ [eof.1], l, 0⟩ :=
    ⟨⟨more, hts⟩, TokenList.body_ofTokens? hl, beq_iff_eq.2 heof, Nat.zero_le _⟩
  refine ⟨⟨ts ++ [eof.1], l, 0⟩, by rw [ofTokens?, hl]; rfl, rfl, ?_⟩
  intro steps _
  obtain ⟨hsteps, htokens⟩ := hover.run steps
  exact ⟨htokens, hsteps.safe⟩

/-- A parenthesis that no expression starts with: it is left where it is by an expression
    and by a semicolon that is asked for, and a declaration goes on behind it. -/
theorem run_safe_closingParen : ∃ start,
    ofTokens? [⟨.rightParen, ")", .nil, 1, 1⟩, ⟨.eof, "", .nil, 1, 2⟩] = .ok start ∧
    (start.run [(1, .read .expression), (0, .consume .semicolon "Expect ';'.")]).position = 0 ∧
    (start.run [(1, .read .expression), (0, .consume .semicolon "Expect ';'."), (1, .read .declaration)]).position = 1 ∧
    (start.run [(1, .read .expression), (0, .consume .semicolon "Expect ';'."), (0, .read .block)]).Safe := by
  obtain ⟨start, hs, -, h⟩ := run_safe [⟨.rightParen, ")", .nil, 1, 1⟩] ⟨⟨.eof, "", .nil, 1, 2⟩, rfl⟩
  refine ⟨start, hs, ?_, ?_, (h _ (by simp [Step.Ends])).2⟩
  · cases hs
    rfl
  · cases hs
    rfl

/-! ## Parentheses -/

/-- Each parenthesis takes a level, and every reader between two of them goes down into the
    next one. -/
theorem expression_parens : ∀ {depth : Nat} {ts : List Token}, (∀ t ∈ ts, t.kind = .leftParen) → depth ≤ ts.length →
    Parse.expression depth ts = ⟨[], .tooDeep (ts.drop depth)⟩
  | 0, _, _, _ => rfl
  | depth + 1, t :: ts, hk, hd => by
    obtain ⟨ht, hk⟩ := List.forall_mem_cons.1 hk
    have ih := expression_parens hk (Nat.le_of_succ_le_succ hd)
    have hp : primary (Parse.expression depth) (t :: ts) = ⟨[], .tooDeep (ts.drop depth)⟩ := by
      simp only [primary, dispatch, primaryRule, ht]
      exact bind_tooDeep ih _
    have hu : Parse.unary (Parse.expression depth) (depth + 1) (t :: ts) = ⟨[], .tooDeep (ts.drop depth)⟩ := by
      have ho : isUnaryOperator .leftParen = false := rfl
      simp only [Parse.unary, whenNext, dispatch, ht, ho, Bool.false_eq_true, if_false]
      exact bind_tooDeep hp _
    have hc : ∀ {p : Parse Expr} {join k}, p (t :: ts) = ⟨[], .tooDeep (ts.drop depth)⟩ →
        chain p join k (t :: ts) = ⟨[], .tooDeep (ts.drop depth)⟩ := fun h => bind_tooDeep h _
    exact bind_tooDeep (hc (hc (hc (hc (hc (hc hu)))))) _

theorem declaration_parens {depth : Nat} {ts : List Token} (hk : ∀ t ∈ ts, t.kind = .leftParen)
    (hd : depth ≤ ts.length) : Parse.declaration depth ts = ⟨[], .tooDeep (ts.drop depth)⟩ := by
  cases depth with
  | zero => rfl
  | succ depth =>
    have he := expression_parens hk hd
    cases ts with
    | nil => cases hd
    | cons t ts =>
      have ht := hk t List.mem_cons_self
      have hf : declarationForm ⟨Parse.expression (depth + 1), statement depth, Parse.declaration depth⟩ (t :: ts) =
          ⟨[], .tooDeep ((t :: ts).drop (depth + 1))⟩ := by
        simp only [declarationForm, statementForm, dispatch, declarationRule, statementRule, ht]
        exact bind_tooDeep he _
      rw [Parse.declaration, recover, hf]

theorem program_parens {depth : Nat} {ts : List Token} (hk : ∀ t ∈ ts, t.kind = .leftParen) (hd : depth < ts.length) :
    Parse.program depth ts = ⟨[], .tooDeep (ts.drop depth)⟩ := by
  have hdecl := declaration_parens hk (Nat.le_of_lt hd)
  cases ts with
  | nil => cases hd
  | cons t ts => exact bind_tooDeep (bind_tooDeep hdecl _) _

/-- With nothing but parentheses left, a declaration and a program are given up. -/
theorem step_parens (hk : ∀ t ∈ s.rest, t.kind = .leftParen) (hd : depth < s.rest.length) :
    (s.step depth (.read .declaration)).answer = .tooDeep ∧ (s.step depth (.read .program)).answer = .tooDeep :=
  ⟨react_gaveUp _ ⟨_, congrArg Parsed.outcome (declaration_parens hk (Nat.le_of_lt hd))⟩,
    react_gaveUp _ ⟨_, congrArg Parsed.outcome (program_parens hk hd)⟩⟩

theorem ofTokens?_parens {us : List Token} (hk : ∀ t ∈ us, t.kind = .leftParen) (eof : Terminal .eof) :
    ∃ start, ofTokens? (us ++ [eof.1]) = .ok start ∧ start.rest = us := by
  refine ⟨⟨us ++ [eof.1], ⟨us, eof.1⟩, 0⟩, ?_, List.drop_zero⟩
  rw [ofTokens?, ofTokens?_append_eof (fun t ht => by simp [hk t ht]) eof]
  rfl

/-- Opening parentheses on a line, and nothing that closes them. -/
def parens (n : Nat) : List Token := (List.range n).map fun i => ⟨.leftParen, "(", .nil, 1, i + 1⟩

theorem kind_parens (n : Nat) : ∀ t ∈ parens n, t.kind = .leftParen := by simp [parens]

theorem length_parens (n : Nat) : (parens n).length = n := by simp [parens]

/-- Where a thousand levels are followed at most, five thousand parentheses are given up by a
    declaration and by a program. -/
theorem parens_tooDeep : ∃ start, ofTokens? (parens 5000 ++ [⟨.eof, "", .nil, 1, 5001⟩]) = .ok start ∧
    ∀ depth ≤ 1000, (start.step depth (.read .declaration)).answer = .tooDeep ∧
      (start.step depth (.read .program)).answer = .tooDeep := by
  obtain ⟨start, hs, hrest⟩ := ofTokens?_parens (kind_parens 5000) ⟨⟨.eof, "", .nil, 1, 5001⟩, rfl⟩
  refine ⟨start, hs, fun depth hd => ?_⟩
  refine step_parens (hrest ▸ kind_parens 5000) ?_
  rw [hrest, length_parens]
  omega

end Session

end LoxSyntax
