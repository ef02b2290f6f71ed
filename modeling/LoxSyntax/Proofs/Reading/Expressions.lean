/-
  LoxSyntax.Proofs.Reading.Expressions — what the grammar derives as an expression is
  read, whatever stands behind it that cannot go on with it.

  An operator binds with a strength, and a category of expressions has a rank: a token
  goes on with an expression of the category when its strength is not below the rank. A
  chain of operands and a row of calls grow to the left, so the reading of one is
  followed up to where its loop may take the next operator.

  - `Phrase.reads`: the reading of an expression gives the tree and the marks of its
    derivation.
-/

import LoxSyntax.Proofs.Reading.Progress

namespace LoxSyntax.Grammar

open Parse

/-- How tightly a token binds to the expression in front of it; zero if it does not. -/
def strength : TokenKind → Nat
  | .equal => 1
  | .kwOr => 2
  | .kwAnd => 3
  | .bangEqual | .equalEqual => 4
  | .greater | .greaterEqual | .less | .lessEqual => 5
  | .minus | .plus => 6
  | .slash | .star => 7
  | .leftParen | .dot => 9
  | _ => 0

namespace Category

def rank : Category → Nat
  | .expression => 1
  | .level .disjunction => 2
  | .level .conjunction => 3
  | .level .equality => 4
  | .level .comparison => 5
  | .level .term => 6
  | .level .factor => 7
  | .unary => 8
  | .call => 9
  | .primary => 10

theorem rank_pos (c : Category) : 0 < c.rank := by
  cases c with
  | level l => cases l <;> decide
  | _ => decide

theorem rank_le_primary (c : Category) : c.rank ≤ primary.rank := by
  cases c with
  | level l => cases l <;> decide
  | _ => decide

theorem rank_injective : Function.Injective rank := by
  intro c c' h
  cases c with
  | level l =>
    cases c' with
    | level l' => cases l <;> cases l' <;> first | rfl | cases h
    | _ => cases l <;> cases h
  | _ =>
    cases c' with
    | level l' => cases l' <;> cases h
    | _ => first | rfl | cases h

theorem rank_operand (l : Level) : l.operand.rank = (Category.level l).rank + 1 := by cases l <;> rfl

/-- What is left does not go on with an expression of the category. -/
def Stops (c : Category) (rest : List Token) : Prop := ∀ t ∈ rest.head?, strength t.kind < c.rank

theorem Stops.mono {c c' : Category} {rest : List Token} (h : c.Stops rest) (hc : c.rank ≤ c'.rank) : c'.Stops rest :=
  fun t ht => Nat.lt_of_lt_of_le (h t ht) hc

theorem stops_cons {c : Category} {t : Token} (h : strength t.kind < c.rank) (ts : List Token) : c.Stops (t :: ts) := by
  simpa [Stops] using h

/-- No expression goes on with a token without strength. -/
theorem stops_terminal (c : Category) {k : TokenKind} (t : Terminal k) (h : strength k = 0) (ts : List Token) :
    c.Stops (t.1 :: ts) :=
  stops_cons (by rw [t.2, h]; exact c.rank_pos) ts

end Category

theorem Level.isOperator_eq (l : Level) (k : TokenKind) : l.isOperator k = (strength k == (Category.level l).rank) := by
  cases l <;> cases k <;> rfl

/-! ## Readers of the categories -/

/-- The reader of a category, `n` levels followed inside and `m` unary operators. -/
def Category.reader (n m : Nat) : Category → Parse Expr
  | .expression => assignment (Parse.expression n) m
  | .level .disjunction => Parse.disjunction (Parse.expression n) m
  | .level .conjunction => Parse.conjunction (Parse.expression n) m
  | .level .equality => Parse.equality (Parse.expression n) m
  | .level .comparison => Parse.comparison (Parse.expression n) m
  | .level .term => Parse.term (Parse.expression n) m
  | .level .factor => Parse.factor (Parse.expression n) m
  | .unary => Parse.unary (Parse.expression n) m
  | .call => Parse.call (Parse.expression n)
  | .primary => Parse.primary (Parse.expression n)

theorem Level.reader_eq (l : Level) (n m : Nat) :
    (Category.level l).reader n m = chain (l.operand.reader n m) l.join l.isOperator := by
  cases l <;> rfl

/-- The tokens `ts` are few enough for the levels. -/
def Within (n m : Nat) (ts : List Token) : Prop := ts.length ≤ n ∧ ts.length < m

/-- What a reader of the category has become when it has read `e` and `rest` is left. -/
def Category.Became (n m : Nat) (e : Expr) (rest : List Token) (q : Parse Expr) : Category → Prop
  | .level l => ∃ bound : List Token, rest.length ≤ bound.length ∧
      q = chainFrom (l.operand.reader n m) l.join l.isOperator bound e
  | .call => ∃ bound : List Token, rest.length ≤ bound.length ∧ q = suffixes (Parse.expression n) bound e
  | _ => q = Parse.pure e

/-- What may be left when the reader has become that. -/
def Category.Admits (rest : List Token) : Category → Prop
  | .level l => l.operand.Stops rest
  | .call => True
  | .primary => True
  | c => c.Stops rest

theorem Category.Stops.admits {c : Category} {rest : List Token} (h : c.Stops rest) : c.Admits rest := by
  cases c with
  | level l => exact h.mono (by rw [rank_operand]; exact Nat.le_succ _)
  | call | primary => trivial
  | expression | unary => exact h

theorem suffixRule_eq_none {inner : Parse Expr} {e : Expr} {t : Token} (h : strength t.kind < 9) :
    suffixRule inner e t = none := by
  unfold suffixRule
  split
  · next hk => rw [hk] at h; exact absurd h (by decide)
  · next hk => rw [hk] at h; exact absurd h (by decide)
  · rfl

/-- A loop whose operators are over gives what it has. -/
theorem Category.Became.reads {c : Category} {n m : Nat} {e : Expr} {rest : List Token} {q : Parse Expr}
    (h : c.Became n m e rest q) (hs : c.Stops rest) : Reads q rest e rest [] := by
  cases c with
  | level l =>
    obtain ⟨bound, -, rfl⟩ := h
    cases bound with
    | nil => exact .pure e rest
    | cons b bound =>
      refine (Steps.whenNext_none ?_).then_reads (.pure e rest)
      intro t ht
      rw [l.isOperator_eq]
      have := hs t ht
      simp only [beq_eq_false_iff_ne]
      omega
  | call =>
    obtain ⟨bound, -, rfl⟩ := h
    cases bound with
    | nil => exact .pure e rest
    | cons b bound =>
      refine (Steps.dispatch_none ?_).then_reads (.pure e rest)
      intro t ht
      rw [suffixRule_eq_none (hs t ht)]
      rfl
  | expression | unary | primary =>
    subst h
    exact .pure e rest

/-- The reading of a phrase of the category up to where it may end. -/
def Category.Followed (c : Category) (n m : Nat) (d : Phrase c) (rest : List Token) : Prop :=
  ∃ q, c.Became n m d.tree rest q ∧ Steps (c.reader n m) (d.word ++ rest) q rest d.marks

theorem Category.Followed.reads {c : Category} {n m : Nat} {d : Phrase c} {rest : List Token}
    (h : c.Followed n m d rest) (hs : c.Stops rest) : Reads (c.reader n m) (d.word ++ rest) d.tree rest d.marks := by
  obtain ⟨q, hq, h⟩ := h
  exact h.last (hq.reads hs)

/-! ## Separated items -/

section Items

variable {α : Type} {item : Parse α} {e : SyntaxError} {count : Nat} {w ts rest : List Token} {x : α} {xs : List α}
  {ms ms' : List Mark}

theorem reads_nextItem (count : Nat) (he : e.isSoft = true) (hw : w ≠ []) (h : Reads item (w ++ rest) x rest ms) :
    Reads (nextItem item e count) (w ++ rest) x rest (excess e count w ++ ms) := by
  cases w with
  | nil => exact absurd rfl hw
  | cons t w =>
    by_cases hc : maxItems ≤ count
    · simp only [nextItem, excess, hc, if_true]
      exact (Reads.here _).then_bind ((Reads.report he rfl _).bind h)
    · simp only [nextItem, excess, hc, if_false]
      exact h

theorem reads_moreItems_nil (bound : List Token) (h : ∀ t ∈ rest.head?, t.kind ≠ .comma) :
    Reads (moreItems item e bound count) rest [] rest [] := by
  cases bound with
  | nil => exact .pure [] rest
  | cons b bound =>
    exact (Steps.whenNext_none fun t ht => by simpa using h t ht).then_reads (.pure [] rest)

theorem reads_moreItems_cons {bound : List Token} (comma : Terminal .comma) (b : Token)
    (h : Reads (nextItem item e count) ts x mid ms) (h' : Reads (moreItems item e bound (count + 1)) mid xs rest ms') :
    Reads (moreItems item e (b :: bound) count) (comma.1 :: ts) (x :: xs) rest (ms ++ ms') :=
  (Steps.whenNext (by rw [comma.2]; rfl) ts).then_reads (h.bind (h'.bind_last (.pure _ _)))

theorem reads_moreItems_last {bound : List Token} (comma : Terminal .comma) (b : Token)
    (h : Reads (nextItem item e count) ts x rest ms) (hr : ∀ t ∈ rest.head?, t.kind ≠ .comma) :
    Reads (moreItems item e (b :: bound) count) (comma.1 :: ts) [x] rest ms := by
  have h' := reads_moreItems_cons comma b h (reads_moreItems_nil bound hr)
  rwa [List.append_nil] at h'

theorem reads_itemsBeforeParen_nil (closing : Terminal .rightParen) :
    Reads (itemsBeforeParen item e) (closing.1 :: rest) [] (closing.1 :: rest) [] := by
  refine (Reads.nextIs _ _).then_bind ?_
  simp only [List.head?_cons, Option.any_some, closing.2]
  exact .pure _ _

theorem reads_itemsBeforeParen {t : Token} (ht : t.kind ≠ .rightParen)
    (h : Reads (items item e) (t :: ts) xs rest ms) :
    Reads (itemsBeforeParen item e) (t :: ts) xs rest ms := by
  refine (Reads.nextIs _ _).then_bind ?_
  simp only [List.head?_cons, Option.any_some, beq_eq_false_iff_ne.2 ht]
  exact h

end Items

/-! ## Productions -/

variable {n m : Nat} {rest : List Token}

theorem followed_one {l : Level} {e : Phrase l.operand}
    (h : Reads (l.operand.reader n m) (e.word ++ rest) e.tree rest e.marks) :
    (Category.level l).Followed n m (.one l e) rest := by
  refine ⟨_, ⟨rest, Nat.le_refl _, rfl⟩, ?_⟩
  rw [l.reader_eq]
  exact (h.steps _).trans_last ((Reads.here rest).steps _)

theorem followed_more {l : Level} {left : Phrase (.level l)} {operator : { t : Token // l.isOperator t.kind = true }}
    {right : Phrase l.operand} (hl : (Category.level l).Followed n m left (operator.1 :: (right.word ++ rest)))
    (hr : Reads (l.operand.reader n m) (right.word ++ rest) right.tree rest right.marks) :
    (Category.level l).Followed n m (.more l left operator right) rest := by
  obtain ⟨q, ⟨bound, hb, rfl⟩, hl⟩ := hl
  cases bound with
  | nil => simp at hb
  | cons b bound =>
    refine ⟨_, ⟨bound, by simp at hb; omega, rfl⟩, ?_⟩
    rw [Phrase.word, Phrase.marks, List.append_assoc, List.cons_append]
    exact hl.trans ((Steps.whenNext operator.2 _).trans (hr.steps _))

/-- A parenthesis or a point behind a call, and what it starts. -/
theorem followed_suffix {callee d : Phrase .call} {t : Token} {ts : List Token} (p : Parse Expr) (ms : List Mark)
    (hw : d.word ++ rest = callee.word ++ t :: ts) (hm : d.marks = callee.marks ++ ms)
    (hc : Category.call.Followed n m callee (t :: ts))
    (hr : suffixRule (Parse.expression n) callee.tree t = some p) (hl : rest.length ≤ ts.length)
    (hp : Reads p ts d.tree rest ms) : Category.call.Followed n m d rest := by
  obtain ⟨q, ⟨bound, hb, rfl⟩, hc⟩ := hc
  cases bound with
  | nil => simp at hb
  | cons b bound =>
    refine ⟨_, ⟨bound, by simp at hb; omega, rfl⟩, ?_⟩
    rw [hw, hm]
    refine hc.trans ((Steps.dispatch ?_ ts).trans (hp.steps (suffixes (Parse.expression n) bound)))
    rw [hr]
    rfl

theorem followed_atom {e : Phrase .primary}
    (h : Reads (Category.primary.reader n m) (e.word ++ rest) e.tree rest e.marks) :
    Category.call.Followed n m (.atom e) rest :=
  ⟨_, ⟨rest, Nat.le_refl _, rfl⟩, (h.steps _).trans_last ((Reads.here rest).steps _)⟩

theorem followed_callEmpty {callee : Phrase .call} {opening : Terminal .leftParen} {closing : Terminal .rightParen}
    (h : Category.call.Followed n m callee (opening.1 :: closing.1 :: rest)) :
    Category.call.Followed n m (.callEmpty callee opening closing) rest := by
  refine followed_suffix (finishCall (Parse.expression n) callee.tree) [] (by simp [Phrase.word])
    (by simp [Phrase.marks]) h (by unfold suffixRule; rw [opening.2]) (by simp) ?_
  have ha : Reads (arguments (Parse.expression n)) (closing.1 :: rest) ([], closing.1) rest [] :=
    (reads_itemsBeforeParen_nil closing).then_bind ((Reads.expect closing _ rest).then_bind (.pure _ _))
  exact ha.then_bind (.pure _ _)

theorem followed_call {callee : Phrase .call} {opening : Terminal .leftParen} {as : Arguments}
    {closing : Terminal .rightParen}
    (h : Category.call.Followed n m callee (opening.1 :: (as.word ++ closing.1 :: rest)))
    (ha : Reads (items (Parse.expression n) .tooManyArguments) (as.word ++ closing.1 :: rest) as.trees
      (closing.1 :: rest) (as.marks 0)) :
    Category.call.Followed n m (.call callee opening as closing) rest := by
  refine followed_suffix (finishCall (Parse.expression n) callee.tree) (as.marks 0) (by simp [Phrase.word])
    (by simp [Phrase.marks]) h (by unfold suffixRule; rw [opening.2]) (by simp; omega) ?_
  have hn : Reads (itemsBeforeParen (Parse.expression n) .tooManyArguments) (as.word ++ closing.1 :: rest) as.trees
      (closing.1 :: rest) (as.marks 0) := by
    obtain ⟨t, w, hw, hs⟩ := as.word_eq_cons
    rw [hw] at ha ⊢
    exact reads_itemsBeforeParen (fun hk => by rw [hk] at hs; exact absurd hs (by decide)) ha
  have ha : Reads (arguments (Parse.expression n)) (as.word ++ closing.1 :: rest) (as.trees, closing.1) rest
      (as.marks 0) :=
    hn.bind_last ((Reads.expect closing _ rest).then_bind (.pure _ _))
  exact ha.bind_last (.pure _ _)

theorem followed_property {object : Phrase .call} {dot : Terminal .dot} {name : Terminal .identifier}
    (h : Category.call.Followed n m object (dot.1 :: name.1 :: rest)) :
    Category.call.Followed n m (.property object dot name) rest :=
  followed_suffix (Parse.property object.tree) [] (by simp [Phrase.word]) (by simp [Phrase.marks]) h
    (by unfold suffixRule; rw [dot.2]) (by simp) ((Reads.expect name _ rest).then_bind (.pure _ _))

theorem followed_signed {operator : { t : Token // isUnaryOperator t.kind = true }} {e : Phrase .unary}
    (h : Reads (Category.unary.reader n m) (e.word ++ rest) e.tree rest e.marks) :
    Category.unary.Followed n (m + 1) (.signed operator e) rest :=
  ⟨_, rfl, (Steps.whenNext operator.2 _).trans (h.steps _)⟩

theorem followed_unsigned {e : Phrase .call}
    (h : Reads (Category.call.reader n (m + 1)) (e.word ++ rest) e.tree rest e.marks) :
    Category.unary.Followed n (m + 1) (.unsigned e) rest := by
  refine ⟨_, rfl, (Steps.whenNext_none ?_).trans h.toSteps⟩
  intro t ht
  obtain ⟨t', w, hw, hs⟩ := e.word_eq_cons
  rw [Phrase.word, hw] at ht
  obtain rfl : t' = t := by simpa using ht
  cases hk : t'.kind <;> rw [hk] at hs <;> first | rfl | exact absurd hs (by decide)

theorem followed_plain {e : Phrase (.level .disjunction)}
    (h : Reads ((Category.level .disjunction).reader n m) (e.word ++ rest) e.tree rest e.marks)
    (hs : Category.expression.Stops rest) : Category.expression.Followed n m (.plain e) rest := by
  refine ⟨_, rfl, (h.steps _).trans_last (((Reads.here rest).steps _).trans_last ?_)⟩
  refine Steps.whenNext_none ?_
  intro t ht
  have := hs t ht
  cases hk : t.kind <;> rw [hk] at this <;> first | rfl | exact absurd this (by decide)

theorem reads_assigned {target : Phrase (.level .disjunction)} {equals : Terminal .equal} {value : Phrase .expression}
    {ts : List Token} (h : Reads (Parse.expression n) ts value.tree rest value.marks) :
    Reads (assigned (Parse.expression n) target.tree (equals.1 :: ts)) ts (Phrase.assign target equals value).tree rest
      (value.marks ++ if target.isTarget then [] else [(.invalidAssignmentTarget, equals.1)]) := by
  refine h.bind ?_
  have hp := target.isTarget_iff
  rw [← Expr.assignTo?_isSome target.tree value.tree] at hp
  simp only [Phrase.tree]
  cases hq : target.tree.assignTo? value.tree with
  | some e =>
    have ht : target.isTarget = true := hp.2 (by rw [hq]; rfl)
    simp only [ht, if_true, Option.getD_some]
    exact .pure e rest
  | none =>
    have ht : target.isTarget = false := by simpa [hq] using hp
    simp only [ht, Bool.false_eq_true, if_false, Option.getD_none]
    exact (Reads.report rfl rfl rest).bind_last (.pure _ _)

theorem followed_assign {target : Phrase (.level .disjunction)} {equals : Terminal .equal} {value : Phrase .expression}
    (ht : Reads ((Category.level .disjunction).reader n m) (target.word ++ equals.1 :: (value.word ++ rest)) target.tree
      (equals.1 :: (value.word ++ rest)) target.marks)
    (hv : Reads (Parse.expression n) (value.word ++ rest) value.tree rest value.marks) :
    Category.expression.Followed n m (.assign target equals value) rest := by
  refine ⟨_, rfl, Reads.toSteps ?_⟩
  rw [Phrase.word, Phrase.marks, List.append_assoc, List.cons_append]
  exact ht.bind ((Reads.here _).then_bind ((Steps.whenNext (by rw [equals.2]; rfl) _).then_reads (reads_assigned hv)))

/-! ## Primary expressions -/

theorem reads_primary {t : Token} {ts : List Token} {p : Parse Expr} {e : Expr} {ms : List Mark}
    (hr : primaryRule (Parse.expression n) t = some p) (h : Reads p ts e rest ms) :
    Reads (Category.primary.reader n m) (t :: ts) e rest ms :=
  (Steps.dispatch hr ts).then_reads h

theorem reads_literal {t : Token} {v : Literal} (h : literalValue? t = some v) :
    Reads (Category.primary.reader n m) (t :: rest) (.literal v) rest [] := by
  refine reads_primary (p := Parse.pure (.literal v)) ?_ (.pure _ _)
  unfold literalValue? at h
  unfold primaryRule
  cases hk : t.kind <;> simp_all

theorem reads_group {opening : Terminal .leftParen} {e : Phrase .expression} {closing : Terminal .rightParen}
    (h : Reads (Parse.expression n) (e.word ++ closing.1 :: rest) e.tree (closing.1 :: rest) e.marks) :
    Reads (Category.primary.reader n m) (opening.1 :: (e.word ++ closing.1 :: rest)) (.grouping e.tree) rest e.marks :=
  reads_primary (p := grouped (Parse.expression n)) (by unfold primaryRule; rw [opening.2])
    (h.bind_last ((Reads.expect closing _ rest).then_bind (.pure _ _)))

theorem reads_super {keyword : Terminal .kwSuper} {dot : Terminal .dot} {method : Terminal .identifier} :
    Reads (Category.primary.reader n m) (keyword.1 :: dot.1 :: method.1 :: rest) (.super keyword.1 method.1) rest [] :=
  reads_primary (p := superMethod keyword.1) (by unfold primaryRule; rw [keyword.2])
    ((Reads.expect dot _ _).then_bind ((Reads.expect method _ _).then_bind (.pure _ _)))

theorem reads_this (keyword : Terminal .kwThis) :
    Reads (Category.primary.reader n m) (keyword.1 :: rest) (.this keyword.1) rest [] :=
  reads_primary (p := Parse.pure (.this keyword.1)) (by unfold primaryRule; rw [keyword.2]) (.pure _ _)

theorem reads_name (t : Terminal .identifier) :
    Reads (Category.primary.reader n m) (t.1 :: rest) (.ident t.1) rest [] :=
  reads_primary (p := Parse.pure (.ident t.1)) (by unfold primaryRule; rw [t.2]) (.pure _ _)

/-! ## All expressions -/

/-- Reading inside takes a token first. -/
theorem Within.inside {t : Token} {ts : List Token} (h : Within n m (t :: ts)) :
    ∃ n', n = n' + 1 ∧ Within n' (n' + 1) ts := by
  obtain ⟨h, -⟩ := h
  cases n with
  | zero => simp at h
  | succ n' => exact ⟨n', rfl, by simpa using h, by simp at h; omega⟩

theorem Within.of_append {w : List Token} (h : Within n m (w ++ rest)) : Within n m rest := by
  obtain ⟨h, h'⟩ := h
  simp only [List.length_append] at h h'
  exact ⟨by omega, by omega⟩

theorem Within.tail {t : Token} {ts : List Token} (h : Within n m (t :: ts)) : Within n m ts :=
  Within.of_append (w := [t]) h

theorem Within.signed {t : Token} {ts : List Token} (h : Within n (m + 1) (t :: ts)) : Within n m ts := by
  obtain ⟨h, h'⟩ := h
  simp only [List.length_cons] at h h'
  exact ⟨by omega, by omega⟩

theorem Within.exists_succ {ts : List Token} (h : Within n m ts) : ∃ m', m = m' + 1 :=
  Nat.exists_eq_succ_of_ne_zero (Nat.ne_zero_of_lt h.2)

theorem Category.stops_primary (rest : List Token) : Category.primary.Stops rest := by
  intro t _
  cases t.kind <;> decide

theorem Level.stops_operator (l : Level) (operator : { t : Token // l.isOperator t.kind = true }) (ts : List Token) :
    l.operand.Stops (operator.1 :: ts) := by
  have h := operator.2
  rw [l.isOperator_eq, beq_iff_eq] at h
  exact Category.stops_cons (by rw [h, Category.rank_operand]; exact Nat.lt_succ_self _) ts

/-- Behind an argument there is nothing that goes on with it. -/
def EndsArguments (rest : List Token) : Prop := Category.expression.Stops rest ∧ ∀ t ∈ rest.head?, t.kind ≠ .comma

theorem endsArguments_closing (closing : Terminal .rightParen) (ts : List Token) : EndsArguments (closing.1 :: ts) :=
  ⟨Category.stops_terminal _ closing rfl ts, by simp [closing.2]⟩

mutual

/-- Any phrase is followed to where it may end; the induction is on its derivation. -/
theorem Phrase.followed {c : Category} : ∀ (d : Phrase c) {n m : Nat} {rest : List Token},
    Within n m (d.word ++ rest) → c.Admits rest → c.Followed n m d rest
  | .plain e, _, _, _, h, hs =>
    have hs' : (Category.level .disjunction).Stops _ := hs.mono (by decide)
    followed_plain ((e.followed h hs'.admits).reads hs') hs
  | .assign target equals value, n, m, rest, h, hs => by
    rw [Phrase.word, List.append_assoc, List.cons_append] at h
    have hs' : (Category.level .disjunction).Stops (equals.1 :: (value.word ++ rest)) :=
      Category.stops_cons (by rw [equals.2]; decide) _
    obtain ⟨n', rfl, hv⟩ := h.of_append.inside
    exact followed_assign ((target.followed h hs'.admits).reads hs') ((value.followed hv hs).reads hs)
  | .one l e, _, _, _, h, hs => followed_one ((e.followed h hs.admits).reads hs)
  | .more l left operator right, n, m, rest, h, hs => by
    rw [Phrase.word, List.append_assoc, List.cons_append] at h
    exact followed_more (left.followed h (l.stops_operator operator _))
      ((right.followed h.of_append.tail hs.admits).reads hs)
  | .signed operator e, n, m, rest, h, hs => by
    obtain ⟨m', rfl⟩ := h.exists_succ
    exact followed_signed ((e.followed h.signed hs).reads hs)
  | .unsigned e, n, m, rest, h, hs => by
    obtain ⟨m', rfl⟩ := h.exists_succ
    have hs' : Category.call.Stops rest := hs.mono (by decide)
    exact followed_unsigned ((e.followed h hs'.admits).reads hs')
  | .atom e, _, _, rest, h, _ => followed_atom ((e.followed h trivial).reads (Category.stops_primary rest))
  | .callEmpty callee opening closing, n, m, rest, h, _ => by
    simp only [Phrase.word, List.append_assoc, List.cons_append, List.nil_append] at h
    exact followed_callEmpty (callee.followed h trivial)
  | .call callee opening as closing, n, m, rest, h, _ => by
    simp only [Phrase.word, List.append_assoc, List.cons_append, List.nil_append] at h
    obtain ⟨n', rfl, ha⟩ := h.of_append.inside
    exact followed_call (callee.followed h trivial) (as.reads ha.1 (endsArguments_closing closing rest)).1
  | .property object dot name, n, m, rest, h, _ => by
    simp only [Phrase.word, List.append_assoc, List.cons_append, List.nil_append] at h
    exact followed_property (object.followed h trivial)
  | .literal _ _ hv, _, _, _, _, _ => ⟨_, rfl, (reads_literal hv).toSteps⟩
  | .this keyword, _, _, _, _, _ => ⟨_, rfl, (reads_this keyword).toSteps⟩
  | .super _ _ _, _, _, _, _, _ => ⟨_, rfl, reads_super.toSteps⟩
  | .name t, _, _, _, _, _ => ⟨_, rfl, (reads_name t).toSteps⟩
  | .group opening e closing, n, m, rest, h, _ => by
    simp only [Phrase.word, List.append_assoc, List.cons_append, List.nil_append] at h
    obtain ⟨n', rfl, he⟩ := h.inside
    have hs : Category.expression.Stops (closing.1 :: rest) := Category.stops_terminal _ closing rfl _
    refine ⟨_, rfl, Reads.toSteps ?_⟩
    simp only [Phrase.word, List.append_assoc, List.cons_append, List.nil_append]
    exact reads_group ((e.followed he hs).reads hs)

/-- Arguments are read at the start of a list, and behind a comma. -/
theorem Arguments.reads : ∀ (as : Arguments) {n : Nat} {rest : List Token}, (as.word ++ rest).length ≤ n →
    EndsArguments rest →
    Reads (items (Parse.expression (n + 1)) .tooManyArguments) (as.word ++ rest) as.trees rest (as.marks 0) ∧
      ∀ (count : Nat) (bound : List Token) (comma : Terminal .comma), (as.word ++ rest).length < bound.length →
        Reads (moreItems (Parse.expression (n + 1)) .tooManyArguments bound count) (comma.1 :: (as.word ++ rest))
          as.trees rest (as.marks count)
  | .last e, n, rest, h, hs => by
    have he := (e.followed ⟨h, Nat.lt_succ_of_le h⟩ hs.1).reads hs.1
    refine ⟨?_, fun count bound comma hb => ?_⟩
    · rw [Arguments.marks, excess_zero]
      exact he.bind_last ((Reads.here _).then_bind ((reads_moreItems_nil _ hs.2).then_bind (.pure _ _)))
    · cases bound with
      | nil => simp at hb
      | cons b bound =>
        exact reads_moreItems_last comma b (reads_nextItem (e := .tooManyArguments) _ rfl e.word_ne_nil he) hs.2
  | .more e comma' others, n, rest, h, hs => by
    simp only [Arguments.word, List.append_assoc, List.cons_append] at h ⊢
    have hs' : Category.expression.Stops (comma'.1 :: (others.word ++ rest)) := Category.stops_terminal _ comma' rfl _
    have he := (e.followed ⟨h, Nat.lt_succ_of_le h⟩ hs').reads hs'
    have ho := (others.reads (n := n) (by simp at h ⊢; omega) hs).2
    refine ⟨?_, fun count bound comma hb => ?_⟩
    · rw [Arguments.marks, excess_zero]
      exact he.bind ((Reads.here _).then_bind ((ho 1 _ comma' (by simp)).bind_last (.pure _ _)))
    · cases bound with
      | nil => simp at hb
      | cons b bound =>
        exact reads_moreItems_cons comma b (reads_nextItem (e := .tooManyArguments) _ rfl e.word_ne_nil he)
          (ho (count + 1) bound comma' (by simp at hb ⊢; omega))

end

theorem Phrase.reads (d : Phrase .expression) (h : (d.word ++ rest).length ≤ n) (hs : Category.expression.Stops rest) :
    Reads (Parse.expression (n + 1)) (d.word ++ rest) d.tree rest d.marks :=
  (d.followed ⟨h, Nat.lt_succ_of_le h⟩ hs).reads hs

end LoxSyntax.Grammar
