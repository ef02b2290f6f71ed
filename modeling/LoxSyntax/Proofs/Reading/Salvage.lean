/-
  LoxSyntax.Proofs.Reading.Salvage — what is kept of the tokens, whatever is abandoned.

  A reading that gives a value keeps some of the tokens in front of those it leaves, in
  their order, and drops the others with the declarations that it abandoned. What a reader
  keeps is a word of its part of the grammar, and the value is the tree: a declaration
  that is dropped leaves a shorter row of declarations behind. An expression cannot drop
  anything, since declarations stand behind an opening brace only.

  What is left counts as well: the `else` behind an open statement would have been taken.

  - `salvaging_bind`, `salvaging_dispatch`, `salvaging_repeatUntil`, `salvaging_recover`:
    readers put together.
  - `salvaging_levels`: a declaration keeps a word of the grammar, or nothing.
  - `TokenList.salvaged`: the statements of any token list are the tree of a derivation of
    some of its tokens in their order, in which each `else` belongs to the nearest `if`.
-/

import LoxSyntax.Proofs.Acceptance
import LoxSyntax.Proofs.Reading.LocalReaders

namespace LoxSyntax.Parse

open Grammar

/-- What a reader may keep, with the value it gives and the tokens it leaves. -/
abbrev KeptLanguage (α : Type) := List Token → α → List Token → Prop

/-- What makes a word together with `w`. -/
def KeptLanguage.after (L : KeptLanguage α) (w : List Token) : KeptLanguage α := fun w' => L (w ++ w')

/-- A reading of `ts`: a value was read, and some tokens were kept, or what was left is
    what is left of `ts`. -/
inductive Salvages (L : KeptLanguage α) (ts : List Token) : Outcome α → Prop where
  | value {kept rest : List Token} {a : α} (h : (kept ++ rest).Sublist ts) (hl : L kept a rest) :
      Salvages L ts (.value a rest)
  | abandoned {rest : List Token} (h : rest.Sublist ts) : Salvages L ts (.abandoned rest)
  | tooDeep (rest : List Token) : Salvages L ts (.tooDeep rest)

/-- On fewer than `n` tokens the reader keeps a word of the language. -/
def Salvaging (n : Nat) (p : Parse α) (L : KeptLanguage α) : Prop :=
  ∀ ts, ts.length < n → Salvages L ts (p ts).outcome

variable {α β : Type} {L L' : KeptLanguage α} {M : KeptLanguage β} {n : Nat} {p q : Parse α} {f : α → Parse β}
  {ts : List Token}

theorem Salvages.imp {o : Outcome α} (h : Salvages L ts o) (hL : ∀ w a rest, L w a rest → L' w a rest) :
    Salvages L' ts o := by
  cases h with
  | value h hl => exact .value h (hL _ _ _ hl)
  | abandoned h => exact .abandoned h
  | tooDeep rest => exact .tooDeep rest

theorem Salvages.of_sublist {us : List Token} {o : Outcome α} (h : Salvages L us o) (hs : us.Sublist ts) :
    Salvages L ts o := by
  cases h with
  | value h hl => exact .value (h.trans hs) hl
  | abandoned h => exact .abandoned (h.trans hs)
  | tooDeep rest => exact .tooDeep rest

/-- Behind tokens that are kept. -/
theorem Salvages.behind {w : List Token} {o : Outcome α} (h : Salvages (L.after w) ts o) : Salvages L (w ++ ts) o := by
  cases h with
  | value h hl => exact .value (by rw [List.append_assoc]; exact h.append_left w) hl
  | abandoned h => exact .abandoned (h.trans (List.sublist_append_right w ts))
  | tooDeep rest => exact .tooDeep rest

theorem Salvaging.imp (h : Salvaging n p L) (hL : ∀ w a rest, L w a rest → L' w a rest) : Salvaging n p L' :=
  fun ts hl => (h ts hl).imp hL

theorem Salvaging.mono {m : Nat} (h : Salvaging n p L) (hm : m ≤ n) : Salvaging m p L :=
  fun ts hl => h ts (Nat.lt_of_lt_of_le hl hm)

theorem salvaging_zero : Salvaging 0 p L := fun _ hl => absurd hl (Nat.not_lt_zero _)

/-! ## Readers put together -/

/-- Nothing was kept in front of what is left. -/
theorem Salvages.nothing {rest : List Token} {a : α} (h : rest.Sublist ts) (hl : L [] a rest) :
    Salvages L ts (.value a rest) :=
  .value (by rwa [List.nil_append]) hl

theorem salvages_pure {a : α} (h : L [] a ts) : Salvages L ts ((Parse.pure a : Parse α) ts).outcome :=
  .nothing (List.Sublist.refl ts) h

theorem salvaging_pure {a : α} (h : ∀ rest, L [] a rest) : Salvaging n (Parse.pure a) L :=
  fun ts _ => salvages_pure (h ts)

theorem salvaging_bind (hp : Salvaging n p L)
    (hf : ∀ w a mid, L w a mid → mid.length < n → Salvages (M.after w) mid (f a mid).outcome) :
    Salvaging n (p >>= f) M := by
  intro ts hl
  have hp := hp ts hl
  rw [run_bind]
  generalize p ts = P at hp
  obtain ⟨rs, o⟩ := P
  cases hp with
  | @value kept mid a h hL =>
    have hlen : mid.length < n := by
      have := h.length_le
      rw [List.length_append] at this
      omega
    exact (hf kept a mid hL hlen).behind.of_sublist h
  | abandoned h => exact .abandoned h
  | tooDeep rest => exact .tooDeep rest

/-- What follows does not depend on what the first reader left. -/
theorem salvaging_then {N : List Token → α → Prop} (hp : Salvaging n p fun w a _ => N w a)
    (hf : ∀ w a, N w a → Salvaging n (f a) (M.after w)) : Salvaging n (p >>= f) M :=
  salvaging_bind hp fun w a mid hN hl => hf w a hN mid hl

theorem salvaging_map (g : α → β) (hp : Salvaging n p L) (hM : ∀ w a rest, L w a rest → M w (g a) rest) :
    Salvaging n (g <$> p) M :=
  salvaging_bind hp fun w a mid hw _ => salvages_pure (by
    rw [KeptLanguage.after, List.append_nil]
    exact hM w a mid hw)

theorem salvaging_here {g : List Token → Parse α} (h : ∀ ts, Salvaging n (g ts) L) : Salvaging n (here >>= g) L :=
  fun ts hl => h ts ts hl

theorem salvaging_nextIs {k : TokenKind → Bool} {g : Bool → Parse α} (h : ∀ b, Salvaging n (g b) L) :
    Salvaging n (nextIs k >>= g) L :=
  fun ts hl => h _ ts hl

/-- A token of the kind, then what may stand behind it. -/
theorem salvaging_expect {k : TokenKind} {e : SyntaxError} {g : Token → Parse α}
    (h : ∀ t : Terminal k, Salvaging n (g t.1) (L.after [t.1])) : Salvaging n (expect k e >>= g) L := by
  refine salvaging_bind (L := fun w t _ => ∃ t' : Terminal k, w = [t'.1] ∧ t = t'.1) ?_ ?_
  · intro ts hl
    cases ts with
    | nil => exact .abandoned (List.Sublist.refl [])
    | cons t ts =>
      by_cases hk : t.kind = k
      · simp only [expect, hk, if_true]
        exact .value (List.Sublist.refl (t :: ts)) ⟨⟨t, hk⟩, rfl, rfl⟩
      · simp only [expect, hk, if_false]
        exact .abandoned (List.Sublist.refl (t :: ts))
  · intro _ _ mid hk hl
    obtain ⟨t, rfl, rfl⟩ := hk
    exact h t mid hl

theorem salvaging_dispatch {rule : Token → Option (Parse α)}
    (hr : ∀ t p, rule t = some p → Salvaging (n - 1) p (L.after [t])) (hq : Salvaging n q L) :
    Salvaging n (dispatch rule q) L := by
  intro ts hl
  cases ts with
  | nil => exact hq [] hl
  | cons t ts =>
    simp only [dispatch]
    split
    · next p hp => exact (hr t p hp ts (by simp at hl; omega)).behind
    · exact hq _ hl

/-- What is next decides which reader it is. -/
theorem salvages_whenNext {k : TokenKind → Bool} {g : Token → Parse α}
    (hg : ∀ t us, ts = t :: us → k t.kind = true → Salvages (L.after [t]) us (g t us).outcome)
    (hq : (∀ t ∈ ts.head?, k t.kind = false) → Salvages L ts (q ts).outcome) :
    Salvages L ts (whenNext k g q ts).outcome := by
  cases ts with
  | nil => exact hq (by simp)
  | cons t ts =>
    simp only [whenNext, dispatch]
    by_cases hk : k t.kind = true
    · simp only [hk, if_true]
      exact (hg t ts rfl hk).behind
    · simp only [hk]
      exact hq (by simpa using hk)

theorem salvaging_whenNext {k : TokenKind → Bool} {g : Token → Parse α}
    (hg : ∀ t, k t.kind = true → Salvaging n (g t) (L.after [t])) (hq : Salvaging n q L) :
    Salvaging n (whenNext k g q) L := by
  intro ts hl
  refine salvages_whenNext ?_ fun _ => hq ts hl
  intro t us hts hk
  subst hts
  exact hg t hk us (Nat.lt_of_succ_lt hl)

theorem salvaging_repeatUntil {stop : TokenKind → Bool} {read : Parse (List α)} {K M : KeptLanguage (List α)}
    (hr : Salvaging n read K) (h0 : ∀ rest, M [] [] rest)
    (hM : ∀ w xs mid, K w xs mid → ∀ w' ys rest, M w' ys rest → M (w ++ w') (xs ++ ys) rest) (bound : List Token) :
    Salvaging n (repeatUntil stop read bound) M := by
  induction bound with
  | nil => exact salvaging_pure h0
  | cons b bound ih =>
    intro ts hl
    cases ts with
    | nil => exact salvages_pure (h0 [])
    | cons t ts =>
      simp only [repeatUntil]
      split
      · exact salvages_pure (h0 (t :: ts))
      · refine salvaging_bind hr ?_ (t :: ts) hl
        intro w xs mid hx hl
        refine salvaging_bind ih ?_ mid hl
        intro w' ys rest hy _
        refine salvages_pure ?_
        simpa [KeptLanguage.after] using hM w xs mid hx w' ys rest hy

/-- A word of the language, or nothing at all. -/
def KeptLanguage.orNothing (L : KeptLanguage α) : KeptLanguage (Option α) := fun w o rest =>
  (w = [] ∧ o = none) ∨ ∃ a, o = some a ∧ L w a rest

theorem salvaging_recover (h : Salvaging n p L) : Salvaging n (recover p) L.orNothing := by
  intro ts hl
  have h := h ts hl
  rw [recover_eq]
  generalize (p ts).outcome = o at h
  cases h with
  | value h hl => exact .value h (.inr ⟨_, rfl, hl⟩)
  | @abandoned rest h => exact .nothing ((synchronize_suffix_self rest).sublist.trans h) (.inl ⟨rfl, rfl⟩)
  | tooDeep rest => exact .tooDeep rest

/-- What is recognized in words without an opening brace is kept. -/
theorem Recognizes.salvaging {N : TreeLanguage α} (h : Recognizes false n p N)
    (hN : ∀ w a ms, N w a ms → ∀ t ∈ w, t.kind ≠ .leftBrace) : Salvaging n p fun w a _ => ∃ ms, N w a ms := by
  intro ts hl
  have hm := h.meets ts hl
  generalize p ts = P at hm
  cases hm with
  | read h _ hw _ => exact .value (by rw [h]) ⟨_, hw⟩
  | broken h _ _ hw ho =>
    rcases ho with ⟨-, rfl⟩ | hf | ⟨t, ht, hk⟩
    · exact .abandoned (by rw [h]; exact List.sublist_append_right _ _)
    · cases hf
    · exact absurd hk (hN _ _ _ hw t (List.mem_append_left _ ht))

end LoxSyntax.Parse

namespace LoxSyntax.Grammar

open Parse

/-- The words of a part that may be kept in front of what is left. -/
def Part.kept (p : Part) : KeptLanguage p.Tree := fun w a rest =>
  ∃ d : Clause p, d.word = w ∧ d.tree = a ∧ d.NearestElse ∧ (d.isOpen = true → NoElse rest)

/-- Anything may be left behind a derivation that is not open. -/
theorem kept_closed {p : Part} (d : Clause p) {w rest : List Token} (hw : d.word = w) (hn : d.NearestElse)
    (ho : d.isOpen = false) : p.kept w d.tree rest :=
  ⟨d, hw, rfl, hn, by simp [ho]⟩

/-- The readers for what stands inside keep words of the grammar. -/
structure Salvagers (n : Nat) (inner : Inner) : Prop where
  expression : Salvaging (n + 1) inner.expression fun w e _ => ∃ d : Phrase .expression, d.word = w ∧ d.tree = e
  statement : Salvaging n inner.statement Part.statement.kept
  declaration : Salvaging n inner.declaration Part.declaration.kept.orNothing

variable {n : Nat} {inner : Inner}

/-! ## Expressions and names -/

theorem salvaging_expression (n : Nat) :
    Salvaging n (Parse.expression n) fun w e _ => ∃ d : Phrase .expression, d.word = w ∧ d.tree = e := by
  refine ((recognizes_expression n).salvaging ?_).imp ?_
  · intro _ _ _ hd t ht hk
    obtain ⟨d, rfl, -⟩ := hd
    have h := d.inExpression_of_mem t ht
    rw [hk] at h
    cases h
  · intro w e rest hk
    obtain ⟨ms, d, hw, he, -⟩ := hk
    exact ⟨d, hw, he⟩

theorem Parameters.kind_ne_leftBrace (ps : Parameters) : ∀ t ∈ ps.word, t.kind ≠ .leftBrace := by
  induction ps with
  | last name => simp [word, Terminal.kind_eq]
  | more name comma others ih => simpa [word, Terminal.kind_eq] using ih

theorem salvaging_parameters :
    Salvaging n (itemsBeforeParen (expect .identifier .noParameterName) .tooManyParameters) fun w xs _ =>
      ∃ ps : Option Parameters, ps.elim [] Parameters.word = w ∧ ps.elim [] Parameters.names = xs := by
  refine (recognizes_parameters.salvaging ?_).imp ?_
  · intro _ _ _ hk
    obtain ⟨ps, rfl, -⟩ := hk
    cases ps with
    | none => simp
    | some ps => exact ps.kind_ne_leftBrace
  · intro w xs rest hk
    obtain ⟨ms, ps, hw, hx, -⟩ := hk
    exact ⟨ps, hw.symm, hx.symm⟩

theorem salvaging_superclass : Salvaging n Parse.superclass fun w parent _ =>
    ∃ s : Option (Terminal .less × Terminal .identifier), superclassWord s = w ∧ s.map (·.2.1) = parent := by
  refine salvaging_whenNext ?_ (salvaging_pure fun _ => ⟨none, rfl, rfl⟩)
  intro t ht
  refine salvaging_expect ?_
  intro name
  refine salvaging_pure ?_
  intro rest
  exact ⟨some (⟨t, by simpa using ht⟩, name), rfl, rfl⟩

theorem salvaging_initializer (h : Salvagers n inner) : Salvaging n (Parse.initializer inner) fun w v _ =>
    ∃ o : Option (Terminal .equal × Phrase .expression), o.elim [] (fun i => i.1.1 :: i.2.word) = w ∧
      o.map (·.2.tree) = v := by
  refine salvaging_whenNext ?_ (salvaging_pure fun _ => ⟨none, rfl, rfl⟩)
  intro t ht
  refine salvaging_map some (h.expression.mono (Nat.le_succ n)) ?_
  intro w e rest hk
  obtain ⟨d, rfl, rfl⟩ := hk
  exact ⟨some (⟨t, by simpa using ht⟩, d), rfl, rfl⟩

theorem salvaging_expressionUnless (h : Salvagers n inner) (stop : TokenKind) :
    Salvaging n (expressionUnless inner stop) fun w v _ =>
      ∃ o : Option (Phrase .expression), optionalWord o = w ∧ o.map Phrase.tree = v := by
  refine salvaging_nextIs ?_
  intro b
  cases b with
  | true => exact salvaging_pure fun _ => ⟨none, rfl, rfl⟩
  | false =>
    refine salvaging_map some (h.expression.mono (Nat.le_succ n)) ?_
    intro w e rest hk
    obtain ⟨d, rfl, rfl⟩ := hk
    exact ⟨some d, rfl, rfl⟩

/-! ## Declarations -/

theorem kept_program_nil (rest : List Token) : Part.program.kept [] [] rest :=
  kept_closed .nil rfl trivial rfl

/-- A declaration in front of others, or nothing. -/
theorem kept_program_append {w : List Token} {xs : List Stmt} {mid : List Token}
    (h : ∃ o, xs = o.toList ∧ Part.declaration.kept.orNothing w o mid) {w' : List Token} {ys : List Stmt}
    {rest : List Token} (h' : Part.program.kept w' ys rest) : Part.program.kept (w ++ w') (xs ++ ys) rest := by
  obtain ⟨o, rfl, ⟨rfl, rfl⟩ | ⟨a, rfl, d, rfl, rfl, hn, -⟩⟩ := h
  · exact h'
  · obtain ⟨d', rfl, rfl, hn', ho'⟩ := h'
    exact kept_closed (.cons d d') rfl ⟨hn, hn'⟩ rfl

theorem salvaging_declarations {read : Parse (Option Stmt)} (h : Salvaging n read Part.declaration.kept.orNothing)
    (stop : TokenKind → Bool) (bound : List Token) :
    Salvaging n (repeatUntil stop (Option.toList <$> read) bound) Part.program.kept :=
  salvaging_repeatUntil (K := fun w xs mid => ∃ o, xs = o.toList ∧ Part.declaration.kept.orNothing w o mid)
    (salvaging_map _ h fun _ o _ ho => ⟨o, rfl, ho⟩) kept_program_nil
    (fun _ _ _ hx _ _ _ hy => kept_program_append hx hy) bound

/-- What is kept of a block behind its opening brace. -/
def KeptBlock (w : List Token) (body : List Stmt) : Prop :=
  ∃ (d : Clause .program) (closing : Terminal .rightBrace), d.word ++ [closing.1] = w ∧ d.tree = body ∧ d.NearestElse

theorem salvaging_block (h : Salvagers n inner) : Salvaging n (block inner) fun w body _ => KeptBlock w body := by
  refine salvaging_here ?_
  intro ts
  refine salvaging_bind (salvaging_declarations h.declaration _ ts) ?_
  intro _ _ mid hk hl
  obtain ⟨d, rfl, rfl, hn, -⟩ := hk
  refine salvaging_expect (n := n) ?_ mid hl
  intro closing
  exact salvaging_pure fun rest => ⟨d, closing, by simp, rfl, hn⟩

theorem salvaging_function (h : Salvagers n inner) (what : String) :
    Salvaging n (Parse.function inner what) Part.function.kept := by
  refine salvaging_expect ?_
  intro name
  refine salvaging_expect ?_
  intro opening
  refine salvaging_then salvaging_parameters ?_
  intro _ _ hk
  obtain ⟨parameters, rfl, rfl⟩ := hk
  refine salvaging_expect ?_
  intro closing
  refine salvaging_expect ?_
  intro bodyOpening
  refine salvaging_then (salvaging_block h) ?_
  intro _ _ hk
  obtain ⟨d, bodyClosing, rfl, rfl, hn⟩ := hk
  refine salvaging_pure ?_
  intro rest
  exact kept_closed (.function name opening parameters closing bodyOpening d bodyClosing) (by simp [Clause.word]) hn rfl

theorem salvaging_methods (h : Salvagers n inner) (bound : List Token) :
    Salvaging n (repeatUntil (· == .rightBrace) ((fun f => [f]) <$> Parse.function inner "method") bound)
      Part.methods.kept := by
  refine salvaging_repeatUntil (K := fun w xs mid => ∃ f, xs = [f] ∧ Part.function.kept w f mid)
    (salvaging_map _ (salvaging_function h _) fun _ f _ hf => ⟨f, rfl, hf⟩) ?_ ?_ bound
  · exact fun rest => kept_closed .noMethods rfl trivial rfl
  · intro _ _ mid hf _ _ rest hm
    obtain ⟨f, rfl, d, rfl, rfl, hn, -⟩ := hf
    obtain ⟨d', rfl, rfl, hn', -⟩ := hm
    exact kept_closed (.moreMethods d d') rfl ⟨hn, hn'⟩ rfl

theorem salvaging_classDeclaration (h : Salvagers n inner) (keyword : Terminal .kwClass) :
    Salvaging n (classDeclaration inner) (Part.declaration.kept.after [keyword.1]) := by
  refine salvaging_expect ?_
  intro name
  refine salvaging_then salvaging_superclass ?_
  intro _ _ hk
  obtain ⟨s, rfl, rfl⟩ := hk
  refine salvaging_expect ?_
  intro opening
  refine salvaging_here ?_
  intro ts
  refine salvaging_bind (salvaging_methods h ts) ?_
  intro _ _ mid hk hl
  obtain ⟨d, rfl, rfl, hn, -⟩ := hk
  refine salvaging_expect (n := n) ?_ mid hl
  intro closing
  refine salvaging_pure ?_
  intro rest
  exact kept_closed (.class keyword name s opening d closing) (by simp [Clause.word]) hn rfl

theorem salvaging_varDeclaration (h : Salvagers n inner) (keyword : Terminal .kwVar) :
    Salvaging n (varDeclaration inner) fun w s _ =>
      ∃ d : VarDeclaration, d.word = keyword.1 :: w ∧ d.tree = s := by
  refine salvaging_expect ?_
  intro name
  refine salvaging_then (salvaging_initializer h) ?_
  intro _ _ hk
  obtain ⟨o, rfl, rfl⟩ := hk
  refine salvaging_expect ?_
  intro semicolon
  refine salvaging_pure ?_
  intro rest
  exact ⟨⟨keyword, name, o, semicolon⟩, by simp [VarDeclaration.word], rfl⟩

/-! ## Statements -/

theorem salvaging_expressionStatement (h : Salvagers n inner) :
    Salvaging (n + 1) (expressionStatement inner) fun w s _ =>
      ∃ (d : Phrase .expression) (semicolon : Terminal .semicolon), d.word ++ [semicolon.1] = w ∧
        .expression d.tree = s := by
  refine salvaging_then h.expression ?_
  intro _ _ hk
  obtain ⟨d, rfl, rfl⟩ := hk
  refine salvaging_expect ?_
  intro semicolon
  exact salvaging_pure fun rest => ⟨d, semicolon, by simp, rfl⟩

theorem salvaging_printStatement (h : Salvagers n inner) (keyword : Terminal .kwPrint) :
    Salvaging n (printStatement inner) (Part.statement.kept.after [keyword.1]) := by
  refine salvaging_then (h.expression.mono (Nat.le_succ n)) ?_
  intro _ _ hk
  obtain ⟨d, rfl, rfl⟩ := hk
  refine salvaging_expect ?_
  intro semicolon
  refine salvaging_pure ?_
  intro rest
  exact kept_closed (.print keyword d semicolon) (by simp [Clause.word]) trivial rfl

theorem salvaging_returnStatement (h : Salvagers n inner) (keyword : Terminal .kwReturn) :
    Salvaging n (returnStatement inner keyword.1) (Part.statement.kept.after [keyword.1]) := by
  refine salvaging_then (salvaging_expressionUnless h _) ?_
  intro _ _ hk
  obtain ⟨o, rfl, rfl⟩ := hk
  refine salvaging_expect ?_
  intro semicolon
  refine salvaging_pure ?_
  intro rest
  exact kept_closed (.return keyword o semicolon) (by simp [Clause.word]) trivial rfl

theorem salvaging_whileStatement (h : Salvagers n inner) (keyword : Terminal .kwWhile) :
    Salvaging n (whileStatement inner) (Part.statement.kept.after [keyword.1]) := by
  refine salvaging_expect ?_
  intro opening
  refine salvaging_then (h.expression.mono (Nat.le_succ n)) ?_
  intro _ _ hk
  obtain ⟨c, rfl, rfl⟩ := hk
  refine salvaging_expect ?_
  intro closing
  refine salvaging_bind h.statement ?_
  intro _ _ mid hk _
  obtain ⟨d, rfl, rfl, hn, ho⟩ := hk
  exact salvages_pure ⟨.while keyword opening c closing d, by simp [Clause.word], rfl, hn, ho⟩

theorem salvaging_ifStatement (h : Salvagers n inner) (keyword : Terminal .kwIf) :
    Salvaging n (ifStatement inner) (Part.statement.kept.after [keyword.1]) := by
  refine salvaging_expect ?_
  intro opening
  refine salvaging_then (h.expression.mono (Nat.le_succ n)) ?_
  intro _ _ hk
  obtain ⟨c, rfl, rfl⟩ := hk
  refine salvaging_expect ?_
  intro closing
  refine salvaging_bind h.statement ?_
  intro _ _ mid hk hl
  obtain ⟨d, rfl, rfl, hn, ho⟩ := hk
  refine salvages_whenNext ?_ ?_
  · intro t us hmid hk
    subst hmid
    have hk : t.kind = .kwElse := by simpa using hk
    -- an open branch would have taken this `else`
    have hclosed : d.isOpen = false := by
      rw [← Bool.not_eq_true]
      exact fun hopen => ho hopen t rfl hk
    refine salvaging_map _ h.statement ?_ us (Nat.lt_of_succ_lt hl)
    intro _ _ rest hk
    obtain ⟨d', rfl, rfl, hn', ho'⟩ := hk
    exact ⟨.ifElse keyword opening c closing d ⟨t, hk⟩ d', by simp [Clause.word], rfl, ⟨hclosed, hn, hn'⟩, ho'⟩
  · intro hmid
    refine salvages_pure ⟨.ifThen keyword opening c closing d, by simp [Clause.word], rfl, hn, fun _ => ?_⟩
    simpa [NoElse] using hmid

theorem salvaging_loopInitializer (h : Salvagers n inner) : Salvaging n (loopInitializer inner) fun w s _ =>
    ∃ d : Initializer, d.word = w ∧ d.tree = s := by
  refine salvaging_dispatch ?_ (salvaging_map some ((salvaging_expressionStatement h).mono (Nat.le_succ n)) ?_)
  · intro t p hp
    unfold initializerRule at hp
    split at hp <;> cases hp
    · next hk => exact salvaging_pure fun _ => ⟨.none ⟨t, hk⟩, rfl, rfl⟩
    · next hk =>
      refine salvaging_map some ((salvaging_varDeclaration h ⟨t, hk⟩).mono (Nat.sub_le n 1)) ?_
      intro w _ rest hk
      obtain ⟨d, hw, rfl⟩ := hk
      exact ⟨.var d, hw, rfl⟩
  · intro w _ rest hk
    obtain ⟨d, semicolon, rfl, rfl⟩ := hk
    exact ⟨.expression d semicolon, rfl, rfl⟩

theorem salvaging_forStatement (h : Salvagers n inner) (keyword : Terminal .kwFor) :
    Salvaging n (forStatement inner) (Part.statement.kept.after [keyword.1]) := by
  refine salvaging_expect ?_
  intro opening
  refine salvaging_then (salvaging_loopInitializer h) ?_
  intro _ _ hk
  obtain ⟨i, rfl, rfl⟩ := hk
  refine salvaging_then (salvaging_expressionUnless h _) ?_
  intro _ _ hk
  obtain ⟨c, rfl, rfl⟩ := hk
  refine salvaging_expect ?_
  intro semicolon
  refine salvaging_then (salvaging_expressionUnless h _) ?_
  intro _ _ hk
  obtain ⟨e, rfl, rfl⟩ := hk
  refine salvaging_expect ?_
  intro closing
  refine salvaging_bind h.statement ?_
  intro _ _ mid hk _
  obtain ⟨d, rfl, rfl, hn, ho⟩ := hk
  exact salvages_pure ⟨.for keyword opening i c semicolon e closing d, by simp [Clause.word], rfl, hn, ho⟩

theorem salvaging_statementForm (h : Salvagers n inner) :
    Salvaging (n + 1) (statementForm inner) Part.statement.kept := by
  refine salvaging_dispatch ?_ ((salvaging_expressionStatement h).imp ?_)
  · intro t p hp
    unfold statementRule at hp
    split at hp <;> cases hp
    · next hk => exact salvaging_forStatement h ⟨t, hk⟩
    · next hk => exact salvaging_ifStatement h ⟨t, hk⟩
    · next hk => exact salvaging_printStatement h ⟨t, hk⟩
    · next hk => exact salvaging_returnStatement h ⟨t, hk⟩
    · next hk => exact salvaging_whileStatement h ⟨t, hk⟩
    · next hk =>
      refine salvaging_map Stmt.block (salvaging_block h) ?_
      intro _ _ rest hk
      obtain ⟨d, closing, rfl, rfl, hn⟩ := hk
      exact kept_closed (.block ⟨t, hk⟩ d closing) rfl hn rfl
  · intro _ _ rest hk
    obtain ⟨d, semicolon, rfl, rfl⟩ := hk
    exact kept_closed (.expression d semicolon) rfl trivial rfl

theorem salvaging_declarationForm (h : Salvagers n inner) :
    Salvaging (n + 1) (declarationForm inner) Part.declaration.kept := by
  refine salvaging_dispatch ?_ ((salvaging_statementForm h).imp ?_)
  · intro t p hp
    unfold declarationRule at hp
    split at hp <;> cases hp
    · next hk => exact salvaging_classDeclaration h ⟨t, hk⟩
    · next hk =>
      refine salvaging_map Stmt.function (salvaging_function h _) ?_
      intro _ _ rest hk
      obtain ⟨d, rfl, rfl, hn, -⟩ := hk
      exact kept_closed (.fun ⟨t, hk⟩ d) rfl hn rfl
    · next hk =>
      refine (salvaging_varDeclaration h ⟨t, hk⟩).imp ?_
      intro w _ rest hk
      obtain ⟨d, hw, rfl⟩ := hk
      exact kept_closed (.var d) hw trivial rfl
  · intro _ _ rest hk
    obtain ⟨d, rfl, rfl, hn, ho⟩ := hk
    exact ⟨.statement d, rfl, rfl, hn, ho⟩

/-! ## Levels -/

theorem salvaging_levels : ∀ n, Salvaging n (Parse.statement n) Part.statement.kept ∧
    Salvaging n (Parse.declaration n) Part.declaration.kept.orNothing
  | 0 => ⟨salvaging_zero, salvaging_zero⟩
  | n + 1 => by
    obtain ⟨hs, hd⟩ := salvaging_levels n
    have h : Salvagers n (insideOf n) := ⟨salvaging_expression (n + 1), hs, hd⟩
    exact ⟨salvaging_statementForm h, salvaging_recover (salvaging_declarationForm h)⟩

end LoxSyntax.Grammar

namespace LoxSyntax

open Grammar Parse

/-- Whatever was abandoned, the statements are the tree of what was kept. -/
theorem TokenList.salvaged (l : TokenList) : ∃ d : Clause .program, d.word.Sublist l.body ∧
    d.tree = l.parse.statements ∧ d.NearestElse := by
  have hlen := Nat.lt_succ_self l.body.length
  obtain ⟨statements, hv⟩ := program_value hlen
  have h := salvaging_declarations (salvaging_levels (l.body.length + 1)).2 (fun _ => false) l.body l.body hlen
  have ho : (repeatUntil (fun _ => false) (Option.toList <$> Parse.declaration (l.body.length + 1)) l.body
      l.body).outcome = .value statements [] := hv
  rw [ho] at h
  cases h with
  | value h hk =>
    obtain ⟨d, rfl, rfl, hn, -⟩ := hk
    refine ⟨d, by simpa using h, ?_, hn⟩
    simp only [parse, parseWithin, hv, Outcome.value?, Option.getD_some]

end LoxSyntax
