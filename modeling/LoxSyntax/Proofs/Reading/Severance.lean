/-
  LoxSyntax.Proofs.Reading.Severance — what a reader does with tokens that are cut off
  from those behind them.

  A reader is severed from `r` when on tokens in front of `r` it does the same as on these
  tokens alone, or else goes on into `r`: it takes a token of `r`, or abandons what it was
  reading because of one. At the cut the first reading sees a token and the second sees
  the end, and no reader asks for the end; so where the first does not take that token,
  the second stops as well. Only a reader that looks for a closing token before it reads
  an item tells them apart, and then the closing token is taken next.

  - `Severs.value_eq`: a reading that stops at the cut is the same without what is behind.
  - `severed_bind`, `severed_recover`, `severed_repeatUntil`: readers put together from
    severed ones are severed.
-/

import LoxSyntax.Proofs.Reading.Locality

namespace LoxSyntax.Parse

variable {α β : Type} {n : Nat} {p q p' q' : Parse α} {f f' : α → Parse β} {r : List Token}

/-- The reading took a token of `r`, or abandoned something because of one. -/
def GoesInto (r : List Token) : Outcome α → Prop
  | .value _ rest => rest.length < r.length
  | .abandoned rest => rest.length ≤ r.length
  | .tooDeep _ => False

/-- A reading of tokens in front of `r`, and one of these tokens alone. -/
inductive Severs (r : List Token) : Parsed α → Parsed α → Prop where
  | value {rs rs' : List Report} (x : List Token) (a : α) (h : SameReports r [] rs rs') :
      Severs r ⟨rs, .value a (x ++ r)⟩ ⟨rs', .value a x⟩
  | abandoned {rs rs' : List Report} {x : List Token} (hx : x ≠ []) (h : SameReports r [] rs rs') :
      Severs r ⟨rs, .abandoned (x ++ r)⟩ ⟨rs', .abandoned x⟩
  | beyond {P P' : Parsed α} (h : GoesInto r P.outcome) : Severs r P P'

/-- On fewer than `n` tokens in front of `r`, and on them alone, the readers do the same
    or the first goes on into `r`. -/
structure Severed (r : List Token) (n : Nat) (p p' : Parse α) : Prop where
  steady : Steady (n + r.length) p
  severs : ∀ x, x.length < n → Severs r (p (x ++ r)) (p' x)

/-- A reading that stops at the cut is the same without what is behind. -/
theorem Severs.value_eq {rs : List Report} {a : α} {P' : Parsed α} (h : Severs r ⟨rs, .value a r⟩ P') :
    ∃ rs', P' = ⟨rs', .value a []⟩ ∧ SameReports r [] rs rs' := by
  generalize hP : Parsed.mk rs (Outcome.value a r) = P at h
  cases h with
  | value x b h =>
    obtain ⟨rfl, ho⟩ := Parsed.mk.inj hP
    obtain ⟨rfl, hx⟩ := Outcome.value.inj ho
    obtain rfl : x = [] := List.self_eq_append_left.1 hx
    exact ⟨_, rfl, h⟩
  | abandoned hx h => cases hP
  | beyond h =>
    subst hP
    exact absurd h (Nat.lt_irrefl r.length)

/-! ## Going on behind the cut -/

theorem goesInto_of_leaves {t : Token} {ts : List Token} {P : Parsed α} (h : Leaves ts P) :
    GoesInto (t :: ts) P.outcome := by
  obtain ⟨⟨rest, hr, hs⟩, -⟩ := h
  have hlen := hs.length_le
  cases ho : P.outcome <;> rw [ho] at hr <;> cases hr
  · exact Nat.lt_succ_of_le hlen
  · exact Nat.le_succ_of_le hlen

theorem GoesInto.of_suffix {us : List Token} {P : Parsed α} (hl : us.length < r.length) (h : Leaves us P) :
    GoesInto r P.outcome := by
  obtain ⟨⟨rest, hr, hs⟩, -⟩ := h
  have hlen := hs.length_le
  cases ho : P.outcome <;> rw [ho] at hr <;> cases hr
  · exact Nat.lt_of_le_of_lt hlen hl
  · exact Nat.le_of_lt (Nat.lt_of_le_of_lt hlen hl)

/-- A reader that goes on into `r`, and then another. -/
theorem GoesInto.bind {ts : List Token} (h : GoesInto r (p ts).outcome)
    (hf : ∀ a rest, rest.length < r.length → Leaves rest (f a rest)) : GoesInto r ((p >>= f) ts).outcome := by
  rw [run_bind]
  generalize p ts = P at h
  obtain ⟨rs, o⟩ := P
  cases o with
  | value a rest => exact GoesInto.of_suffix (P := f a rest) h (hf a rest h)
  | abandoned rest => exact h
  | tooDeep rest => exact h

/-- What takes a token or abandons what it did not begin goes on into the tokens. -/
theorem Advances.goesInto (h : Advances n p) (hs : Steady n p) (hl : r.length < n) : GoesInto r (p r).outcome := by
  obtain ⟨⟨rest, hr, hsuffix⟩, -⟩ := hs r hl
  have h := h r hl rest hr
  have hlen := hsuffix.length_le
  cases ho : (p r).outcome <;> rw [ho] at hr h <;> cases hr
  · exact h.resolve_right (by simp)
  · exact hlen

theorem Shortens.goesInto {t : Token} {ts : List Token} (h : Shortens n p) (hs : Steady n p)
    (hl : (t :: ts).length < n) : GoesInto (t :: ts) (p (t :: ts)).outcome := by
  obtain ⟨⟨rest, hr, hsuffix⟩, -⟩ := hs _ hl
  have h := h t ts hl
  have hlen := hsuffix.length_le
  cases ho : (p (t :: ts)).outcome <;> rw [ho] at hr h <;> cases hr
  · exact Nat.lt_succ_of_le (h _ _ rfl)
  · exact hlen

/-! ## Readers put together -/

theorem Severed.mono {m : Nat} (h : Severed r n p p') (hm : m ≤ n) : Severed r m p p' :=
  ⟨h.steady.mono (Nat.add_le_add_right hm _), fun x hl => h.severs x (Nat.lt_of_lt_of_le hl hm)⟩

theorem Severed.of_zero (h : Steady r.length p) : Severed r 0 p p' :=
  ⟨by simpa using h, fun _ hl => absurd hl (Nat.not_lt_zero _)⟩

/-- Readings that go on after the same reports. -/
theorem Severs.after {rs rs' : List Report} (h : SameReports r [] rs rs') {P P' : Parsed α} (hP : Severs r P P') :
    Severs r ⟨rs ++ P.reports, P.outcome⟩ ⟨rs' ++ P'.reports, P'.outcome⟩ := by
  cases hP with
  | value x a h' => exact .value x a (h.append h')
  | abandoned hx h' => exact .abandoned hx (h.append h')
  | beyond h' => exact .beyond h'

theorem severed_pure (a : α) : Severed r n (Parse.pure a) (Parse.pure a) :=
  ⟨steady_pure _ a, fun x _ => .value x a .nil⟩

/-- A reader after a reader, where the second is compared only at what the first left. -/
theorem severs_bind {ts ts' : List Token} (h : Severs r (p ts) (p' ts'))
    (hf : ∀ a x, (p ts).outcome = .value a (x ++ r) → Severs r (f a (x ++ r)) (f' a x))
    (hs : ∀ a rest, rest.length < r.length → Leaves rest (f a rest)) :
    Severs r ((p >>= f) ts) ((p' >>= f') ts') := by
  rw [run_bind (p := p')]
  by_cases hb : GoesInto r (p ts).outcome
  · exact .beyond (hb.bind hs)
  · rw [run_bind]
    generalize p ts = P at h hf hb
    generalize p' ts' = P' at h
    cases h with
    | value x a h => exact (hf a x rfl).after h
    | abandoned hx h => exact .abandoned hx h
    | beyond h => exact absurd h hb

theorem severed_bind (hp : Severed r n p p') (hf : ∀ a, Severed r n (f a) (f' a)) :
    Severed r n (p >>= f) (p' >>= f') := by
  refine ⟨steady_bind hp.steady fun a => (hf a).steady, ?_⟩
  intro x hl
  obtain ⟨⟨rest, hrest, hs⟩, -⟩ := hp.steady (x ++ r) (by simpa using hl)
  refine severs_bind (hp.severs x hl) ?_ fun a rest hlen => (hf a).steady rest (by omega)
  intro a y hy
  obtain rfl : y ++ r = rest := by simpa [hy, rest?] using hrest
  have hlen : y.length ≤ x.length := by simpa using hs.length_le
  exact (hf a).severs y (Nat.lt_of_le_of_lt hlen hl)

theorem severed_map (g : α → β) (h : Severed r n p p') : Severed r n (g <$> p) (g <$> p') :=
  severed_bind h fun a => severed_pure (g a)

theorem severed_here {g g' : List Token → Parse α} (hs : ∀ ts, Steady (n + r.length) (g ts))
    (h : ∀ x, x.length < n → Severs r (g (x ++ r) (x ++ r)) (g' x x)) : Severed r n (here >>= g) (here >>= g') :=
  ⟨steady_here hs, h⟩

/-! ## Single tokens -/

theorem sameReports_singleton (e : SyntaxError) {x : List Token} (hx : x ≠ []) :
    SameReports r [] [⟨e, x ++ r⟩] [⟨e, x⟩] :=
  .cons ⟨rfl, x, rfl, (List.append_nil x).symm, fun h => absurd h hx⟩ .nil

theorem severed_fail (e : SyntaxError) : Severed r n (fail e : Parse α) (fail e) := by
  refine ⟨steady_fail _ e, ?_⟩
  intro x _
  by_cases hx : x = []
  · subst hx
    exact .beyond (Nat.le_refl _)
  · exact .abandoned hx (sameReports_singleton e hx)

theorem severed_report {e : SyntaxError} (he : e.isSoft = true) {x : List Token} (hx : x ≠ []) :
    Severed r n (report e (x ++ r)) (report e x) :=
  ⟨steady_report _ he _, fun y _ => .value y () (sameReports_singleton e hx)⟩

theorem severed_expect (k : TokenKind) (e : SyntaxError) : Severed r n (expect k e) (expect k e) := by
  refine ⟨steady_expect _ k e, ?_⟩
  intro x hl
  cases x with
  | nil => exact .beyond ((advances_expect (r.length + 1) k e).goesInto (steady_expect _ k e) (Nat.lt_succ_self _))
  | cons t x =>
    simp only [List.cons_append, expect]
    split
    · exact .value x t .nil
    · exact (severed_fail e).severs (t :: x) hl

/-- The rules that two readers go on by. -/
inductive SeveredRules (r : List Token) (n : Nat) : Option (Parse α) → Option (Parse α) → Prop where
  | none : SeveredRules r n none none
  | some {p p' : Parse α} (h : Severed r n p p') : SeveredRules r n (some p) (some p')

theorem SeveredRules.mono {m : Nat} {o o' : Option (Parse α)} (h : SeveredRules r n o o') (hm : m ≤ n) :
    SeveredRules r m o o' := by
  cases h with
  | none => exact .none
  | some h => exact .some (h.mono hm)

theorem SeveredRules.steady {o o' : Option (Parse α)} (h : SeveredRules r n o o') (hp : o = Option.some p) :
    Steady (n + r.length) p := by
  cases h with
  | none => cases hp
  | some h =>
    cases hp
    exact h.steady

/-- At the cut the second reader is at its end; the first takes a token of `r` if it has a rule
    for it. -/
theorem severs_dispatch_nil {rule : Token → Option (Parse α)} {P' : Parsed α}
    (hr : ∀ t p, rule t = some p → Steady r.length p) (hq : Severs r (q r) P') : Severs r (dispatch rule q r) P' := by
  cases r with
  | nil => exact hq
  | cons t r =>
    simp only [dispatch]
    split
    · next p hp => exact .beyond (goesInto_of_leaves (hr t p hp r (Nat.lt_succ_self _)))
    · exact hq

theorem severs_whenNext_nil {k : TokenKind → Bool} {g : Token → Parse α} {P' : Parsed α}
    (hg : ∀ t, Steady r.length (g t)) (hq : Severs r (q r) P') : Severs r (whenNext k g q r) P' := by
  refine severs_dispatch_nil ?_ hq
  intro t p hp
  split at hp
  · cases hp
    exact hg t
  · cases hp

theorem severed_dispatch {rule rule' : Token → Option (Parse α)}
    (hr : ∀ t, SeveredRules r (n - 1) (rule t) (rule' t)) (hq : Severed r n q q') :
    Severed r n (dispatch rule q) (dispatch rule' q') := by
  have hs : ∀ t p, rule t = some p → Steady (n - 1 + r.length) p := fun t p hp => (hr t).steady hp
  refine ⟨steady_dispatch (fun t p hp => (hs t p hp).mono (by omega)) hq.steady, ?_⟩
  intro x hl
  cases x with
  | nil => exact severs_dispatch_nil (fun t p hp => (hs t p hp).mono (Nat.le_add_left _ _)) (hq.severs [] hl)
  | cons t x =>
    have h := hr t
    simp only [List.cons_append, dispatch]
    generalize rule t = o at h
    generalize rule' t = o' at h
    cases h with
    | none => exact hq.severs (t :: x) hl
    | some h => exact h.severs x (by simp at hl; omega)

theorem severed_whenNext {k : TokenKind → Bool} {g g' : Token → Parse α} (hg : ∀ t, Severed r (n - 1) (g t) (g' t))
    (hq : Severed r n q q') : Severed r n (whenNext k g q) (whenNext k g' q') := by
  refine severed_dispatch ?_ hq
  intro t
  by_cases hk : k t.kind = true
  · simp only [hk, if_true]
    exact .some (hg t)
  · simp only [hk]
    exact .none

/-! ## Closing tokens -/

/-- Nothing, before the closing token, or else what the reader gives; and then that token. -/
def unlessClosing (k : TokenKind) (e : SyntaxError) (a : α) (q : Parse α) (g : α → Token → Parse β) : Parse β :=
  (nextIs (· == k) >>= fun b => if b = true then Parse.pure a else q) >>= fun a => expect k e >>= g a

theorem run_unlessClosing {k : TokenKind} {e : SyntaxError} {a : α} {g : α → Token → Parse β} (ts : List Token) :
    unlessClosing k e a q g ts = ((if ts.head?.any (·.kind == k) then Parse.pure a else q) >>=
      fun a => expect k e >>= g a) ts := by
  rw [unlessClosing, run_bind, run_bind, run_bind, nextIs]
  cases ts.head?.any (·.kind == k) <;> simp

/-- Where the two readings do not look at the same token, the first takes the closing one. -/
theorem severed_unlessClosing {k : TokenKind} {e : SyntaxError} {a : α} {g g' : α → Token → Parse β}
    (hq : Severed r n q q') (hg : ∀ a t, Severed r n (g a t) (g' a t)) :
    Severed r n (unlessClosing k e a q g) (unlessClosing k e a q' g') := by
  have hc : ∀ a, Severed r n (expect k e >>= g a) (expect k e >>= g' a) :=
    fun a => severed_bind (severed_expect k e) (hg a)
  have hb : ∀ b : Bool, Severed r n ((if b then Parse.pure a else q) >>= fun a => expect k e >>= g a)
      ((if b then Parse.pure a else q') >>= fun a => expect k e >>= g' a) := by
    intro b
    cases b with
    | true => exact severed_bind (severed_pure a) hc
    | false => exact severed_bind hq hc
  constructor
  · intro ts hl
    rw [run_unlessClosing]
    exact (hb _).steady ts hl
  · intro x hl
    rw [run_unlessClosing, run_unlessClosing]
    by_cases hh : (x ++ r).head?.any (·.kind == k) = x.head?.any (·.kind == k)
    · rw [hh]
      exact (hb _).severs x hl
    · cases x with
      | cons t x => exact absurd rfl hh
      | nil =>
        have hk : r.head?.any (·.kind == k) = true := by simpa using hh
        rw [List.nil_append, hk]
        refine .beyond ?_
        have hadv : Advances (n + r.length) (expect k e >>= g a) :=
          advances_bind (advances_expect _ k e) fun t => (hg a t).steady
        exact hadv.goesInto (hc a).steady (by simp at hl; omega)

/-! ## Loops -/

theorem Covers.eq_zero (hr : r ≠ []) (h : Covers n r []) : n = 0 := by
  have hpos := List.length_pos_iff.2 hr
  cases n with
  | zero => rfl
  | succ n =>
    have := h 0 (Nat.succ_pos n)
    rw [List.length_nil] at this
    omega

theorem covers_alone {x : List Token} : Covers (x.length + 1) [] x := by
  intro m hm
  exact Nat.le_of_lt_succ hm

theorem Advances.mono {m : Nat} (h : Advances n p) (hm : m ≤ n) : Advances m p :=
  fun ts hl => h ts (Nat.lt_of_lt_of_le hl hm)

theorem Shortens.mono {m : Nat} (h : Shortens n p) (hm : m ≤ n) : Shortens m p :=
  fun t ts hl => h t ts (Nat.lt_of_lt_of_le hl hm)

/-- Where the second bound is over, so are the tokens in front of `r`. -/
theorem Severed.over (hs : Steady (n + r.length) p) (hb : Covers n [] []) (h : Severs r (p r) (p' [])) :
    Severed r n p p' := by
  refine ⟨hs, ?_⟩
  intro x hl
  obtain rfl : x = [] := List.length_eq_zero_iff.1 (by simpa using hb _ hl)
  exact h

theorem severed_chainFrom {operand operand' : Parse α} (join : α → Token → α → α) (k : TokenKind → Bool)
    (hr : r ≠ []) : ∀ (bound bound' : List Token) {n : Nat} (left : α), Severed r n operand operand' →
      Covers n r bound → Covers n [] bound' →
      Severed r n (chainFrom operand join k bound left) (chainFrom operand' join k bound' left)
  | b :: bound, b' :: bound', n, left, h, hb, hb' =>
    severed_whenNext (fun t => severed_bind (h.mono (Nat.sub_le n 1)) fun right =>
      severed_chainFrom join k hr bound bound' _ (h.mono (Nat.sub_le n 1)) hb.tail hb'.tail) (severed_pure left)
  | [], bound', n, left, h, hb, _ => by
    obtain rfl := hb.eq_zero hr
    exact .of_zero ((steady_chainFrom h.steady [] left).mono (Nat.le_add_left _ _))
  | b :: bound, [], n, left, h, _, hb' => by
    have hs : ∀ bound left, Steady (n + r.length) (chainFrom operand join k bound left) :=
      fun bound left => steady_chainFrom h.steady bound left
    refine .over (hs _ left) hb' (severs_whenNext_nil (fun t => ?_) (.value [] left .nil))
    exact (steady_bind h.steady fun right => hs bound _).mono (Nat.le_add_left _ _)

theorem severed_chain {operand operand' : Parse α} {join : α → Token → α → α} {k : TokenKind → Bool} (hr : r ≠ [])
    (h : Severed r n operand operand') : Severed r n (chain operand join k) (chain operand' join k) := by
  refine severed_bind h ?_
  intro left
  refine severed_here (fun ts => steady_chainFrom h.steady ts left) ?_
  intro x hl
  exact (severed_chainFrom join k hr _ _ left (h.mono hl) covers_self covers_alone).severs x (Nat.lt_succ_self _)

section Items

variable {item item' : Parse α} {e : SyntaxError}

/-- Where the item after the limit is blamed at the cut, it is read behind it. -/
theorem severed_nextItem (he : e.isSoft = true) (h : Severed r n item item') (ha : Advances (n + r.length) item)
    (count : Nat) : Severed r n (nextItem item e count) (nextItem item' e count) := by
  unfold nextItem
  split
  · refine severed_here (fun ts => steady_bind (steady_report _ he ts) fun _ => h.steady) ?_
    intro x hl
    by_cases hx : x = []
    · subst hx
      have hi : GoesInto r (item r).outcome := ha.goesInto h.steady (by simp at hl; omega)
      exact .beyond hi
    · exact (severed_bind (severed_report he hx) fun _ => h).severs x hl
  · exact h

theorem severed_moreItems (he : e.isSoft = true) (hr : r ≠ []) : ∀ (bound bound' : List Token) {n : Nat} (count : Nat),
    Severed r n item item' → Advances (n + r.length) item → Covers n r bound → Covers n [] bound' →
    Severed r n (moreItems item e bound count) (moreItems item' e bound' count)
  | b :: bound, b' :: bound', n, count, h, ha, hb, hb' => by
    have h := h.mono (Nat.sub_le n 1)
    have ha : Advances (n - 1 + r.length) item := ha.mono (by omega)
    have hm := severed_moreItems he hr bound bound' (count + 1) h ha hb.tail hb'.tail
    exact severed_whenNext (fun t => severed_bind (severed_nextItem he h ha count) fun x =>
      severed_bind hm fun xs => severed_pure _) (severed_pure [])
  | [], bound', n, count, h, _, hb, _ => by
    obtain rfl := hb.eq_zero hr
    exact .of_zero ((steady_moreItems he h.steady [] count).mono (Nat.le_add_left _ _))
  | b :: bound, [], n, count, h, _, _, hb' => by
    have hs := fun bound count => steady_moreItems he h.steady bound count
    refine .over (hs _ count) hb' (severs_whenNext_nil (fun t => ?_) (.value [] [] .nil))
    exact (steady_bind (steady_nextItem he h.steady count) fun x => steady_bind (hs bound _) fun xs =>
      steady_pure _ _).mono (Nat.le_add_left _ _)

theorem severed_items (he : e.isSoft = true) (hr : r ≠ []) (h : Severed r n item item')
    (ha : Advances (n + r.length) item) : Severed r n (items item e) (items item' e) := by
  refine severed_bind h ?_
  intro x
  refine severed_here (fun ts => steady_bind (steady_moreItems he h.steady ts 1) fun xs => steady_pure _ _) ?_
  intro y hl
  exact (severed_bind (severed_moreItems he hr _ _ 1 (h.mono hl) (ha.mono (by omega)) covers_self covers_alone)
    fun xs => severed_pure (x :: xs)).severs y (Nat.lt_succ_self _)

end Items

theorem repeatUntil_nil (stop : TokenKind → Bool) (read : Parse (List α)) (bound : List Token) :
    repeatUntil stop read bound [] = ⟨[], .value [] []⟩ := by
  cases bound <;> rfl

theorem repeatUntil_cons {stop : TokenKind → Bool} {read : Parse (List α)} {t : Token} (h : stop t.kind = false)
    (b : Token) (bound ts : List Token) : repeatUntil stop read (b :: bound) (t :: ts) =
      (read >>= fun xs => repeatUntil stop read bound >>= fun ys => Parse.pure (xs ++ ys)) (t :: ts) := by
  simp only [repeatUntil, h, Bool.false_eq_true, if_false]

theorem repeatUntil_stop {stop : TokenKind → Bool} {read : Parse (List α)} {t : Token} (h : stop t.kind = true)
    (bound ts : List Token) : repeatUntil stop read bound (t :: ts) = ⟨[], .value [] (t :: ts)⟩ := by
  cases bound with
  | nil => rfl
  | cons b bound => simp only [repeatUntil, h, if_true]

theorem severed_repeatUntil {stop : TokenKind → Bool} {read read' : Parse (List α)} (hr : r ≠ []) :
    ∀ (bound bound' : List Token) {n : Nat}, Severed r n read read' → Shortens (n + r.length) read →
      Covers n r bound → Covers n [] bound' →
      Severed r n (repeatUntil stop read bound) (repeatUntil stop read' bound')
  | [], bound', n, h, _, hb, _ => by
    obtain rfl := hb.eq_zero hr
    exact .of_zero ((steady_repeatUntil h.steady []).mono (Nat.le_add_left _ _))
  | b :: bound, bound', n, h, ht, hb, hb' => by
    have hloop : ∀ xs : List α, Steady (n + r.length)
        (repeatUntil stop read bound >>= fun ys => Parse.pure (xs ++ ys)) :=
      fun xs => steady_bind (steady_repeatUntil h.steady bound) fun ys => steady_pure _ _
    refine ⟨steady_repeatUntil h.steady _, ?_⟩
    intro x hl
    cases x with
    | nil =>
      obtain ⟨t, r, rfl⟩ := List.exists_cons_of_ne_nil hr
      rw [repeatUntil_nil, List.nil_append]
      cases hs : stop t.kind with
      | true =>
        rw [repeatUntil_stop hs]
        exact .value [] [] .nil
      | false =>
        rw [repeatUntil_cons hs]
        refine .beyond (GoesInto.bind (ht.goesInto h.steady (by simp at hl ⊢; omega)) fun xs rest hlen => ?_)
        exact hloop xs rest (by omega)
    | cons t x =>
      cases hs : stop t.kind with
      | true =>
        rw [repeatUntil_stop hs, List.cons_append, repeatUntil_stop hs]
        exact .value (t :: x) [] .nil
      | false =>
        cases bound' with
        | nil => exact absurd (hb' _ hl) (by simp)
        | cons b' bound' =>
          have hl' := hl
          simp only [List.length_cons] at hl'
          rw [repeatUntil_cons hs, List.cons_append, repeatUntil_cons hs]
          have ih : Severed r (n - 1) (repeatUntil stop read bound) (repeatUntil stop read' bound') :=
            severed_repeatUntil hr bound bound' (h.mono (Nat.sub_le n 1)) (ht.mono (by omega)) hb.tail hb'.tail
          refine severs_bind (h.severs (t :: x) hl) (fun xs y hy => ?_) fun xs rest hlen => hloop xs rest (by omega)
          have hlen := ht t (x ++ r) (by simp; omega) xs (y ++ r) hy
          simp only [List.length_append] at hlen
          exact (severed_bind ih fun ys => severed_pure (xs ++ ys)).severs y (by omega)

/-! ## Recovery -/

/-- Skipping stops at one place in front of `r`, or goes on into it. -/
theorem resume_severs (before : Token) (x : List Token) :
    (∃ y, resume before (x ++ r) = y ++ r ∧ resume before x = y) ∨ (resume before (x ++ r)).length < r.length := by
  induction x generalizing before with
  | nil =>
    rw [List.nil_append]
    rcases Nat.lt_or_ge (resume before r).length r.length with h | h
    · exact .inr h
    · exact .inl ⟨[], (resume_suffix before r).eq_of_length_le h, rfl⟩
  | cons t x ih =>
    simp only [List.cons_append, resume]
    split
    · exact .inl ⟨t :: x, rfl, rfl⟩
    · exact ih t

theorem synchronize_length_lt {ts : List Token} (hr : r ≠ []) (h : ts.length ≤ r.length) :
    (synchronize ts).length < r.length := by
  cases ts with
  | nil => exact List.length_pos_iff.2 hr
  | cons t ts => exact Nat.lt_of_lt_of_le (Nat.lt_succ_of_le (synchronize_suffix t ts).length_le) h

theorem severed_recover (hr : r ≠ []) (h : Severed r n p p') : Severed r n (recover p) (recover p') := by
  refine ⟨steady_recover h.steady, ?_⟩
  intro x hl
  have h := h.severs x hl
  rw [recover_eq, recover_eq]
  generalize p (x ++ r) = P at h
  generalize p' x = P' at h
  cases h with
  | value y a h => exact .value y (some a) h
  | @abandoned rs rs' y hy h =>
    obtain ⟨t, y, rfl⟩ := List.exists_cons_of_ne_nil hy
    obtain ⟨z, hz, hz'⟩ | hlen := resume_severs t y (r := r)
    · simp only [recovered, List.cons_append, synchronize, hz, hz']
      exact .value z none h
    · exact .beyond hlen
  | beyond h =>
    refine .beyond ?_
    cases ho : P.outcome with
    | value a rest =>
      rw [ho] at h
      exact h
    | abandoned rest =>
      rw [ho] at h
      exact synchronize_length_lt hr h
    | tooDeep rest =>
      rw [ho] at h
      exact h

end LoxSyntax.Parse
