/-
  LoxSyntax.Proofs.Reading.Pairing — two readings of the same kinds of tokens, side by side.

  A pairing relates a reading to one of the renamed tokens, along the way in which the
  values correspond. It has to relate the readings of which all others consist: a value
  that takes nothing, an error that abandons the reading, a soft error, a nesting that is
  too deep, and a reading behind a reading. A reader asks for the kinds of its tokens
  only, so whatever is put together from paired readers is paired again, each loop with
  the bound that it has on the renamed tokens.

  - `Pairing.Paired`: two readers that are related on any tokens and the renamed ones.
  - `paired_bind`, `paired_dispatch`, `paired_chain`, `paired_items`, `paired_repeatUntil`:
    readers put together from paired ones.
-/

import LoxSyntax.Parse.Statement
import LoxSyntax.Proofs.Tree.Renaming

namespace LoxSyntax

/-- A reading, and another one behind the value that it gave. -/
def Parsed.andThen (P : Parsed α) (q : α → List Token → Parsed β) : Parsed β :=
  match P with
  | ⟨reports, .value a rest⟩ => ⟨reports ++ (q a rest).reports, (q a rest).outcome⟩
  | ⟨reports, .abandoned rest⟩ => ⟨reports, .abandoned rest⟩
  | ⟨reports, .tooDeep rest⟩ => ⟨reports, .tooDeep rest⟩

theorem reports_andThen (P : Parsed α) (q : α → List Token → Parsed β) : P.reports <+: (P.andThen q).reports := by
  obtain ⟨rs, o⟩ := P
  cases o with
  | value a rest => exact List.prefix_append rs _
  | abandoned rest | tooDeep rest => exact List.prefix_refl rs

namespace Parse

theorem run_andThen (p : Parse α) (q : α → Parse β) (ts : List Token) : (p >>= q) ts = (p ts).andThen q := rfl

/-- `Pairs g P P'`: the reading `P'` of renamed tokens corresponds to `P`, and a value `a`
    of `P` to the value `g a`. -/
structure Pairing (f : Renaming) where
  Pairs {α β : Type} : (α → β) → Parsed α → Parsed β → Prop
  value {α β : Type} (g : α → β) (a : α) (ts : List Token) :
    Pairs g ⟨[], .value a ts⟩ ⟨[], .value (g a) (ts.map f)⟩
  abandoned {α β : Type} (g : α → β) {e : SyntaxError} (he : e.isSoft = false) (ts : List Token) :
    Pairs g ⟨[⟨e, ts⟩], .abandoned ts⟩ ⟨[⟨e, ts.map f⟩], .abandoned (ts.map f)⟩
  soft {e : SyntaxError} (he : e.isSoft = true) (place ts : List Token) :
    Pairs (fun u : Unit => u) ⟨[⟨e, place⟩], .value () ts⟩ ⟨[⟨e, place.map f⟩], .value () (ts.map f)⟩
  tooDeep {α β : Type} (g : α → β) (ts : List Token) : Pairs g ⟨[], .tooDeep ts⟩ ⟨[], .tooDeep (ts.map f)⟩
  andThen {α β α' β' : Type} {g : α → α'} {h : β → β'} {P : Parsed α} {P' : Parsed α'}
    {q : α → List Token → Parsed β} {q' : α' → List Token → Parsed β'} (hP : Pairs g P P')
    (hq : ∀ a ts, Pairs h (q a ts) (q' (g a) (ts.map f))) : Pairs h (P.andThen q) (P'.andThen q')

variable {f : Renaming} {K : Pairing f} {α β α' β' : Type} {g : α → α'} {h : β → β'} {p q : Parse α}
  {p' q' : Parse α'}

/-- On any tokens and on the renamed ones the readers do what corresponds. -/
def Pairing.Paired (K : Pairing f) (g : α → α') (p : Parse α) (p' : Parse α') : Prop :=
  ∀ ts, K.Pairs g (p ts) (p' (ts.map f))

/-! ## Single tokens -/

theorem paired_pure {a : α} {a' : α'} (h : g a = a') : K.Paired g (Parse.pure a) (Parse.pure a') := by
  subst h
  exact K.value g a

theorem paired_bind {r : α → Parse β} {r' : α' → Parse β'} (hp : K.Paired g p p')
    (hr : ∀ a, K.Paired h (r a) (r' (g a))) : K.Paired h (p >>= r) (p' >>= r') := by
  intro ts
  rw [run_andThen, run_andThen]
  exact K.andThen (hp ts) hr

theorem paired_map {u : α → β} {u' : α' → β'} (hp : K.Paired g p p') (hu : ∀ a, h (u a) = u' (g a)) :
    K.Paired h (u <$> p) (u' <$> p') :=
  paired_bind hp fun a => paired_pure (hu a)

theorem paired_fail {e : SyntaxError} (he : e.isSoft = false) : K.Paired g (fail e) (fail e) :=
  fun ts => K.abandoned g he ts

theorem paired_tooDeep : K.Paired g tooDeep tooDeep := K.tooDeep g

theorem paired_report {e : SyntaxError} (he : e.isSoft = true) (place : List Token) :
    K.Paired (fun u => u) (report e place) (report e (place.map f)) :=
  fun ts => K.soft he place ts

theorem paired_here : K.Paired (List.map f) here here := fun ts => K.value (List.map f) ts ts

theorem paired_nextIs (k : TokenKind → Bool) : K.Paired (fun b => b) (nextIs k) (nextIs k) := by
  intro ts
  have hk : (ts.map f).head?.any (k ·.kind) = ts.head?.any (k ·.kind) := by
    cases ts with
    | nil => rfl
    | cons t ts => simp [f.kind_token]
  rw [nextIs, nextIs, hk]
  exact K.value _ _ ts

theorem paired_expect {k : TokenKind} {e : SyntaxError} (he : e.isSoft = false) :
    K.Paired f (expect k e) (expect k e) := by
  intro ts
  cases ts with
  | nil => exact K.abandoned f he []
  | cons t ts =>
    by_cases hk : t.kind = k
    · simp only [List.map_cons, expect, f.kind_token, hk, if_true]
      exact K.value f t ts
    · simp only [List.map_cons, expect, f.kind_token, hk, if_false]
      exact K.abandoned f he (t :: ts)

/-- Both have no rule, or paired ones. -/
def Pairing.Rules (K : Pairing f) (g : α → α') : Option (Parse α) → Option (Parse α') → Prop :=
  Option.Rel (K.Paired g)

theorem paired_dispatch {rule : Token → Option (Parse α)} {rule' : Token → Option (Parse α')}
    (hr : ∀ t, K.Rules g (rule t) (rule' (f t))) (hq : K.Paired g q q') :
    K.Paired g (dispatch rule q) (dispatch rule' q') := by
  intro ts
  cases ts with
  | nil => exact hq []
  | cons t ts =>
    have hr := hr t
    simp only [List.map_cons, dispatch]
    generalize rule t = o at hr
    generalize rule' (f t) = o' at hr
    cases hr with
    | some hr => exact hr ts
    | none => exact hq (t :: ts)

theorem paired_whenNext {k : TokenKind → Bool} {r : Token → Parse α} {r' : Token → Parse α'}
    (hr : ∀ t, K.Paired g (r t) (r' (f t))) (hq : K.Paired g q q') :
    K.Paired g (whenNext k r q) (whenNext k r' q') := by
  refine paired_dispatch ?_ hq
  intro t
  simp only [f.kind_token]
  split
  · exact .some (hr t)
  · exact .none

/-! ## Loops -/

section Chain

variable {join : α → Token → α → α} {join' : α' → Token → α' → α'} {k : TokenKind → Bool}

theorem paired_chainFrom (hp : K.Paired g p p') (hj : ∀ a t b, g (join a t b) = join' (g a) (f t) (g b))
    (bound : List Token) : ∀ left, K.Paired g (chainFrom p join k bound left)
      (chainFrom p' join' k (bound.map f) (g left)) := by
  induction bound with
  | nil => exact fun left => paired_pure rfl
  | cons b bound ih =>
    intro left
    refine paired_whenNext ?_ (paired_pure rfl)
    intro t
    refine paired_bind hp ?_
    intro right
    rw [← hj]
    exact ih _

theorem paired_chain (hp : K.Paired g p p') (hj : ∀ a t b, g (join a t b) = join' (g a) (f t) (g b)) :
    K.Paired g (chain p join k) (chain p' join' k) :=
  paired_bind hp fun left => paired_bind paired_here fun ts => paired_chainFrom hp hj ts left

end Chain

section Items

variable {e : SyntaxError}

theorem paired_nextItem (he : e.isSoft = true) (hp : K.Paired g p p') (count : Nat) :
    K.Paired g (nextItem p e count) (nextItem p' e count) := by
  unfold nextItem
  split
  · exact paired_bind paired_here fun ts => paired_bind (paired_report he ts) fun _ => hp
  · exact hp

theorem paired_moreItems (he : e.isSoft = true) (hp : K.Paired g p p') (bound : List Token) :
    ∀ count, K.Paired (List.map g) (moreItems p e bound count) (moreItems p' e (bound.map f) count) := by
  induction bound with
  | nil => exact fun count => paired_pure rfl
  | cons b bound ih =>
    intro count
    refine paired_whenNext (fun _ => ?_) (paired_pure rfl)
    exact paired_bind (paired_nextItem he hp count) fun _ => paired_bind (ih (count + 1)) fun _ => paired_pure rfl

theorem paired_items (he : e.isSoft = true) (hp : K.Paired g p p') :
    K.Paired (List.map g) (items p e) (items p' e) :=
  paired_bind hp fun _ => paired_bind paired_here fun ts =>
    paired_bind (paired_moreItems he hp ts 1) fun _ => paired_pure rfl

theorem paired_itemsBeforeParen (he : e.isSoft = true) (hp : K.Paired g p p') :
    K.Paired (List.map g) (itemsBeforeParen p e) (itemsBeforeParen p' e) := by
  refine paired_bind (paired_nextIs _) ?_
  intro b
  cases b with
  | true => exact paired_pure rfl
  | false => exact paired_items he hp

end Items

theorem paired_repeatUntil {stop : TokenKind → Bool} {read : Parse (List α)} {read' : Parse (List α')}
    (hr : K.Paired (List.map g) read read') (bound : List Token) :
    K.Paired (List.map g) (repeatUntil stop read bound) (repeatUntil stop read' (bound.map f)) := by
  induction bound with
  | nil => exact paired_pure rfl
  | cons b bound ih =>
    intro ts
    cases ts with
    | nil => exact K.value (List.map g) [] []
    | cons t ts =>
      simp only [List.map_cons, repeatUntil, f.kind_token]
      split
      · exact K.value (List.map g) [] (t :: ts)
      · refine paired_bind hr (fun xs => paired_bind ih ?_) (t :: ts)
        intro ys
        exact paired_pure List.map_append

end Parse

end LoxSyntax
