/-
  LoxSyntax.Proofs.Reading.Locality — what a reader does depends on the tokens that it
  takes and on the one that is next.

  Two readers are alike when on lists that differ only behind a common front, at `r` and
  at `r'`, they do the same until the first of them gets there: the same reports at the
  same places, the same value or none. With nothing behind the front, alike readers do
  the same; so two readers that differ only in how many levels they follow do the same
  when both follow enough.

  - `Together.eq_of_nil`: with nothing behind the front there is no difference.
  - `alike_bind`, `alike_dispatch`, `alike_repeatUntil`: readers put together from alike
    ones are alike.
-/

import Mathlib.Data.List.Forall2
import LoxSyntax.Proofs.Reading.Steady

namespace LoxSyntax.Parse

variable {α β : Type} {n : Nat} {p q : Parse α} {f : α → Parse β}

variable {r r' : List Token}

/-- In front of the lists' ends, unless both lists have none. -/
def Inside (r r' x : List Token) : Prop := x = [] → r = [] ∧ r' = []

/-- The same errors at the same places. -/
def SameReports (r r' : List Token) (rs rs' : List Report) : Prop :=
  List.Forall₂ (fun s s' => s.error = s'.error ∧ ∃ x, s.place = x ++ r ∧ s'.place = x ++ r' ∧ Inside r r' x) rs rs'

/-- Two readings that do the same, or the same until the first is at `r`. -/
inductive Together (r r' : List Token) : Parsed α → Parsed α → Prop where
  | value {rs rs' : List Report} (x : List Token) (a : α) (h : SameReports r r' rs rs') :
      Together r r' ⟨rs, .value a (x ++ r)⟩ ⟨rs', .value a (x ++ r')⟩
  | abandoned {rs rs' : List Report} (x : List Token) (h : SameReports r r' rs rs') :
      Together r r' ⟨rs, .abandoned (x ++ r)⟩ ⟨rs', .abandoned (x ++ r')⟩
  | apart {rs rs' later later' : List Report} {o o' : Outcome α} (h : SameReports r r' rs rs')
      (hl : ∀ s ∈ later, s.error.isSoft = false → s.place.length ≤ r.length)
      (ho : ∀ rest, rest? o = some rest → rest.length ≤ r.length) (hr : ¬(r = [] ∧ r' = [])) :
      Together r r' ⟨rs ++ later, o⟩ ⟨rs' ++ later', o'⟩

/-- With fewer than `n` tokens in front the readers do the same until they are behind them. -/
structure Alike (r r' : List Token) (n : Nat) (p p' : Parse α) : Prop where
  steady : Steady (n + r.length) p
  together : ∀ x, x.length < n → Inside r r' x → Together r r' (p (x ++ r)) (p' (x ++ r'))

variable {p' q' : Parse α} {f' : α → Parse β}

theorem SameReports.eq_of_nil {rs rs' : List Report} (h : SameReports [] [] rs rs') : rs = rs' := by
  induction h with
  | nil => rfl
  | @cons s s' rs rs' h _ ih =>
    obtain ⟨he, x, hp, hp', -⟩ := h
    obtain ⟨e, place⟩ := s
    obtain ⟨e', place'⟩ := s'
    obtain rfl : e = e' := he
    obtain rfl : place = place' := hp.trans hp'.symm
    rw [ih]

/-- Where something is behind the front of one list, the places are in front. -/
theorem SameReports.place_ne {rs rs' : List Report} (h : SameReports r r' rs rs') (hr : ¬(r = [] ∧ r' = [])) :
    ∀ s ∈ rs, s.place ≠ r := by
  induction h with
  | nil => simp
  | cons h _ ih =>
    obtain ⟨-, x, hp, -, hx⟩ := h
    refine List.forall_mem_cons.2 ⟨?_, ih⟩
    intro hn
    exact hr (hx (List.self_eq_append_left.1 (hn.symm.trans hp)))

/-- The same errors at places in front blame the same tokens. -/
theorem SameReports.diagnostics_eq {rs rs' : List Report} (h : SameReports r r' rs rs') (hne : ∀ s ∈ rs, s.place ≠ r)
    (eof eof' : Token) : rs'.map (·.diagnostic eof') = rs.map (·.diagnostic eof) := by
  induction h with
  | nil => rfl
  | cons h _ ih =>
    obtain ⟨hr, hne⟩ := List.forall_mem_cons.1 hne
    obtain ⟨he, x, hx, hx', -⟩ := h
    rw [List.map_cons, List.map_cons, ih hne]
    cases x with
    | nil => exact absurd hx hr
    | cons t x => simp [Report.diagnostic, Report.blamed, hx, hx', he]

/-- With nothing behind the front there is no difference. -/
theorem Together.eq_of_nil {P P' : Parsed α} (h : Together [] [] P P') : P = P' := by
  cases h with
  | value x a h => rw [h.eq_of_nil]
  | abandoned x h => rw [h.eq_of_nil]
  | apart h hl ho hr => exact absurd ⟨rfl, rfl⟩ hr

theorem together_self {P : Parsed α} (h : ∃ rest, rest? P.outcome = some rest) : Together [] [] P P := by
  have hs : SameReports [] [] P.reports P.reports :=
    List.forall₂_same.2 fun s _ => ⟨rfl, s.place, by simp, by simp, fun _ => ⟨rfl, rfl⟩⟩
  obtain ⟨rs, o⟩ := P
  obtain ⟨rest, hr⟩ := h
  cases o with
  | value a rest => simpa using Together.value rest a hs
  | abandoned rest => simpa using Together.abandoned (α := α) rest hs
  | tooDeep rest => cases hr

theorem Steady.alike (h : Steady n p) : Alike [] [] n p p :=
  ⟨h, fun x hl _ => together_self (by
    obtain ⟨⟨rest, hr, -⟩, -⟩ := h (x ++ []) (by simpa using hl)
    exact ⟨rest, hr⟩)⟩

/-- An error in front that is not soft has a counterpart. -/
theorem Together.exists_hard {P P' : Parsed α} (h : Together r r' P P') {s : Report} (hs : s ∈ P.reports)
    (he : s.error.isSoft = false) (hl : r.length < s.place.length) : ∃ s' ∈ P'.reports, s'.error.isSoft = false := by
  have hmem : ∀ {rs rs'}, SameReports r r' rs rs' → s ∈ rs → ∃ s' ∈ rs', s'.error.isSoft = false := by
    intro rs rs' h hs
    induction h with
    | nil => cases hs
    | cons h _ ih =>
      rcases List.mem_cons.1 hs with rfl | hs
      · exact ⟨_, List.mem_cons_self, by rw [← h.1]; exact he⟩
      · obtain ⟨s', hs', he'⟩ := ih hs
        exact ⟨s', List.mem_cons_of_mem _ hs', he'⟩
  cases h with
  | value x a h => exact hmem h hs
  | abandoned x h => exact hmem h hs
  | apart h hlater ho hr =>
    rcases List.mem_append.1 hs with hs | hs
    · obtain ⟨s', hs', he'⟩ := hmem h hs
      exact ⟨s', List.mem_append_left _ hs', he'⟩
    · exact absurd hl (Nat.not_lt.2 (hlater s hs he))

/-- Behind the front, everything is behind it. -/
theorem Leaves.apart {P P' : Parsed α} (h : Leaves r P) (hr : ¬(r = [] ∧ r' = [])) : Together r r' P P' := by
  obtain ⟨⟨rest, hrest, hs⟩, hp⟩ := h
  show Together r r' ⟨[] ++ P.reports, P.outcome⟩ ⟨[] ++ P'.reports, P'.outcome⟩
  refine .apart .nil (fun s hm hh => (hp s hm hh).length_le) ?_ hr
  intro rest' h'
  rw [hrest] at h'
  cases h'
  exact hs.length_le

theorem Alike.mono {m : Nat} (h : Alike r r' n p p') (hm : m ≤ n) : Alike r r' m p p' :=
  ⟨h.steady.mono (Nat.add_le_add_right hm _), fun x hl => h.together x (Nat.lt_of_lt_of_le hl hm)⟩

theorem Alike.of_zero (h : Steady r.length p) : Alike r r' 0 p p' :=
  ⟨by simpa using h, fun _ hl => absurd hl (Nat.not_lt_zero _)⟩

/-- Also where the front is over. -/
theorem Alike.at (h : Alike r r' n p p') {x : List Token} (hl : x.length < n) :
    Together r r' (p (x ++ r)) (p' (x ++ r')) := by
  by_cases hx : Inside r r' x
  · exact h.together x hl hx
  · simp only [Inside, Classical.not_imp] at hx
    obtain ⟨rfl, hr⟩ := hx
    exact (h.steady r (by simp at hl; omega)).apart hr

theorem SameReports.append {rs rs' ss ss' : List Report} (h : SameReports r r' rs rs') (h' : SameReports r r' ss ss') :
    SameReports r r' (rs ++ ss) (rs' ++ ss') :=
  List.rel_append h h'

/-- Readings that go on after the same reports. -/
theorem Together.after {rs rs' : List Report} (h : SameReports r r' rs rs') {P P' : Parsed α}
    (hP : Together r r' P P') : Together r r' ⟨rs ++ P.reports, P.outcome⟩ ⟨rs' ++ P'.reports, P'.outcome⟩ := by
  cases hP with
  | value x a h' => exact .value x a (h.append h')
  | abandoned x h' => exact .abandoned x (h.append h')
  | apart h' hl ho hr =>
    simp only [← List.append_assoc]
    exact .apart (h.append h') hl ho hr

theorem alike_pure (a : α) : Alike r r' n (Parse.pure a) (Parse.pure a) :=
  ⟨steady_pure _ a, fun x _ _ => .value x a .nil⟩

/-- A reader after a reader, where the first comes to its end in front of `r` and the
    second goes on from there; behind the front it only has to leave end parts. -/
theorem together_bind {ts ts' : List Token} (h : Together r r' (p ts) (p' ts'))
    (hf : ∀ a x, (p ts).outcome = .value a (x ++ r) → Together r r' (f a (x ++ r)) (f' a (x ++ r')))
    (hs : ∀ a rest, rest.length ≤ r.length → Leaves rest (f a rest)) :
    Together r r' ((p >>= f) ts) ((p' >>= f') ts') := by
  obtain ⟨more', o'', h''⟩ := reports_bind p' f' ts'
  rw [run_bind]
  cases hP' : p' ts' with
  | mk ss' o' =>
  rw [hP'] at h h''
  generalize p ts = P at h hf
  cases h with
  | value x a h =>
    rw [run_bind, hP']
    exact (hf a x rfl).after h
  | abandoned x h =>
    rw [run_bind, hP']
    exact .abandoned x h
  | @apart rs rs' later later' o _ h hl ho hr =>
    -- what the second reader goes on with, if at all, is not compared any more
    rw [h'', List.append_assoc]
    cases o with
    | value a rest =>
      have hlen := ho rest rfl
      obtain ⟨⟨rest', hrest, hsuffix⟩, hp⟩ := hs a rest hlen
      simp only [List.append_assoc]
      refine .apart h (fun s hm hh => ?_) (fun rest'' h'' => ?_) hr
      · rcases List.mem_append.1 hm with hm | hm
        · exact hl s hm hh
        · exact Nat.le_trans (hp s hm hh).length_le hlen
      · rw [hrest] at h''
        cases h''
        exact Nat.le_trans hsuffix.length_le hlen
    | abandoned rest => exact .apart h hl ho hr
    | tooDeep rest => exact .apart h hl (fun _ hrest => by cases hrest) hr

theorem alike_bind (hp : Alike r r' n p p') (hf : ∀ a, Alike r r' n (f a) (f' a)) :
    Alike r r' n (p >>= f) (p' >>= f') := by
  refine ⟨steady_bind hp.steady fun a => (hf a).steady, ?_⟩
  intro x hl hx
  obtain ⟨⟨rest, hrest, hs⟩, -⟩ := hp.steady (x ++ r) (by simpa using hl)
  refine together_bind (hp.together x hl hx) ?_ fun a rest hlen => (hf a).steady rest (by omega)
  intro a y hy
  obtain rfl : y ++ r = rest := by simpa [hy, rest?] using hrest
  have hlen : y.length ≤ x.length := by simpa using hs.length_le
  exact (hf a).at (Nat.lt_of_le_of_lt hlen hl)

theorem alike_map (g : α → β) (h : Alike r r' n p p') : Alike r r' n (g <$> p) (g <$> p') :=
  alike_bind h fun a => alike_pure (g a)

/-! ## Single tokens -/

theorem alike_fail (e : SyntaxError) : Alike r r' n (fail e : Parse α) (fail e) :=
  ⟨steady_fail _ e, fun x _ hx => .abandoned x (.cons ⟨rfl, x, rfl, rfl, hx⟩ .nil)⟩

theorem alike_report {e : SyntaxError} (he : e.isSoft = true) {x : List Token} (hx : Inside r r' x) :
    Alike r r' n (report e (x ++ r)) (report e (x ++ r')) :=
  ⟨steady_report _ he _, fun y _ _ => .value y () (.cons ⟨rfl, x, rfl, rfl, hx⟩ .nil)⟩

theorem alike_here {g g' : List Token → Parse α} (hs : ∀ ts, Steady (n + r.length) (g ts))
    (h : ∀ x, x.length < n → Inside r r' x → Together r r' (g (x ++ r) (x ++ r)) (g' (x ++ r') (x ++ r'))) :
    Alike r r' n (here >>= g) (here >>= g') :=
  ⟨steady_here hs, h⟩

theorem alike_nextIs (k : TokenKind → Bool) : Alike r r' n (nextIs k) (nextIs k) := by
  refine ⟨steady_nextIs _ k, ?_⟩
  intro x _ hx
  have h : (x ++ r).head? = (x ++ r').head? := by
    cases x with
    | nil => obtain ⟨rfl, rfl⟩ := hx rfl; rfl
    | cons t x => rfl
  rw [nextIs, nextIs, h]
  exact .value x _ .nil

theorem alike_expect (k : TokenKind) (e : SyntaxError) : Alike r r' n (expect k e) (expect k e) := by
  refine ⟨steady_expect _ k e, ?_⟩
  intro x hl hx
  cases x with
  | nil =>
    obtain ⟨rfl, rfl⟩ := hx rfl
    exact (alike_fail e).together [] hl hx
  | cons t x =>
    simp only [List.cons_append, expect]
    split
    · exact .value x t .nil
    · exact (alike_fail e).together (t :: x) hl hx

/-- The rules that two readers go on by. -/
inductive AlikeRules (r r' : List Token) (n : Nat) : Option (Parse α) → Option (Parse α) → Prop where
  | none : AlikeRules r r' n none none
  | some {p p' : Parse α} (h : Alike r r' n p p') : AlikeRules r r' n (some p) (some p')

theorem AlikeRules.mono {m : Nat} {o o' : Option (Parse α)} (h : AlikeRules r r' n o o') (hm : m ≤ n) :
    AlikeRules r r' m o o' := by
  cases h with
  | none => exact .none
  | some h => exact .some (h.mono hm)

theorem alike_dispatch {rule rule' : Token → Option (Parse α)} (hr : ∀ t, AlikeRules r r' (n - 1) (rule t) (rule' t))
    (hq : Alike r r' n q q') : Alike r r' n (dispatch rule q) (dispatch rule' q') := by
  refine ⟨steady_dispatch (fun t p hp => ?_) hq.steady, fun x hl hx => ?_⟩
  · have h := hr t
    rw [hp] at h
    generalize rule' t = o at h
    cases h with
    | some h => exact h.steady.mono (by omega)
  · cases x with
    | nil =>
      obtain ⟨rfl, rfl⟩ := hx rfl
      exact hq.together [] hl hx
    | cons t x =>
      have h := hr t
      simp only [List.cons_append, dispatch]
      generalize rule t = o at h
      generalize rule' t = o' at h
      cases h with
      | none => exact hq.together (t :: x) hl hx
      | some h => exact h.at (by simp at hl; omega)

theorem alike_whenNext {k : TokenKind → Bool} {g g' : Token → Parse α} (hg : ∀ t, Alike r r' (n - 1) (g t) (g' t))
    (hq : Alike r r' n q q') : Alike r r' n (whenNext k g q) (whenNext k g' q') := by
  refine alike_dispatch ?_ hq
  intro t
  by_cases hk : k t.kind = true
  · simp only [hk, if_true]
    exact .some (hg t)
  · simp only [hk]
    exact .none

/-! ## Loops -/

/-- The bound of a loop is as long as each list of tokens that is compared. -/
def Covers (n : Nat) (r bound : List Token) : Prop := ∀ m < n, m + r.length ≤ bound.length

theorem Covers.tail {b : Token} {bound : List Token} (h : Covers n r (b :: bound)) : Covers (n - 1) r bound := by
  intro m hm
  have := h (m + 1) (by omega)
  simp only [List.length_cons] at this
  omega

theorem covers_self {x : List Token} : Covers (x.length + 1) r (x ++ r) := by
  intro m hm
  rw [List.length_append]
  omega

/-- Where a bound is over, both lists are. -/
theorem Alike.over (hs : Steady (n + r.length) p) (h : Covers n r [] ∨ Covers n r' [])
    (ho : Together [] [] (p []) (p' [])) : Alike r r' n p p' := by
  refine ⟨hs, ?_⟩
  intro x hl hx
  have hn : x.length + r.length = 0 ∨ x.length + r'.length = 0 := h.imp
    (fun h => Nat.le_zero.1 (h _ hl)) (fun h => Nat.le_zero.1 (h _ hl))
  have hx' : x = [] := List.length_eq_zero_iff.1 (by omega)
  obtain ⟨rfl, rfl⟩ := hx hx'
  subst hx'
  exact ho

theorem chainFrom_nil (operand : Parse α) (join : α → Token → α → α) (k : TokenKind → Bool) (bound : List Token)
    (left : α) : chainFrom operand join k bound left [] = ⟨[], .value left []⟩ := by
  cases bound <;> rfl

theorem alike_chainFrom {operand operand' : Parse α} (join : α → Token → α → α) (k : TokenKind → Bool) :
    ∀ (bound bound' : List Token) {n : Nat} (left : α), Alike r r' n operand operand' → Covers n r bound →
      Covers n r' bound' → Alike r r' n (chainFrom operand join k bound left) (chainFrom operand' join k bound' left)
  | b :: bound, b' :: bound', n, left, h, hb, hb' =>
    alike_whenNext (fun t => alike_bind (h.mono (Nat.sub_le n 1)) fun right =>
      alike_chainFrom join k bound bound' _ (h.mono (Nat.sub_le n 1)) hb.tail hb'.tail) (alike_pure left)
  | [], bound', n, left, h, hb, _ => by
    refine .over (steady_chainFrom h.steady _ left) (.inl hb) ?_
    rw [chainFrom_nil, chainFrom_nil]
    exact together_self ⟨[], rfl⟩
  | b :: bound, [], n, left, h, _, hb' => by
    refine .over (steady_chainFrom h.steady _ left) (.inr hb') ?_
    rw [chainFrom_nil, chainFrom_nil]
    exact together_self ⟨[], rfl⟩

theorem alike_chain {operand operand' : Parse α} {join : α → Token → α → α} {k : TokenKind → Bool}
    (h : Alike r r' n operand operand') : Alike r r' n (chain operand join k) (chain operand' join k) := by
  refine alike_bind h ?_
  intro left
  refine alike_here (fun ts => steady_chainFrom h.steady ts left) ?_
  intro x hl hx
  exact (alike_chainFrom join k _ _ left (h.mono hl) covers_self covers_self).at (Nat.lt_succ_self _)

section Items

variable {item item' : Parse α} {e : SyntaxError}

theorem alike_nextItem (he : e.isSoft = true) (h : Alike r r' n item item') (count : Nat) :
    Alike r r' n (nextItem item e count) (nextItem item' e count) := by
  unfold nextItem
  split
  · refine alike_here (fun ts => steady_bind (steady_report _ he ts) fun _ => h.steady) ?_
    intro x hl hx
    exact (alike_bind (alike_report he hx) fun _ => h).together x hl hx
  · exact h

theorem moreItems_nil (item : Parse α) (e : SyntaxError) (bound : List Token) (count : Nat) :
    moreItems item e bound count [] = ⟨[], .value [] []⟩ := by
  cases bound <;> rfl

theorem alike_moreItems (he : e.isSoft = true) : ∀ (bound bound' : List Token) {n : Nat} (count : Nat),
    Alike r r' n item item' → Covers n r bound → Covers n r' bound' →
    Alike r r' n (moreItems item e bound count) (moreItems item' e bound' count)
  | b :: bound, b' :: bound', n, count, h, hb, hb' => by
    have h := h.mono (Nat.sub_le n 1)
    have hm := alike_moreItems he bound bound' (count + 1) h hb.tail hb'.tail
    exact alike_whenNext (fun t => alike_bind (alike_nextItem he h count) fun x =>
      alike_bind hm fun xs => alike_pure _) (alike_pure [])
  | [], bound', n, count, h, hb, _ => by
    refine .over (steady_moreItems he h.steady _ count) (.inl hb) ?_
    rw [moreItems_nil, moreItems_nil]
    exact together_self ⟨[], rfl⟩
  | b :: bound, [], n, count, h, _, hb' => by
    refine .over (steady_moreItems he h.steady _ count) (.inr hb') ?_
    rw [moreItems_nil, moreItems_nil]
    exact together_self ⟨[], rfl⟩

theorem alike_items (he : e.isSoft = true) (h : Alike r r' n item item') :
    Alike r r' n (items item e) (items item' e) := by
  refine alike_bind h ?_
  intro x
  refine alike_here (fun ts => steady_bind (steady_moreItems he h.steady ts 1) fun xs =>
    steady_pure _ _) ?_
  intro y hl hy
  exact (alike_bind (alike_moreItems he _ _ 1 (h.mono hl) covers_self covers_self) fun xs =>
    alike_pure (x :: xs)).at (Nat.lt_succ_self _)

theorem alike_itemsBeforeParen (he : e.isSoft = true) (h : Alike r r' n item item') :
    Alike r r' n (itemsBeforeParen item e) (itemsBeforeParen item' e) := by
  refine alike_bind (alike_nextIs _) ?_
  intro b
  cases b with
  | true => exact alike_pure []
  | false => exact alike_items he h

end Items

/-! ## Recovery -/

/-- Skipping stops at one place in front, or goes on to behind it. -/
theorem resume_append (before : Token) (x : List Token) :
    (∃ y, resume before (x ++ r) = y ++ r ∧ resume before (x ++ r') = y ++ r') ∨
      (resume before (x ++ r)).length ≤ r.length := by
  induction x generalizing before with
  | nil => exact .inr (resume_suffix before r).length_le
  | cons t x ih =>
    simp only [List.cons_append, resume]
    split
    · exact .inl ⟨t :: x, rfl, rfl⟩
    · exact ih t

theorem synchronize_append (r r' x : List Token) :
    (∃ y, synchronize (x ++ r) = y ++ r ∧ synchronize (x ++ r') = y ++ r') ∨
      ¬(r = [] ∧ r' = []) ∧ (synchronize (x ++ r)).length ≤ r.length := by
  by_cases hr : r = [] ∧ r' = []
  · obtain ⟨rfl, rfl⟩ := hr
    exact .inl ⟨synchronize x, by simp, by simp⟩
  · cases x with
    | nil =>
      refine .inr ⟨hr, ?_⟩
      cases r with
      | nil => exact Nat.le_refl _
      | cons t r => exact Nat.le_succ_of_le (synchronize_suffix t r).length_le
    | cons t x => exact (resume_append t x).imp_right fun h => ⟨hr, h⟩

theorem alike_recover (h : Alike r r' n p p') : Alike r r' n (recover p) (recover p') := by
  refine ⟨steady_recover h.steady, ?_⟩
  intro x hl hx
  have h := h.together x hl hx
  rw [recover_eq, recover_eq]
  generalize p (x ++ r) = P at h
  generalize p' (x ++ r') = P' at h
  cases h with
  | value y a h => exact .value y (some a) h
  | abandoned y h =>
    obtain ⟨z, hz, hz'⟩ | ⟨hr, hlen⟩ := synchronize_append r r' y
    · simp only [recovered, hz, hz']
      exact .value z none h
    · have ho : ∀ rest, rest? (recovered (Outcome.abandoned (α := α) (y ++ r))) = some rest →
          rest.length ≤ r.length := by
        intro rest hrest
        cases hrest
        exact hlen
      have hnone : Together r r' ⟨_ ++ [], recovered (.abandoned (y ++ r))⟩
          ⟨_ ++ [], recovered (.abandoned (y ++ r'))⟩ := .apart h (by simp) ho hr
      simpa using hnone
  | @apart rs rs' later later' o o' h hl' ho hr =>
    refine .apart h hl' ?_ hr
    intro rest hrest
    cases o with
    | value a rest' => exact ho rest hrest
    | abandoned rest' =>
      cases hrest
      exact Nat.le_trans (synchronize_suffix_self rest').length_le (ho rest' rfl)
    | tooDeep rest => cases hrest

theorem alike_repeatUntil {stop : TokenKind → Bool} {read read' : Parse (List α)} :
    ∀ (bound bound' : List Token) {n : Nat}, Alike r r' n read read' → Shortens (n + r.length) read →
      Covers n r bound → Covers n r' bound' → Alike r r' n (repeatUntil stop read bound) (repeatUntil stop read' bound')
  | b :: bound, b' :: bound', n, h, ht, hb, hb' => by
    refine ⟨steady_repeatUntil h.steady _, ?_⟩
    intro x hl hx
    cases x with
    | nil =>
      obtain ⟨rfl, rfl⟩ := hx rfl
      exact .value [] [] .nil
    | cons t x =>
      simp only [List.cons_append, repeatUntil]
      split
      · exact .value (t :: x) [] .nil
      · have hl' := hl
        simp only [List.length_cons] at hl'
        have ih : Alike r r' (n - 1) (repeatUntil stop read bound) (repeatUntil stop read' bound') :=
          alike_repeatUntil bound bound' (h.mono (Nat.sub_le n 1)) (fun t ts hl => ht t ts (by omega)) hb.tail hb'.tail
        have hc : ∀ xs : List α, Alike r r' (n - 1)
            (repeatUntil stop read bound >>= fun ys => Parse.pure (xs ++ ys))
            (repeatUntil stop read' bound' >>= fun ys => Parse.pure (xs ++ ys)) :=
          fun xs => alike_bind ih fun ys => alike_pure _
        refine together_bind (h.together (t :: x) hl hx) (fun xs y hy => (hc xs).at ?_) fun xs rest hlen =>
          (hc xs).steady rest (by omega)
        have := ht t (x ++ r) (by simp; omega) xs (y ++ r) hy
        simp only [List.length_append] at this
        omega
  | [], bound', n, h, _, hb, _ => by
    refine .over (steady_repeatUntil h.steady _) (.inl hb) ?_
    cases bound' <;> exact together_self ⟨[], rfl⟩
  | b :: bound, [], n, h, _, _, hb' => .over (steady_repeatUntil h.steady _) (.inr hb') (together_self ⟨[], rfl⟩)

end LoxSyntax.Parse
