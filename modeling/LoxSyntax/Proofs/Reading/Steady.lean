/-
  LoxSyntax.Proofs.Reading.Steady — how far readers go.

  A reader is steady on fewer than `n` tokens when on every such list it comes to an end
  without running out of levels, and what it leaves is an end part of the list, as is the
  place of each of its errors that is not soft.

  - `steady_bind`, `steady_dispatch`: readers put together from steady ones are steady.
  - `Advances.recover`: behind a value or a recovery there is less left than before.
-/

import LoxSyntax.Parse.Statement

namespace LoxSyntax.Parse

variable {α β : Type}

/-- What was left by a reading that came to its end. -/
def rest? : Outcome α → Option (List Token)
  | .value _ rest => some rest
  | .abandoned rest => some rest
  | .tooDeep _ => none

/-- The reading ended; what it left, and its errors that are not soft, are at end parts of
    the tokens `ts`. -/
structure Leaves (ts : List Token) (P : Parsed α) : Prop where
  rest : ∃ rest, rest? P.outcome = some rest ∧ rest <:+ ts
  places : ∀ r ∈ P.reports, r.error.isSoft = false → r.place <:+ ts

def Steady (n : Nat) (p : Parse α) : Prop := ∀ ts, ts.length < n → Leaves ts (p ts)

theorem Leaves.of_suffix {ts us : List Token} {P : Parsed α} (h : us <:+ ts) (hP : Leaves us P) : Leaves ts P := by
  obtain ⟨⟨rest, hr, hs⟩, hp⟩ := hP
  exact ⟨⟨rest, hr, hs.trans h⟩, fun r hr hs => (hp r hr hs).trans h⟩

variable {n : Nat} {p q : Parse α} {f : α → Parse β}

theorem Steady.mono {m : Nat} (h : Steady n p) (hm : m ≤ n) : Steady m p :=
  fun ts hl => h ts (Nat.lt_of_lt_of_le hl hm)

theorem steady_zero (p : Parse α) : Steady 0 p := fun _ hl => absurd hl (Nat.not_lt_zero _)

theorem steady_pure (n : Nat) (a : α) : Steady n (Parse.pure a) :=
  fun ts _ => ⟨⟨ts, rfl, List.suffix_refl ts⟩, fun _ hr => by cases hr⟩

theorem reports_bind (p : Parse α) (f : α → Parse β) (ts : List Token) :
    ∃ later o, (p >>= f) ts = ⟨(p ts).reports ++ later, o⟩ := by
  rw [run_bind]
  obtain ⟨rs, o⟩ := p ts
  cases o with
  | value a rest => exact ⟨_, _, rfl⟩
  | abandoned rest => exact ⟨[], .abandoned rest, by simp⟩
  | tooDeep rest => exact ⟨[], .tooDeep rest, by simp⟩

theorem outcome_bind {ts rest : List Token} {a : α} {o : Outcome β} (h : (p ts).outcome = .value a rest)
    (h' : (f a rest).outcome = o) : ((p >>= f) ts).outcome = o := by
  rw [run_bind]
  generalize p ts = P at h
  obtain ⟨rs, o'⟩ := P
  subst h
  exact h'

theorem outcome_map (g : α → β) {ts rest : List Token} {a : α} (h : (p ts).outcome = .value a rest) :
    ((g <$> p) ts).outcome = .value (g a) rest :=
  outcome_bind h rfl

theorem outcome_map_abandoned (g : α → β) {ts rest : List Token} (h : (p ts).outcome = .abandoned rest) :
    ((g <$> p) ts).outcome = .abandoned rest := by
  show ((p >>= _) ts).outcome = _
  rw [run_bind]
  generalize p ts = P at h
  obtain ⟨rs, o⟩ := P
  subst h
  rfl

theorem steady_bind (hp : Steady n p) (hf : ∀ a, Steady n (f a)) : Steady n (p >>= f) := by
  intro ts hl
  have h := hp ts hl
  rw [run_bind]
  generalize p ts = P at h
  obtain ⟨rs, o⟩ := P
  obtain ⟨⟨rest, hr, hs⟩, hp⟩ := h
  cases o with
  | value a rest =>
    cases hr
    obtain ⟨hq, hq'⟩ := (hf a rest (Nat.lt_of_le_of_lt hs.length_le hl)).of_suffix hs
    exact ⟨hq, fun r hr hs => (List.mem_append.1 hr).elim (hp r · hs) (hq' r · hs)⟩
  | abandoned rest => exact ⟨⟨rest, rfl, by cases hr; exact hs⟩, hp⟩
  | tooDeep rest => cases hr

theorem steady_map (g : α → β) (h : Steady n p) : Steady n (g <$> p) := steady_bind h fun a => steady_pure n (g a)

theorem steady_fail (n : Nat) (e : SyntaxError) : Steady n (fail e : Parse α) := by
  intro ts _
  refine ⟨⟨ts, rfl, List.suffix_refl ts⟩, ?_⟩
  intro r hr _
  obtain rfl : r = ⟨e, ts⟩ := by simpa [fail] using hr
  exact List.suffix_refl ts

theorem steady_report (n : Nat) {e : SyntaxError} (he : e.isSoft = true) (place : List Token) :
    Steady n (report e place) := by
  intro ts _
  refine ⟨⟨ts, rfl, List.suffix_refl ts⟩, ?_⟩
  intro r hr hs
  obtain rfl : r = ⟨e, place⟩ := by simpa [report] using hr
  exact absurd (he.symm.trans hs) (by decide)

theorem steady_nextIs (n : Nat) (k : TokenKind → Bool) : Steady n (nextIs k) :=
  fun ts _ => ⟨⟨ts, rfl, List.suffix_refl ts⟩, by simp [nextIs]⟩

theorem steady_expect (n : Nat) (k : TokenKind) (e : SyntaxError) : Steady n (expect k e) := by
  intro ts hl
  cases ts with
  | nil => exact steady_fail n e [] hl
  | cons t ts =>
    rw [expect]
    split
    · exact ⟨⟨ts, rfl, List.suffix_cons t ts⟩, by simp⟩
    · exact steady_fail n e _ hl

theorem steady_here {g : List Token → Parse α} (h : ∀ ts, Steady n (g ts)) : Steady n (here >>= g) :=
  fun ts hl => h ts ts hl

theorem steady_dispatch {rule : Token → Option (Parse α)} (hr : ∀ t p, rule t = some p → Steady (n - 1) p)
    (hq : Steady n q) : Steady n (dispatch rule q) := by
  intro ts hl
  cases ts with
  | nil => exact hq [] hl
  | cons t ts =>
    simp only [dispatch]
    split
    · next p hp => exact (hr t p hp ts (by simp at hl; omega)).of_suffix (List.suffix_cons t ts)
    · exact hq _ hl

theorem steady_whenNext {k : TokenKind → Bool} {g : Token → Parse α} (hg : ∀ t, Steady (n - 1) (g t))
    (hq : Steady n q) : Steady n (whenNext k g q) := by
  refine steady_dispatch ?_ hq
  intro t p h
  split at h
  · cases h
    exact hg t
  · cases h

theorem steady_chainFrom {operand : Parse α} {join : α → Token → α → α} {k : TokenKind → Bool} (h : Steady n operand)
    (bound : List Token) : ∀ left, Steady n (chainFrom operand join k bound left) := by
  induction bound with
  | nil => exact steady_pure n
  | cons b bound ih =>
    exact fun left =>
      steady_whenNext (fun t => (steady_bind h fun r => ih _).mono (Nat.sub_le n 1)) (steady_pure n left)

/-- What recovery makes of an outcome. -/
def recovered : Outcome α → Outcome (Option α)
  | .value a rest => .value (some a) rest
  | .abandoned rest => .value none (synchronize rest)
  | .tooDeep rest => .tooDeep rest

theorem recover_eq (p : Parse α) (ts : List Token) : recover p ts = ⟨(p ts).reports, recovered (p ts).outcome⟩ := by
  rw [recover]
  obtain ⟨rs, o⟩ := p ts
  cases o <;> rfl

theorem synchronize_suffix_self (ts : List Token) : synchronize ts <:+ ts := by
  cases ts with
  | nil => exact List.suffix_refl _
  | cons t ts => exact (synchronize_suffix t ts).trans (List.suffix_cons t ts)

theorem rest?_recovered {o : Outcome α} {rest : List Token} (h : rest? o = some rest) :
    ∃ rest', rest? (recovered o) = some rest' ∧ rest' <:+ rest := by
  cases o with
  | value a rest' => exact ⟨rest, h, List.suffix_refl _⟩
  | abandoned rest' =>
    cases h
    exact ⟨_, rfl, synchronize_suffix_self rest⟩
  | tooDeep rest => cases h

theorem steady_recover (h : Steady n p) : Steady n (recover p) := by
  intro ts hl
  obtain ⟨⟨rest, hr, hs⟩, hp⟩ := h ts hl
  obtain ⟨rest', hr', hs'⟩ := rest?_recovered hr
  rw [recover_eq]
  exact ⟨⟨rest', hr', hs'.trans hs⟩, hp⟩

theorem steady_repeatUntil {stop : TokenKind → Bool} {read : Parse (List α)} (h : Steady n read) (bound : List Token) :
    Steady n (repeatUntil stop read bound) := by
  induction bound with
  | nil => exact steady_pure n []
  | cons b bound ih =>
    intro ts hl
    cases ts with
    | nil => exact ⟨⟨[], rfl, List.suffix_refl _⟩, fun _ hr => by cases hr⟩
    | cons t rest =>
      simp only [repeatUntil]
      split
      · exact ⟨⟨_, rfl, List.suffix_refl _⟩, by simp⟩
      · exact (steady_bind h fun xs => steady_bind ih fun ys => steady_pure n (xs ++ ys)) (t :: rest) hl

section Items

variable {item : Parse α} {e : SyntaxError}

theorem steady_nextItem (he : e.isSoft = true) (h : Steady n item) (count : Nat) :
    Steady n (nextItem item e count) := by
  unfold nextItem
  split
  · exact steady_here fun ts => steady_bind (steady_report n he ts) fun _ => h
  · exact h

theorem steady_moreItems (he : e.isSoft = true) (h : Steady n item) (bound : List Token) :
    ∀ count, Steady n (moreItems item e bound count) := by
  induction bound with
  | nil => exact fun count => steady_pure n []
  | cons b bound ih =>
    intro count
    refine steady_whenNext (fun t => Steady.mono ?_ (Nat.sub_le n 1)) (steady_pure n [])
    exact steady_bind (steady_nextItem he h count) fun x => steady_bind (ih _) fun xs => steady_pure n _

end Items

/-! ## Readers that take a token -/

/-- The reader takes a token, or abandons what it did not begin. -/
def Advances (n : Nat) (p : Parse α) : Prop := ∀ ts, ts.length < n → ∀ rest, rest? (p ts).outcome = some rest →
  rest.length < ts.length ∨ (p ts).outcome = .abandoned ts

/-- What is left behind a value is shorter. -/
def Shortens (n : Nat) (p : Parse α) : Prop := ∀ t ts, (t :: ts).length < n → ∀ a rest,
  (p (t :: ts)).outcome = .value a rest → rest.length ≤ ts.length

theorem advances_fail (n : Nat) (e : SyntaxError) : Advances n (fail e : Parse α) := fun _ _ _ _ => .inr rfl

theorem advances_expect (n : Nat) (k : TokenKind) (e : SyntaxError) : Advances n (expect k e) := by
  intro ts _ rest hr
  cases ts with
  | nil => exact .inr rfl
  | cons t ts =>
    by_cases hk : t.kind = k
    · simp only [expect, hk, if_true] at hr ⊢
      cases hr
      exact .inl (Nat.lt_succ_self _)
    · simp only [expect, hk, if_false]
      exact .inr rfl

theorem advances_bind (hp : Advances n p) (hf : ∀ a, Steady n (f a)) : Advances n (p >>= f) := by
  intro ts hl rest hr
  have h := hp ts hl
  rw [run_bind] at hr ⊢
  generalize p ts = P at h hr
  obtain ⟨rs, o⟩ := P
  cases o with
  | value a mid =>
    have hm := (h mid rfl).resolve_right (by simp)
    obtain ⟨⟨rest', hr', hs⟩, -⟩ := hf a mid (Nat.lt_trans hm hl)
    have he : some rest' = some rest := hr'.symm.trans hr
    cases he
    exact .inl (Nat.lt_of_le_of_lt hs.length_le hm)
  | abandoned mid =>
    refine (h mid rfl).imp (fun hm => ?_) fun h => ?_
    · cases hr
      exact hm
    · cases h
      rfl
  | tooDeep rest => cases hr

theorem advances_dispatch {rule : Token → Option (Parse α)} (hr : ∀ t p, rule t = some p → Steady (n - 1) p)
    (hq : Advances n q) : Advances n (dispatch rule q) := by
  intro ts hl rest h
  cases ts with
  | nil => exact hq [] hl rest h
  | cons t ts =>
    simp only [dispatch] at h ⊢
    split at h
    · next p hp =>
      obtain ⟨⟨rest', hr', hs⟩, -⟩ := hr t p hp ts (by simp at hl; omega)
      rw [hr'] at h
      cases h
      exact .inl (Nat.lt_succ_of_le hs.length_le)
    · exact hq _ hl rest h

theorem advances_whenNext {k : TokenKind → Bool} {g : Token → Parse α} (hg : ∀ t, Steady (n - 1) (g t))
    (hq : Advances n q) : Advances n (whenNext k g q) := by
  refine advances_dispatch ?_ hq
  intro t p h
  split at h
  · cases h
    exact hg t
  · cases h

theorem Advances.shortens (h : Advances n p) : Shortens n p := by
  intro t ts hl a rest ho
  refine (h (t :: ts) hl rest (by rw [ho]; rfl)).elim Nat.le_of_lt_succ ?_
  intro ha
  rw [ho] at ha
  cases ha

theorem Advances.recover (h : Advances n p) : Shortens n (recover p) := by
  intro t ts hl a rest ho
  rw [recover_eq] at ho
  have h := h (t :: ts) hl
  generalize (p (t :: ts)).outcome = o at h ho
  cases o with
  | value b rest' =>
    cases ho
    exact Nat.le_of_lt_succ ((h rest rfl).resolve_right (by simp))
  | abandoned rest' =>
    cases ho
    refine (h rest' rfl).elim (fun hlt => ?_) fun he => ?_
    · exact Nat.le_trans (synchronize_suffix_self rest').length_le (Nat.le_of_lt_succ hlt)
    · cases he
      exact (synchronize_suffix t ts).length_le
  | tooDeep rest => cases ho

theorem Shortens.map (h : Shortens n p) (g : α → β) : Shortens n (g <$> p) := by
  intro t ts hl b rest ho
  have h := h t ts hl
  rw [show g <$> p = p >>= fun a => Parse.pure (g a) from rfl, run_bind] at ho
  generalize p (t :: ts) = P at h ho
  obtain ⟨rs, o⟩ := P
  cases o with
  | value a rest' =>
    cases ho
    exact h a rest rfl
  | abandoned rest' => cases ho
  | tooDeep rest => cases ho

end LoxSyntax.Parse
