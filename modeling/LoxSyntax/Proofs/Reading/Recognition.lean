/-
  LoxSyntax.Proofs.Reading.Recognition — readers that take the words of a language.

  A language holds words, each with the value that reading it gives and the marks of what
  is reported. A reader recognizes a language when, on any tokens that are few enough, it
  takes a word of the language from their front, or breaks off: its first error that is
  not soft is at a place, and what it took up to there can be completed to a word. A
  reader that breaks off abandons what it was reading and reports nothing more, unless an
  opening brace is behind it.

  - `recognizes_bind`: a reader after a reader; what the second may take depends on what
    the first took.
  - `meets_repeatUntil`: a loop takes words one after another, up to where it stops.
-/

import LoxSyntax.Proofs.Reading.Progress

namespace LoxSyntax.Parse

open Grammar (Mark Terminal excess)

abbrev TreeLanguage (α : Type) := List Token → α → List Mark → Prop

/-- What makes a word together with `w`. -/
def TreeLanguage.after (L : TreeLanguage α) (w : List Token) (ms : List Mark) : TreeLanguage α :=
  fun w' a ms' => L (w ++ w') a (ms ++ ms')

def TreeLanguage.Productive (L : TreeLanguage α) : Prop := ∃ w a ms, L w a ms

/-- A reading of `ts`: a word of the language was read, or the reading broke off at
    `place`. `inside` tells that an opening brace was read before. -/
inductive Meets (L : TreeLanguage α) (ends : List Token → Prop) (inside : Bool) (ts : List Token) :
    Parsed α → Prop where
  | read {w rest : List Token} {a : α} {rs : List Report} {ms : List Mark} (h : ts = w ++ rest) (hm : Marked rs ms)
      (hl : L w a ms) (he : ends rest) : Meets L ends inside ts ⟨rs, .value a rest⟩
  | broken {u v place : List Token} {a : α} {rs later : List Report} {ms : List Mark} {e : SyntaxError} {o : Outcome α}
      (h : ts = u ++ place) (hs : ∀ r ∈ rs, r.error.isSoft = true) (he : e.isSoft = false) (hl : L (u ++ v) a ms)
      (ho : later = [] ∧ o = .abandoned place ∨ inside = true ∨ ∃ t ∈ u, t.kind = .leftBrace) :
      Meets L ends inside ts ⟨rs ++ ⟨e, place⟩ :: later, o⟩

/-- On fewer than `n` tokens the reader takes words of the language. -/
structure Recognizes (inside : Bool) (n : Nat) (p : Parse α) (L : TreeLanguage α) : Prop where
  productive : L.Productive
  meets : ∀ ts, ts.length < n → Meets L (fun _ => True) inside ts (p ts)

variable {α β : Type} {L L' : TreeLanguage α} {M : TreeLanguage β} {ends : List Token → Prop} {i : Bool} {n : Nat}
  {p q : Parse α} {f : α → Parse β} {ts : List Token}

theorem Meets.imp {P : Parsed α} (h : Meets L ends i ts P) (hL : ∀ w a ms, L w a ms → L' w a ms) :
    Meets L' ends i ts P := by
  cases h with
  | read h hm hl he => exact .read h hm (hL _ _ _ hl) he
  | broken h hs he hl ho => exact .broken h hs he (hL _ _ _ hl) ho

theorem Meets.mono {ends' : List Token → Prop} {P : Parsed α} (h : Meets L ends i ts P)
    (hE : ∀ rest, ends rest → ends' rest) : Meets L ends' i ts P := by
  cases h with
  | read h hm hl he => exact .read h hm hl (hE _ he)
  | broken h hs he hl ho => exact .broken h hs he hl ho

theorem Meets.inside {P : Parsed α} (h : Meets L ends i ts P) (b : Bool) : Meets L ends (b || i) ts P := by
  cases h with
  | read h hm hl he => exact .read h hm hl he
  | broken h hs he hl ho => exact .broken h hs he hl (ho.imp_right (Or.imp_left fun hi => by rw [hi, Bool.or_true]))

theorem Recognizes.imp (h : Recognizes i n p L) (hL : ∀ w a ms, L w a ms → L' w a ms) : Recognizes i n p L' := by
  obtain ⟨w, a, ms, hw⟩ := h.productive
  exact ⟨⟨w, a, ms, hL _ _ _ hw⟩, fun ts hl => (h.meets ts hl).imp hL⟩

theorem Recognizes.mono {m : Nat} (h : Recognizes i n p L) (hm : m ≤ n) : Recognizes i m p L :=
  ⟨h.productive, fun ts hl => h.meets ts (Nat.lt_of_lt_of_le hl hm)⟩

theorem Recognizes.inside (h : Recognizes i n p L) (b : Bool) : Recognizes (b || i) n p L :=
  ⟨h.productive, fun ts hl => (h.meets ts hl).inside b⟩

/-- What is recognized where no brace was opened is recognized everywhere. -/
theorem Recognizes.anywhere (h : Recognizes false n p L) (i : Bool) : Recognizes i n p L := by
  simpa using h.inside i

/-! ## One reader after another -/

theorem meets_pure {a : α} (h : L [] a []) (he : ends ts) : Meets L ends i ts ((Parse.pure a : Parse α) ts) :=
  .read rfl .nil h he

theorem meets_bind {ends' : List Token → Prop} (hp : Meets L ends' i ts (p ts))
    (hf : ∀ w a ms, L w a ms → (M.after w ms).Productive ∧
      ∀ rest, ts = w ++ rest → ends' rest → Meets (M.after w ms) ends i rest (f a rest)) :
    Meets M ends i ts ((p >>= f) ts) := by
  rw [run_bind]
  generalize p ts = P at hp
  cases hp with
  | read h hm hl he =>
    obtain ⟨hM, hf⟩ := hf _ _ _ hl
    have hf := hf _ h he
    simp only
    generalize f _ _ = Q at hf
    cases hf with
    | read h' hm' hl' he' => exact .read (by rw [h, h', List.append_assoc]) (hm.append hm') hl' he'
    | broken h' hs' he' hl' ho' =>
      simp only [← List.append_assoc]
      refine .broken (by rw [h, h', List.append_assoc]) ?_ he' (by rw [List.append_assoc]; exact hl') ?_
      · simpa [or_imp, forall_and] using ⟨hm.isSoft, hs'⟩
      · refine ho'.imp_right (Or.imp_right ?_)
        rintro ⟨t, ht, hk⟩
        exact ⟨t, List.mem_append_right _ ht, hk⟩
  | @broken _ _ _ _ _ _ _ _ o h hs he hl ho =>
    obtain ⟨⟨w', b, ms', hM⟩, -⟩ := hf _ _ _ hl
    rw [TreeLanguage.after, List.append_assoc] at hM
    cases o with
    | value a rest =>
      simp only [List.append_assoc, List.cons_append]
      exact .broken h hs he hM (.inr (ho.resolve_left (by simp)))
    | abandoned rest =>
      refine .broken h hs he hM (ho.imp_left ?_)
      intro ho
      simpa using ho
    | tooDeep rest => exact .broken h hs he hM (.inr (ho.resolve_left (by simp)))

theorem recognizes_pure {a : α} (h : L [] a []) : Recognizes i n (Parse.pure a : Parse α) L :=
  ⟨⟨_, _, _, h⟩, fun _ _ => meets_pure h trivial⟩

theorem recognizes_bind (hp : Recognizes i n p L)
    (hf : ∀ w a ms, L w a ms → Recognizes i (n - w.length) (f a) (M.after w ms)) : Recognizes i n (p >>= f) M := by
  constructor
  · obtain ⟨w, a, ms, hw⟩ := hp.productive
    obtain ⟨w', b, ms', hM⟩ := (hf w a ms hw).productive
    exact ⟨_, _, _, hM⟩
  · intro ts hl
    refine meets_bind (hp.meets ts hl) ?_
    intro w a ms hw
    refine ⟨(hf w a ms hw).productive, ?_⟩
    intro rest h _
    refine (hf w a ms hw).meets rest ?_
    rw [h, List.length_append] at hl
    omega

theorem recognizes_map (g : α → β) (hp : Recognizes i n p L) (hM : ∀ w a ms, L w a ms → M w (g a) ms) :
    Recognizes i n (g <$> p) M :=
  recognizes_bind hp fun w a ms hw => recognizes_pure (by
    rw [TreeLanguage.after, List.append_nil, List.append_nil]
    exact hM w a ms hw)

/-! ## Single tokens -/

theorem recognizes_fail {e : SyntaxError} (he : e.isSoft = false) (hL : L.Productive) :
    Recognizes i n (fail e : Parse α) L := by
  refine ⟨hL, ?_⟩
  intro ts _
  obtain ⟨w, a, ms, hw⟩ := hL
  show Meets L _ i ts ⟨[] ++ ⟨e, ts⟩ :: [], .abandoned ts⟩
  exact .broken (u := []) rfl (by simp) he hw (.inl ⟨rfl, rfl⟩)

theorem recognizes_here {g : List Token → Parse α} (h : ∀ ts, Recognizes i n (g ts) L) :
    Recognizes i n (here >>= g) L :=
  ⟨(h []).productive, fun ts hl => (h ts).meets ts hl⟩

theorem recognizes_nextIs {k : TokenKind → Bool} {g : Bool → Parse α} (h : ∀ b, Recognizes i n (g b) L) :
    Recognizes i n (nextIs k >>= g) L :=
  ⟨(h true).productive, fun ts hl => (h _).meets ts hl⟩

theorem recognizes_report {L : TreeLanguage Unit} {e : SyntaxError} (he : e.isSoft = true) {place : List Token}
    {t : Token} (ht : place.head? = some t) (h : L [] () [(e, t)]) : Recognizes i n (report e place) L :=
  ⟨⟨_, _, _, h⟩, fun _ _ => .read rfl (.cons ⟨rfl, ht, he⟩ .nil) h trivial⟩

/-- A token taken in front. -/
theorem Meets.cons {t : Token} {P : Parsed α} (h : Meets (L.after [t] []) ends (t.kind == .leftBrace || i) ts P) :
    Meets L ends i (t :: ts) P := by
  cases h with
  | read h hm hl he => exact .read (by rw [h]; rfl) hm hl he
  | @broken u v place a rs later ms e o h hs he hl ho =>
    refine .broken (u := t :: u) (by rw [h]; rfl) hs he hl (ho.imp_right ?_)
    rintro (hi | ⟨t', ht, hk⟩)
    · rcases Bool.or_eq_true_iff.1 hi with hk | hi
      · exact .inr ⟨t, List.mem_cons_self, by simpa using hk⟩
      · exact .inl hi
    · exact .inr ⟨t', List.mem_cons_of_mem t ht, hk⟩

theorem recognizes_dispatch {rule : Token → Option (Parse α)} (hq : Recognizes i n q L)
    (hr : ∀ t p, rule t = some p → Recognizes (t.kind == .leftBrace || i) (n - 1) p (L.after [t] [])) :
    Recognizes i n (dispatch rule q) L := by
  refine ⟨hq.productive, ?_⟩
  intro ts hl
  cases ts with
  | nil => exact hq.meets [] hl
  | cons t ts =>
    simp only [dispatch]
    split
    · next p hp => exact ((hr t p hp).meets ts (by simp at hl; omega)).cons
    · exact hq.meets _ hl

theorem recognizes_whenNext {k : TokenKind → Bool} {g : Token → Parse α} (hq : Recognizes i n q L)
    (hg : ∀ t, k t.kind = true → Recognizes i (n - 1) (g t) (L.after [t] [])) : Recognizes i n (whenNext k g q) L := by
  refine recognizes_dispatch hq ?_
  intro t p hp
  split at hp
  · next hk =>
    cases hp
    exact (hg t hk).inside _
  · cases hp

/-- The place of the token is kept for what follows it. -/
theorem recognizes_whenNext_here {k : TokenKind → Bool} {g : List Token → Token → Parse α} (hq : Recognizes i n q L)
    (hg : ∀ t ts, k t.kind = true → Recognizes i (n - 1) (g (t :: ts) t) (L.after [t] [])) :
    Recognizes i n (here >>= fun place => whenNext k (g place) q) L := by
  refine ⟨hq.productive, ?_⟩
  intro ts hl
  cases ts with
  | nil => exact hq.meets [] hl
  | cons t ts =>
    show Meets L _ i (t :: ts) (whenNext k (g (t :: ts)) q (t :: ts))
    simp only [whenNext, dispatch]
    by_cases hk : k t.kind = true
    · simp only [hk, if_true]
      exact (((hg t ts hk).inside _).meets ts (by simp at hl; omega)).cons
    · simp only [hk]
      exact hq.meets _ hl

/-- A token of the kind, then what may stand behind it. -/
theorem recognizes_expect {k : TokenKind} {e : SyntaxError} (he : e.isSoft = false) {g : Token → Parse α}
    (h : ∀ t : Terminal k, Recognizes (k == .leftBrace || i) (n - 1) (g t.1) (L.after [t.1] [])) :
    Recognizes i n (expect k e >>= g) L := by
  have hL : L.Productive := by
    obtain ⟨w, a, ms, hw⟩ := (h ⟨⟨k, "", .nil, 0, 0⟩, rfl⟩).productive
    exact ⟨_, _, _, hw⟩
  refine ⟨hL, ?_⟩
  intro ts hl
  cases ts with
  | nil => exact (recognizes_fail he hL).meets [] hl
  | cons t ts =>
    by_cases hk : t.kind = k
    · have hr : (expect k e >>= g) (t :: ts) = g t ts := by
        rw [run_bind, expect, if_pos hk]
        rfl
      subst hk
      rw [hr]
      exact ((h ⟨t, rfl⟩).meets ts (by simp at hl; omega)).cons
    · have hr : (expect k e >>= g) (t :: ts) = fail e (t :: ts) := by
        rw [run_bind, expect, if_neg hk]
        rfl
      rw [hr]
      exact (recognizes_fail he hL).meets _ hl

/-- A token of the kind at the end of a word. -/
theorem recognizes_expect_last {k : TokenKind} {e : SyntaxError} (he : e.isSoft = false) {g : Token → α}
    (h : ∀ t : Terminal k, L [t.1] (g t.1) []) : Recognizes i n (expect k e >>= fun t => Parse.pure (g t)) L :=
  recognizes_expect he fun t => recognizes_pure (h t)

theorem recognizes_token {k : TokenKind} {e : SyntaxError} (he : e.isSoft = false) :
    Recognizes i n (expect k e) (fun w t ms => ∃ t' : Terminal k, w = [t'.1] ∧ t = t'.1 ∧ ms = []) := by
  rw [← map_id' (fun _ => rfl) (expect k e)]
  exact recognizes_expect_last he fun t => ⟨t, rfl, rfl, rfl⟩

/-! ## Loops -/

section Items

variable {item : Parse α} {e : SyntaxError}

/-- A comma and an item, again and again, `count` items standing in front. -/
inductive Following (e : SyntaxError) (L : TreeLanguage α) : Nat → TreeLanguage (List α) where
  | nil {count : Nat} : Following e L count [] [] []
  | cons {count : Nat} {w w' : List Token} {x : α} {xs : List α} {ms ms' : List Mark} (comma : Terminal .comma)
      (h : L w x ms) (h' : Following e L (count + 1) w' xs ms') :
      Following e L count (comma.1 :: (w ++ w')) (x :: xs) ((excess e count w ++ ms) ++ ms')

/-- The words of an item, with the mark that it is one too many. -/
def Counted (e : SyntaxError) (L : TreeLanguage α) (count : Nat) : TreeLanguage α :=
  fun w x ms => ∃ ms', ms = excess e count w ++ ms' ∧ L w x ms'

theorem recognizes_nextItem (he : e.isSoft = true) (hw : ∀ w x ms, L w x ms → w ≠ []) (h : Recognizes i n item L)
    (count : Nat) : Recognizes i n (nextItem item e count) (Counted e L count) := by
  obtain ⟨w, x, ms, hp⟩ := h.productive
  refine ⟨⟨w, x, _, ms, rfl, hp⟩, ?_⟩
  intro ts hl
  have h := h.meets ts hl
  by_cases hc : maxItems ≤ count
  · have hr : nextItem item e count ts = ⟨⟨e, ts⟩ :: (item ts).reports, (item ts).outcome⟩ := by
      simp only [nextItem, hc, if_true]
      rfl
    rw [hr]
    generalize item ts = P at h
    cases h with
    | @read w rest x rs ms h hm hx ha =>
      have hne := hw _ _ _ hx
      cases w with
      | nil => exact absurd rfl hne
      | cons t w =>
        have hm' : Marked (⟨e, ts⟩ :: rs) ((e, t) :: ms) := .cons ⟨rfl, by rw [h]; rfl, he⟩ hm
        exact .read h hm' ⟨ms, by simp [excess, hc], hx⟩ trivial
    | @broken u v place x rs later ms e' o h hs he' hl ho =>
      have hs' : ∀ r ∈ ⟨e, ts⟩ :: rs, r.error.isSoft = true := List.forall_mem_cons.2 ⟨he, hs⟩
      exact .broken h hs' he' ⟨ms, rfl, hl⟩ ho
  · simp only [nextItem, hc, if_false]
    exact h.imp fun w x ms hl => ⟨ms, by simp [excess, hc], hl⟩

theorem recognizes_moreItems (he : e.isSoft = true) (hw : ∀ w x ms, L w x ms → w ≠ []) (h : Recognizes i n item L)
    (bound : List Token) (count : Nat) : Recognizes i n (moreItems item e bound count) (Following e L count) := by
  induction bound generalizing n count with
  | nil => exact recognizes_pure .nil
  | cons b bound ih =>
    refine recognizes_whenNext (recognizes_pure .nil) ?_
    intro t ht
    refine recognizes_bind (recognizes_nextItem he hw (h.mono (Nat.sub_le n 1)) count) ?_
    intro w x ms hx
    obtain ⟨ms, rfl, hx⟩ := hx
    refine recognizes_bind (ih (h.mono (by omega)) (count + 1)) ?_
    intro w' xs ms' hxs
    refine recognizes_pure ?_
    have := Following.cons ⟨t, by simpa using ht⟩ hx hxs
    simpa [TreeLanguage.after] using this

/-- Items separated by commas. -/
def Separated (e : SyntaxError) (L : TreeLanguage α) : TreeLanguage (List α) :=
  fun w xs ms => ∃ w₁ x xs' w₂ ms₁ ms₂, L w₁ x ms₁ ∧ Following e L 1 w₂ xs' ms₂ ∧ w = w₁ ++ w₂ ∧ xs = x :: xs' ∧
    ms = ms₁ ++ ms₂

theorem recognizes_items (he : e.isSoft = true) (hw : ∀ w x ms, L w x ms → w ≠ []) (h : Recognizes i n item L) :
    Recognizes i n (items item e) (Separated e L) := by
  refine recognizes_bind h ?_
  intro w x ms hx
  refine recognizes_here ?_
  intro ts
  refine recognizes_bind (recognizes_moreItems he hw (h.mono (Nat.sub_le _ _)) ts 1) ?_
  intro w' xs ms' hxs
  exact recognizes_pure ⟨w, x, xs, w', ms, ms', hx, hxs, by simp, rfl, by simp⟩

theorem recognizes_itemsBeforeParen {M : TreeLanguage (List α)} (he : e.isSoft = true)
    (hw : ∀ w x ms, L w x ms → w ≠ []) (h : Recognizes i n item L) (h0 : M [] [] [])
    (hM : ∀ w xs ms, Separated e L w xs ms → M w xs ms) :
    Recognizes i n (itemsBeforeParen item e) M := by
  refine recognizes_nextIs ?_
  intro b
  cases b with
  | true => exact recognizes_pure h0
  | false => exact (recognizes_items he hw h).imp hM

end Items

/-- A loop inside braces takes words one after another. Each is not empty, so a bound as
    long as the tokens does not end it before it stops. -/
theorem meets_repeatUntil (stop : TokenKind → Bool) {read : Parse (List α)} {K M : TreeLanguage (List α)}
    (hr : Recognizes true n read K) (hw : ∀ w xs ms, K w xs ms → w ≠ []) (h0 : M [] [] [])
    (hM : ∀ w xs ms, K w xs ms → ∀ w' ys ms', M w' ys ms' → M (w ++ w') (xs ++ ys) (ms ++ ms')) :
    ∀ bound ts : List Token, ts.length < n →
      Meets M (fun rest => ts.length ≤ bound.length → ∀ t ∈ rest.head?, stop t.kind = true) true ts
        (repeatUntil stop read bound ts)
  | [], ts, _ => by
    refine meets_pure h0 ?_
    intro hb
    obtain rfl := List.length_eq_zero_iff.1 (Nat.le_zero.1 hb)
    simp
  | b :: bound, [], _ => meets_pure h0 (by simp)
  | b :: bound, t :: ts, hl => by
    simp only [repeatUntil]
    split
    · next hs => exact meets_pure h0 fun _ => by simpa using hs
    · refine meets_bind (hr.meets _ hl) ?_
      intro w xs ms hx
      refine ⟨⟨[], _, [], hM w xs ms hx _ _ _ h0⟩, ?_⟩
      intro rest h _
      have hlen : rest.length < (t :: ts).length := by
        rw [h, List.length_append]
        have := List.length_pos_iff.2 (hw w xs ms hx)
        omega
      have ih := meets_repeatUntil stop hr hw h0 hM bound rest (Nat.lt_trans hlen hl)
      refine meets_bind ih ?_
      intro w' ys ms' hy
      have hxy := hM w xs ms hx w' ys ms' hy
      refine ⟨⟨[], _, [], by simpa [TreeLanguage.after] using hxy⟩, fun rest' _ he => meets_pure ?_ fun hb => he ?_⟩
      · simpa [TreeLanguage.after] using hxy
      · simp at hlen hb
        omega

theorem recognizes_repeatUntil (stop : TokenKind → Bool) {read : Parse (List α)} {K M : TreeLanguage (List α)}
    (hr : Recognizes true n read K) (hw : ∀ w xs ms, K w xs ms → w ≠ []) (h0 : M [] [] [])
    (hM : ∀ w xs ms, K w xs ms → ∀ w' ys ms', M w' ys ms' → M (w ++ w') (xs ++ ys) (ms ++ ms')) (bound : List Token) :
    Recognizes true n (repeatUntil stop read bound) M :=
  ⟨⟨_, _, _, h0⟩, fun ts hl => (meets_repeatUntil stop hr hw h0 hM bound ts hl).mono fun _ _ => trivial⟩

theorem recognizes_recover (h : Recognizes i n p L) :
    Recognizes true n (recover p) (fun w o ms => ∃ a, o = some a ∧ L w a ms) := by
  obtain ⟨w, a, ms, hp⟩ := h.productive
  refine ⟨⟨w, some a, ms, a, rfl, hp⟩, ?_⟩
  intro ts hl
  have h := h.meets ts hl
  rw [recover]
  generalize p ts = P at h
  cases h with
  | read h hm hl he => exact .read h hm ⟨_, rfl, hl⟩ he
  | @broken _ _ _ _ _ _ _ _ o h hs he hl ho =>
    cases o <;> exact .broken h hs he ⟨_, rfl, hl⟩ (.inr (.inl rfl))

end LoxSyntax.Parse
