/-
  LoxSyntax.Proofs.Reading.Course — where a reading reports, in which order, how often at
  the end, and how deep it goes.

  A course leads through the tokens, from where a reading starts to what it leaves. Each
  error that is reported stands on it: a soft one where the reading goes on, any other one
  in front of the token behind which the reading goes on, since recovery skips one at
  least. Only an invalid target is reported behind its place, when the value was read.

  At the end of the tokens nothing can be skipped, and there more than one error may
  abandon a declaration: each block that is still open misses its closing brace. So the
  number of these errors is bounded by the opening braces that were taken, and one more
  behind a recovery.

  A reader goes one level deeper only behind certain tokens: parentheses, braces, equals
  signs, unary operators and the keywords of loops and branches. A reading that is nested
  too deeply has as many of them in front of it as levels are followed.

  - `Course.append`: one course behind another.
  - `Course.pairwise`: the order of the places along a course.
  - `orderly_bind`, `orderly_dispatch`, `orderly_repeatUntil`, `orderly_recover`: readers
    put together from readers that keep the order and the bound.
-/

import LoxSyntax.Proofs.Reading.Severance

namespace LoxSyntax.Parse

/-! ## Courses -/

/-- The reports on the way from one place to another, in the tokens `all`. -/
inductive Course (all : List Token) : List Token → List Report → List Token → Prop where
  | done {ts rest : List Token} (h : rest <:+ ts) : Course all ts [] rest
  | target {ts place rest : List Token} {rs : List Report} (hp : place <:+ all) (h : Course all ts rs rest) :
      Course all ts (⟨.invalidAssignmentTarget, place⟩ :: rs) rest
  | excess {ts place rest : List Token} {rs : List Report} {e : SyntaxError} (he : e.isSoft = true) (hp : place <:+ ts)
      (h : Course all place rs rest) : Course all ts (⟨e, place⟩ :: rs) rest
  | broken {ts place rest : List Token} {rs : List Report} {e : SyntaxError} (he : e.isSoft = false) (hp : place <:+ ts)
      (h : Course all place.tail rs rest) : Course all ts (⟨e, place⟩ :: rs) rest

variable {all ts mid rest : List Token} {rs rs' : List Report}

namespace Course

theorem start (h : Course all mid rs rest) (hs : mid <:+ ts) : Course all ts rs rest := by
  induction h with
  | done h => exact .done (h.trans hs)
  | target hp _ ih => exact .target hp (ih hs)
  | excess he hp h _ => exact .excess he (hp.trans hs) h
  | broken he hp h _ => exact .broken he (hp.trans hs) h

/-- One course behind another. -/
theorem append (h : Course all ts rs mid) (h' : Course all mid rs' rest) : Course all ts (rs ++ rs') rest := by
  induction h with
  | done hs => exact h'.start hs
  | target hp _ ih => exact .target hp (ih h')
  | excess he hp _ ih => exact .excess he hp (ih h')
  | broken he hp _ ih => exact .broken he hp (ih h')

theorem suffix (h : Course all ts rs rest) : rest <:+ ts := by
  induction h with
  | done hs => exact hs
  | target _ _ ih => exact ih
  | excess _ hp _ ih => exact ih.trans hp
  | broken _ hp _ ih => exact (ih.trans (List.tail_suffix _)).trans hp

theorem places (h : Course all ts rs rest) (hs : ts <:+ all) : ∀ r ∈ rs, r.place <:+ all := by
  induction h with
  | done _ => simp
  | target hp _ ih => exact List.forall_mem_cons.2 ⟨hp, ih hs⟩
  | excess _ hp _ ih => exact List.forall_mem_cons.2 ⟨hp.trans hs, ih (hp.trans hs)⟩
  | broken _ hp _ ih =>
    exact List.forall_mem_cons.2 ⟨hp.trans hs, ih ((List.tail_suffix _).trans (hp.trans hs))⟩

/-- Any other error than an invalid target is reported on the way. -/
theorem place_suffix (h : Course all ts rs rest) :
    ∀ r ∈ rs, r.error ≠ .invalidAssignmentTarget → r.place <:+ ts := by
  induction h with
  | done _ => simp
  | target _ _ ih => exact List.forall_mem_cons.2 ⟨fun hne => absurd rfl hne, ih⟩
  | excess _ hp _ ih => exact List.forall_mem_cons.2 ⟨fun _ => hp, fun r hr hne => (ih r hr hne).trans hp⟩
  | broken _ hp _ ih =>
    refine List.forall_mem_cons.2 ⟨fun _ => hp, ?_⟩
    intro r hr hne
    exact ((ih r hr hne).trans (List.tail_suffix _)).trans hp

/-- What is left is behind each token that abandoned a reading. -/
theorem suffix_tail (h : Course all ts rs rest) : ∀ r ∈ rs, r.error.isSoft = false → rest <:+ r.place.tail := by
  induction h with
  | done _ => simp
  | target _ _ ih => exact List.forall_mem_cons.2 ⟨fun hard => Bool.noConfusion hard, ih⟩
  | excess he _ _ ih => exact List.forall_mem_cons.2 ⟨fun hard => Bool.noConfusion (he.symm.trans hard), ih⟩
  | broken _ _ h ih => exact List.forall_mem_cons.2 ⟨fun _ => h.suffix, ih⟩

end Course

theorem ne_target_of_hard {e : SyntaxError} (he : e.isSoft = false) : e ≠ .invalidAssignmentTarget := by
  rintro rfl
  cases he

/-- Places do not go back; behind an error that abandons a reading they go on by a token. -/
theorem Course.pairwise (h : Course all ts rs rest) : rs.Pairwise fun r r' =>
    (r.error ≠ .invalidAssignmentTarget → r'.error ≠ .invalidAssignmentTarget → r'.place <:+ r.place) ∧
    (r.error.isSoft = false → r'.error.isSoft = false → r'.place <:+ r.place.tail) := by
  induction h with
  | done _ => exact .nil
  | target _ _ ih =>
    exact ih.cons fun r' _ => ⟨fun hne => absurd rfl hne, fun hard => Bool.noConfusion hard⟩
  | excess he _ h ih =>
    refine ih.cons ?_
    intro r' hr'
    exact ⟨fun _ hne' => h.place_suffix r' hr' hne', fun hard => Bool.noConfusion (he.symm.trans hard)⟩
  | broken _ _ h ih =>
    refine ih.cons ?_
    intro r' hr'
    exact ⟨fun _ hne' => (h.place_suffix r' hr' hne').trans (List.tail_suffix _),
      fun _ hard => h.place_suffix r' hr' (ne_target_of_hard hard)⟩

/-! ## Errors at the end -/

/-- How many errors abandon something at the end of the tokens. -/
def ends (rs : List Report) : Nat := rs.countP fun r => !r.error.isSoft && r.place.isEmpty

def braces (ts : List Token) : Nat := ts.countP (·.kind == .leftBrace)

theorem ends_append (rs rs' : List Report) : ends (rs ++ rs') = ends rs + ends rs' := List.countP_append

theorem ends_singleton_le (r : Report) : ends [r] ≤ 1 := List.countP_le_length

theorem ends_soft {e : SyntaxError} (he : e.isSoft = true) (place : List Token) : ends [⟨e, place⟩] = 0 := by
  simp [ends, he]

theorem braces_cons (t : Token) (ts : List Token) : braces (t :: ts) = braces ts + braces [t] := by
  rw [braces, ← List.singleton_append, List.countP_append]
  exact Nat.add_comm _ _

theorem braces_le (h : rest <:+ ts) : braces rest ≤ braces ts := h.sublist.countP_le

/-! ## Levels -/

/-- Behind a token of this kind something is read one level deeper. -/
def opensLevel (k : TokenKind) : Bool :=
  [.leftParen, .leftBrace, .equal, .bang, .minus, .kwIf, .kwWhile, .kwFor].contains k

/-- How many tokens open a level. -/
def levels (ts : List Token) : Nat := ts.countP (opensLevel ·.kind)

theorem levels_cons (t : Token) (ts : List Token) : levels (t :: ts) = levels ts + levels [t] := by
  rw [levels, ← List.singleton_append, List.countP_append]
  exact Nat.add_comm _ _

theorem levels_le (h : rest <:+ ts) : levels rest ≤ levels ts := h.sublist.countP_le

theorem levels_singleton {t : Token} (h : opensLevel t.kind = true) : levels [t] = 1 := by
  simp [levels, h]

/-! ## Readers -/

/-- As long as something is left, nothing was abandoned at the end. -/
theorem Course.ends_eq_zero (h : Course all ts rs rest) (hne : rest ≠ []) : ends rs = 0 := by
  refine List.countP_eq_zero.2 ?_
  intro r hr hend
  obtain ⟨hard, hplace⟩ : r.error.isSoft = false ∧ r.place = [] := by simpa using hend
  have hs := h.suffix_tail r hr hard
  rw [hplace] at hs
  exact hne (List.suffix_nil.1 hs)

/-- A course that has no more errors at its end than opening braces, and `k`. -/
structure Toward (all : List Token) (k : Nat) (ts : List Token) (rs : List Report) (rest : List Token) : Prop where
  course : Course all ts rs rest
  ends_le : ends rs + braces rest ≤ k + braces ts

/-- What a reading reports and where it ends is on such a course; what abandons it is
    reported last. It is given up only if `n` tokens open a level. -/
inductive Onward (all : List Token) (n k : Nat) (ts : List Token) : Parsed α → Prop where
  | value {rs : List Report} {rest : List Token} (a : α) (h : Toward all k ts rs rest) :
      Onward all n k ts ⟨rs, .value a rest⟩
  | abandoned {rs : List Report} {place : List Token} {e : SyntaxError} (he : e.isSoft = false)
      (h : Toward all k ts rs place) : Onward all n k ts ⟨rs ++ [⟨e, place⟩], .abandoned place⟩
  | tooDeep (rs : List Report) {rest : List Token} (hs : rest <:+ ts) (hn : n ≤ levels ts) :
      Onward all n k ts ⟨rs, .tooDeep rest⟩

/-- So is whatever the reader does, anywhere in the tokens `all`. -/
def Orderly (all : List Token) (n k : Nat) (p : Parse α) : Prop := ∀ ts, ts <:+ all → Onward all n k ts (p ts)

variable {α β : Type} {m n k k' : Nat} {p q : Parse α} {f : α → Parse β} {P : Parsed α} {t : Token}

namespace Toward

theorem refl (all : List Token) (k : Nat) (ts : List Token) : Toward all k ts [] ts :=
  ⟨.done (List.suffix_refl ts), by simp [ends]⟩

theorem mono (h : Toward all k ts rs rest) (hk : k ≤ k') : Toward all k' ts rs rest :=
  ⟨h.course, Nat.le_trans h.ends_le (Nat.add_le_add_right hk _)⟩

theorem append (h : Toward all k ts rs mid) (h' : Toward all k' mid rs' rest) :
    Toward all (k + k') ts (rs ++ rs') rest := by
  refine ⟨h.course.append h'.course, ?_⟩
  have := h.ends_le
  have := h'.ends_le
  rw [ends_append]
  omega

/-- A token is taken; an opening brace gives way to one more error at the end. -/
theorem cons (h : Toward all (k + braces [t]) ts rs rest) : Toward all k (t :: ts) rs rest := by
  refine ⟨h.course.start (List.suffix_cons t ts), ?_⟩
  have := h.ends_le
  rw [braces_cons]
  omega

/-- As long as something is left, no error was at the end. -/
theorem of_ne_nil (h : Toward all k ts rs rest) (hne : rest ≠ []) : Toward all 0 ts rs rest := by
  refine ⟨h.course, ?_⟩
  rw [h.course.ends_eq_zero hne]
  exact Nat.add_le_add_left (braces_le h.course.suffix) 0

end Toward

theorem Onward.mono (h : Onward all n k ts P) (hn : m ≤ n) (hk : k ≤ k') : Onward all m k' ts P := by
  cases h with
  | value a h => exact .value a (h.mono hk)
  | abandoned he h => exact .abandoned he (h.mono hk)
  | tooDeep rs hs h => exact .tooDeep rs hs (Nat.le_trans hn h)

theorem Onward.cons (h : Onward all (n - levels [t]) (k + braces [t]) ts P) : Onward all n k (t :: ts) P := by
  cases h with
  | value a h => exact .value a h.cons
  | abandoned he h => exact .abandoned he h.cons
  | tooDeep rs hs h =>
    refine .tooDeep rs (hs.trans (List.suffix_cons t ts)) ?_
    rw [levels_cons]
    exact Nat.sub_le_iff_le_add.1 h

/-- A reading behind what was reported on the way to it. -/
theorem Onward.after (h : Toward all k ts rs mid) (hP : Onward all n k' mid P) :
    Onward all n (k + k') ts (⟨rs ++ P.reports, P.outcome⟩ : Parsed α) := by
  cases hP with
  | value a h' => exact .value a (h.append h')
  | abandoned he h' =>
    simp only [← List.append_assoc]
    exact .abandoned he (h.append h')
  | tooDeep rs' hs hn =>
    exact .tooDeep _ (hs.trans h.course.suffix) (Nat.le_trans hn (levels_le h.course.suffix))

theorem Orderly.mono (h : Orderly all n k p) (hn : m ≤ n) (hk : k ≤ k') : Orderly all m k' p :=
  fun ts hs => (h ts hs).mono hn hk

/-- Fewer levels of it. -/
theorem Orderly.less (h : Orderly all n k p) (hn : m ≤ n) : Orderly all m k p := h.mono hn (Nat.le_refl k)

/-- More errors at the end. -/
theorem Orderly.more (h : Orderly all n k p) (hk : k ≤ k') : Orderly all n k' p := h.mono (Nat.le_refl n) hk

/-! ## One reader after another -/

theorem onward_bind (hs : ts <:+ all) (hp : Onward all n k ts (p ts)) (hf : ∀ a, Orderly all n k' (f a)) :
    Onward all n (k + k') ts ((p >>= f) ts) := by
  rw [run_bind]
  generalize p ts = P at hp
  cases hp with
  | value a h => exact (hf a _ (h.course.suffix.trans hs)).after h
  | abandoned he h => exact .abandoned he (h.mono (Nat.le_add_right k k'))
  | tooDeep rs hs hn => exact .tooDeep rs hs hn

theorem orderly_bind (hp : Orderly all n k p) (hf : ∀ a, Orderly all n k' (f a)) : Orderly all n (k + k') (p >>= f) :=
  fun ts hs => onward_bind hs (hp ts hs) hf

/-- The first reader leaves nothing open. -/
theorem orderly_then (hp : Orderly all n 0 p) (hf : ∀ a, Orderly all n k (f a)) : Orderly all n k (p >>= f) := by
  have h := orderly_bind hp hf
  rwa [Nat.zero_add] at h

theorem orderly_pure (n k : Nat) (a : α) : Orderly all n k (Parse.pure a) := fun ts _ => .value a (.refl all k ts)

theorem orderly_map (g : α → β) (h : Orderly all n k p) : Orderly all n k (g <$> p) :=
  orderly_bind h fun a => orderly_pure n 0 (g a)

/-- No level is left. -/
theorem orderly_tooDeep (k : Nat) : Orderly all 0 k (tooDeep : Parse α) :=
  fun ts _ => .tooDeep [] (List.suffix_refl ts) (Nat.zero_le _)

theorem orderly_fail {e : SyntaxError} (he : e.isSoft = false) : Orderly all n 0 (fail e : Parse α) :=
  fun ts _ => .abandoned he (.refl all 0 ts)

theorem orderly_here {g : List Token → Parse α} (h : ∀ ts, ts <:+ all → Onward all n k ts (g ts ts)) :
    Orderly all n k (here >>= g) := h

theorem orderly_nextIs (k : TokenKind → Bool) : Orderly all n 0 (nextIs k) := fun ts _ => .value _ (.refl all 0 ts)

theorem orderly_dispatch {rule : Token → Option (Parse α)}
    (hr : ∀ t p, rule t = some p → Orderly all (n - levels [t]) (k + braces [t]) p) (hq : Orderly all n k q) :
    Orderly all n k (dispatch rule q) := by
  intro ts hs
  cases ts with
  | nil => exact hq [] hs
  | cons t ts =>
    simp only [dispatch]
    split
    · next p hp => exact (hr t p hp ts ((List.suffix_cons t ts).trans hs)).cons
    · exact hq (t :: ts) hs

theorem orderly_whenNext {k' : TokenKind → Bool} {g : Token → Parse α} (hg : ∀ t, Orderly all n k (g t))
    (hq : Orderly all n k q) : Orderly all n k (whenNext k' g q) := by
  refine orderly_dispatch ?_ hq
  intro t p hp
  split at hp
  · cases hp
    exact (hg t).mono (Nat.sub_le n _) (Nat.le_add_right k _)
  · cases hp

/-- Behind these tokens the next reader is one level deeper. -/
theorem orderly_whenOpens {k' : TokenKind → Bool} {g : Token → Parse α} (ho : ∀ t, k' t = true → opensLevel t = true)
    (hg : ∀ t, Orderly all (n - 1) k (g t)) (hq : Orderly all n k q) : Orderly all n k (whenNext k' g q) := by
  refine orderly_dispatch ?_ hq
  intro t p hp
  split at hp
  · next hk =>
    cases hp
    rw [levels_singleton (ho _ hk)]
    exact (hg t).more (Nat.le_add_right k _)
  · cases hp

/-- Behind a token of the kind the next reader goes on. -/
theorem orderly_expect_then {kind : TokenKind} {e : SyntaxError} (he : e.isSoft = false) {f : Token → Parse β}
    (hf : ∀ t, t.kind = kind → Orderly all (n - levels [t]) (k + braces [t]) (f t)) :
    Orderly all n k (expect kind e >>= f) := by
  intro ts hs
  have hfail : ∀ ts, Onward all n k ts ((fail e >>= f) ts) := fun ts => .abandoned he (.refl all k ts)
  cases ts with
  | nil => exact hfail []
  | cons t ts =>
    by_cases hk : t.kind = kind
    · rw [run_bind, expect, if_pos hk]
      exact (hf t hk ts ((List.suffix_cons t ts).trans hs)).cons
    · rw [run_bind, expect, if_neg hk]
      exact hfail (t :: ts)

theorem orderly_expect {kind : TokenKind} {e : SyntaxError} (he : e.isSoft = false) :
    Orderly all n 0 (expect kind e) := by
  intro ts hs
  cases ts with
  | nil => exact orderly_fail he [] hs
  | cons t ts =>
    rw [expect]
    split
    · exact .value t (((Toward.refl all 0 ts).mono (Nat.zero_le _)).cons)
    · exact orderly_fail he (t :: ts) hs

/-- An error that is reported on the way. -/
theorem onward_report {e : SyntaxError} (he : e.isSoft = true) (hs : ts <:+ all) (hp : Orderly all n k p) :
    Onward all n k ts ((report e ts >>= fun _ => p) ts) := by
  have h : Toward all 0 ts [⟨e, ts⟩] ts :=
    ⟨.excess he (List.suffix_refl ts) (.done (List.suffix_refl ts)), Nat.le_of_eq (by rw [ends_soft he])⟩
  have hrun := (hp ts hs).after h
  rwa [Nat.zero_add] at hrun

/-- A target that is reported behind its value. -/
theorem onward_target {place : List Token} (hplace : place <:+ all) (a : α) (ts : List Token) :
    Onward all n 0 ts ((report .invalidAssignmentTarget place >>= fun _ => Parse.pure a) ts) := by
  have h : Toward all 0 ts [⟨.invalidAssignmentTarget, place⟩] ts :=
    ⟨.target hplace (.done (List.suffix_refl ts)), Nat.le_of_eq (by rw [ends_soft rfl])⟩
  exact .value a h

/-! ## Loops -/

theorem orderly_chainFrom {join : α → Token → α → α} {isOperator : TokenKind → Bool} (h : Orderly all n 0 p)
    (bound : List Token) : ∀ left, Orderly all n 0 (chainFrom p join isOperator bound left) := by
  induction bound with
  | nil => exact orderly_pure n 0
  | cons b bound ih =>
    intro left
    exact orderly_whenNext (fun t => orderly_then h fun right => ih _) (orderly_pure n 0 left)

theorem orderly_chain {join : α → Token → α → α} {isOperator : TokenKind → Bool} (h : Orderly all n 0 p) :
    Orderly all n 0 (chain p join isOperator) :=
  orderly_then h fun left => orderly_here fun ts hs => orderly_chainFrom h ts left ts hs

section Items

variable {item : Parse α} {e : SyntaxError}

theorem orderly_nextItem (he : e.isSoft = true) (h : Orderly all n 0 item) (count : Nat) :
    Orderly all n 0 (nextItem item e count) := by
  unfold nextItem
  split
  · exact orderly_here fun ts hs => onward_report he hs h
  · exact h

theorem orderly_moreItems (he : e.isSoft = true) (h : Orderly all n 0 item) (bound : List Token) :
    ∀ count, Orderly all n 0 (moreItems item e bound count) := by
  induction bound with
  | nil => exact fun _ => orderly_pure n 0 []
  | cons b bound ih =>
    intro count
    refine orderly_whenNext (fun _ => ?_) (orderly_pure n 0 [])
    exact orderly_then (orderly_nextItem he h count) fun x => orderly_map (x :: ·) (ih (count + 1))

theorem orderly_itemsBeforeParen (he : e.isSoft = true) (h : Orderly all n 0 item) :
    Orderly all n 0 (itemsBeforeParen item e) := by
  refine orderly_then (orderly_nextIs _) ?_
  intro b
  cases b with
  | true => exact orderly_pure n 0 []
  | false =>
    refine orderly_then h ?_
    intro x
    exact orderly_here fun ts hs => orderly_map (x :: ·) (orderly_moreItems he h ts 1) ts hs

end Items

/-- A round that was abandoned at the end is the last one: nothing is left behind it. -/
theorem orderly_repeatUntil {stop : TokenKind → Bool} {read : Parse (List α)} (h : Orderly all n 1 read)
    (bound : List Token) : Orderly all n 1 (repeatUntil stop read bound) := by
  induction bound with
  | nil => exact orderly_pure n 1 []
  | cons b bound ih =>
    intro ts hs
    cases ts with
    | nil => exact .value [] (.refl all 1 [])
    | cons t ts =>
      cases hstop : stop t.kind with
      | true =>
        rw [repeatUntil_stop hstop]
        exact .value [] (.refl all 1 _)
      | false =>
        rw [repeatUntil_cons hstop, run_bind]
        have hread := h (t :: ts) hs
        generalize read (t :: ts) = P at hread
        cases hread with
        | abandoned he hto => exact .abandoned he hto
        | tooDeep rs hto hn => exact .tooDeep rs hto hn
        | @value rs mid xs hto =>
          by_cases hmid : mid = []
          · subst hmid
            have hend : (repeatUntil stop read bound >>= fun ys => Parse.pure (xs ++ ys)) [] =
                ⟨[], .value (xs ++ []) []⟩ := by rw [run_bind, repeatUntil_nil]; rfl
            have hnone : Onward all n 0 [] (⟨[], .value (xs ++ []) []⟩ : Parsed (List α)) := .value _ (.refl all 0 [])
            have hlast := Onward.after hto hnone
            show Onward all n 1 (t :: ts) ⟨rs ++ ((repeatUntil stop read bound >>= _) []).reports, _⟩
            rw [hend]
            exact hlast
          · have hmore := orderly_map (xs ++ ·) ih mid (hto.course.suffix.trans hs)
            have hrun := hmore.after (hto.of_ne_nil hmid)
            rwa [Nat.zero_add] at hrun

/-! ## Recovery -/

theorem synchronize_suffix_tail (ts : List Token) : synchronize ts <:+ ts.tail := by
  cases ts with
  | nil => exact List.suffix_refl []
  | cons t ts => exact synchronize_suffix t ts

/-- A recovery may stand at the end itself. -/
theorem orderly_recover (h : Orderly all n k p) : Orderly all n (k + 1) (recover p) := by
  intro ts hs
  have hp := h ts hs
  rw [recover_eq]
  generalize p ts = P at hp
  cases hp with
  | value a h => exact .value (some a) (h.mono (Nat.le_succ k))
  | tooDeep rs hs hn => exact .tooDeep rs hs hn
  | @abandoned rs place e he h =>
    have hskip : Toward all 1 place [⟨e, place⟩] (synchronize place) := by
      refine ⟨.broken he (List.suffix_refl place) (.done (synchronize_suffix_tail place)), ?_⟩
      exact Nat.add_le_add (ends_singleton_le _) (braces_le (synchronize_suffix_self place))
    exact .value none (h.append hskip)

end LoxSyntax.Parse
