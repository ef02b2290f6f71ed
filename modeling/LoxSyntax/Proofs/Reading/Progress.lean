/-
  LoxSyntax.Proofs.Reading.Progress — how a reader goes on, as long as it reports soft
  errors only.

  A reader on some tokens steps to another reader on the tokens left, with the marks of
  what was reported on the way; it reads a value when it steps to the reader that gives
  it. Each way of putting readers together has its steps, so that a reading is put
  together from the readings of its parts, in the order of the text.

  - `Steps.trans`, `Steps.reads`: one after another.
  - `Reads.bind`: a reader after a reader.
-/

import Mathlib.Data.List.Forall2
import LoxSyntax.Proofs.Grammar.Phrase

namespace LoxSyntax.Parse

open Grammar (Mark)

variable {α β γ : Type}

theorem map_map (f : α → β) (g : β → γ) (p : Parse α) : g <$> f <$> p = (fun a => g (f a)) <$> p := by
  funext ts
  show (p >>= _ >>= _) ts = (p >>= _) ts
  rw [run_bind, run_bind, run_bind]
  cases p ts with
  | mk rs o =>
    cases o with
    | value a rest =>
      show Parsed.mk ((rs ++ []) ++ []) _ = Parsed.mk (rs ++ []) _
      rw [List.append_nil]
      rfl
    | abandoned _ | tooDeep _ => rfl

theorem map_id' {f : α → α} (h : ∀ a, f a = a) (p : Parse α) : f <$> p = p := by
  funext ts
  show (p >>= _) ts = _
  rw [run_bind]
  cases p ts with
  | mk rs o =>
    cases o with
    | value a rest =>
      show Parsed.mk (rs ++ []) (.value (f a) rest) = _
      rw [List.append_nil, h]
    | abandoned _ | tooDeep _ => rfl

/-- The reports are those of the marks, each at its token. -/
def Marked (reports : List Report) (marks : List Mark) : Prop :=
  List.Forall₂ (fun r m => r.error = m.1 ∧ r.place.head? = some m.2 ∧ r.error.isSoft = true) reports marks

theorem Marked.nil : Marked [] [] := List.Forall₂.nil

theorem Marked.append {rs rs' : List Report} {ms ms' : List Mark} (h : Marked rs ms) (h' : Marked rs' ms') :
    Marked (rs ++ rs') (ms ++ ms') :=
  List.rel_append h h'

theorem Marked.isSoft {rs : List Report} {ms : List Mark} (h : Marked rs ms) : ∀ r ∈ rs, r.error.isSoft = true := by
  induction h with
  | nil => simp
  | cons h _ ih => simpa using ⟨h.2.2, ih⟩

theorem Marked.eq_nil_iff {rs : List Report} {ms : List Mark} (h : Marked rs ms) : rs = [] ↔ ms = [] := by
  cases h <;> simp

/-- `p` on `ts` goes on as `q` on `rest`, having reported `rs`. -/
def Runs (p : Parse α) (ts : List Token) (q : Parse α) (rest : List Token) (rs : List Report) : Prop :=
  p ts = ⟨rs ++ (q rest).reports, (q rest).outcome⟩

/-- `p` on `ts` goes on as `q` on `rest`, with the marks of what was reported. -/
def Steps (p : Parse α) (ts : List Token) (q : Parse α) (rest : List Token) (ms : List Mark) : Prop :=
  ∃ rs, Marked rs ms ∧ Runs p ts q rest rs

/-- `p` on `ts` reads `a` and leaves `rest`. -/
def Reads (p : Parse α) (ts : List Token) (a : α) (rest : List Token) (ms : List Mark) : Prop :=
  ∃ rs, Marked rs ms ∧ p ts = ⟨rs, .value a rest⟩

variable {p q : Parse α} {f : α → Parse β} {a : α} {b : β} {ts mid rest : List Token} {ms ms' : List Mark}

theorem Runs.trans {o : Parse α} {rs rs' : List Report} (h : Runs p ts q mid rs) (h' : Runs q mid o rest rs') :
    Runs p ts o rest (rs ++ rs') := by
  rw [Runs, h, h', List.append_assoc]

theorem Runs.bind {rs : List Report} (h : Runs p ts q rest rs) (f : α → Parse β) :
    Runs (p >>= f) ts (q >>= f) rest rs := by
  rw [Runs, run_bind, run_bind, h]
  cases q rest with
  | mk rs' o => cases o <;> simp

theorem Runs.map {rs : List Report} (h : Runs p ts q rest rs) (f : α → β) : Runs (f <$> p) ts (f <$> q) rest rs :=
  h.bind _

/-- What is gone on with ends with a value. -/
theorem Runs.value {rs rs' : List Report} (h : Runs p ts q mid rs) (hq : q mid = ⟨rs', .value a rest⟩) :
    p ts = ⟨rs ++ rs', .value a rest⟩ := by
  rw [h, hq]

theorem run_map {rs : List Report} (f : α → β) (h : p ts = ⟨rs, .value a rest⟩) :
    (f <$> p) ts = ⟨rs, .value (f a) rest⟩ := by
  show (p >>= _) ts = _
  rw [run_bind, h]
  show Parsed.mk (rs ++ []) (.value (f a) rest) = _
  rw [List.append_nil]

theorem Steps.of_eq (h : p ts = q rest) : Steps p ts q rest [] := ⟨[], .nil, h⟩

theorem Steps.trans {o : Parse α} (h : Steps p ts q mid ms) (h' : Steps q mid o rest ms') :
    Steps p ts o rest (ms ++ ms') := by
  obtain ⟨rs, hm, h⟩ := h
  obtain ⟨rs', hm', h'⟩ := h'
  exact ⟨rs ++ rs', hm.append hm', h.trans h'⟩

/-- Without marks nothing was reported. -/
theorem Steps.runs (h : Steps p ts q rest []) : Runs p ts q rest [] := by
  obtain ⟨rs, hm, h⟩ := h
  obtain rfl := hm.eq_nil_iff.2 rfl
  exact h

theorem Reads.run (h : Reads p ts a rest []) : p ts = ⟨[], .value a rest⟩ := by
  obtain ⟨rs, hm, h⟩ := h
  obtain rfl := hm.eq_nil_iff.2 rfl
  exact h

theorem Steps.reads (h : Steps p ts q mid ms) (h' : Reads q mid a rest ms') : Reads p ts a rest (ms ++ ms') := by
  obtain ⟨rs, hm, h⟩ := h
  obtain ⟨rs', hm', h'⟩ := h'
  exact ⟨rs ++ rs', hm.append hm', by rw [show p ts = _ from h, h']⟩

/-- A step before which nothing was reported. -/
theorem Steps.then_reads (h : Steps p ts q mid []) (h' : Reads q mid a rest ms) : Reads p ts a rest ms := h.reads h'

theorem Steps.last (h : Steps p ts q mid ms) (h' : Reads q mid a rest []) : Reads p ts a rest ms := by
  simpa using h.reads h'

/-- A step after which nothing was reported. -/
theorem Steps.trans_last {o : Parse α} (h : Steps p ts q mid ms) (h' : Steps q mid o rest []) :
    Steps p ts o rest ms := by
  simpa using h.trans h'

theorem Steps.bind (h : Steps p ts q rest ms) (f : α → Parse β) : Steps (p >>= f) ts (q >>= f) rest ms := by
  obtain ⟨rs, hm, h⟩ := h
  exact ⟨rs, hm, h.bind f⟩

theorem Steps.map (h : Steps p ts q rest ms) (f : α → β) : Steps (f <$> p) ts (f <$> q) rest ms := h.bind _

/-! ## Values -/

theorem Reads.pure (a : α) (ts : List Token) : Reads (Parse.pure a) ts a ts [] := ⟨[], .nil, rfl⟩

theorem Reads.steps (h : Reads p ts a mid ms) (f : α → Parse β) : Steps (p >>= f) ts (f a) mid ms := by
  obtain ⟨rs, hm, h⟩ := h
  exact ⟨rs, hm, by rw [Runs, run_bind, h]⟩

theorem Reads.toSteps (h : Reads p ts a rest ms) : Steps p ts (Parse.pure a) rest ms := by
  obtain ⟨rs, hm, h⟩ := h
  exact ⟨rs, hm, by rw [Runs, h, Parse.pure, List.append_nil]⟩

theorem Reads.bind (h : Reads p ts a mid ms) (h' : Reads (f a) mid b rest ms') :
    Reads (p >>= f) ts b rest (ms ++ ms') :=
  (h.steps f).reads h'

/-- The first part reported nothing. -/
theorem Reads.then_bind (h : Reads p ts a mid []) (h' : Reads (f a) mid b rest ms) : Reads (p >>= f) ts b rest ms :=
  h.bind h'

/-- The second part reported nothing. -/
theorem Reads.bind_last (h : Reads p ts a mid ms) (h' : Reads (f a) mid b rest []) : Reads (p >>= f) ts b rest ms :=
  (h.steps f).last h'

theorem Reads.map (h : Reads p ts a rest ms) (f : α → β) : Reads (f <$> p) ts (f a) rest ms :=
  h.bind_last (Reads.pure (f a) rest)

/-! ## Single tokens -/

theorem Reads.here (ts : List Token) : Reads here ts ts ts [] := ⟨[], .nil, rfl⟩

theorem Reads.expect {k : TokenKind} (t : Grammar.Terminal k) (e : SyntaxError) (ts : List Token) :
    Reads (expect k e) (t.1 :: ts) t.1 ts [] := by
  refine ⟨[], .nil, ?_⟩
  rw [Parse.expect, if_pos t.2]

theorem Reads.nextIs (p : TokenKind → Bool) (ts : List Token) :
    Reads (nextIs p) ts (ts.head?.any (p ·.kind)) ts [] :=
  ⟨[], .nil, rfl⟩

theorem Reads.report {e : SyntaxError} (he : e.isSoft = true) {place : List Token} {t : Token}
    (h : place.head? = some t) (ts : List Token) : Reads (report e place) ts () ts [(e, t)] :=
  ⟨[⟨e, place⟩], .cons ⟨rfl, h, he⟩ .nil, rfl⟩

variable {rule : Token → Option (Parse α)} {k : TokenKind → Bool} {g : Token → Parse α} {t : Token}

theorem Steps.dispatch (h : rule t = some p) (ts : List Token) : Steps (dispatch rule q) (t :: ts) p ts [] := by
  refine .of_eq ?_
  simp only [Parse.dispatch, h]

theorem Steps.dispatch_none (h : ∀ t ∈ ts.head?, rule t = none) : Steps (Parse.dispatch rule q) ts q ts [] := by
  refine .of_eq ?_
  cases ts with
  | nil => rfl
  | cons t ts =>
    have ht := h t rfl
    simp only [Parse.dispatch, ht]

theorem Steps.whenNext (h : k t.kind = true) (ts : List Token) : Steps (whenNext k g q) (t :: ts) (g t) ts [] :=
  .dispatch (if_pos h) ts

theorem Steps.whenNext_none (h : ∀ t ∈ ts.head?, k t.kind = false) : Steps (Parse.whenNext k g q) ts q ts [] :=
  .dispatch_none fun t ht => if_neg (by simp [h t ht])

end LoxSyntax.Parse
