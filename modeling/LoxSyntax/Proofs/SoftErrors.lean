/-
  LoxSyntax.Proofs.SoftErrors — a soft error costs a diagnostic and nothing else.

  A declaration is abandoned somewhere exactly when a reading that does not recover is
  abandoned: both readings are the same up to there. What abandons is an error that is not
  soft. So no declaration is abandoned exactly when the tokens are derived by the relaxed
  grammar, where any expression may stand in front of an equals sign and lists may be of
  any length; then the whole tree is built, and the marks of the derivation are reported.

  - `TokenList.abandons_iff`: a declaration is abandoned when an error is not soft.
  - `parseTokens_softErrors`: what is read, and reported, when no declaration is abandoned.
-/

import LoxSyntax.Proofs.Acceptance
import LoxSyntax.Proofs.Reading.PairedReaders
import LoxSyntax.Proofs.Reading.Steady

namespace LoxSyntax

open Grammar Parse

/-! ## Reading without recovery -/

/-- An abandoned declaration abandons what is around it. -/
def uncaught : Handler := fun p => some <$> p

/-- Some declaration is abandoned, in the program or inside another. -/
def TokenList.Abandons (l : TokenList) : Prop :=
  ∃ rest, (programBy uncaught (l.body.length + 1) l.body).outcome = .abandoned rest

/-- A reading without recovery, and one that recovers: the same, or the first was
    abandoned and the second reported an error that is not soft. -/
inductive Caught (g : α → β) : Parsed α → Parsed β → Prop where
  | value {rs rs' : List Report} (a : α) (rest : List Token) (h : ∀ r ∈ rs', r.error.isSoft = true) :
      Caught g ⟨rs, .value a rest⟩ ⟨rs', .value (g a) (rest.map Renaming.id)⟩
  | tooDeep {rs rs' : List Report} (rest : List Token) (h : ∀ r ∈ rs', r.error.isSoft = true) :
      Caught g ⟨rs, .tooDeep rest⟩ ⟨rs', .tooDeep (rest.map Renaming.id)⟩
  | abandoned {rs rs' : List Report} {rest : List Token} {o : Outcome β} (h : ∃ r ∈ rs', r.error.isSoft = false) :
      Caught g ⟨rs, .abandoned rest⟩ ⟨rs', o⟩

theorem Caught.after {g : α → β} {P : Parsed α} {P' : Parsed β} {rs rs' : List Report} (h : Caught g P P')
    (hs : ∀ r ∈ rs', r.error.isSoft = true) :
    Caught g ⟨rs ++ P.reports, P.outcome⟩ ⟨rs' ++ P'.reports, P'.outcome⟩ := by
  cases h with
  | value a rest h => exact .value a rest (List.forall_mem_append.2 ⟨hs, h⟩)
  | tooDeep rest h => exact .tooDeep rest (List.forall_mem_append.2 ⟨hs, h⟩)
  | abandoned h =>
    obtain ⟨r, hr, he⟩ := h
    exact .abandoned ⟨r, List.mem_append_right _ hr, he⟩

theorem Caught.andThen {α β α' β' : Type} {g : α → α'} {h : β → β'} {P : Parsed α} {P' : Parsed α'}
    {q : α → List Token → Parsed β} {q' : α' → List Token → Parsed β'} (hP : Caught g P P')
    (hq : ∀ a ts, Caught h (q a ts) (q' (g a) (ts.map Renaming.id))) : Caught h (P.andThen q) (P'.andThen q') := by
  cases hP with
  | value a rest hs => exact (hq a rest).after hs
  | tooDeep rest hs => exact .tooDeep rest hs
  | @abandoned rs rs' rest o hr =>
    obtain ⟨r, hr, he⟩ := hr
    exact .abandoned ⟨r, (reports_andThen ⟨rs', o⟩ q').subset hr, he⟩

/-- The second reading recovers. -/
def caught : Pairing .id where
  Pairs := Caught
  value _ a ts := .value a ts (by simp)
  abandoned _ _ he _ := .abandoned ⟨_, List.mem_singleton_self _, he⟩
  soft he _ ts := .value () ts (by simpa using he)
  tooDeep _ ts := .tooDeep ts (by simp)
  andThen := Caught.andThen

theorem handles_uncaught : caught.Handles uncaught recover := by
  intro p p' h ts
  have h : Caught (Stmt.rename .id) (p ts) (p' (ts.map Renaming.id)) := h ts
  show Caught (Option.map (Stmt.rename .id)) ((p ts).andThen fun s => Parse.pure (some s))
    (recover p' (ts.map Renaming.id))
  rw [recover_eq]
  generalize p ts = P at h
  generalize p' (ts.map Renaming.id) = P' at h
  cases h with
  | value a rest hs => exact .value (some a) rest hs
  | tooDeep rest hs => exact .tooDeep rest hs
  | abandoned hr => exact .abandoned hr

/-! ## What abandons a declaration -/

namespace TokenList

/-- A declaration is abandoned when an error is not soft. -/
theorem abandons_iff (l : TokenList) : l.Abandons ↔
    ∃ r ∈ (l.parseWithin (l.body.length + 1)).reports, r.error.isSoft = false := by
  have h := paired_programBy handles_uncaught (l.body.length + 1) l.body
  rw [programBy_recover, show l.body.map Renaming.id = l.body from List.map_id _] at h
  have h : Caught _ (programBy uncaught (l.body.length + 1) l.body) (l.parseWithin (l.body.length + 1)) := h
  rw [Abandons]
  generalize programBy uncaught (l.body.length + 1) l.body = P at h
  generalize l.parseWithin (l.body.length + 1) = P' at h
  have hsoft : ∀ rs : List Report, (∀ r ∈ rs, r.error.isSoft = true) → ¬∃ r ∈ rs, r.error.isSoft = false := by
    intro rs hs hhard
    obtain ⟨r, hr, he⟩ := hhard
    rw [hs r hr] at he
    cases he
  cases h with
  | value a rest hs => exact iff_of_false (by simp) (hsoft _ hs)
  | tooDeep rest hs => exact iff_of_false (by simp) (hsoft _ hs)
  | abandoned hr => exact iff_of_true ⟨_, rfl⟩ hr

/-- No declaration is abandoned exactly when the relaxed grammar derives the program. -/
theorem not_abandons_iff (l : TokenList) : ¬l.Abandons ↔ ∃ d : Clause .program, d.word = l.body := by
  rw [abandons_iff]
  constructor
  · intro h
    have hp := meets_program (Nat.lt_succ_self l.body.length)
    rw [parseWithin] at h
    generalize Parse.program (l.body.length + 1) l.body = P at h hp
    cases hp with
    | read hb _ hl he =>
      obtain ⟨d, rfl, -⟩ := hl
      exact ⟨d, by rw [hb, he, List.append_nil]⟩
    | broken _ _ he _ _ => exact absurd ⟨_, List.mem_append_right _ List.mem_cons_self, he⟩ h
  · intro hd hhard
    obtain ⟨d, hw⟩ := hd
    obtain ⟨r, hr, he⟩ := hhard
    have hm := (parse_of_derivation (by rw [d.word_nearest, hw]) d.nearestElse_nearest).2
    rw [hm.isSoft r hr] at he
    cases he

end TokenList

/-- No declaration is abandoned exactly when the relaxed grammar derives the tokens before
    the first end of file. Then the statements are the tree of the derivation in which each
    `else` belongs to the nearest `if`, and what is reported are the marks, whatever the
    derivation. -/
theorem parseTokens_softErrors (ts : List Token) (eof : Terminal .eof) :
    ∃ (l : TokenList) (p : Program), TokenList.ofTokens? (ts ++ [eof.1]) = .ok l ∧
      l.body = (ts ++ [eof.1]).takeWhile (!·.isEof) ∧ parseTokens (ts ++ [eof.1]) = .ok p ∧
      (¬l.Abandons ↔ ∃ d : Clause .program, d.word = l.body) ∧
      ∀ d : Clause .program, d.word = l.body →
        d.nearest.word = l.body ∧ d.nearest.NearestElse ∧ p.statements = d.nearest.tree ∧
          (d.NearestElse → p.statements = d.tree) ∧ l.blames = d.marks ∧
          p.diagnostics = d.marks.map Mark.diagnostic := by
  obtain ⟨l, more, hl, -, -⟩ := parseTokens_eof ts eof
  refine ⟨l, l.parse, hl, TokenList.body_eq_of_ofTokens? hl, parseTokens_of_ofTokens? hl, l.not_abandons_iff, ?_⟩
  intro d hw
  have hw' : d.nearest.word = l.body := by rw [d.word_nearest, hw]
  have hb := TokenList.blames_of_derivation hw
  refine ⟨hw', d.nearestElse_nearest, (TokenList.parse_of_derivation hw' d.nearestElse_nearest).1,
    fun hn => (TokenList.parse_of_derivation hw hn).1, hb, ?_⟩
  rw [l.diagnostics_parse, hb]

end LoxSyntax
