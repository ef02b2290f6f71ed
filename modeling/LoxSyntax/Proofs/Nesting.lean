/-
  LoxSyntax.Proofs.Nesting — a bound on the nesting only ever refuses.

  The depth is counted down and never looked at otherwise. So a reading that was not given
  up is the same reading with any greater depth, and a program that is not refused is read
  as it would be without a bound; of one that is refused, the first problems are reported.
  A level is opened by a token, so nothing is given up in front of fewer of these tokens
  than levels are followed.

  - `deepened_levels`: two readings of different depths, side by side.
  - `gaveUp_or_deep`: a reading is given up, or it is one of enough depth.
  - `TokenList.parseWithin_of_within`: what is not refused is read as if there were no bound.
  - `TokenList.within_of_levels`: what opens few levels is not refused.
  - `Stack.parses_of_levels`: nor is a source that does.
-/

import LoxSyntax.Proofs.LexicalGrammar
import LoxSyntax.Proofs.Reading.OrderlyReaders
import LoxSyntax.Proofs.RenamedTokens
import LoxSyntax.Stack

namespace LoxSyntax

open Lexical Parse

@[simp] theorem Report.rename_id (r : Report) : r.rename .id = r := by simp [Report.rename]

theorem Report.map_rename_id (rs : List Report) : rs.map (Report.rename .id) = rs := by
  simp [funext Report.rename_id]

/-- A renaming that changes no value changes nothing. -/
theorem Parsed.rename_id {g : α → α} (hg : ∀ a, g a = a) (P : Parsed α) : P.rename .id g = P := by
  obtain ⟨rs, o⟩ := P
  cases o <;> simp [Parsed.rename, Outcome.rename, Report.map_rename_id, hg]

namespace Parse

/-! ## Two depths -/

/-- The second reading is the first one, or that was given up behind the first reports of
    the second. -/
inductive Deepens (g : α → β) : Parsed α → Parsed β → Prop where
  | same {P : Parsed α} (h : ¬P.GaveUp) : Deepens g P (P.rename .id g)
  | further {rs : List Report} {rest : List Token} {P : Parsed β} (h : rs <+: P.reports) :
      Deepens g ⟨rs, .tooDeep rest⟩ P

theorem Deepens.after {g : α → β} {P : Parsed α} {P' : Parsed β} (h : Deepens g P P') (rs : List Report) :
    Deepens g ⟨rs ++ P.reports, P.outcome⟩ ⟨rs.map (Report.rename .id) ++ P'.reports, P'.outcome⟩ := by
  cases h with
  | same h =>
    have hs := Deepens.same (g := g) (P := ⟨rs ++ P.reports, P.outcome⟩) h
    rwa [Parsed.rename, List.map_append] at hs
  | further h =>
    rw [Report.map_rename_id]
    exact .further ((List.prefix_append_right_inj rs).2 h)

theorem Deepens.andThen {α β α' β' : Type} {g : α → α'} {h : β → β'} {P : Parsed α} {P' : Parsed α'}
    {q : α → List Token → Parsed β} {q' : α' → List Token → Parsed β'} (hP : Deepens g P P')
    (hq : ∀ a ts, Deepens h (q a ts) (q' (g a) (ts.map Renaming.id))) : Deepens h (P.andThen q) (P'.andThen q') := by
  cases hP with
  | further hp => exact .further (hp.trans (reports_andThen P' q'))
  | same hne =>
    obtain ⟨rs, o⟩ := P
    cases o with
    | value a rest => exact (hq a rest).after rs
    | abandoned rest => exact .same (P := ⟨rs, .abandoned rest⟩) fun ⟨_, ho⟩ => by cases ho
    | tooDeep rest => exact absurd ⟨rest, rfl⟩ hne

/-- The second reading has the greater depth. -/
def deepened : Pairing .id where
  Pairs := Deepens
  value g a ts := .same (P := ⟨[], .value a ts⟩) fun ⟨_, ho⟩ => by cases ho
  abandoned g e _ ts := .same (P := ⟨[⟨e, ts⟩], .abandoned ts⟩) fun ⟨_, ho⟩ => by cases ho
  soft {e} _ place ts := .same (P := ⟨[⟨e, place⟩], .value () ts⟩) fun ⟨_, ho⟩ => by cases ho
  tooDeep _ _ := .further (List.prefix_refl [])
  andThen := Deepens.andThen

theorem deepened_tooDeep {g : α → β} {p : Parse β} : deepened.Paired g Parse.tooDeep p :=
  fun _ => .further List.nil_prefix

theorem deepened_unary {inner inner' : Parse Expr} (h : deepened.Paired (Expr.rename .id) inner inner') :
    ∀ {depth depth' : Nat}, depth ≤ depth' →
      deepened.Paired (Expr.rename .id) (unary inner depth) (unary inner' depth')
  | 0, _, _ => deepened_tooDeep
  | _ + 1, _ + 1, hd => by
    refine paired_whenNext ?_ (paired_call h)
    intro operator
    exact paired_bind (deepened_unary h (Nat.le_of_succ_le_succ hd)) fun _ => paired_pure rfl

theorem deepened_expression : ∀ {depth depth' : Nat}, depth ≤ depth' →
    deepened.Paired (Expr.rename .id) (expression depth) (expression depth')
  | 0, _, _ => deepened_tooDeep
  | _ + 1, _ + 1, hd =>
    have h := deepened_expression (Nat.le_of_succ_le_succ hd)
    paired_assignment h (deepened_unary h hd)

/-- Recovery is not from a nesting that is too deep. -/
theorem deepened_recover {p p' : Parse Stmt} (h : deepened.Paired (Stmt.rename .id) p p') :
    deepened.Paired (Option.map (Stmt.rename .id)) (recover p) (recover p') := by
  intro ts
  have h : Deepens _ (p ts) (p' (ts.map Renaming.id)) := h ts
  rw [recover_eq, recover_eq]
  generalize p ts = P at h
  generalize p' (ts.map Renaming.id) = P' at h
  cases h with
  | further hp => exact .further hp
  | same hne =>
    have hr : ¬(⟨P.reports, recovered P.outcome⟩ : Parsed (Option Stmt)).GaveUp := by
      rintro ⟨rest, ho⟩
      refine hne ⟨rest, ?_⟩
      cases hP : P.outcome with
      | tooDeep rest' =>
        rw [hP] at ho
        cases ho
        rfl
      | value a rest' | abandoned rest' =>
        rw [hP] at ho
        cases ho
    have hs := Deepens.same (g := Option.map (Stmt.rename .id)) hr
    rw [Parsed.rename, ← recovered_rename] at hs
    exact hs

theorem deepened_levels : ∀ {depth depth' : Nat}, depth ≤ depth' →
    deepened.Paired (Stmt.rename .id) (statement depth) (statement depth') ∧
      deepened.Paired (Option.map (Stmt.rename .id)) (declaration depth) (declaration depth')
  | 0, _, _ => ⟨deepened_tooDeep, deepened_tooDeep⟩
  | depth + 1, depth' + 1, hd => by
    obtain ⟨hs, hdecl⟩ := deepened_levels (Nat.le_of_succ_le_succ hd)
    have h : PairedInner deepened ⟨expression (depth + 1), statement depth, declaration depth⟩
        ⟨expression (depth' + 1), statement depth', declaration depth'⟩ := ⟨deepened_expression hd, hs, hdecl⟩
    rw [statement, statement, declaration, declaration]
    exact ⟨paired_statementForm h, deepened_recover (paired_declarationForm h)⟩

theorem deepened_block {depth depth' : Nat} (hd : depth ≤ depth') :
    deepened.Paired (List.map (Stmt.rename .id)) (block (innerAt depth)) (block (innerAt depth')) :=
  paired_block ⟨deepened_expression hd, (deepened_levels hd).1, (deepened_levels hd).2⟩

theorem deepened_program {depth depth' : Nat} (hd : depth ≤ depth') :
    deepened.Paired (List.map (Stmt.rename .id)) (program depth) (program depth') :=
  paired_bind paired_here fun ts => paired_repeatUntil (paired_toList (deepened_levels hd).2) ts

/-- What one depth reads, each greater one reads too. -/
theorem eq_of_deepened {g : α → α} (hg : ∀ a, g a = a) {p p' : Parse α} (h : deepened.Paired g p p') {ts : List Token}
    (hne : ¬(p ts).GaveUp) : p' ts = p ts := by
  have h : Deepens g (p ts) (p' (ts.map Renaming.id)) := h ts
  rw [show ts.map Renaming.id = ts from List.map_id _] at h
  generalize p ts = P at h hne
  generalize p' ts = P' at h
  cases h with
  | same _ => exact P.rename_id hg
  | further _ => exact absurd ⟨_, rfl⟩ hne

/-- Reports of a reading that is given up are the first ones of any deeper reading. -/
theorem reports_of_deepened {g : α → α} (hg : ∀ a, g a = a) {p p' : Parse α} (h : deepened.Paired g p p')
    (ts : List Token) : (p ts).reports <+: (p' ts).reports := by
  have h : Deepens g (p ts) (p' (ts.map Renaming.id)) := h ts
  rw [show ts.map Renaming.id = ts from List.map_id _] at h
  generalize p ts = P at h
  generalize p' ts = P' at h
  cases h with
  | same _ =>
    have hP : P.rename .id g = P := P.rename_id hg
    exact hP.symm ▸ List.prefix_refl P.reports
  | further hp => exact hp

/-- A reading is given up, or it is one of enough depth for all of its tokens. -/
theorem gaveUp_or_deep {g : α → α} (hg : ∀ a, g a = a) {p : Nat → Parse α}
    (h : ∀ {depth depth' : Nat}, depth ≤ depth' → deepened.Paired g (p depth) (p depth')) (depth : Nat)
    (ts : List Token) :
    (p depth ts).GaveUp ∨ ∃ depth', ts.length < depth' ∧ p depth' ts = p depth ts := by
  by_cases hne : (p depth ts).GaveUp
  · exact .inl hne
  · refine .inr ⟨max depth (ts.length + 1), ?_, eq_of_deepened hg (h (Nat.le_max_left _ _)) hne⟩
    exact Nat.lt_of_lt_of_le (Nat.lt_succ_self _) (Nat.le_max_right _ _)

theorem map_stmt_rename_id (ss : List Stmt) : ss.map (Stmt.rename .id) = ss := by
  rw [← renameStmts_eq_map, renameStmts_id]

theorem option_stmt_rename_id (o : Option Stmt) : o.map (Stmt.rename .id) = o := by
  cases o <;> simp

/-- What is given up has as many tokens in front of it that open a level as are followed. -/
theorem levels_of_gaveUp {all ts : List Token} {n k : Nat} {P : Parsed α} (h : Onward all n k ts P) (hP : P.GaveUp) :
    n ≤ levels ts := by
  obtain ⟨rest, ho⟩ := hP
  cases h with
  | value _ _ | abandoned _ _ => cases ho
  | tooDeep _ _ hn => exact hn

end Parse

/-! ## Programs -/

namespace TokenList

variable {l : TokenList} {depth depth' : Nat}

/-- The program is nested no more deeply than `depth` levels. -/
def Within (depth : Nat) (l : TokenList) : Prop := ¬(l.parseWithin depth).GaveUp

/-- A greater depth changes nothing for what is not refused. -/
theorem parseWithin_of_le (h : l.Within depth) (hd : depth ≤ depth') : l.parseWithin depth' = l.parseWithin depth :=
  eq_of_deepened map_stmt_rename_id (deepened_program hd) h

/-- What opens few levels is not refused. -/
theorem within_of_levels (h : levels l.body < depth) : l.Within depth := by
  intro hg
  exact Nat.not_le_of_lt h (levels_of_gaveUp (orderly_program depth l.body (List.suffix_refl _)) hg)

/-- A program is nested less deeply than it is long. -/
theorem within_of_length (h : l.body.length < depth) : l.Within depth :=
  within_of_levels (Nat.lt_of_le_of_lt List.countP_le_length h)

/-- What is not refused is read as if there were no bound. -/
theorem parseWithin_of_within (h : l.Within depth) : l.parseWithin depth = l.parseWithin (l.body.length + 1) := by
  have hlen := l.body.length.lt_succ_self
  rcases Nat.le_total depth (l.body.length + 1) with hd | hd
  · exact (parseWithin_of_le h hd).symm
  · exact parseWithin_of_le (within_of_length hlen) hd

/-- Whether it is refused or not, its first problems are reported. -/
theorem reports_parseWithin (l : TokenList) (depth : Nat) :
    (l.parseWithin depth).reports <+: (l.parseWithin (l.body.length + 1)).reports := by
  rcases Nat.le_total depth (l.body.length + 1) with hd | hd
  · exact reports_of_deepened map_stmt_rename_id (deepened_program hd) l.body
  · exact parseWithin_of_le (within_of_length (Nat.lt_succ_self _)) hd ▸ List.prefix_refl _

end TokenList

/-! ## Sources -/

/-- The tokens of a source are a program and its end of file. -/
theorem exists_sourceTokens (source : String) : ∃ l : TokenList,
    TokenList.ofTokens? (scan source).tokens = .ok l ∧ (scan source).tokens = l.body ++ [l.eof] := by
  obtain ⟨ss, hs⟩ := exists_splits _ (Nat.le_refl source.toList.length)
  have hb : ∀ t ∈ Lexical.tokens .start ss, t.isEof = false := fun t ht => beq_eq_false_iff_ne.2 (kind_ne_eof hs t ht)
  have he : TokenList.ofTokens? [eofToken .start ss] = .ok ⟨[], eofToken .start ss⟩ := rfl
  have hl := TokenList.ofTokens?_append hb he
  rw [List.append_nil] at hl
  rw [scan_eq hs]
  exact ⟨_, hl, rfl⟩

/-- The source is nested no more deeply than the stack follows when it is parsed. -/
def Stack.Parses (k : Stack) (source : String) : Prop :=
  ∀ l, TokenList.ofTokens? (scan source).tokens = .ok l → l.Within (k.parsing (scan source).tokens)

/-- It is if few of its tokens open a level. -/
theorem Stack.parses_of_levels {k : Stack} {source : String}
    (h : levels (scan source).tokens < k.parsing (scan source).tokens) : k.Parses source := by
  intro l hl
  obtain ⟨l', hl', htokens⟩ := exists_sourceTokens source
  cases hl.symm.trans hl'
  refine TokenList.within_of_levels (Nat.lt_of_le_of_lt ?_ h)
  rw [htokens]
  exact (List.sublist_append_left _ _).countP_le

end LoxSyntax
