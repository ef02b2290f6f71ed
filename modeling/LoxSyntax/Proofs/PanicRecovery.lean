/-
  LoxSyntax.Proofs.PanicRecovery — a broken simple statement takes nothing else with it.

  The statement is abandoned at some token of it, its semicolon the last; skipping stops
  exactly behind the semicolon. What is reported and where it stops does not depend on
  what stands behind, nor on how many levels are followed.

  - `Simple.synchronize`: skipping stops behind the semicolon.
  - `Simple.skipped`: the reading of a broken simple statement in front of anything.
  - `panicRecovery`: the statements and the problems of a program with a broken statement
    in the middle, at the top and in a block.
-/

import LoxSyntax.Proofs.Acceptance
import LoxSyntax.Proofs.Grammar.SimpleStatement
import LoxSyntax.Proofs.Reading.LocalReaders

namespace LoxSyntax

open Grammar Parse

variable {J : List Token} {s : Terminal .semicolon}

/-! ## Skipping -/

theorem resume_semicolon (s : Terminal .semicolon) (more : List Token) : resume s.1 more = more := by
  cases more with
  | nil => rfl
  | cons t more => simp [resume, s.2]

theorem resume_later {before : Token} (hb : before.kind ≠ .semicolon)
    (hJ : ∀ t ∈ J, t.kind ≠ .semicolon ∧ t.kind.startsStatement = false) (s : Terminal .semicolon) (more : List Token) :
    resume before (J ++ s.1 :: more) = more := by
  induction J generalizing before with
  | nil => simp [resume, hb, s.2, TokenKind.startsStatement, resume_semicolon]
  | cons t J ih =>
    obtain ⟨ht, hJ⟩ := List.forall_mem_cons.1 hJ
    simp only [List.cons_append, resume, beq_eq_false_iff_ne.2 hb, ht.2, Bool.or_self, Bool.false_eq_true, if_false]
    exact ih ht.1 hJ

/-- From any token of the statement, skipping stops behind its semicolon. -/
theorem Grammar.Simple.synchronize (h : Simple J) {u place : List Token} (hp : J ++ [s.1] = u ++ place)
    (hne : place ≠ []) (more : List Token) : Parse.synchronize (place ++ more) = more := by
  obtain ⟨front, t, rfl⟩ : ∃ front t, place = front ++ [t] := ⟨_, _, (List.dropLast_append_getLast hne).symm⟩
  rw [← List.append_assoc] at hp
  obtain ⟨rfl, ht⟩ := List.append_inj' hp rfl
  obtain rfl : s.1 = t := by simpa using ht
  cases front with
  | nil => exact resume_semicolon s more
  | cons t front =>
    simp only [List.cons_append, List.append_assoc, List.nil_append, Parse.synchronize]
    have hlater : ∀ t' ∈ front, t'.kind ≠ .semicolon ∧ t'.kind.startsStatement = false := by
      intro t' ht'
      refine ⟨(h.plain t' (by simp [ht'])).2.1, h.later t' ?_⟩
      cases u <;> simp [ht']
    exact resume_later (h.plain t (by simp)).2.1 hlater s more

/-! ## A broken statement -/

/-- A simple statement that is not read is abandoned at one of its tokens. -/
theorem Grammar.Simple.abandoned (h : Simple J) {n : Nat} (hn : (J ++ [s.1]).length ≤ n)
    (hv : ∀ rs a rest, declarationForm (insideOf n) (J ++ [s.1]) ≠ ⟨rs, .value a rest⟩) :
    ∃ u place rs e, J ++ [s.1] = u ++ place ∧ place ≠ [] ∧ (∀ r ∈ rs, r.error.isSoft = true) ∧ e.isSoft = false ∧
      declarationForm (insideOf n) (J ++ [s.1]) = ⟨rs ++ [⟨e, place⟩], .abandoned place⟩ := by
  have hm := (recognizes_declarationForm (sound_insideOf n)).meets (J ++ [s.1]) (Nat.lt_succ_of_le hn)
  cases hP : declarationForm (insideOf n) (J ++ [s.1]) with
  | mk reports o =>
  rw [hP] at hm
  cases hm with
  | read => exact absurd hP (hv _ _ _)
  | @broken u v place a rs later ms e o hu hs he hl ho =>
    have hbrace : ¬∃ t ∈ u, t.kind = .leftBrace := by
      rintro ⟨t, ht, hk⟩
      have : t ∈ J ++ [s.1] := by rw [hu]; exact List.mem_append_left _ ht
      rcases List.mem_append.1 this with hJ | hs
      · exact (h.plain t hJ).2.2.1 hk
      · obtain rfl := List.mem_singleton.1 hs
        rw [s.2] at hk
        cases hk
    obtain ⟨rfl, rfl⟩ := ho.resolve_right (by simpa using hbrace)
    refine ⟨u, place, rs, e, hu, ?_, hs, he, rfl⟩
    intro hplace
    -- a declaration that begins with the whole statement is the statement, and that would be read
    obtain ⟨d, hw, -⟩ := hl
    subst hplace
    rw [List.append_nil] at hu
    obtain rfl : v = [] := h.declaration_ends (s := s) d (by rw [hw, ← hu, List.append_assoc]; rfl)
    rw [List.append_nil] at hw
    have hd : d.nearest.word ++ [] = J ++ [s.1] := by rw [d.word_nearest, hw, hu, List.append_nil]
    have hr : d.nearest.Read n [] :=
      d.nearest.reads (by rw [hd]; exact hn) d.nearestElse_nearest fun _ => by simp [NoElse]
    obtain ⟨rs', -, hr⟩ := hr
    rw [hd] at hr
    exact hv _ _ _ hr

/-- It is abandoned at the same token, with the same reports, in front of anything. -/
theorem abandoned_before {place : List Token} {rs : List Report} {n : Nat} (hn : (J ++ [s.1]).length ≤ n)
    (hne : place ≠ []) (hP : declarationForm (insideOf n) (J ++ [s.1]) = ⟨rs, .abandoned place⟩) (more : List Token)
    {n' : Nat} (hn' : (J ++ s.1 :: more).length ≤ n') : ∃ rs',
      declarationForm (insideOf n') (J ++ s.1 :: more) = ⟨rs', .abandoned (place ++ more)⟩ ∧
      SameReports [] more rs rs' := by
  have ha : Alike [] more (J.length + 2) (declarationForm (insideOf n)) (declarationForm (insideOf n')) :=
    alike_declarationForm (alike_inner (by simpa using hn) (by simp at hn' ⊢; omega))
  have ht := ha.at (x := J ++ [s.1]) (by simp)
  rw [List.append_nil, hP, List.append_assoc, List.singleton_append] at ht
  cases hP' : declarationForm (insideOf n') (J ++ s.1 :: more) with
  | mk rs' o =>
  rw [hP'] at ht
  generalize ho : (Outcome.abandoned place : Outcome Stmt) = outcome at ht
  cases ht with
  | value => cases ho
  | abandoned x hsame =>
    cases ho
    exact ⟨rs', by rw [List.append_nil], hsame⟩
  | apart _ _ hpast _ =>
    have := hpast place (by rw [← ho]; rfl)
    exact absurd (List.length_eq_zero_iff.1 (Nat.le_zero.1 this)) hne

/-- In front of anything the statement gives no value and the same problems, and what is left
    is what stands behind it. -/
def Skipped (J : List Token) (s : Terminal .semicolon) (rs : List Report) : Prop :=
  ∀ (more : List Token) (n : Nat), (J ++ s.1 :: more).length ≤ n → ∃ rs',
    Parse.declaration (n + 1) (J ++ s.1 :: more) = ⟨rs', .value none more⟩ ∧
    ∀ eof eof', rs'.map (·.diagnostic eof') = rs.map (·.diagnostic eof)

theorem Grammar.Simple.skipped (h : Simple J) {place : List Token} {rs : List Report} {n : Nat}
    (hn : (J ++ [s.1]).length ≤ n) {u : List Token} (hu : J ++ [s.1] = u ++ place) (hne : place ≠ [])
    (hP : declarationForm (insideOf n) (J ++ [s.1]) = ⟨rs, .abandoned place⟩) : Skipped J s rs := by
  intro more n' hn'
  have hplaces : ∀ r ∈ rs, r.place ≠ [] := by
    obtain ⟨rs', -, hsame⟩ := abandoned_before hn hne hP [s.1] (Nat.le_refl _)
    exact hsame.place_ne (by simp)
  obtain ⟨rs', hP', hsame⟩ := abandoned_before hn hne hP more hn'
  refine ⟨rs', ?_, hsame.diagnostics_eq hplaces⟩
  show recover (declarationForm (insideOf n')) _ = _
  rw [recover_eq, hP', recovered, h.synchronize hu hne more]

/-! ## Programs around a broken statement -/

theorem Grammar.Simple.noElse (h : Simple J) (more : List Token) : NoElse (J ++ s.1 :: more) := by
  intro t ht
  cases J with
  | nil =>
    obtain rfl : s.1 = t := by simpa using ht
    rw [s.2]
    decide
  | cons t' J =>
    obtain rfl : t' = t := by simpa using ht
    exact (h.first t' rfl).1

theorem Grammar.Simple.ne_eof (h : Simple J) : ∀ t ∈ J ++ [s.1], t.kind ≠ .eof := by
  intro t ht
  rcases List.mem_append.1 ht with ht | ht
  · exact (h.plain t ht).1
  · rw [List.mem_singleton.1 ht, s.2]
    decide

theorem Grammar.Simple.not_stop (h : Simple J) : ∀ t ∈ J ++ [s.1], (t.kind == .rightBrace) = false := by
  intro t ht
  rcases List.mem_append.1 ht with ht | ht
  · exact beq_eq_false_iff_ne.2 (h.plain t ht).2.2.2
  · rw [List.mem_singleton.1 ht, s.2]
    rfl

section Around

variable {P Q : Clause .program} {rs : List Report} {more : List Token} {n : Nat}

/-- A loop over declarations goes on behind the statement. -/
theorem runs_skipped (stop : TokenKind → Bool) (hstop : ∀ t ∈ J ++ [s.1], stop t.kind = false) {depth : Nat}
    (hd : Parse.declaration depth (J ++ s.1 :: more) = ⟨rs, .value none more⟩) {bound : List Token}
    (hb : (J ++ s.1 :: more).length ≤ bound.length) : ∃ bound' : List Token, more.length ≤ bound'.length ∧
      Runs (repeatUntil stop (Option.toList <$> Parse.declaration depth) bound) (J ++ s.1 :: more)
        (repeatUntil stop (Option.toList <$> Parse.declaration depth) bound') more rs := by
  have hr := run_map Option.toList hd
  cases bound with
  | nil => simp at hb
  | cons b bound =>
    refine ⟨bound, by simp at hb; omega, ?_⟩
    obtain ⟨t, w, hw, ht⟩ : ∃ t w, J ++ s.1 :: more = t :: w ∧ stop t.kind = false := by
      cases J with
      | nil => exact ⟨s.1, more, rfl, hstop s.1 (by simp)⟩
      | cons t J => exact ⟨t, _, rfl, hstop t (by simp)⟩
    rw [hw] at hr ⊢
    have h := runs_repeatUntil ht b bound hr
    rwa [map_id' (f := fun xs => Option.toList (none : Option Stmt) ++ xs) fun _ => rfl] at h

/-- A loop over declarations goes on behind what is in front of the statement, and behind it. -/
theorem runs_around (stop : TokenKind → Bool) (hn : P.NearestElse) (hm : P.marks = []) (h : Simple J)
    (hstart : ∀ k, startsDeclaration k = true → stop k = false) (hstop : ∀ t ∈ J ++ [s.1], stop t.kind = false)
    (hl : (P.word ++ (J ++ s.1 :: more)).length ≤ n)
    (hd : Parse.declaration (n + 1) (J ++ s.1 :: more) = ⟨rs, .value none more⟩) :
    ∃ bound : List Token, more.length ≤ bound.length ∧
      Runs (repeatUntil stop (Option.toList <$> Parse.declaration (n + 1)) (P.word ++ (J ++ s.1 :: more)))
        (P.word ++ (J ++ s.1 :: more))
        ((P.tree ++ ·) <$> repeatUntil stop (Option.toList <$> Parse.declaration (n + 1)) bound) more rs := by
  obtain ⟨bound, hb, h1⟩ := P.reads hl hn (h.noElse more) stop _ hstart (Nat.le_refl _)
  obtain ⟨bound', hb', h2⟩ := runs_skipped stop hstop hd hb
  rw [hm] at h1
  exact ⟨bound', hb', h1.runs.trans (h2.map _)⟩

theorem program_around (hn : P.NearestElse) (hm : P.marks = []) (h : Simple J)
    (hl : (P.word ++ (J ++ s.1 :: more)).length ≤ n)
    (hd : Parse.declaration (n + 1) (J ++ s.1 :: more) = ⟨rs, .value none more⟩) {rs' : List Report}
    {statements : List Stmt} (hq : Parse.program (more.length + 1) more = ⟨rs', .value statements []⟩) :
    Parse.program (n + 1) (P.word ++ (J ++ s.1 :: more)) = ⟨rs ++ rs', .value (P.tree ++ statements) []⟩ := by
  obtain ⟨bound, hb, h1⟩ := runs_around (fun _ => false) hn hm h (fun _ _ => rfl) (fun _ _ => rfl) hl hd
  have h2 := declarations_eq_program (n := n + 1) (by simp at hl ⊢; omega) hb
  exact h1.value (run_map (P.tree ++ ·) (h2.trans hq))

theorem run_block {inner : Inner} {ts rest : List Token} {body : List Stmt} (closing : Terminal .rightBrace)
    (h : repeatUntil (· == .rightBrace) (Option.toList <$> inner.declaration) ts ts =
      ⟨rs, .value body (closing.1 :: rest)⟩) : block inner ts = ⟨rs, .value body rest⟩ := by
  have he : (expect .rightBrace .noBraceAfterBlock >>= fun _ => Parse.pure body) (closing.1 :: rest) =
      ⟨[], .value body rest⟩ := by
    rw [run_bind, expect, if_pos closing.2]
    rfl
  rw [block_eq, run_bind, h]
  simp only [he, List.append_nil]

theorem block_around (hn : P.NearestElse) (hm : P.marks = []) (h : Simple J) (hnQ : Q.NearestElse)
    (hmQ : Q.marks = []) (closing : Terminal .rightBrace)
    (hl : (P.word ++ (J ++ s.1 :: (Q.word ++ [closing.1]))).length ≤ n)
    (hd : Parse.declaration (n + 1) (J ++ s.1 :: (Q.word ++ [closing.1])) = ⟨rs, .value none (Q.word ++ [closing.1])⟩) :
    block (insideOf (n + 1)) (P.word ++ (J ++ s.1 :: (Q.word ++ [closing.1]))) =
      ⟨rs, .value (P.tree ++ Q.tree) []⟩ := by
  have hstart := startsDeclaration_ne_rightBrace
  obtain ⟨bound, hb, h1⟩ := runs_around (· == .rightBrace) hn hm h hstart h.not_stop hl hd
  obtain ⟨bound', -, h2⟩ := Q.reads (n := n) (by simp at hl ⊢; omega) hnQ
    (noElse_terminal closing (by decide) []) (· == .rightBrace) bound hstart hb
  have h3 := h2.last ((reads_repeatUntil_stop bound' (by simp [closing.2])).map (Q.tree ++ ·))
  rw [hmQ, List.append_nil] at h3
  have h4 := h1.value (run_map (P.tree ++ ·) h3.run)
  rw [List.append_nil] at h4
  exact run_block closing h4

end Around

/-! ## Programs of one declaration -/

theorem program_cons {t : Token} {ts rest : List Token} {n : Nat} {rs : List Report} {o : Option Stmt}
    (h : Parse.declaration n (t :: ts) = ⟨rs, .value o rest⟩) :
    Runs (Parse.program n) (t :: ts)
      ((o.toList ++ ·) <$> repeatUntil (fun _ => false) (Option.toList <$> Parse.declaration n) ts) rest rs := by
  show Runs (repeatUntil (fun _ => false) (Option.toList <$> Parse.declaration n) (t :: ts)) (t :: ts) _ rest rs
  exact runs_repeatUntil rfl t ts (run_map Option.toList h)

theorem program_single {ts : List Token} (hne : ts ≠ []) {n : Nat} {rs : List Report} {o : Option Stmt}
    (h : Parse.declaration n ts = ⟨rs, .value o []⟩) : Parse.program n ts = ⟨rs, .value o.toList []⟩ := by
  obtain ⟨t, ts, rfl⟩ := List.exists_cons_of_ne_nil hne
  have hs := (program_cons h).value (run_map (o.toList ++ ·) (reads_repeatUntil_stop ts (by simp)).run)
  rwa [List.append_nil, List.append_nil] at hs

/-- A program has the statement that its first declaration gives. -/
theorem program_ne_nil {t : Token} {ts rest rest' : List Token} {n : Nat} {rs : List Report} {a : Stmt}
    (h : Parse.declaration n (t :: ts) = ⟨rs, .value (some a) rest⟩) {statements : List Stmt}
    (hp : (Parse.program n (t :: ts)).outcome = .value statements rest') : statements ≠ [] := by
  have hr := program_cons h
  rw [Runs] at hr
  rw [hr] at hp
  change ((_ >>= fun xs => Parse.pure ([a] ++ xs)) rest).outcome = _ at hp
  rw [run_bind] at hp
  split at hp
  · cases hp
    exact List.cons_ne_nil _ _
  · cases hp
  · cases hp

theorem declarationForm_block (opening : Terminal .leftBrace) (inner : Inner) (ts : List Token) :
    declarationForm inner (opening.1 :: ts) = (Stmt.block <$> block inner) ts := by
  simp only [declarationForm, dispatch, declarationRule, statementForm, statementRule, opening.2]

/-- The block of a broken statement and of what stands around it. -/
theorem program_block {P Q : Clause .program} {rs : List Report} (hn : P.NearestElse) (hm : P.marks = []) (h : Simple J)
    (hnQ : Q.NearestElse) (hmQ : Q.marks = []) (opening : Terminal .leftBrace) (closing : Terminal .rightBrace)
    {n : Nat} (hl : (P.word ++ (J ++ s.1 :: (Q.word ++ [closing.1]))).length ≤ n)
    (hd : Parse.declaration (n + 1) (J ++ s.1 :: (Q.word ++ [closing.1])) = ⟨rs, .value none (Q.word ++ [closing.1])⟩) :
    Parse.program (n + 2) (opening.1 :: (P.word ++ (J ++ s.1 :: (Q.word ++ [closing.1])))) =
      ⟨rs, .value [.block (P.tree ++ Q.tree)] []⟩ := by
  have hb := block_around hn hm h hnQ hmQ closing hl hd
  refine program_single (o := some (.block (P.tree ++ Q.tree))) (List.cons_ne_nil _ _) ?_
  show recover (declarationForm (insideOf (n + 1))) _ = _
  rw [recover_eq, declarationForm_block, run_map Stmt.block hb, recovered]

/-! ## Containment -/

theorem TokenList.ofTokens?_eof (eof : Terminal .eof) : TokenList.ofTokens? [eof.1] = .ok ⟨[], eof.1⟩ := by
  simp [TokenList.ofTokens?, TokenList.endsWithEof, Token.isEof, eof.2]

theorem TokenList.parse_eq {l : TokenList} {depth : Nat} (hd : depth = l.body.length + 1) {rs : List Report}
    {statements : List Stmt} (h : Parse.program depth l.body = ⟨rs, .value statements []⟩) :
    l.parse = ⟨statements, rs.map (·.diagnostic l.eof)⟩ := by
  subst hd
  simp only [TokenList.parse, TokenList.parseWithin, TokenList.diagnostics, h, Outcome.value?, Option.getD_some]

/-- The reading that a parse is made of. -/
theorem TokenList.exists_reading (l : TokenList) : ∃ rs statements,
    Parse.program (l.body.length + 1) l.body = ⟨rs, .value statements []⟩ ∧
      l.parse = ⟨statements, rs.map (·.diagnostic l.eof)⟩ := by
  obtain ⟨statements, hv⟩ := program_value (Nat.lt_succ_self l.body.length)
  have hq : Parse.program (l.body.length + 1) l.body =
      ⟨(Parse.program (l.body.length + 1) l.body).reports, .value statements []⟩ := by rw [← hv]
  exact ⟨_, statements, hq, TokenList.parse_eq rfl hq⟩

/-- A list of tokens and one end of file behind them. -/
theorem ofTokens?_append_eof {us : List Token} (hu : ∀ t ∈ us, t.kind ≠ .eof) (eof : Terminal .eof) :
    TokenList.ofTokens? (us ++ [eof.1]) = .ok ⟨us, eof.1⟩ := by
  have hu' : ∀ t ∈ us, t.isEof = false := fun t ht => beq_eq_false_iff_ne.2 (hu t ht)
  have h := TokenList.ofTokens?_append hu' (TokenList.ofTokens?_eof eof)
  rwa [List.append_nil] at h

/-- Where a program has no statements, its first declaration is not read. -/
theorem not_read_of_parse {eof : Terminal .eof} (hj : (TokenList.mk (J ++ [s.1]) eof.1).parse.statements = []) :
    ∀ rs a rest, declarationForm (insideOf (J ++ [s.1]).length) (J ++ [s.1]) ≠ ⟨rs, .value a rest⟩ := by
  intro rs a rest hP
  obtain ⟨statements, hv⟩ := program_value (Nat.lt_succ_self (J ++ [s.1]).length)
  have hd : Parse.declaration ((J ++ [s.1]).length + 1) (J ++ [s.1]) = ⟨rs, .value (some a) rest⟩ := by
    show recover (declarationForm (insideOf (J ++ [s.1]).length)) _ = _
    rw [recover_eq, hP, recovered]
  obtain ⟨t, w, hw⟩ : ∃ t w, J ++ [s.1] = t :: w := List.exists_cons_of_ne_nil (by simp)
  simp only [TokenList.parse, TokenList.parseWithin, hv, Outcome.value?, Option.getD_some] at hj
  rw [hw] at hd hv
  exact program_ne_nil hd hv hj

section Containment

variable {P : Clause .program} {rs : List Report} {l : TokenList}

/-- The program of a broken statement alone. -/
theorem Skipped.parse_eq (hs : Skipped J s rs) (eof : Token) :
    (TokenList.mk (J ++ [s.1]) eof).parse = ⟨[], rs.map (·.diagnostic eof)⟩ := by
  obtain ⟨rs', hd, hrs⟩ := hs [] (J ++ [s.1]).length (Nat.le_refl _)
  have hp := program_single (by simp) hd
  rw [TokenList.parse_eq (l := ⟨J ++ [s.1], eof⟩) rfl hp, hrs eof eof]
  rfl

/-- The program of a broken statement between two others. -/
theorem parse_around (hn : P.NearestElse) (hm : P.marks = []) (h : Simple J) (hs : Skipped J s rs) (eof : Token) :
    (TokenList.mk (P.word ++ (J ++ s.1 :: l.body)) l.eof).parse =
      ⟨P.tree ++ l.parse.statements, rs.map (·.diagnostic eof) ++ l.parse.diagnostics⟩ := by
  obtain ⟨rs', hd, hrs⟩ := hs l.body (P.word ++ (J ++ s.1 :: l.body)).length (by simp)
  obtain ⟨statements, hv⟩ := program_value (Nat.lt_succ_self l.body.length)
  have hq : Parse.program (l.body.length + 1) l.body =
      ⟨(Parse.program (l.body.length + 1) l.body).reports, .value statements []⟩ := by rw [← hv]
  have hp := program_around hn hm h (Nat.le_refl _) hd hq
  rw [TokenList.parse_eq rfl hq, TokenList.parse_eq (l := ⟨_, l.eof⟩) rfl hp, List.map_append, hrs eof l.eof]

/-- The program of a block around a broken statement. -/
theorem parse_block_around (hn : P.NearestElse) (hm : P.marks = []) (h : Simple J) (hs : Skipped J s rs)
    (hl : l.parse.diagnostics = []) (opening : Terminal .leftBrace) (closing : Terminal .rightBrace)
    (eof eof' : Token) :
    (TokenList.mk (opening.1 :: (P.word ++ (J ++ s.1 :: (l.body ++ [closing.1])))) eof').parse =
      ⟨[.block (P.tree ++ l.parse.statements)], rs.map (·.diagnostic eof)⟩ := by
  obtain ⟨Q, hw, hnQ, hdQ, ht⟩ := TokenList.nearest_of_parse hl
  rw [← hw, ht]
  obtain ⟨rs', hd, hrs⟩ :=
    hs (Q.word ++ [closing.1]) (P.word ++ (J ++ s.1 :: (Q.word ++ [closing.1]))).length (by simp)
  have hb := program_block hn hm h hnQ (Q.documented_iff.1 hdQ) opening closing (Nat.le_refl _) hd
  rw [TokenList.parse_eq (l := ⟨_, eof'⟩) (by simp) hb, hrs eof eof']

end Containment

/-- The statements around a broken one are read as if it were not there, its problems are
    those that it has alone, and a block around them keeps its statements. -/
theorem panicRecovery {P J Q : List Token} {p j q : Program} (s : Terminal .semicolon) (eof eof' : Terminal .eof)
    (hP : ∀ t ∈ P, t.kind ≠ .eof) (hp : parseTokens (P ++ [eof.1]) = .ok p) (hclean : p.diagnostics = [])
    (hJ : Simple J) (hj : parseTokens (J ++ [s.1, eof'.1]) = .ok j) (hbroken : j.statements = [])
    (hq : parseTokens Q = .ok q) :
    (∃ r, parseTokens (P ++ (J ++ s.1 :: Q)) = .ok r ∧ r.statements = p.statements ++ q.statements ∧
      r.diagnostics = j.diagnostics ++ q.diagnostics) ∧
    (∃ soft hard, declarationForm (insideOf (J ++ [s.1]).length) (J ++ [s.1]) =
        ⟨soft ++ [hard], .abandoned hard.place⟩ ∧ (∀ r ∈ soft, r.error.isSoft = true) ∧ hard.error.isSoft = false ∧
      j.diagnostics = (soft ++ [hard]).map (·.diagnostic eof'.1)) ∧
    (q.diagnostics = [] → ∀ (opening : Terminal .leftBrace) (closing : Terminal .rightBrace) (eof'' : Terminal .eof),
      ∃ r, parseTokens (opening.1 :: (P ++ (J ++ s.1 :: (Q.takeWhile (!·.isEof) ++ [closing.1, eof''.1])))) = .ok r ∧
        r.statements = [.block (p.statements ++ q.statements)] ∧ r.diagnostics = j.diagnostics) := by
  obtain ⟨l, hl, rfl⟩ := ofTokens?_of_parseTokens hq
  obtain rfl : _ = p := Except.ok.inj ((parseTokens_of_ofTokens? (ofTokens?_append_eof hP eof)).symm.trans hp)
  have hj' := parseTokens_of_ofTokens? (ofTokens?_append_eof (hJ.ne_eof (s := s)) eof')
  rw [List.append_assoc] at hj'
  obtain rfl := Except.ok.inj (hj'.symm.trans hj)
  -- what stands in front of the statement is derived, and the statement is abandoned
  obtain ⟨D, rfl, hn, hD, ht⟩ := TokenList.nearest_of_parse hclean
  obtain ⟨u, place, soft, e, hu, hne, hsoft, he, hform⟩ := hJ.abandoned (Nat.le_refl _) (not_read_of_parse hbroken)
  have hskip := hJ.skipped (Nat.le_refl _) hu hne hform
  have hfront : ∀ t ∈ D.word ++ (J ++ [s.1]), t.kind ≠ .eof := by
    intro t ht
    rcases List.mem_append.1 ht with ht | ht
    · exact hP t ht
    · exact hJ.ne_eof t ht
  have htop : TokenList.ofTokens? (D.word ++ (J ++ s.1 :: Q)) = .ok ⟨D.word ++ (J ++ s.1 :: l.body), l.eof⟩ := by
    simpa using TokenList.ofTokens?_append (fun t ht => beq_eq_false_iff_ne.2 (hfront t ht)) hl
  rw [ht, hskip.parse_eq eof'.1]
  refine ⟨⟨_, parseTokens_of_ofTokens? htop, ?_⟩, ⟨soft, ⟨e, place⟩, hform, hsoft, he, rfl⟩,
    fun hclean' opening closing eof'' => ?_⟩
  · rw [parse_around hn (D.documented_iff.1 hD) hJ hskip eof'.1]
    exact ⟨rfl, rfl⟩
  · rw [← TokenList.body_eq_of_ofTokens? hl]
    have hbraces : ∀ t ∈ opening.1 :: (D.word ++ (J ++ s.1 :: (l.body ++ [closing.1]))), t.kind ≠ .eof := by
      intro t ht
      have hmem : t = opening.1 ∨ t ∈ D.word ++ (J ++ [s.1]) ∨ t ∈ l.body ∨ t = closing.1 := by
        simpa [or_assoc] using ht
      rcases hmem with rfl | ht | ht | rfl
      · rw [opening.2]
        decide
      · exact hfront t ht
      · exact beq_eq_false_iff_ne.1 (TokenList.body_ofTokens? hl t ht)
      · rw [closing.2]
        decide
    have hblock := parseTokens_of_ofTokens? (ofTokens?_append_eof hbraces eof'')
    rw [parse_block_around hn (D.documented_iff.1 hD) hJ hskip hclean' opening closing eof'.1 eof''.1] at hblock
    refine ⟨_, Eq.trans (congrArg parseTokens ?_) hblock, rfl, rfl⟩
    simp

/-- A token of the first line that has its kind and lexeme only. -/
def Token.bare (k : TokenKind) (lexeme : String) : Token := ⟨k, lexeme, .nil, 1, 1⟩

theorem panicRecovery_closingParen :
    (∃ r, parseTokens [.bare .kwNil "nil", .bare .semicolon ";", .bare .rightParen ")", .bare .semicolon ";",
        .bare .kwTrue "true", .bare .semicolon ";", .bare .eof ""] = .ok r ∧
      r.statements = [.expression (.literal .nil), .expression (.literal (.boolean true))] ∧
      r.diagnostics = [.syntactic (.bare .rightParen ")") "Expect expression."]) ∧
    ∃ r, parseTokens [.bare .leftBrace "\x7b", .bare .kwNil "nil", .bare .semicolon ";", .bare .rightParen ")",
        .bare .semicolon ";", .bare .kwTrue "true", .bare .semicolon ";", .bare .rightBrace "\x7d",
        .bare .eof ""] = .ok r ∧
      r.statements = [.block [.expression (.literal .nil), .expression (.literal (.boolean true))]] ∧
      r.diagnostics = [.syntactic (.bare .rightParen ")") "Expect expression."] := by
  have h := panicRecovery (P := [.bare .kwNil "nil", .bare .semicolon ";"]) (J := [.bare .rightParen ")"])
    (Q := [.bare .kwTrue "true", .bare .semicolon ";", .bare .eof ""])
    ⟨.bare .semicolon ";", rfl⟩ ⟨.bare .eof "", rfl⟩ ⟨.bare .eof "", rfl⟩ (by decide) rfl rfl
    ⟨by decide, by decide, by decide⟩ rfl rfl rfl
  exact ⟨h.1, h.2.2 rfl ⟨.bare .leftBrace "\x7b", rfl⟩ ⟨.bare .rightBrace "\x7d", rfl⟩ ⟨.bare .eof "", rfl⟩⟩

end LoxSyntax
