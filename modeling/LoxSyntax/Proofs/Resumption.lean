/-
  LoxSyntax.Proofs.Resumption — where reading goes on behind an error.

  Recovery takes one token, whatever it is, and skips on to the first place that is at the
  end, behind a semicolon or in front of a keyword that starts a statement. So the place is
  the smallest index with this property behind the token that was blamed; a semicolon and
  a keyword that are blamed themselves are skipped, and at the end nothing is. A declaration
  goes on there and nowhere else, wherever in it the error was and however deep it is nested.

  - `resume_eq_drop`: what is left is what stands behind the skipped tokens.
  - `resumesAt_iff`: the places where skipping halts, as indices of the list.
  - `synchronize_drop`: recovery from any place.
  - `attempted_declaration`: a declaration is kept, or it goes on where recovery leads.
  - `recovery_resumes`: both, as steps of a session.
-/

import Mathlib.Order.Bounds.Defs
import LoxSyntax.Proofs.ErrorOrder
import LoxSyntax.Proofs.SessionSafety

namespace LoxSyntax

open Grammar Parse

/-! ## Skipping -/

/-- The kinds of the keywords that begin a declaration or a statement. -/
def statementStarts : List TokenKind :=
  [.kwClass, .kwFun, .kwVar, .kwFor, .kwIf, .kwWhile, .kwPrint, .kwReturn]

theorem startsStatement_iff (k : TokenKind) : k.startsStatement = true ↔ k ∈ statementStarts := by
  cases k <;> decide

/-- Behind the token `before`, skipping halts in front of the token with the index. -/
def HaltsAt (before : Token) (ts : List Token) (k : Nat) : Prop :=
  k = ts.length ∨ (∃ t ∈ (before :: ts)[k]?, t.kind = .semicolon) ∨ ∃ t ∈ ts[k]?, t.kind ∈ statementStarts

theorem haltsAt_zero {before t : Token} {ts : List Token} :
    HaltsAt before (t :: ts) 0 ↔ before.kind = .semicolon ∨ t.kind ∈ statementStarts := by
  simp [HaltsAt]

theorem haltsAt_succ {before t : Token} {ts : List Token} {k : Nat} :
    HaltsAt before (t :: ts) (k + 1) ↔ HaltsAt t ts k := by
  simp [HaltsAt]

/-- Skipping drops the tokens in front of the first place where it halts. -/
theorem resume_eq_drop (ts : List Token) :
    ∀ before, ∃ k, IsLeast {k | HaltsAt before ts k} k ∧ resume before ts = ts.drop k := by
  induction ts with
  | nil => exact fun before => ⟨0, ⟨.inl rfl, fun k _ => Nat.zero_le k⟩, rfl⟩
  | cons t ts ih =>
    intro before
    by_cases hhalt : HaltsAt before (t :: ts) 0
    · refine ⟨0, ⟨hhalt, fun k _ => Nat.zero_le k⟩, ?_⟩
      rw [haltsAt_zero, ← startsStatement_iff] at hhalt
      rw [resume, if_pos (by simpa using hhalt), List.drop_zero]
    · obtain ⟨k, ⟨hk, hleast⟩, hresume⟩ := ih t
      refine ⟨k + 1, ⟨haltsAt_succ.2 hk, ?_⟩, ?_⟩
      · intro j hj
        cases j with
        | zero => exact absurd hj hhalt
        | succ j => exact Nat.succ_le_succ (hleast (haltsAt_succ.1 hj))
      · rw [haltsAt_zero, ← startsStatement_iff] at hhalt
        rw [resume, if_neg (by simpa using hhalt), hresume, List.drop_succ_cons]

/-! ## Indices -/

/-- The token with the index is an end of file. -/
def EndsAt (tokens : List Token) (p : Nat) : Prop := ∃ t ∈ tokens[p]?, t.kind = .eof

/-- Reading may go on in front of the token with the index. -/
def ResumesAt (tokens : List Token) (q : Nat) : Prop :=
  EndsAt tokens q ∨ (∃ t ∈ tokens[q - 1]?, t.kind = .semicolon) ∨ ∃ t ∈ tokens[q]?, t.kind ∈ statementStarts

/-- Where reading goes on behind an error at the index `p`. -/
structure Resumption (tokens : List Token) (p q : Nat) : Prop where
  stays : EndsAt tokens p → q = p
  moves : ¬EndsAt tokens p → IsLeast {q | p < q ∧ ResumesAt tokens q} q

variable {front ts more : List Token} {t eof : Token}

theorem getElem?_behind (front ts : List Token) (j : Nat) : (front ++ ts)[front.length + j]? = ts[j]? := by
  rw [List.getElem?_append_right (Nat.le_add_right _ _), Nat.add_sub_cancel_left]

/-- Behind a token, up to the first end of file, reading may go on where skipping halts. -/
theorem resumesAt_iff (hplain : ∀ u ∈ ts, u.isEof = false) (heof : eof.kind = .eof) {j : Nat} (hj : j ≤ ts.length) :
    ResumesAt (front ++ t :: (ts ++ eof :: more)) (front.length + (j + 1)) ↔ HaltsAt t ts j := by
  have hnext : (front ++ t :: (ts ++ eof :: more))[front.length + (j + 1)]? = (ts ++ eof :: more)[j]? := by
    rw [getElem?_behind, List.getElem?_cons_succ]
  have hbefore : (front ++ t :: (ts ++ eof :: more))[front.length + (j + 1) - 1]? = (t :: (ts ++ eof :: more))[j]? := by
    rw [← Nat.add_assoc, Nat.add_sub_cancel, getElem?_behind]
  rw [ResumesAt, EndsAt, HaltsAt, hnext, hbefore]
  rcases Nat.lt_or_eq_of_le hj with hlt | rfl
  · have hts : (ts ++ eof :: more)[j]? = ts[j]? := List.getElem?_append_left hlt
    have htts : (t :: (ts ++ eof :: more))[j]? = (t :: ts)[j]? := by
      rw [← List.cons_append, List.getElem?_append_left (Nat.lt_succ_of_lt hlt)]
    have hnone : ¬∃ u ∈ ts[j]?, u.kind = .eof := by
      rintro ⟨u, hu, hk⟩
      have hu := hplain u (List.mem_of_getElem? hu)
      rw [Token.isEof, hk] at hu
      cases hu
    rw [hts, htts]
    exact or_congr (iff_of_false hnone (Nat.ne_of_lt hlt)) Iff.rfl
  · exact iff_of_true (.inl ⟨eof, by simp, heof⟩) (.inl rfl)

/-- Recovery in front of a token drops it, and what is skipped. -/
theorem synchronize_cons (front more : List Token) (t : Token) (hplain : ∀ u ∈ ts, u.isEof = false)
    (heof : eof.kind = .eof) :
    ∃ k ≤ ts.length, synchronize (t :: ts) = ts.drop k ∧
      IsLeast {q | front.length < q ∧ ResumesAt (front ++ t :: (ts ++ eof :: more)) q} (front.length + (k + 1)) := by
  obtain ⟨k, ⟨hk, hleast⟩, hresume⟩ := resume_eq_drop ts t
  have hle : k ≤ ts.length := hleast (.inl rfl)
  refine ⟨k, hle, hresume, ⟨by omega, (resumesAt_iff hplain heof hle).2 hk⟩, ?_⟩
  rintro q ⟨hlt, hq⟩
  obtain ⟨j, rfl⟩ : ∃ j, q = front.length + (j + 1) := ⟨q - front.length - 1, by omega⟩
  rcases Nat.lt_or_ge ts.length j with hj | hj
  · omega
  · have := hleast ((resumesAt_iff hplain heof hj).1 hq)
    omega

/-! ## Lists that end a program -/

/-- The tokens are those of a program, then an end of file, whatever stands behind it. -/
structure Delimits (tokens body : List Token) : Prop where
  split : ∃ eof more, tokens = body ++ eof :: more ∧ eof.kind = .eof
  plain : ∀ t ∈ body, t.isEof = false

variable {tokens body : List Token} {p : Nat}

theorem Delimits.endsAt_iff (h : Delimits tokens body) (hp : p ≤ body.length) : EndsAt tokens p ↔ p = body.length := by
  obtain ⟨eof, more, rfl, heof⟩ := h.split
  rcases Nat.lt_or_eq_of_le hp with hlt | rfl
  · refine iff_of_false ?_ (Nat.ne_of_lt hlt)
    rintro ⟨t, ht, hk⟩
    rw [List.getElem?_append_left hlt] at ht
    have hplain := h.plain t (List.mem_of_getElem? ht)
    rw [Token.isEof, hk] at hplain
    cases hplain
  · exact iff_of_true ⟨eof, by simp, heof⟩ rfl

/-- Recovery from any place in a program leaves what is behind the place where reading resumes. -/
theorem Delimits.synchronize_drop (h : Delimits tokens body) (hp : p ≤ body.length) :
    ∃ q ≤ body.length, Resumption tokens p q ∧ synchronize (body.drop p) = body.drop q := by
  rcases Nat.lt_or_eq_of_le hp with hlt | rfl
  · obtain ⟨eof, more, rfl, heof⟩ := h.split
    have hbody : body = body.take p ++ body[p] :: body.drop (p + 1) := by
      rw [← List.drop_eq_getElem_cons hlt, List.take_append_drop]
    have hfront : (body.take p).length = p := List.length_take_of_le hp
    have hplain : ∀ u ∈ body.drop (p + 1), u.isEof = false := fun u hu => h.plain u (List.mem_of_mem_drop hu)
    obtain ⟨k, hk, hsync, hleast⟩ := synchronize_cons (body.take p) more body[p] hplain heof
    rw [hfront, ← List.cons_append, ← List.append_assoc, ← hbody] at hleast
    rw [List.length_drop] at hk
    refine ⟨p + (k + 1), by omega, ⟨?_, fun _ => hleast⟩, ?_⟩
    · exact fun hends => absurd ((h.endsAt_iff hp).1 hends) (Nat.ne_of_lt hlt)
    · rw [List.drop_eq_getElem_cons hlt, hsync, List.drop_drop]
      congr 1
      omega
  · refine ⟨_, Nat.le_refl _, ⟨fun _ => rfl, ?_⟩, by simp [synchronize]⟩
    exact fun hends => absurd ((h.endsAt_iff hp).2 rfl) hends

/-! ## Declarations -/

/-- The readers for what stands inside a declaration, `depth` levels of which are followed. -/
def innerOf (depth : Nat) : Inner := ⟨expression (depth + 1), statement depth, declaration depth⟩

/-- What becomes of a declaration that is attempted at the index `p` and in which `n` levels
    are followed: it is kept, or an error that is reported last abandons it somewhere behind
    and reading resumes from there, or it is given up with `n` levels opened at least. -/
inductive Attempted (tokens body : List Token) (p n : Nat) : Parsed Stmt → Parsed (Option Stmt) → Prop where
  | kept (rs : List Report) (d : Stmt) (rest : List Token) :
      Attempted tokens body p n ⟨rs, .value d rest⟩ ⟨rs, .value (some d) rest⟩
  | recovered (rs : List Report) {e : SyntaxError} {i q : Nat} (he : e.isSoft = false) (hp : p ≤ i)
      (hi : i ≤ body.length) (hq : q ≤ body.length) (h : Resumption tokens i q) :
      Attempted tokens body p n ⟨rs ++ [⟨e, body.drop i⟩], .abandoned (body.drop i)⟩
        ⟨rs ++ [⟨e, body.drop i⟩], .value none (body.drop q)⟩
  | tooDeep (rs : List Report) (rest : List Token) (hn : n ≤ levels (body.drop p)) :
      Attempted tokens body p n ⟨rs, .tooDeep rest⟩ ⟨rs, .tooDeep rest⟩

theorem exists_drop_of_suffix {rest : List Token} (hp : p ≤ body.length) (h : rest <:+ body.drop p) :
    ∃ i, p ≤ i ∧ i ≤ body.length ∧ rest = body.drop i := by
  have hlen := h.length_le
  rw [List.length_drop] at hlen
  refine ⟨body.length - rest.length, by omega, Nat.sub_le _ _, ?_⟩
  exact List.suffix_iff_eq_drop.1 (h.trans (List.drop_suffix _ _))

/-- Wherever a declaration starts, and however deep it stands, an error in it leads where
    recovery from the blamed token does. -/
theorem Delimits.attempted_declaration (h : Delimits tokens body) (hp : p ≤ body.length) (depth : Nat) :
    Attempted tokens body p (depth + 1) (declarationForm (innerOf depth) (body.drop p))
      (declaration (depth + 1) (body.drop p)) := by
  have he : Orderly body (depth + 1) 0 (expression (depth + 1)) := orderly_expression (depth + 1)
  have hlevels : Orderly body depth 0 (statement depth) ∧ Orderly body depth 1 (declaration depth) :=
    orderly_levels depth
  have hinner : OrderlyInner body depth (innerOf depth) := ⟨he.less (Nat.le_succ depth), hlevels.1, hlevels.2⟩
  have hform := orderly_declarationForm (n := depth + 1) he hinner (body.drop p) (List.drop_suffix p body)
  have hrecover : declaration (depth + 1) (body.drop p) =
      ⟨(declarationForm (innerOf depth) (body.drop p)).reports,
        recovered (declarationForm (innerOf depth) (body.drop p)).outcome⟩ := recover_eq _ _
  rw [hrecover]
  generalize declarationForm (innerOf depth) (body.drop p) = P at hform
  cases hform with
  | value d _ => exact .kept _ d _
  | tooDeep rs _ hn => exact .tooDeep rs _ hn
  | @abandoned rs place e he hto =>
    obtain ⟨i, hpi, hi, rfl⟩ := exists_drop_of_suffix hp hto.course.suffix
    obtain ⟨q, hq, hres, hsync⟩ := h.synchronize_drop hi
    have ha := Attempted.recovered (n := depth + 1) rs he hpi hi hq hres
    rwa [← hsync] at ha

/-! ## Steps of a session -/

namespace Session

variable {s : Session}

theorem Over.delimits (h : s.Over) : Delimits s.tokens s.input.body := by
  obtain ⟨more, hs⟩ := h.split
  exact ⟨⟨s.input.eof, more, hs, beq_iff_eq.1 h.eof⟩, h.plain⟩

theorem leaving_drop {q : Nat} (hq : q ≤ s.input.body.length) :
    s.leaving (s.input.body.drop q) = { s with position := q } := by
  rw [leaving, place, List.length_drop, Nat.sub_sub_self hq]

theorem step_synchronize (h : s.Over) (depth : Nat) : ∃ q, Resumption s.tokens s.position q ∧
    s.step depth (.read .synchronize) = ⟨.reply .nothing, [], { s with position := q }⟩ := by
  obtain ⟨q, hq, hres, hsync⟩ := h.delimits.synchronize_drop h.position_le
  refine ⟨q, hres, ?_⟩
  rw [← leaving_drop hq, ← hsync]
  rfl

/-- The declaration that a session attempts at its place, following `depth` levels inside it. -/
def attempt (s : Session) (depth : Nat) : Parsed Stmt := declarationForm (innerOf depth) s.rest

/-- A declaration gives its statement, or an error that it reports last leads from the blamed
    token to where reading resumes, or it is given up in front of more tokens that open a
    level than levels are followed inside it. -/
inductive Declares (s : Session) (depth : Nat) : Reaction → Prop where
  | kept {d : Stmt} {rest : List Token} (h : (s.attempt depth).outcome = .value d rest) (reports : List Diagnostic) :
      Declares s depth ⟨.reply (.node d.toNode), reports, s.leaving rest⟩
  | recovered {i q : Nat} {t : Token} {e : SyntaxError}
      (h : (s.attempt depth).outcome = .abandoned (s.input.body.drop i))
      (hi : s.position ≤ i) (ht : s.tokens[i]? = some t) (he : e.isSoft = false) (hq : Resumption s.tokens i q)
      (reports : List Diagnostic) :
      Declares s depth ⟨.reply .nothing, reports ++ [.syntactic t e.message], { s with position := q }⟩
  | tooDeep {rest : List Token} (h : (s.attempt depth).outcome = .tooDeep rest) (hd : depth < Parse.levels s.rest)
      (reports : List Diagnostic) : Declares s depth ⟨.tooDeep, reports, s.leaving rest⟩

theorem Over.getElem?_blamed (h : s.Over) {i : Nat} (hi : i ≤ s.input.body.length) (e : SyntaxError) :
    s.tokens[i]? = some (Report.blamed s.input.eof ⟨e, s.input.body.drop i⟩) := by
  obtain ⟨more, hs⟩ := h.split
  have hplace : (Report.mk e (s.input.body.drop i)).place <:+ s.input.body := List.drop_suffix i _
  have hindex : (Report.mk e (s.input.body.drop i)).index s.input.body.length = i := by
    rw [Report.index, List.length_drop, Nat.sub_sub_self hi]
  have h := Report.getElem?_index hplace s.input.eof more
  rwa [hindex, ← hs] at h

theorem declares_step (h : s.Over) (depth : Nat) : s.Declares depth (s.step (depth + 1) (.read .declaration)) := by
  have ha := h.delimits.attempted_declaration h.position_le depth
  have hstep : s.step (depth + 1) (.read .declaration) =
      s.react ((fun d => (d.map fun d => Reply.node d.toNode).getD .nothing) <$> Parse.declaration (depth + 1)) := rfl
  have hform : s.attempt depth = declarationForm (innerOf depth) (s.input.body.drop s.position) := rfl
  rw [hstep]
  rw [← hform] at ha
  generalize hA : s.attempt depth = A at ha
  generalize hD : declaration (depth + 1) (s.input.body.drop s.position) = D at ha
  have hD : declaration (depth + 1) s.rest = D := hD
  cases ha with
  | kept rs d rest =>
    simp only [react, run_map _ hD]
    exact .kept (congrArg Parsed.outcome hA) _
  | tooDeep rs rest hn =>
    simp only [react, map_tooDeep _ hD]
    exact .tooDeep (congrArg Parsed.outcome hA) hn _
  | @recovered rs e i q he hp hi hq hres =>
    simp only [react, run_map _ hD, Outcome.rest, leaving_drop hq, TokenList.diagnostics, List.map_append]
    exact .recovered (congrArg Parsed.outcome hA) hp (h.getElem?_blamed hi e) he hres _

end Session

/-- From any place up to the first end of file, recovery reports nothing and leads to the
    smallest index behind it that is at the end, behind a semicolon or in front of a keyword
    that starts a statement; at the end it stays. A declaration that is abandoned, on any
    level of nesting, goes on at this index for the token that was blamed. However many
    levels are followed, one is given up only where more tokens open a level. -/
theorem recovery_resumes (ts : List Token) (eof : Terminal .eof) :
    ∃ start, Session.ofTokens? (ts ++ [eof.1]) = .ok start ∧ ∀ p ≤ (ts ++ [eof.1]).findIdx (·.isEof), ∀ depth,
      (∃ q, Resumption (ts ++ [eof.1]) p q ∧ { start with position := p }.step depth (.read .synchronize) =
        ⟨.reply .nothing, [], { start with position := q }⟩) ∧
      Attempted (ts ++ [eof.1]) start.input.body p (depth + 1)
        (declarationForm (innerOf depth) (start.input.body.drop p))
        (declaration (depth + 1) (start.input.body.drop p)) ∧
      { start with position := p }.Declares depth
        ({ start with position := p }.step (depth + 1) (.read .declaration)) := by
  obtain ⟨l, more, hl, hts, heof⟩ := parseTokens_eof ts eof
  refine ⟨⟨ts ++ [eof.1], l, 0⟩, by rw [Session.ofTokens?, hl]; rfl, ?_⟩
  have hover : ∀ p ≤ l.body.length, Session.Over ⟨ts ++ [eof.1], l, p⟩ :=
    fun p hp => ⟨⟨more, hts⟩, TokenList.body_ofTokens? hl, beq_iff_eq.2 heof, hp⟩
  rw [← (hover 0 (Nat.zero_le _)).length_body]
  intro p hp depth
  exact ⟨Session.step_synchronize (hover p hp) depth, (hover p hp).delimits.attempted_declaration hp depth,
    Session.declares_step (hover p hp) depth⟩

/-- A semicolon that is blamed is skipped, and reading resumes behind it. -/
theorem recovery_resumes_semicolon :
    let tokens := [.bare .semicolon ";", .bare .kwVar "var", .bare .kwVar "var", .bare .eof ""]
    ∃ start, Session.ofTokens? tokens = .ok start ∧ IsLeast {q | 0 < q ∧ ResumesAt tokens q} 1 ∧
      ({ start with position := 0 }.step 4 (.read .synchronize)).session.position = 1 ∧
      ({ start with position := 0 }.step 4 (.read .declaration)).session.position = 1 ∧
      { start with position := 1 }.Declares 3 ({ start with position := 1 }.step 4 (.read .declaration)) := by
  intro tokens
  obtain ⟨start, hstart, h⟩ := recovery_resumes [.bare .semicolon ";", .bare .kwVar "var", .bare .kwVar "var"]
    ⟨.bare .eof "", rfl⟩
  obtain ⟨⟨q, hq, hstep⟩, -⟩ := h 0 (by decide) 4
  have hposition : ({ start with position := 0 }.step 4 (.read .synchronize)).session.position = 1 := by
    cases hstart
    rfl
  have hone : q = 1 := by
    rw [hstep] at hposition
    exact hposition
  subst hone
  refine ⟨start, hstart, hq.moves (by simp [EndsAt, Token.bare]), hposition, ?_, (h 1 (by decide) 3).2.2⟩
  cases hstart
  rfl

end LoxSyntax
