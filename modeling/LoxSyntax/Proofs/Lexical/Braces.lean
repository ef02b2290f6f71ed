/-
  LoxSyntax.Proofs.Lexical.Braces — the braces of a source and those of its tokens.

  A brace of a source is a token of its own, unless it is hidden: it stands in a comment,
  in a string, or behind a quote that nothing closes. So the braces that are counted as
  characters are those of the tokens and the hidden ones.

  - `surplus_eq_blocks_add`: the surplus of a source is that of its tokens and of what is hidden.
-/

import LoxSyntax.Proofs.Lexical.Kinds

namespace LoxSyntax.Lexical

/-- How many more braces some characters open than they close. -/
def surplus (cs : List Char) : Int := (cs.count '\x7b' : Int) - cs.count '\x7d'

/-- How many more blocks some tokens open than they close. -/
def blocks (ts : List Token) : Int := (ts.countP (·.kind == .leftBrace) : Int) - ts.countP (·.kind == .rightBrace)

/-- A comment, a string, or what stands behind a quote that nothing closes. -/
def Segment.isText (s : Segment) : Bool :=
  match s.form with
  | .comment | .string _ | .unclosed => true
  | _ => false

/-- The characters of a row of segments that stand in comments and strings. -/
def hidden (ss : List Segment) : List Char := (ss.filter (·.isText)).flatMap (·.text)

theorem surplus_append (cs ds : List Char) : surplus (cs ++ ds) = surplus cs + surplus ds := by
  simp only [surplus, List.count_append]
  omega

theorem blocks_append (ts us : List Token) : blocks (ts ++ us) = blocks ts + blocks us := by
  simp only [blocks, List.countP_append]
  omega

theorem surplus_eq_zero {cs : List Char} (h : ∀ c ∈ cs, c ≠ '\x7b' ∧ c ≠ '\x7d') : surplus cs = 0 := by
  rw [surplus, List.count_eq_zero.2 fun hc => (h _ hc).1 rfl, List.count_eq_zero.2 fun hc => (h _ hc).2 rfl]
  rfl

theorem blocks_eq_zero {ts : List Token} (h : ∀ t ∈ ts, t.kind ≠ .leftBrace ∧ t.kind ≠ .rightBrace) :
    blocks ts = 0 := by
  rw [blocks, List.countP_eq_zero.2 fun t ht => by simpa using (h t ht).1,
    List.countP_eq_zero.2 fun t ht => by simpa using (h t ht).2]
  rfl

/-! ## Segment by segment -/

theorem ne_brace_of_all {p : Char → Bool} {cs : List Char} (h : ∀ c ∈ cs, p c = true) (hopen : p '\x7b' = false)
    (hclose : p '\x7d' = false) : ∀ c ∈ cs, c ≠ '\x7b' ∧ c ≠ '\x7d' := by
  intro c hc
  constructor
  · rintro rfl
    exact Bool.false_ne_true (hopen.symm.trans (h _ hc))
  · rintro rfl
    exact Bool.false_ne_true (hclose.symm.trans (h _ hc))

/-- A segment that is no brace, no comment and no string holds no brace. -/
theorem Segment.Before.ne_brace {s : Segment} {rest : List Char} (h : s.Before rest) (ht : s.isText = false)
    (hopen : s.kind? ≠ some .leftBrace) (hclose : s.kind? ≠ some .rightBrace) :
    ∀ c ∈ s.text, c ≠ '\x7b' ∧ c ≠ '\x7d' := by
  cases h with
  | blank h => exact ne_brace_of_all (p := isSpace) (by simpa using h) rfl rfl
  | comment | string | unclosed => cases ht
  | punctuation h =>
    rw [List.forall_mem_singleton]
    constructor
    · rintro rfl
      exact hopen h.symm
    · rintro rfl
      exact hclose h.symm
  | extended h => exact ne_brace_of_all (p := fun c => (comparison? c).isSome || c == '=') (by simp [h]) rfl rfl
  | alone h => exact ne_brace_of_all (p := fun c => (comparison? c).isSome) (by simp [h]) rfl rfl
  | slash => exact List.forall_mem_singleton.2 (by decide)
  | whole hd => exact ne_brace_of_all hd rfl rfl
  | fraction hd hf =>
    refine ne_brace_of_all (p := fun c => isDigit c || c == '.') ?_ rfl rfl
    simp only [List.cons_append, List.forall_mem_cons, List.forall_mem_append] at hd hf ⊢
    exact ⟨by simp [hd.1], fun c hc => by simp [hd.2 c hc], by simp, by simp [hf.1], fun c hc => by simp [hf.2 c hc]⟩
  | word hc hs =>
    refine ne_brace_of_all (p := isAlphanumeric) (List.forall_mem_cons.2 ⟨?_, hs⟩) rfl rfl
    rw [isAlphanumeric, hc, Bool.true_or]
  | other h =>
    rw [List.forall_mem_singleton]
    constructor
    · rintro rfl
      cases h.1
    · rintro rfl
      cases h.1

/-- The surplus of a segment is that of its token, or all of it is hidden. -/
theorem Segment.Before.surplus_text {s : Segment} {rest : List Char} (h : s.Before rest) (p : Spot) :
    surplus s.text = blocks (s.token? p).toList + surplus (hidden [s]) := by
  cases ht : s.isText with
  | true =>
    have hb : blocks (s.token? p).toList = 0 := by
      unfold isText at ht
      unfold token? kind?
      split at ht <;> simp_all [blocks]
    simp [hb, hidden, ht]
  | false =>
    have hh : hidden [s] = [] := by simp [hidden, ht]
    rw [hh, show surplus [] = 0 from rfl, Int.add_zero, token?]
    by_cases hopen : s.kind? = some .leftBrace
    · rw [h.text_of_punctuation (c := '\x7b') rfl hopen, hopen]
      rfl
    · by_cases hclose : s.kind? = some .rightBrace
      · rw [h.text_of_punctuation (c := '\x7d') rfl hclose, hclose]
        rfl
      · rw [surplus_eq_zero (h.ne_brace ht hopen hclose), blocks_eq_zero]
        intro t hmem
        obtain ⟨kind, hk, rfl⟩ := Option.map_eq_some_iff.1 (Option.mem_toList.1 hmem)
        exact ⟨fun e => hopen (e ▸ hk), fun e => hclose (e ▸ hk)⟩

/-- The surplus of a source is that of its tokens and of what is hidden. -/
theorem surplus_eq_blocks_add {ss : List Segment} {cs : List Char} (h : Splits ss cs) :
    ∀ p : Spot, surplus cs = blocks (tokens p ss) + surplus (hidden ss) := by
  induction h with
  | nil => exact fun _ => rfl
  | @cons s ss rest hb _ ih =>
    intro p
    have hhidden : hidden (s :: ss) = hidden [s] ++ hidden ss := by
      simp only [hidden, ← List.flatMap_append, ← List.filter_append, List.singleton_append]
    rw [surplus_append, hb.surplus_text p, ih (p.pastAll s.text), tokens, blocks_append, hhidden, surplus_append]
    omega

end LoxSyntax.Lexical
