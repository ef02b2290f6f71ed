/-
  LoxSyntax.Proofs.LongSums — a sum is read without going deeper, and its tree is as high as
  it is long.

  The operators of a sum group from the left and are read one after the other, on one level
  however many there are. Each of them puts the tree in front of it one level down. So of a
  sum with enough operators the text is parsed, and the tree is neither printed nor written.

  - `Phrase.height_sum`: the derivation of a sum, its tokens and how high its tree is.
  - `parse_sum`: what is parsed of the tokens of a sum.
  - `parseSource_sum`: a source that is a sum.
  - `Stack.parses_sum`, `Stack.Within.not_prints_sum`: what a stack does with one.
-/

import LoxSyntax.Proofs.Drivers
import LoxSyntax.Proofs.RoundTrip

namespace LoxSyntax

open Grammar Lexical

/-! ## Derivations -/

namespace Grammar

/-- A plus and the number behind it. -/
abbrev Addend := Terminal .plus × Terminal .number

def addendTokens (as : List Addend) : List Token := as.flatMap fun a => [a.1.1, a.2.1]

def Phrase.numeral (t : Terminal .number) : Phrase (.level .factor) :=
  .one .factor (.unsigned (.atom (.literal t.1 t.1.literal (by rw [literalValue?, t.2]))))

def Phrase.plus (d : Phrase (.level .term)) (a : Addend) : Phrase (.level .term) :=
  .more .term d ⟨a.1.1, by rw [a.1.2]; rfl⟩ (.numeral a.2)

/-- Each addend makes the tree one level higher. -/
theorem Phrase.foldl_plus {d : Phrase (.level .term)} (as : List Addend) (hd : d.Documented) :
    (as.foldl plus d).word = d.word ++ addendTokens as ∧ (as.foldl plus d).Documented ∧
      d.tree.toNode.height + as.length ≤ (as.foldl plus d).tree.toNode.height := by
  induction as generalizing d with
  | nil => exact ⟨(List.append_nil _).symm, hd, Nat.le_refl _⟩
  | cons a as ih =>
    have hplus : (d.plus a).Documented := ⟨hd, trivial⟩
    have hword : (d.plus a).word = d.word ++ [a.1.1, a.2.1] := rfl
    have hheight : d.tree.toNode.height + 1 ≤ (d.plus a).tree.toNode.height :=
      Nat.succ_le_succ (Nat.le_max_left _ _)
    obtain ⟨hw, hdoc, hh⟩ := ih hplus
    rw [List.foldl_cons, hw, hword]
    refine ⟨by simp [addendTokens], hdoc, ?_⟩
    rw [List.length_cons]
    omega

def Phrase.sum (first : Terminal .number) (as : List Addend) : Phrase (.level .term) :=
  as.foldl Phrase.plus (.one .term (.numeral first))

theorem Phrase.height_sum (first : Terminal .number) (as : List Addend) :
    (sum first as).word = first.1 :: addendTokens as ∧ (sum first as).Documented ∧
      as.length < (sum first as).tree.toNode.height := by
  obtain ⟨hw, hd, hh⟩ := foldl_plus (d := .one .term (.numeral first)) as trivial
  refine ⟨hw, hd, Nat.lt_of_lt_of_le ?_ hh⟩
  rw [Nat.add_comm]
  exact Nat.lt_succ_self _

end Grammar

/-! ## Tokens -/

/-- A sum is parsed, and its tree is higher than it has addends. -/
theorem parse_sum {l : TokenList} {first : Terminal .number} {as : List Addend} {semicolon : Terminal .semicolon}
    (hl : l.body = first.1 :: (addendTokens as ++ [semicolon.1])) :
    ∃ s, l.parse = ⟨[s], []⟩ ∧ as.length < height [s] := by
  obtain ⟨hw, hd, hh⟩ := Phrase.height_sum first as
  let e : Phrase .expression :=
    .plain (.one .disjunction (.one .conjunction (.one .equality (.one .comparison (.sum first as)))))
  have hword : (Clause.cons (.statement (.expression e semicolon)) .nil).word = l.body := by
    show (Phrase.sum first as).word ++ [semicolon.1] ++ [] = l.body
    rw [hw, hl, List.append_nil, List.cons_append]
  have hp := TokenList.parse_of_documented hword ⟨hd, trivial⟩ ⟨trivial, trivial⟩
  refine ⟨.expression (Phrase.sum first as).tree, hp, ?_⟩
  have hs : height [.expression (Phrase.sum first as).tree] = (Phrase.sum first as).tree.toNode.height + 1 :=
    Nat.max_zero _
  rw [hs]
  exact Nat.lt_succ_of_lt hh

/-! ## Sources -/

/-- A plus and a one, `n` times, and a semicolon. -/
def plusOnes : Nat → List Char
  | 0 => [';']
  | n + 1 => '+' :: '1' :: plusOnes n

/-- A sum of `n + 1` ones. -/
def sumSource (n : Nat) : String := String.ofList ('1' :: plusOnes n)

def plusSegments : Nat → List Segment
  | 0 => [⟨.operator .semicolon, [';']⟩]
  | n + 1 => ⟨.operator .plus, ['+']⟩ :: ⟨.number ['1'] [], ['1']⟩ :: plusSegments n

theorem splits_one {ss : List Segment} {rest : List Char} (hs : Splits ss rest)
    (hr : ∀ c ∈ rest.head?, c = '+' ∨ c = ';') : Splits (⟨.number ['1'] [], ['1']⟩ :: ss) ('1' :: rest) := by
  refine .cons (.whole (List.forall_mem_singleton.2 rfl) ?_ ?_) hs
  · intro c hc
    rcases hr c hc with rfl | rfl <;> decide
  · rintro ⟨hp, -⟩
    rcases hr _ hp with h | h <;> cases h

theorem head?_plusOnes (n : Nat) : ∀ c ∈ (plusOnes n).head?, c = '+' ∨ c = ';' := by
  cases n <;> simp [plusOnes]

theorem splits_plusOnes : ∀ n, Splits (plusSegments n) (plusOnes n)
  | 0 => .cons (.punctuation rfl) .nil
  | n + 1 => .cons (.punctuation rfl) (splits_one (splits_plusOnes n) (head?_plusOnes n))

theorem exists_token (s : Segment) {kind : TokenKind} (h : s.kind? = some kind) (p : Spot) :
    ∃ t : Terminal kind, s.token? p = some t.1 :=
  ⟨⟨⟨kind, s.lexeme, s.literal, _, _⟩, rfl⟩, by rw [Segment.token?, h]; rfl⟩

/-- The tokens of the addends, wherever they stand. -/
theorem tokens_plusSegments : ∀ (n : Nat) (p : Spot), ∃ (as : List Addend) (semicolon : Terminal .semicolon),
    as.length = n ∧ tokens p (plusSegments n) = addendTokens as ++ [semicolon.1] ∧ diagnostics p (plusSegments n) = []
  | 0, p => by
    obtain ⟨semicolon, hs⟩ := exists_token ⟨.operator .semicolon, [';']⟩ rfl p
    refine ⟨[], semicolon, rfl, ?_, rfl⟩
    rw [plusSegments, tokens, tokens, hs]
    rfl
  | n + 1, p => by
    obtain ⟨plus, hp⟩ := exists_token ⟨.operator .plus, ['+']⟩ rfl p
    obtain ⟨number, hn⟩ := exists_token ⟨.number ['1'] [], ['1']⟩ rfl (p.pastAll ['+'])
    obtain ⟨as, semicolon, hlen, htokens, hdiag⟩ := tokens_plusSegments n ((p.pastAll ['+']).pastAll ['1'])
    refine ⟨(plus, number) :: as, semicolon, congrArg (· + 1) hlen, ?_, hdiag⟩
    rw [plusSegments, tokens, tokens, htokens, hp, hn]
    rfl

theorem scan_sum (n : Nat) : ∃ (first : Terminal .number) (as : List Addend) (semicolon : Terminal .semicolon)
    (eof : Terminal .eof), as.length = n ∧
      scan (sumSource n) = ⟨first.1 :: (addendTokens as ++ [semicolon.1]) ++ [eof.1], []⟩ := by
  have hsplits : Splits (⟨.number ['1'] [], ['1']⟩ :: plusSegments n) (sumSource n).toList := by
    rw [sumSource, String.toList_ofList]
    exact splits_one (splits_plusOnes n) (head?_plusOnes n)
  obtain ⟨first, hf⟩ := exists_token ⟨.number ['1'] [], ['1']⟩ rfl .start
  obtain ⟨as, semicolon, hlen, htokens, hdiag⟩ := tokens_plusSegments n (Spot.start.pastAll ['1'])
  refine ⟨first, as, semicolon, ⟨eofToken .start (⟨.number ['1'] [], ['1']⟩ :: plusSegments n), rfl⟩, hlen, ?_⟩
  rw [scan_eq hsplits, tokens, hf, htokens, diagnostics, hdiag]
  rfl

theorem parseSource_sum (n : Nat) : ∃ s, parseSource (sumSource n) = ⟨[s], []⟩ ∧ n < height [s] := by
  obtain ⟨first, as, semicolon, eof, rfl, hscan⟩ := scan_sum n
  obtain ⟨l, hl, hbody⟩ := exists_sourceTokens (sumSource as.length)
  rw [hscan] at hbody
  obtain ⟨s, hs, hheight⟩ := parse_sum (List.append_inj_left' hbody rfl).symm
  exact ⟨s, by rw [parseSource_eq hl, hs, hscan]; rfl, hheight⟩

/-- No token of a sum opens a level. -/
theorem levels_sum (n : Nat) : Parse.levels (scan (sumSource n)).tokens = 0 := by
  obtain ⟨first, as, semicolon, eof, -, hscan⟩ := scan_sum n
  have hopens : ∀ {kind : TokenKind} (t : Terminal kind), Parse.opensLevel kind = false →
      Parse.opensLevel t.1.kind = false := fun t h => by rw [t.2, h]
  have has : Parse.levels (addendTokens as) = 0 := by
    rw [Parse.levels, List.countP_eq_zero]
    intro t ht
    obtain ⟨a, -, ha⟩ := List.mem_flatMap.1 ht
    rcases List.mem_pair.1 ha with rfl | rfl
    · simp [hopens a.1 rfl]
    · simp [hopens a.2 rfl]
  rw [Parse.levels] at has
  simp [hscan, Parse.levels, has, hopens first rfl, hopens semicolon rfl, hopens eof rfl]

/-- Where one level is followed, a sum is parsed. -/
theorem Stack.parses_sum {k : Stack} {n : Nat} (h : 0 < k.parsing (scan (sumSource n)).tokens) :
    k.Parses (sumSource n) :=
  parses_of_levels (levels_sum n ▸ h)

/-- Where a level takes a frame at least, the tree of a sum with more addends than there are
    frames cannot be printed. -/
theorem Stack.Within.not_prints_sum {k : Stack} {frames n : Nat} (h : k.Within frames) (hn : frames ≤ n) :
    k.prints (parseSource (sumSource n)).statements = false := by
  obtain ⟨s, hs, hheight⟩ := parseSource_sum n
  have := h.printing [s]
  rw [hs, prints, decide_eq_false_iff_not]
  show ¬height [s] ≤ k.printing [s]
  omega

end LoxSyntax
