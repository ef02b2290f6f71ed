/-
  LoxSyntax.Proofs.Concatenation — programs one behind the other.

  A program that is accepted ends where it ends, whatever stands behind it, as long as
  that is not an `else`. What stands behind it is read as if it stood alone: skipping in
  it never comes back to what was read in front.

  - `program_append`: reading a derived program and what stands behind it.
  - `parseTokens_append`: the statements and the problems of a program that is accepted
    and any other behind it.
-/

import LoxSyntax.Proofs.PanicRecovery

namespace LoxSyntax

open Grammar Parse

variable {P : Clause .program}

theorem program_append (hn : P.NearestElse) (hm : P.marks = []) {more : List Token} (hr : NoElse more)
    {rs : List Report} {statements : List Stmt}
    (hq : Parse.program (more.length + 1) more = ⟨rs, .value statements []⟩) :
    Parse.program ((P.word ++ more).length + 1) (P.word ++ more) = ⟨rs, .value (P.tree ++ statements) []⟩ := by
  obtain ⟨bound, hb, h⟩ := program_steps (Nat.lt_succ_self _) hn hr
  rw [hm] at h
  -- the loop that is left has more levels and a longer bound than the one that reads the rest alone
  have hlevels : more.length < (P.word ++ more).length + 1 := by
    rw [List.length_append]
    omega
  have hmore := declarations_eq_program hlevels hb
  exact h.runs.value (run_map (P.tree ++ ·) (hmore.trans hq))

theorem TokenList.parse_append (hn : P.NearestElse) (hm : P.marks = []) {l : TokenList} (hr : NoElse l.body) :
    (TokenList.mk (P.word ++ l.body) l.eof).parse = ⟨P.tree ++ l.parse.statements, l.parse.diagnostics⟩ := by
  obtain ⟨rs, statements, hq, hl⟩ := l.exists_reading
  rw [hl, TokenList.parse_eq (l := ⟨_, l.eof⟩) rfl (program_append hn hm hr hq)]

/-- A program has the first token of its list, unless it has none. -/
theorem TokenList.noElse_body {ts : List Token} {l : TokenList} (h : ofTokens? ts = .ok l) (hr : NoElse ts) :
    NoElse l.body := by
  rw [body_eq_of_ofTokens? h]
  intro t ht
  cases ts with
  | nil => cases ht
  | cons t' ts =>
    rw [List.takeWhile_cons] at ht
    split at ht
    · exact hr t ht
    · cases ht

/-- Behind a program that is accepted, any other that does not begin with an `else` is read
    as it is read alone. -/
theorem parseTokens_append {P Q : List Token} {p : Program} (eof eof' : Terminal .eof) (hP : ∀ t ∈ P, t.kind ≠ .eof)
    (hp : parseTokens (P ++ [eof.1]) = .ok p) (hclean : p.diagnostics = []) (hQ : NoElse (Q ++ [eof'.1])) :
    ∃ q, parseTokens (Q ++ [eof'.1]) = .ok q ∧
      parseTokens (P ++ (Q ++ [eof'.1])) = .ok ⟨p.statements ++ q.statements, q.diagnostics⟩ := by
  obtain ⟨l, more, hl, -, -⟩ := parseTokens_eof Q eof'
  obtain rfl : _ = p := Except.ok.inj ((parseTokens_of_ofTokens? (ofTokens?_append_eof hP eof)).symm.trans hp)
  obtain ⟨D, rfl, hn, hD, ht⟩ := TokenList.nearest_of_parse hclean
  have hlong := TokenList.ofTokens?_append (fun t ht => beq_eq_false_iff_ne.2 (hP t ht)) hl
  refine ⟨l.parse, parseTokens_of_ofTokens? hl, ?_⟩
  rw [parseTokens_of_ofTokens? hlong, ht,
    TokenList.parse_append hn (D.documented_iff.1 hD) (TokenList.noElse_body hl hQ)]

theorem parseTokens_append_closingParen :
    parseTokens [.bare .kwNil "nil", .bare .semicolon ";", .bare .rightParen ")", .bare .semicolon ";",
        .bare .kwTrue "true", .bare .semicolon ";", .bare .eof ""] =
      .ok ⟨[.expression (.literal .nil), .expression (.literal (.boolean true))],
        [.syntactic (.bare .rightParen ")") "Expect expression."]⟩ := by
  obtain ⟨q, hq, h⟩ := parseTokens_append (P := [.bare .kwNil "nil", .bare .semicolon ";"])
    (Q := [.bare .rightParen ")", .bare .semicolon ";", .bare .kwTrue "true", .bare .semicolon ";"])
    ⟨.bare .eof "", rfl⟩ ⟨.bare .eof "", rfl⟩ (by decide) rfl rfl
    (noElse_terminal ⟨.bare .rightParen ")", rfl⟩ (by decide) _)
  obtain rfl := Except.ok.inj hq
  exact h

/-- An `else` belongs to what stands in front of it. -/
example : (do
    let p ← parseTokens [.bare .kwIf "if", .bare .leftParen "(", .bare .kwNil "nil", .bare .rightParen ")",
      .bare .kwNil "nil", .bare .semicolon ";", .bare .kwElse "else", .bare .kwTrue "true", .bare .semicolon ";",
      .bare .eof ""]
    pure p.statements) =
      .ok [.ifElse (.literal .nil) (.expression (.literal .nil)) (.expression (.literal (.boolean true)))] := rfl

end LoxSyntax
