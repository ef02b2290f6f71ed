/-
  LoxSyntax.Proofs.Grammar.Blocks — a program closes the blocks that it opens.

  There is no brace in an expression. A block, a class and a function have one brace on
  either side; so in the tokens of each part of a program the braces balance, and there is
  a semicolon or a closing brace at its end.

  - `Clause.blocks_word`: the braces of a part of a program balance.
  - `Clause.exists_ending`: some token is a semicolon or a closing brace.
-/

import LoxSyntax.Proofs.Lexical.Braces
import LoxSyntax.Proofs.Grammar.Clause

namespace LoxSyntax.Grammar

open Lexical

/-- What a token of the kind adds to the blocks that are open. -/
def opens : TokenKind → Int
  | .leftBrace => 1
  | .rightBrace => -1
  | _ => 0

@[simp] theorem blocks_nil : blocks [] = 0 := rfl

theorem blocks_cons (t : Token) (ts : List Token) : blocks (t :: ts) = opens t.kind + blocks ts := by
  rw [← List.singleton_append, blocks_append]
  congr 1
  obtain ⟨kind, _, _, _, _⟩ := t
  cases kind <;> rfl

theorem Phrase.blocks_word {c : Category} (d : Phrase c) : blocks d.word = 0 := by
  refine blocks_eq_zero fun t ht => ⟨fun hk => ?_, fun hk => ?_⟩ <;>
    exact absurd (hk ▸ d.inExpression_of_mem t ht) (by decide)

theorem blocks_optionalWord (e : Option (Phrase .expression)) : blocks (optionalWord e) = 0 := by
  cases e with
  | none => rfl
  | some d => exact d.blocks_word

theorem Parameters.blocks_word (ps : Parameters) : blocks ps.word = 0 := by
  induction ps with
  | last name => simp [word, blocks_cons, name.2, opens]
  | more name comma others ih => simp [word, blocks_cons, name.2, comma.2, opens, ih]

theorem VarDeclaration.blocks_word (d : VarDeclaration) : blocks d.word = 0 := by
  obtain ⟨keyword, name, initializer, semicolon⟩ := d
  cases initializer with
  | none => simp [word, blocks_cons, Terminal.kind_eq, opens]
  | some i => simp [word, blocks_cons, blocks_append, Terminal.kind_eq, opens, i.2.blocks_word]

theorem Initializer.blocks_word (i : Initializer) : blocks i.word = 0 := by
  cases i with
  | none semicolon => simp [word, blocks_cons, semicolon.2, opens]
  | var d => exact d.blocks_word
  | expression e semicolon => simp [word, blocks_append, blocks_cons, semicolon.2, opens, e.blocks_word]

/-- The braces of a part of a program balance. -/
theorem Clause.blocks_word {p : Part} (d : Clause p) : blocks d.word = 0 := by
  induction d with
  | nil | noMethods => rfl
  | cons _ _ ih1 ih2 | moreMethods _ _ ih1 ih2 => rw [word, blocks_append, ih1, ih2]; rfl
  | «class» _ _ superclass _ _ _ ih =>
    have hs : blocks (superclassWord superclass) = 0 := by
      cases superclass <;> simp [superclassWord, blocks_cons, Terminal.kind_eq, opens]
    simp [word, blocks_cons, blocks_append, Terminal.kind_eq, opens, hs, ih]
  | «fun» _ _ ih => simp [word, blocks_cons, Terminal.kind_eq, opens, ih]
  | var d => exact d.blocks_word
  | statement _ ih => exact ih
  | function _ _ parameters _ _ _ _ ih =>
    have hp : blocks (parameters.elim [] Parameters.word) = 0 := by
      cases parameters with
      | none => rfl
      | some ps => exact ps.blocks_word
    simp [word, blocks_cons, blocks_append, Terminal.kind_eq, opens, hp, ih]
  | expression e _ | print _ e _ =>
    simp [word, blocks_cons, blocks_append, Terminal.kind_eq, opens, e.blocks_word]
  | «return» _ e _ => simp [word, blocks_cons, blocks_append, Terminal.kind_eq, opens, blocks_optionalWord]
  | block _ _ _ ih => simp [word, blocks_cons, blocks_append, Terminal.kind_eq, opens, ih]
  | «while» _ _ condition _ _ ih | ifThen _ _ condition _ _ ih =>
    simp [word, blocks_cons, blocks_append, Terminal.kind_eq, opens, condition.blocks_word, ih]
  | ifElse _ _ condition _ _ _ _ ih1 ih2 =>
    simp [word, blocks_cons, blocks_append, Terminal.kind_eq, opens, condition.blocks_word, ih1, ih2]
  | «for» _ _ initializer condition _ increment _ _ ih =>
    simp [word, blocks_cons, blocks_append, Terminal.kind_eq, opens, initializer.blocks_word, blocks_optionalWord, ih]

/-- A semicolon or a closing brace. -/
def IsEnding (t : Token) : Prop := t.kind = .semicolon ∨ t.kind = .rightBrace

/-- What is not empty has a semicolon or a closing brace. -/
theorem Clause.exists_ending {p : Part} (d : Clause p) (h : d.word ≠ []) : ∃ t ∈ d.word, IsEnding t := by
  have hsemicolon : ∀ s : Terminal .semicolon, IsEnding s.1 := fun s => .inl s.2
  have hclosing : ∀ b : Terminal .rightBrace, IsEnding b.1 := fun b => .inr b.2
  have hstatement : ∀ s : Clause .statement, s.word ≠ [] := fun s he => by
    obtain ⟨t, w, hw, -⟩ := s.statement_word_eq_cons
    cases hw.symm.trans he
  induction d with
  | nil | noMethods => exact absurd rfl h
  | cons first others ih1 ih2 | moreMethods first others ih1 ih2 =>
    by_cases hf : first.word = []
    · obtain ⟨t, ht, he⟩ := ih2 fun ho => h (by rw [word, hf, ho]; rfl)
      exact ⟨t, List.mem_append_right _ ht, he⟩
    · obtain ⟨t, ht, he⟩ := ih1 hf
      exact ⟨t, List.mem_append_left _ ht, he⟩
  | «class» _ _ _ _ _ closing => exact ⟨closing.1, by simp [word], hclosing closing⟩
  | «fun» keyword f ih =>
    obtain ⟨t, ht, he⟩ := ih (by cases f; exact List.cons_ne_nil _ _)
    exact ⟨t, List.mem_cons_of_mem _ ht, he⟩
  | var d => exact ⟨d.semicolon.1, by simp [word, VarDeclaration.word], hsemicolon _⟩
  | statement _ ih => exact ih h
  | function _ _ _ _ _ _ closing => exact ⟨closing.1, by simp [word], hclosing closing⟩
  | expression _ semicolon | print _ _ semicolon | «return» _ _ semicolon =>
    exact ⟨semicolon.1, by simp [word], hsemicolon semicolon⟩
  | block _ _ closing => exact ⟨closing.1, by simp [word], hclosing closing⟩
  | «while» _ _ _ _ body ih | ifThen _ _ _ _ body ih | «for» _ _ _ _ _ _ _ body ih =>
    obtain ⟨t, ht, he⟩ := ih (hstatement body)
    exact ⟨t, by simp [word, ht], he⟩
  | ifElse _ _ _ _ thenBranch _ _ ih =>
    obtain ⟨t, ht, he⟩ := ih (hstatement thenBranch)
    exact ⟨t, by simp [word, ht], he⟩

end LoxSyntax.Grammar
