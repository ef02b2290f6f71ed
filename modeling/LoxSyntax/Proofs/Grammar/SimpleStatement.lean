/-
  LoxSyntax.Proofs.Grammar.SimpleStatement — where a declaration without braces ends.

  The tokens of a simple statement in front of its semicolon have no other semicolon, no
  brace, and no keyword behind the first that starts a statement; the first begins neither
  a loop nor a branch. Whether or not they are well formed, no declaration that begins
  with them goes on behind the semicolon.

  - `Simple.declaration_ends`: such a declaration ends with the semicolon.
-/

import LoxSyntax.Proofs.Grammar.Clause

namespace LoxSyntax.Grammar

/-- The tokens in front of the semicolon of a simple statement, well formed or not. -/
structure Simple (J : List Token) : Prop where
  plain : ∀ t ∈ J, t.kind ≠ .eof ∧ t.kind ≠ .semicolon ∧ t.kind ≠ .leftBrace ∧ t.kind ≠ .rightBrace
  first : ∀ t ∈ J.head?, t.kind ≠ .kwElse ∧ t.kind ≠ .kwFor ∧ t.kind ≠ .kwIf ∧ t.kind ≠ .kwWhile
  later : ∀ t ∈ J.tail, t.kind.startsStatement = false

/-- The tokens have no semicolon. -/
def NoSemicolon (ts : List Token) : Prop := ∀ t ∈ ts, t.kind ≠ .semicolon

theorem NoSemicolon.append {a b : List Token} (ha : NoSemicolon a) (hb : NoSemicolon b) : NoSemicolon (a ++ b) :=
  fun t ht => (List.mem_append.1 ht).elim (ha t) (hb t)

theorem NoSemicolon.cons {k : TokenKind} (t : Terminal k) (hk : k ≠ .semicolon) {a : List Token} (ha : NoSemicolon a) :
    NoSemicolon (t.1 :: a) :=
  List.forall_mem_cons.2 ⟨by rw [t.2]; exact hk, ha⟩

theorem noSemicolon_nil : NoSemicolon [] := fun _ h => by cases h

theorem Phrase.noSemicolon {c : Category} (d : Phrase c) : NoSemicolon d.word := by
  intro t ht hk
  have h := d.inExpression_of_mem t ht
  rw [hk] at h
  exact absurd h (by decide)

theorem Parameters.noSemicolon (ps : Parameters) : NoSemicolon ps.word := by
  induction ps with
  | last name => exact noSemicolon_nil.cons name (by decide)
  | more name comma others ih => exact (ih.cons comma (by decide)).cons name (by decide)

/-- Tokens before the first semicolon on both sides. -/
theorem eq_of_noSemicolon {a J b v : List Token} (s s' : Terminal .semicolon) (ha : NoSemicolon a) (hJ : NoSemicolon J)
    (h : a ++ s.1 :: b = J ++ s'.1 :: v) : a = J ∧ b = v := by
  induction a generalizing J with
  | nil =>
    cases J with
    | nil => exact ⟨rfl, (List.cons.inj h).2⟩
    | cons t J => exact absurd ((List.cons.inj h).1 ▸ s.2) (hJ t List.mem_cons_self)
  | cons t a ih =>
    cases J with
    | nil => exact absurd ((List.cons.inj h).1 ▸ s'.2) (ha t List.mem_cons_self)
    | cons t' J =>
      obtain ⟨rfl, h'⟩ := List.cons.inj h
      obtain ⟨rfl, rfl⟩ := ih (fun t ht => ha t (List.mem_cons_of_mem _ ht))
        (fun t ht => hJ t (List.mem_cons_of_mem _ ht)) h'
      exact ⟨rfl, rfl⟩

/-- A token in front of the first semicolon. -/
theorem mem_of_noSemicolon {a J b v : List Token} {t : Token} (s : Terminal .semicolon) (ha : NoSemicolon a)
    (ht : t.kind ≠ .semicolon) (h : a ++ t :: b = J ++ s.1 :: v) : t ∈ J := by
  induction a generalizing J with
  | nil =>
    cases J with
    | nil => exact absurd ((List.cons.inj h).1 ▸ s.2) ht
    | cons t' J => exact (List.cons.inj h).1 ▸ List.mem_cons_self
  | cons t' a ih =>
    cases J with
    | nil => exact absurd ((List.cons.inj h).1 ▸ s.2) (ha t' List.mem_cons_self)
    | cons t'' J =>
      exact List.mem_cons_of_mem _ (ih (fun t ht => ha t (List.mem_cons_of_mem _ ht)) (List.cons.inj h).2)

namespace Simple

variable {J v a b : List Token} {s : Terminal .semicolon}

theorem noSemicolon (h : Simple J) : NoSemicolon J := fun t ht => (h.plain t ht).2.1

theorem ends (h : Simple J) (s' : Terminal .semicolon) (ha : NoSemicolon a) (hw : a ++ [s'.1] = J ++ s.1 :: v) :
    v = [] :=
  (eq_of_noSemicolon s' s ha h.noSemicolon hw).2.symm

theorem no_brace (h : Simple J) (t : Terminal .leftBrace) (ha : NoSemicolon a) (hw : a ++ t.1 :: b = J ++ s.1 :: v) :
    False :=
  (h.plain t.1 (mem_of_noSemicolon s ha (by rw [t.2]; decide) hw)).2.2.1 t.2

theorem no_first (h : Simple J) {t : Token} (ht : t.kind = .kwFor ∨ t.kind = .kwIf ∨ t.kind = .kwWhile)
    (hw : t :: b = J ++ s.1 :: v) : False := by
  cases J with
  | nil =>
    have hk : t.kind = .semicolon := (List.cons.inj hw).1 ▸ s.2
    rw [hk] at ht
    exact absurd ht (by decide)
  | cons t' J =>
    obtain ⟨-, h1, h2, h3⟩ := h.first t' rfl
    rw [(List.cons.inj hw).1] at ht
    exact ht.elim h1 fun ht => ht.elim h2 h3

theorem statement_ends (h : Simple J) (d : Clause .statement) (hw : d.word = J ++ s.1 :: v) : v = [] := by
  cases d with
  | expression e semicolon => exact h.ends semicolon e.noSemicolon hw
  | print keyword e semicolon => exact h.ends semicolon (e.noSemicolon.cons keyword (by decide)) hw
  | «return» keyword e semicolon =>
    have he : NoSemicolon (optionalWord e) := by
      cases e with
      | none => exact noSemicolon_nil
      | some e => exact e.noSemicolon
    exact h.ends semicolon (he.cons keyword (by decide)) hw
  | block opening body closing => exact (h.no_brace opening noSemicolon_nil hw).elim
  | «while» keyword => exact (h.no_first (.inr (.inr keyword.2)) hw).elim
  | ifThen keyword | ifElse keyword => exact (h.no_first (.inr (.inl keyword.2)) hw).elim
  | «for» keyword => exact (h.no_first (.inl keyword.2) hw).elim

/-- No declaration that begins with the tokens goes on behind their semicolon. -/
theorem declaration_ends (h : Simple J) (d : Clause .declaration) (hw : d.word = J ++ s.1 :: v) : v = [] := by
  cases d with
  | statement d => exact h.statement_ends d hw
  | «class» keyword name superclass opening methods closing =>
    have hs : NoSemicolon (superclassWord superclass) := by
      cases superclass with
      | none => exact noSemicolon_nil
      | some s => exact (noSemicolon_nil.cons s.2 (by decide)).cons s.1 (by decide)
    have hw' : keyword.1 :: name.1 :: superclassWord superclass ++ opening.1 :: (methods.word ++ [closing.1]) =
        J ++ s.1 :: v := by simpa [Clause.word] using hw
    exact (h.no_brace opening ((hs.cons name (by decide)).cons keyword (by decide)) hw').elim
  | «fun» keyword f =>
    cases f with
    | function name opening parameters closing bodyOpening body bodyClosing =>
      have hp : NoSemicolon (parameters.elim [] Parameters.word ++ [closing.1]) := by
        refine NoSemicolon.append ?_ (noSemicolon_nil.cons closing (by decide))
        cases parameters with
        | none => exact noSemicolon_nil
        | some ps => exact ps.noSemicolon
      have ha := ((hp.cons opening (by decide)).cons name (by decide)).cons keyword (by decide)
      have hw' : keyword.1 :: name.1 :: opening.1 :: (parameters.elim [] Parameters.word ++ [closing.1]) ++
          bodyOpening.1 :: (body.word ++ [bodyClosing.1]) = J ++ s.1 :: v := by simpa [Clause.word] using hw
      exact (h.no_brace bodyOpening ha hw').elim
  | var d =>
    obtain ⟨keyword, name, initializer, semicolon⟩ := d
    have hi : NoSemicolon (initializer.elim [] fun i => i.1.1 :: i.2.word) := by
      cases initializer with
      | none => exact noSemicolon_nil
      | some i => exact i.2.noSemicolon.cons i.1 (by decide)
    exact h.ends semicolon ((hi.cons name (by decide)).cons keyword (by decide)) hw

end Simple

end LoxSyntax.Grammar
