/-
  LoxSyntax.Proofs.Json.WrittenString — a string is determined by its text, and is written
  by a text of it.

  Each character ends where its escape ends, and what it stands for is fixed by then: the
  two halves of a surrogate pair stand for no character of their own. The written form
  escapes every character that may not stand for itself, and all from U+007F on.

  - `CharText.unique`, `StringText.unique`: what a text stands for, and where it ends.
  - `stringText_stringChars`: the written form of a string.
-/

import LoxSyntax.Proofs.Json.Grammar

namespace LoxSyntax.JsonText

open Json

variable {r r' : List Char}

/-! ## Texts determine strings -/

theorem CodeUnit.unique {us us' : List Char} {u u' : Nat} (h : CodeUnit us u) (h' : CodeUnit us' u')
    (he : us ++ r = us' ++ r') : u = u' ∧ r = r' := by
  obtain ⟨rfl, hr⟩ := List.append_inj he (h.length.trans h'.length.symm)
  exact ⟨Option.some.inj (h.value.symm.trans h'.value), hr⟩

theorem toNat_inj {c c' : Char} (h : c.toNat = c'.toNat) : c = c' := by
  rw [← Char.ofNat_toNat c, h, Char.ofNat_toNat]

/-- A character is no surrogate. -/
theorem not_surrogate (c : Char) : ¬(0xd800 ≤ c.toNat ∧ c.toNat < 0xe000) := by
  have h := c.valid
  intro hs
  rcases h with h | h
  · exact absurd hs.1 (Nat.not_le.2 h)
  · exact absurd hs.2 (by have := h.1; simp only [Char.toNat, UInt32.toNat] at *; omega)

theorem shortEscapes_unique {e c c' : Char} (h : (e, c) ∈ shortEscapes) (h' : (e, c') ∈ shortEscapes) : c = c' := by
  have hall : ∀ p ∈ shortEscapes, ∀ p' ∈ shortEscapes, p.1 = p'.1 → p.2 = p'.2 := by decide
  exact hall _ h _ h' rfl

/-- The letter of code units escapes nothing on its own. -/
theorem u_not_short (c : Char) : ('u', c) ∉ shortEscapes := by simp [shortEscapes]

/-- What stands behind a character starts where its text ends. -/
theorem CharText.unique {t t' : List Char} {c c' : Char} (h : CharText t c) (h' : CharText t' c')
    (he : t ++ r = t' ++ r') : c = c' ∧ r = r' := by
  cases h with
  | plain _ _ hb =>
    cases h' with
    | plain => exact List.cons.inj he
    | short | unit | pair => exact absurd (List.cons.inj he).1 hb
  | @short e c h =>
    cases h' with
    | plain _ _ hb => exact absurd (List.cons.inj he).1.symm hb
    | short h' =>
      obtain ⟨rfl, hr⟩ := List.cons.inj (List.cons.inj he).2
      exact ⟨shortEscapes_unique h h', hr⟩
    | unit | pair =>
      obtain ⟨rfl, -⟩ := List.cons.inj (List.cons.inj he).2
      exact absurd h (u_not_short c)
  | @unit us c h =>
    cases h' with
    | plain _ _ hb => exact absurd (List.cons.inj he).1.symm hb
    | short h' =>
      obtain ⟨rfl, -⟩ := List.cons.inj (List.cons.inj he).2
      exact absurd h' (u_not_short _)
    | unit h' =>
      obtain ⟨hc, hr⟩ := h.unique h' (List.cons.inj (List.cons.inj he).2).2
      exact ⟨toNat_inj hc, hr⟩
    | pair hu' hv' hhigh =>
      simp only [List.cons_append, List.append_assoc, List.cons.injEq, true_and] at he
      obtain ⟨hc, -⟩ := h.unique hu' he
      exact absurd ⟨hc ▸ hhigh.1, by omega⟩ (not_surrogate c)
  | @pair us vs u v c hu hv hhigh hlow hc =>
    cases h' with
    | plain _ _ hb => exact absurd (List.cons.inj he).1.symm hb
    | short h' =>
      obtain ⟨rfl, -⟩ := List.cons.inj (List.cons.inj he).2
      exact absurd h' (u_not_short _)
    | unit h' =>
      simp only [List.cons_append, List.append_assoc, List.cons.injEq, true_and] at he
      obtain ⟨hc', -⟩ := hu.unique h' he
      exact absurd ⟨hc' ▸ hhigh.1, by omega⟩ (not_surrogate c')
    | pair hu' hv' _ _ hc' =>
      simp only [List.cons_append, List.append_assoc, List.cons.injEq, true_and] at he
      obtain ⟨rfl, he⟩ := hu.unique hu' he
      obtain ⟨rfl, hr⟩ := hv.unique hv' (List.cons.inj (List.cons.inj he).2).2
      exact ⟨toNat_inj (hc.trans hc'.symm), hr⟩

/-- The text of a character does not begin with a quote. -/
theorem CharText.ne_quote {t : List Char} {c : Char} (h : CharText t c) : t ++ r ≠ '"' :: r' := by
  cases h with
  | plain _ hq _ => exact fun he => hq (List.cons.inj he).1
  | short | unit | pair => exact fun he => absurd (List.cons.inj he).1 (by decide)

theorem Body.unique {ts ts' cs cs' : List Char} (h : Body ts cs) (h' : Body ts' cs')
    (he : ts ++ '"' :: r = ts' ++ '"' :: r') : cs = cs' ∧ r = r' := by
  induction h generalizing ts' cs' with
  | nil =>
    cases h' with
    | nil => exact ⟨rfl, (List.cons.inj he).2⟩
    | cons h' _ =>
      rw [List.append_assoc] at he
      exact absurd he.symm h'.ne_quote
  | cons h _ ih =>
    cases h' with
    | nil =>
      rw [List.append_assoc] at he
      exact absurd he h.ne_quote
    | cons h' hs' =>
      rw [List.append_assoc, List.append_assoc] at he
      obtain ⟨rfl, he⟩ := h.unique h' he
      obtain ⟨rfl, hr⟩ := ih hs' he
      exact ⟨rfl, hr⟩

/-- What a text stands for, and where it ends. -/
theorem StringText.unique {cs cs' : List Char} {s s' : String} (h : StringText cs s) (h' : StringText cs' s')
    (he : cs ++ r = cs' ++ r') : s = s' ∧ r = r' := by
  obtain ⟨h⟩ := h
  obtain ⟨h'⟩ := h'
  simp only [List.cons_append, List.append_assoc, List.cons.injEq, true_and, List.nil_append] at he
  obtain ⟨rfl, hr⟩ := h.unique h' he
  exact ⟨rfl, hr⟩

/-! ## Code units are written in four digits -/

theorem hexDigit?_digitChar : ∀ n < 16, hexDigit? (Nat.digitChar n) = some n := by decide

theorem hexValue?_append (cs : List Char) (c : Char) : hexValue? (cs ++ [c]) =
    (hexValue? cs).bind fun n => (hexDigit? c).map (16 * n + ·) := by
  simp only [hexValue?, List.foldlM_append, List.foldlM_cons, List.foldlM_nil]
  cases List.foldlM (fun n c => (hexDigit? c).map (16 * n + ·)) 0 cs <;> simp

theorem hexValue?_toDigits (n : Nat) : hexValue? (Nat.toDigits 16 n) = some n := by
  induction n using Nat.strongRecOn with
  | ind n ih =>
    by_cases hn : n < 16
    · rw [Nat.toDigits_of_lt_base hn]
      simp [hexValue?, hexDigit?_digitChar n hn]
    · rw [Nat.toDigits_of_base_le (by decide) (by omega), hexValue?_append, ih (n / 16) (by omega),
        hexDigit?_digitChar _ (Nat.mod_lt n (by decide))]
      exact congrArg some (Nat.div_add_mod n 16)

/-- Zeros in front change nothing. -/
theorem hexValue?_zeros (k : Nat) (cs : List Char) : hexValue? (List.replicate k '0' ++ cs) = hexValue? cs := by
  induction k with
  | zero => rfl
  | succ k ih =>
    rw [List.replicate_succ, List.cons_append]
    exact ih

theorem codeUnit_hex {u : Nat} (h : u < 0x10000) : CodeUnit (Text.hex 4 u) u := by
  constructor
  · have hlen := (Nat.length_toDigits_le_iff (b := 16) (k := 4) (by decide) (by decide)).2 h
    rw [Text.hex, Text.length_padLeft]
    omega
  · rw [Text.hex, Text.padLeft, hexValue?_zeros, hexValue?_toDigits]

/-! ## The written form -/

theorem toNat_lt (c : Char) : c.toNat < 0x110000 := by
  rcases c.valid with h | h
  · exact Nat.lt_trans h (by decide)
  · exact h.2

/-- The code units of a character, each escaped. -/
theorem charText_units (c : Char) : CharText ((units16 c.toNat).flatMap escapeUnit) c := by
  have hlt := toNat_lt c
  by_cases hc : c.toNat < 0x10000
  · rw [units16_of_lt hc, List.flatMap_singleton]
    exact .unit (codeUnit_hex hc)
  · rw [units16, if_neg hc, List.flatMap_cons, List.flatMap_singleton, escapeUnit, escapeUnit, List.cons_append,
      List.cons_append]
    have hu := codeUnit_hex (u := 0xd800 + (c.toNat - 0x10000) / 0x400) (by omega)
    have hv := codeUnit_hex (u := 0xdc00 + (c.toNat - 0x10000) % 0x400) (by omega)
    exact .pair hu hv (by omega) (by omega) (by omega)

theorem charText_escapeChar (c : Char) : CharText (escapeChar c) c := by
  unfold escapeChar
  split
  · next h => subst h; exact .short (by decide)
  split
  · next h => subst h; exact .short (by decide)
  split
  · next h => subst h; exact .short (by decide)
  split
  · next h => subst h; exact .short (by decide)
  split
  · next h => subst h; exact .short (by decide)
  split
  · next h => subst h; exact .short (by decide)
  split
  · next h => subst h; exact .short (by decide)
  split
  · next hq hb _ _ _ _ _ hl =>
    simp only [Bool.and_eq_true, decide_eq_true_eq] at hl
    exact .plain hl.1 hq hb
  · exact charText_units c

theorem body_escaped (cs : List Char) : Body (cs.flatMap escapeChar) cs := by
  induction cs with
  | nil => exact .nil
  | cons c cs ih => exact .cons (charText_escapeChar c) ih

/-- The written form of a string is a text of it. -/
theorem stringText_stringChars (s : String) : StringText (stringChars s) s := by
  have h := StringText.mk (body_escaped s.toList)
  rwa [String.ofList_toList] at h

end LoxSyntax.JsonText
