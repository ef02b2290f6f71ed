/-
  LoxSyntax.Proofs.Printing.Form — printed forms, and why they are read in one way.

  A form is an atom, a text between quotes, or a list of forms in parentheses with a space
  between them. It is proper when no atom is empty or has a space, a line feed, a
  parenthesis or a quote in it, and no text between quotes has a quote. Then the end of a
  form is told by its start and by the character behind it, so the characters determine
  the form, also where more forms follow.

  - `Form.unique`: a proper form is determined by the characters.
  - `Form.lines_injective`: so are the forms of lines.
-/

import LoxSyntax.Proofs.Json.Numeral

namespace LoxSyntax.Printing

open Lexical

inductive Form where
  | atom (text : String)
  | quoted (text : String)
  | list (parts : List Form)

namespace Form

mutual

def chars : Form → List Char
  | .atom text => text.toList
  | .quoted text => '"' :: (text.toList ++ ['"'])
  | .list [] => ['(', ')']
  | .list (f :: fs) => '(' :: (f.chars ++ (charsBehind ' ' fs ++ [')']))

/-- Some more forms, with a character in front of each. -/
def charsBehind (separator : Char) : List Form → List Char
  | [] => []
  | f :: fs => separator :: (f.chars ++ charsBehind separator fs)

end

def text (f : Form) : String := String.ofList f.chars

/-- The forms of lines. -/
def lines : List Form → List Char
  | [] => []
  | f :: fs => f.chars ++ charsBehind '\n' fs

/-- The character may stand in an atom. -/
def isPlain (c : Char) : Bool := !([' ', '\n', '(', ')', '"'].contains c)

inductive Proper : Form → Prop where
  | atom {text : String} (hne : text ≠ "") (h : ∀ c ∈ text.toList, isPlain c = true) : Proper (.atom text)
  | quoted {text : String} (h : ∀ c ∈ text.toList, (c != '"') = true) : Proper (.quoted text)
  | list {parts : List Form} (h : ∀ f ∈ parts, Proper f) : Proper (.list parts)

/-! ## The characters of lists -/

theorem intercalate_chars (separator : Char) (fs : List Form) : ∀ f : Form,
    [separator].intercalate ((f :: fs).map chars) = f.chars ++ charsBehind separator fs := by
  induction fs with
  | nil => simp [charsBehind]
  | cons g fs ih =>
    intro f
    have hg := ih g
    rw [List.map_cons] at hg ⊢
    rw [List.map_cons, List.intercalate_cons_cons, hg, charsBehind]
    simp

theorem chars_list (fs : List Form) : (list fs).chars = '(' :: ([' '].intercalate (fs.map chars) ++ [')']) := by
  cases fs with
  | nil => simp [chars]
  | cons f fs => rw [chars, intercalate_chars, List.append_assoc]

theorem lines_eq (fs : List Form) : lines fs = ['\n'].intercalate (fs.map chars) := by
  cases fs with
  | nil => rfl
  | cons f fs => rw [intercalate_chars, lines]

/-! ## A form is determined -/

variable {f g : Form} {fs gs : List Form} {rest rest' : List Char}

theorem Proper.chars_eq_cons (h : f.Proper) : ∃ c cs, f.chars = c :: cs ∧ ([' ', '\n', ')'].contains c) = false := by
  cases h with
  | @atom text hne h =>
    obtain ⟨c, cs, hc⟩ := List.exists_cons_of_ne_nil (mt String.toList_eq_nil_iff.1 hne)
    have hp := h c (by rw [hc]; exact List.mem_cons_self)
    refine ⟨c, cs, by rw [chars, hc], ?_⟩
    simp [isPlain] at hp
    simp [hp]
  | quoted h => exact ⟨_, _, by rw [chars], rfl⟩
  | @list parts h =>
    rw [chars_list]
    exact ⟨_, _, rfl, rfl⟩

/-- What starts with a plain character is an atom. -/
theorem not_plain_of_append {text : String} {c : Char} {cs : List Char} (hne : text ≠ "")
    (h : ∀ c ∈ text.toList, isPlain c = true) (hc : isPlain c = false) (he : text.toList ++ rest = c :: cs) :
    False := by
  obtain ⟨d, ds, hd⟩ := List.exists_cons_of_ne_nil (mt String.toList_eq_nil_iff.1 hne)
  rw [hd] at he h
  have hp := h d List.mem_cons_self
  rw [(List.cons.inj he).1, hc] at hp
  cases hp

theorem stops_charsBehind {separator : Char} (hs : isPlain separator = false) (hr : Stops isPlain rest)
    (fs : List Form) : Stops isPlain (charsBehind separator fs ++ rest) := by
  cases fs with
  | nil => exact hr
  | cons f fs => exact stops_cons.2 hs

mutual

/-- A proper form is determined by the characters. -/
theorem unique : ∀ {f g : Form} {rest rest' : List Char}, f.Proper → g.Proper → Stops isPlain rest →
    Stops isPlain rest' → f.chars ++ rest = g.chars ++ rest' → f = g ∧ rest = rest'
  | .atom text, g, rest, rest', .atom hne h, hg, hr, hr', he => by
    rw [chars] at he
    cases hg with
    | atom hne' h' =>
      rw [chars] at he
      obtain ⟨ht, hrest⟩ := JsonText.run_unique h h' hr hr' he
      exact ⟨by rw [String.toList_inj.1 ht], hrest⟩
    | quoted h' => exact (not_plain_of_append hne h rfl (he.trans (by rw [chars]; rfl))).elim
    | list h' => exact (not_plain_of_append hne h rfl (he.trans (by rw [chars_list]; rfl))).elim
  | .quoted text, g, rest, rest', .quoted h, hg, hr, hr', he => by
    cases hg with
    | atom hne' h' =>
      rw [chars, chars] at he
      exact (not_plain_of_append hne' h' rfl he.symm).elim
    | @quoted text' h' =>
      have he : text.toList ++ '"' :: rest = text'.toList ++ '"' :: rest' := by simpa [chars] using he
      obtain ⟨ht, hrest⟩ := JsonText.run_unique h h' (stops_cons.2 rfl) (stops_cons.2 rfl) he
      exact ⟨by rw [String.toList_inj.1 ht], (List.cons.inj hrest).2⟩
    | list h' =>
      rw [chars, chars_list] at he
      cases (List.cons.inj he).1
  | .list [], g, rest, rest', .list h, hg, hr, hr', he => by
    cases hg with
    | atom hne' h' => exact (not_plain_of_append hne' h' (c := '(') rfl (he.symm)).elim
    | quoted h' =>
      rw [chars, chars] at he
      cases (List.cons.inj he).1
    | @list parts h' =>
      cases parts with
      | nil => exact ⟨rfl, by simpa [chars] using he⟩
      | cons g gs =>
        obtain ⟨c, cs, hc, hn⟩ := (h' g List.mem_cons_self).chars_eq_cons
        simp only [chars, hc, List.cons_append, List.cons.injEq, true_and] at he
        rw [← he.1] at hn
        cases hn
  | .list (f :: fs), g, rest, rest', .list h, hg, hr, hr', he => by
    cases hg with
    | atom hne' h' =>
      exact (not_plain_of_append hne' h' (c := '(') rfl (he.symm)).elim
    | quoted h' =>
      rw [chars, chars] at he
      cases (List.cons.inj he).1
    | @list parts h' =>
      cases parts with
      | nil =>
        obtain ⟨c, cs, hc, hn⟩ := (h f List.mem_cons_self).chars_eq_cons
        simp only [chars, hc, List.cons_append, List.cons.injEq, true_and] at he
        rw [he.1] at hn
        cases hn
      | cons g gs =>
        obtain ⟨hf, hfs⟩ := List.forall_mem_cons.1 h
        obtain ⟨hg, hgs⟩ := List.forall_mem_cons.1 h'
        have hclose : ∀ rest : List Char, Stops isPlain (')' :: rest) := fun _ => stops_cons.2 rfl
        have he : f.chars ++ (charsBehind ' ' fs ++ ')' :: rest) = g.chars ++ (charsBehind ' ' gs ++ ')' :: rest') := by
          simpa [chars] using he
        obtain ⟨rfl, hmore⟩ :=
          unique hf hg (stops_charsBehind rfl (hclose rest) fs) (stops_charsBehind rfl (hclose rest') gs) he
        obtain ⟨rfl, hclosed⟩ := behind_unique rfl hfs hgs (hclose rest) (hclose rest') (by simp) (by simp) hmore
        exact ⟨rfl, (List.cons.inj hclosed).2⟩

/-- So are the forms behind it, where what follows does not go on with another one. -/
theorem behind_unique {separator : Char} (hs : isPlain separator = false) :
    ∀ {fs gs : List Form} {rest rest' : List Char}, (∀ f ∈ fs, f.Proper) → (∀ g ∈ gs, g.Proper) →
      Stops isPlain rest → Stops isPlain rest' → rest.head? ≠ some separator → rest'.head? ≠ some separator →
      charsBehind separator fs ++ rest = charsBehind separator gs ++ rest' → fs = gs ∧ rest = rest'
  | [], [], _, _, _, _, _, _, _, _, he => ⟨rfl, he⟩
  | [], g :: gs, rest, rest', _, _, _, _, hn, _, he => by
    rw [charsBehind, charsBehind, List.nil_append] at he
    exact absurd (by rw [he]; rfl) hn
  | f :: fs, [], rest, rest', _, _, _, _, _, hn, he => by
    rw [charsBehind, charsBehind, List.nil_append] at he
    exact absurd (by rw [← he]; rfl) hn
  | f :: fs, g :: gs, rest, rest', hf, hg, hr, hr', hn, hn', he => by
    obtain ⟨hf, hfs⟩ := List.forall_mem_cons.1 hf
    obtain ⟨hg, hgs⟩ := List.forall_mem_cons.1 hg
    simp only [charsBehind, List.cons_append, List.append_assoc, List.cons.injEq, true_and] at he
    obtain ⟨rfl, hmore⟩ := unique hf hg (stops_charsBehind hs hr fs) (stops_charsBehind hs hr' gs) he
    obtain ⟨rfl, hrest⟩ := behind_unique hs hfs hgs hr hr' hn hn' hmore
    exact ⟨rfl, hrest⟩

end

/-- Lines are determined by the characters. -/
theorem lines_injective (hf : ∀ f ∈ fs, f.Proper) (hg : ∀ g ∈ gs, g.Proper) (h : lines fs = lines gs) : fs = gs := by
  have hne : ∀ {f : Form} {fs : List Form}, f.Proper → lines (f :: fs) ≠ [] := by
    intro f fs hp he
    obtain ⟨c, cs, hc, -⟩ := hp.chars_eq_cons
    rw [lines, hc] at he
    cases he
  cases fs with
  | nil =>
    cases gs with
    | nil => rfl
    | cons g gs => exact absurd h.symm (hne (hg g List.mem_cons_self))
  | cons f fs =>
    cases gs with
    | nil => exact absurd h (hne (hf f List.mem_cons_self))
    | cons g gs =>
      obtain ⟨hf, hfs⟩ := List.forall_mem_cons.1 hf
      obtain ⟨hg, hgs⟩ := List.forall_mem_cons.1 hg
      have hend : Stops isPlain [] := fun c hc => by cases hc
      have hstops : ∀ fs, Stops isPlain (charsBehind '\n' fs) := fun fs =>
        List.append_nil (charsBehind '\n' fs) ▸ stops_charsBehind rfl hend fs
      obtain ⟨rfl, he⟩ := unique hf hg (hstops fs) (hstops gs) h
      rw [← List.append_nil (charsBehind _ fs), ← List.append_nil (charsBehind _ gs)] at he
      obtain ⟨rfl, -⟩ := behind_unique rfl hfs hgs hend hend (by simp) (by simp) he
      rfl

end Form

end LoxSyntax.Printing
