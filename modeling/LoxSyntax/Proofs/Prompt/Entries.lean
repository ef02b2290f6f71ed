/-
  LoxSyntax.Proofs.Prompt.Entries — which lines make up an entry.

  Lines are taken as long as more braces were opened in them than closed; the entry ends
  with the line that balances them. Only a line that would begin an entry can leave. So one
  reading of a prompt takes an entry, or a line that leaves, or all that is left, and it
  asks once for each line that it takes and once more at the end of input.

  - `readFrom_takes`: what one reading takes, behind lines that left an entry open.
  - `readEntry_takes`: what one reading takes.
-/

import Mathlib.Data.List.TakeWhile
import LoxSyntax.Prompt.Entry

namespace LoxSyntax.Prompt

/-! ## Blanks aside -/

theorem mem_strip_or {line : String} {c : Char} (h : c ∈ line.toList) :
    Text.isBlank c = true ∨ c ∈ (Text.strip line).toList := by
  have hdrop : ∀ cs : List Char, c ∈ cs → Text.isBlank c = true ∨ c ∈ cs.dropWhile Text.isBlank := by
    intro cs hc
    rw [← List.takeWhile_append_dropWhile (p := Text.isBlank) (l := cs)] at hc
    exact (List.mem_append.1 hc).imp_left List.mem_takeWhile_imp
  rw [Text.strip, String.toList_ofList, Text.trimBoth, Text.dropTrailing]
  rcases hdrop _ h with hb | hm
  · exact .inl hb
  · simpa using hdrop _ (List.mem_reverse.2 hm)

theorem mem_of_mem_strip {line : String} {c : Char} (h : c ∈ (Text.strip line).toList) : c ∈ line.toList := by
  rw [Text.strip, String.toList_ofList, Text.trimBoth, Text.dropTrailing, List.mem_reverse] at h
  exact (List.dropWhile_sublist _).mem (List.mem_reverse.1 ((List.dropWhile_sublist _).mem h))

/-- A line with a character of its own is not the word, blanks aside. -/
theorem strip_ne {line word : String} {c : Char} (hc : c ∈ line.toList) (hb : Text.isBlank c = false)
    (hw : c ∉ word.toList) : Text.strip line ≠ word := by
  rintro rfl
  rcases mem_strip_or hc with h | h
  · rw [hb] at h
    cases h
  · exact hw h

/-! ## Lines of an entry -/

/-- How many more braces some lines open than they close. -/
def openIn : List String → Int
  | [] => 0
  | l :: ls => balance l + openIn ls

/-- Lines that leave an entry open: some brace is open behind each, and the first does not
    leave. -/
structure Begun (ls : List String) : Prop where
  first : ∀ l ∈ ls.head?, isLeaving l = false
  isOpen : ∀ p, p <+: ls → p ≠ [] → 0 < openIn p

/-- Lines that make up one entry: some brace is open behind each but the last, and the
    first does not leave. -/
structure IsEntry (ls : List String) : Prop where
  ne_nil : ls ≠ []
  first : ∀ l ∈ ls.head?, isLeaving l = false
  isOpen : ∀ p, p <+: ls → p ≠ [] → p ≠ ls → 0 < openIn p
  closed : openIn ls ≤ 0

/-- The text of an entry: its lines, with line ends between them. -/
def text (ls : List String) : String := String.intercalate "\n" ls

theorem text_cons_cons (l l' : String) (ls : List String) : text (l :: l' :: ls) = l ++ "\n" ++ text (l' :: ls) := by
  rw [text, String.intercalate_cons_cons, text]

/-- What asks for a line when `n` of the entry were read. -/
def promptAt (n : Nat) : String := if n = 0 then "> " else ". "

/-- The prompts of `n` lines behind `first` ones. -/
def promptsFrom (first n : Nat) : String := String.join ((List.range' first n).map promptAt)

/-- The prompts of `n` lines. -/
def prompts (n : Nat) : String := promptsFrom 0 n

theorem promptsFrom_succ (first n : Nat) : promptsFrom first (n + 1) = promptAt first ++ promptsFrom (first + 1) n := by
  simp [promptsFrom, List.range'_succ]

theorem promptsFrom_one (first : Nat) : promptsFrom first 1 = promptAt first := by simp [promptsFrom]

/-- In the lines of an entry, before they are read, some brace is open behind each but the last. -/
theorem IsEntry.isOpen_map {taken : List (List Char)} (h : IsEntry (taken.map content)) :
    ∀ before, before <+: taken → before ≠ [] → before ≠ taken → 0 < openIn (before.map content) := by
  intro before hb hne hlast
  refine h.isOpen _ (hb.map content) (by simpa using hne) fun he => hlast (hb.eq_of_length ?_)
  simpa using congrArg List.length he

/-! ## Behind lines that were read -/

theorem begun_nil : Begun [] := ⟨by simp, fun p hp hne => absurd (List.prefix_nil.1 hp) hne⟩

theorem openIn_append_singleton (ls : List String) (l : String) : openIn (ls ++ [l]) = openIn ls + balance l := by
  induction ls with
  | nil => simp [openIn]
  | cons l' ls ih => rw [List.cons_append, openIn, openIn, ih, Int.add_assoc]

/-- The reading behind some lines. -/
def Pending.behind (ls : List String) : Pending := ⟨ls.reverse, openIn ls⟩

theorem prompt_behind (ls : List String) : (Pending.behind ls).prompt = promptAt ls.length := by
  cases ls <;> simp [Pending.behind, Pending.prompt, promptAt]

/-- The line leaves: it would begin an entry. -/
def LeavesAt (ls : List String) (l : String) : Prop := ls = [] ∧ isLeaving l = true

instance (ls : List String) (l : String) : Decidable (LeavesAt ls l) := inferInstanceAs (Decidable (_ ∧ _))

/-- The first line of an entry does not leave. -/
theorem first_of_not_leavesAt {ls : List String} {l : String} (hb : Begun ls) (h : ¬LeavesAt ls l) :
    ∀ first ∈ (ls ++ [l]).head?, isLeaving first = false := by
  intro first hf
  cases ls with
  | nil =>
    obtain rfl : l = first := by simpa using hf
    exact Bool.eq_false_iff.2 fun hl => h ⟨rfl, hl⟩
  | cons l' ls => exact hb.first first hf

theorem feed_behind (ls : List String) (l : String) : (Pending.behind ls).feed l =
    if LeavesAt ls l then .leave
    else if openIn (ls ++ [l]) ≤ 0 then .entry (text (ls ++ [l])) else .more (.behind (ls ++ [l])) := by
  simp only [Pending.feed, Pending.behind, openIn_append_singleton, List.isEmpty_reverse, Bool.and_eq_true,
    List.isEmpty_iff, List.reverse_append, List.reverse_cons, List.reverse_nil, List.nil_append, List.singleton_append,
    List.reverse_reverse, text, LeavesAt]

/-- Another line leaves the entry open. -/
theorem Begun.append {ls : List String} {l : String} (hb : Begun ls) (hl : ¬LeavesAt ls l)
    (ho : 0 < openIn (ls ++ [l])) : Begun (ls ++ [l]) := by
  refine ⟨first_of_not_leavesAt hb hl, ?_⟩
  intro p hp hne
  rcases List.prefix_concat_iff.1 hp with rfl | hp
  · exact ho
  · exact hb.isOpen p hp hne

/-- Another line ends the entry. -/
theorem Begun.isEntry {ls : List String} {l : String} (hb : Begun ls) (hl : ¬LeavesAt ls l)
    (hc : openIn (ls ++ [l]) ≤ 0) : IsEntry (ls ++ [l]) := by
  refine ⟨by simp, first_of_not_leavesAt hb hl, ?_, hc⟩
  intro p hp hne hlast
  rcases List.prefix_concat_iff.1 hp with rfl | hp
  · exact absurd rfl hlast
  · exact hb.isOpen p hp hne

/-- What one reading takes of the lines, behind those of an entry that is open. -/
inductive Takes (ls : List String) : List (List Char) → Reading → Prop where
  | entry {taken rest : List (List Char)} (hne : taken ≠ []) (he : IsEntry (ls ++ taken.map content)) :
      Takes ls (taken ++ rest)
        ⟨some (text (ls ++ taken.map content)), promptsFrom ls.length taken.length, rest⟩
  | leave {line : List Char} {rest : List (List Char)} (hl : LeavesAt ls (content line)) :
      Takes ls (line :: rest) ⟨none, promptsFrom ls.length 1, rest⟩
  | endOfInput {taken : List (List Char)} (hb : Begun (ls ++ taken.map content)) :
      Takes ls taken ⟨none, promptsFrom ls.length (taken.length + 1), []⟩

/-- One line more in front. -/
theorem Takes.cons {ls : List String} {line : List Char} {input : List (List Char)} {r : Reading}
    (h : Takes (ls ++ [content line]) input r) :
    Takes ls (line :: input) { r with prompts := promptAt ls.length ++ r.prompts } := by
  have hls : ∀ taken : List (List Char), ls ++ [content line] ++ taken.map content =
      ls ++ (line :: taken).map content := fun taken => by simp
  have hp : ∀ n, promptAt ls.length ++ promptsFrom (ls ++ [content line]).length n = promptsFrom ls.length (n + 1) := by
    intro n
    rw [promptsFrom_succ, List.length_append, List.length_singleton]
  cases h with
  | @entry taken rest _ he =>
    rw [hls] at he ⊢
    rw [hp]
    exact Takes.entry (List.cons_ne_nil line taken) he
  | leave hl => exact absurd hl.1 (by simp)
  | endOfInput hb =>
    rw [hls] at hb
    rw [hp]
    exact .endOfInput hb

theorem readFrom_takes {ls : List String} (hb : Begun ls) (input : List (List Char)) :
    Takes ls input (readFrom (.behind ls) input) := by
  induction input generalizing ls with
  | nil =>
    rw [readFrom, prompt_behind, ← promptsFrom_one]
    exact .endOfInput (by simpa using hb)
  | cons line rest ih =>
    rw [readFrom, feed_behind, prompt_behind]
    by_cases hl : LeavesAt ls (content line)
    · rw [if_pos hl, ← promptsFrom_one]
      exact .leave hl
    · rw [if_neg hl]
      by_cases ho : openIn (ls ++ [content line]) ≤ 0
      · rw [if_pos ho, ← promptsFrom_one]
        exact Takes.entry (List.cons_ne_nil line []) (hb.isEntry hl ho)
      · rw [if_neg ho]
        exact (ih (hb.append hl (Int.not_le.1 ho))).cons

/-- What one reading takes. -/
theorem readEntry_takes (input : List (List Char)) : Takes [] input (readEntry input) := readFrom_takes begun_nil input

end LoxSyntax.Prompt
