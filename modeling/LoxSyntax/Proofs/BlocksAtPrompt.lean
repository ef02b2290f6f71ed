/-
  LoxSyntax.Proofs.BlocksAtPrompt — the prompt and the blocks of the program.

  The prompt counts braces as characters. The tokens of the lines have the same surplus
  when the braces in their comments and strings balance; so an entry ends with its blocks
  exactly when no hidden brace tips the count before. An accepted line opens no block and
  never leaves, yet it is answered at once only when it hides no more opening braces than
  closing ones.

  - `openIn_eq_balance`: the braces of lines are those of their text.
  - `follows_iff`: when a reading follows the blocks.
  - `isLeaving_of_accepted`: a line that is a program does not leave.
  - `readEntry_blocks`: braces, blocks and entries.
  - `not_follows_hiddenBrace`: a program that is never answered.
-/

import Mathlib.Data.List.Infix
import LoxSyntax.Proofs.AcceptedSources
import LoxSyntax.Proofs.Grammar.Blocks
import LoxSyntax.Proofs.Prompt.Entries

namespace LoxSyntax.Prompt

open Lexical Grammar

/-! ## Braces of lines -/

theorem balance_eq_surplus (line : String) : balance line = surplus line.toList := rfl

/-- The braces of lines are those of their text. -/
theorem openIn_eq_balance (ls : List String) : openIn ls = balance (text ls) := by
  induction ls with
  | nil => rfl
  | cons l ls ih =>
    cases ls with
    | nil => simp [openIn, text]
    | cons l' ls =>
      have hfeed : surplus "\n".toList = 0 := by decide
      rw [openIn, ih, text_cons_cons]
      simp only [balance_eq_surplus, String.toList_append, surplus_append, hfeed]
      omega

/-- The characters of a source have the surplus of its tokens and of what is hidden. -/
theorem balance_eq {source : String} {ss : List Segment} (h : Splits ss source.toList) :
    balance source = blocks (scan source).tokens + surplus (hidden ss) := by
  have heof : blocks [eofToken .start ss] = 0 := rfl
  rw [balance_eq_surplus, surplus_eq_blocks_add h .start, scan_eq h, blocks_append, heof, Int.add_zero]

/-! ## Following the blocks -/

/-- The tokens of the lines open more blocks than they close. -/
def OpenBlocks (ls : List String) : Prop := 0 < blocks (scan (text ls)).tokens

instance (ls : List String) : Decidable (OpenBlocks ls) := inferInstanceAs (Decidable (_ < _))

/-- Some lines of the input at its start: behind each of them but the last a block is open. -/
structure Reached (input taken : List (List Char)) : Prop where
  isPrefix : taken <+: input
  ne_nil : taken ≠ []
  isOpen : ∀ before, before <+: taken → before ≠ [] → before ≠ taken → OpenBlocks (before.map content)

/-- The reading goes on as long as a block is open. -/
inductive Follows (input : List (List Char)) (r : Reading) : Prop where
  | entry (taken rest : List (List Char)) (hinput : input = taken ++ rest) (h : Reached input taken)
      (hclosed : ¬OpenBlocks (taken.map content))
      (hr : r = ⟨some (text (taken.map content)), prompts taken.length, rest⟩)
  | endOfInput (hopen : ∀ taken, Reached input taken → OpenBlocks (taken.map content))
      (hr : r = ⟨none, prompts (input.length + 1), []⟩)

/-- Braces and blocks are both open in the lines, or neither. -/
def Agrees (ls : List String) : Prop := 0 < openIn ls ↔ OpenBlocks ls

instance (ls : List String) : Decidable (Agrees ls) := inferInstanceAs (Decidable (_ ↔ _))

variable {input taken : List (List Char)}

/-- Where braces and blocks agree, lines that leave braces open leave blocks open. -/
theorem reached_of_isOpen (hagrees : ∀ t, Reached input t → Agrees (t.map content)) (n : Nat) :
    ∀ {taken : List (List Char)}, taken.length ≤ n → taken <+: input → taken ≠ [] →
      (∀ before, before <+: taken → before ≠ [] → before ≠ taken → 0 < openIn (before.map content)) →
      Reached input taken := by
  induction n with
  | zero => exact fun hn _ hne _ => absurd (List.length_eq_zero_iff.1 (Nat.le_zero.1 hn)) hne
  | succ n ih =>
    intro taken hn hbegins hne hopen
    refine ⟨hbegins, hne, fun before hb hbne hlast => ?_⟩
    have hlen : before.length < taken.length :=
      Nat.lt_of_le_of_ne hb.length_le fun he => hlast (hb.eq_of_length he)
    have hreached : Reached input before := by
      refine ih (by omega) (hb.trans hbegins) hbne fun b hbb hne' hlast' => ?_
      refine hopen b (hbb.trans hb) hne' fun he => hlast' (hbb.eq_of_length ?_)
      have := hbb.length_le
      rw [he] at *
      omega
    exact (hagrees before hreached).1 (hopen before hb hbne hlast)

/-- Two starts of the input with an open block behind each line but the last: if the first is closed, the other
    is not longer. -/
theorem Reached.isPrefix_of_closed {t : List (List Char)} (h : Reached input t)
    (hclosed : ¬OpenBlocks (taken.map content)) (hbegins : taken <+: input) (hne : taken ≠ []) : t <+: taken := by
  rcases List.prefix_or_prefix_of_prefix h.isPrefix hbegins with ht | ht
  · exact ht
  · by_cases he : taken = t
    · exact he ▸ List.prefix_refl _
    · exact absurd (h.isOpen taken ht hne he) hclosed

/-- A reading follows the blocks exactly when braces and blocks agree in the lines that it
    looks at. -/
theorem follows_iff (hfirst : ∀ line ∈ input.head?, isLeaving (content line) = false) :
    Follows input (readEntry input) ↔ ∀ taken, Reached input taken → Agrees (taken.map content) := by
  have ht := readEntry_takes input
  generalize readEntry input = r at ht
  constructor
  · intro hf t hreached
    cases ht with
    | leave hl => exact absurd hl.2 (by rw [hfirst _ rfl]; exact Bool.false_ne_true)
    | @entry taken rest hne he =>
      cases hf with
      | endOfInput _ hr => cases (Reading.mk.inj hr).1
      | entry taken' rest' hinput h hclosed hr =>
        obtain ⟨-, -, rfl⟩ := Reading.mk.inj hr
        obtain rfl := List.append_cancel_right hinput
        by_cases hlast : t = taken
        · subst hlast
          exact iff_of_false (Int.not_lt.2 he.closed) hclosed
        · have hbegins := hreached.isPrefix_of_closed hclosed h.isPrefix hne
          exact iff_of_true (he.isOpen_map t hbegins hreached.ne_nil hlast) (h.isOpen t hbegins hreached.ne_nil hlast)
    | endOfInput hb =>
      cases hf with
      | entry _ _ _ _ _ hr => cases (Reading.mk.inj hr).1
      | endOfInput hopen _ =>
        have hne : t.map content ≠ [] := by simpa using hreached.ne_nil
        exact iff_of_true (hb.isOpen _ (hreached.isPrefix.map content) hne) (hopen t hreached)
  · intro hagrees
    cases ht with
    | leave hl => exact absurd hl.2 (by rw [hfirst _ rfl]; exact Bool.false_ne_true)
    | @entry taken rest hne he =>
      have hreached := reached_of_isOpen hagrees _ (Nat.le_refl _) (List.prefix_append taken rest) hne he.isOpen_map
      exact .entry taken rest rfl hreached (fun h => Int.not_lt.2 he.closed ((hagrees taken hreached).2 h)) rfl
    | endOfInput hb =>
      refine .endOfInput (fun t hreached => (hagrees t hreached).1 ?_) rfl
      exact hb.isOpen _ (hreached.isPrefix.map content) (by simpa using hreached.ne_nil)

/-! ## Accepted lines -/

/-- The character ends a part of a program, or begins a comment. -/
def isMark (c : Char) : Bool := [';', '\x7d', '/'].contains c

/-- A line that leaves has an `i`, and no semicolon, closing brace or slash. -/
theorem letters_of_isLeaving {line : String} (h : isLeaving line = true) :
    'i' ∈ line.toList ∧ ∀ c ∈ line.toList, isMark c = false := by
  have hword : ∀ word : String, Text.strip line = word → 'i' ∈ word.toList → word.toList.all (!isMark ·) = true →
      'i' ∈ line.toList ∧ ∀ c ∈ line.toList, isMark c = false := by
    rintro word rfl hi hno
    refine ⟨mem_of_mem_strip hi, fun c hc => Bool.eq_false_iff.2 fun hmark => ?_⟩
    rcases mem_strip_or hc with hb | hm
    · exact not_mem_of_all hb (by decide) (List.contains_iff_mem.1 hmark)
    · exact not_mem_of_all hmark hno hm
  simp only [isLeaving, Bool.or_eq_true, decide_eq_true_eq] at h
  exact h.elim (fun h => hword _ h (by decide) (by decide)) (fun h => hword _ h (by decide) (by decide))

/-- A line that is a program does not leave. -/
theorem isLeaving_of_accepted {line : String} (h : (parseSource line).diagnostics = []) : isLeaving line = false := by
  rw [Bool.eq_false_iff]
  intro hleaves
  obtain ⟨hi, hmarks⟩ := letters_of_isLeaving hleaves
  obtain ⟨d, eof, htokens, -, hscan, -⟩ := derivation_of_parseSource h
  obtain ⟨ss, hs⟩ := exists_splits _ (Nat.le_refl line.toList.length)
  rw [scan_eq hs] at htokens hscan
  obtain ⟨hword, -⟩ := List.append_inj' htokens rfl
  have htext : ∀ s ∈ ss, ∀ c ∈ s.text, c ∈ line.toList := fun s hm c hc => by
    rw [← hs.flatMap_text]
    exact List.mem_flatMap.2 ⟨s, hm, hc⟩
  -- no token ends a part of the program, so there is none
  have hempty : tokens .start ss = [] := by
    rw [hword]
    by_contra hne
    obtain ⟨t, ht, hending⟩ := d.exists_ending hne
    obtain ⟨s, hm, hk⟩ := mem_tokens (hword.symm ▸ ht)
    obtain ⟨rest, hb⟩ := hs.exists_before hm
    rcases hending with hkind | hkind
    · cases hmarks ';' (htext s hm _ (by simp [hb.text_of_punctuation (c := ';') rfl (hkind ▸ hk)]))
    · cases hmarks '\x7d' (htext s hm _ (by simp [hb.text_of_punctuation (c := '\x7d') rfl (hkind ▸ hk)]))
  have hnone : ∀ s ∈ ss, s.kind? = none ∧ s.problem? = none := by
    have hk := map_tokens .start ss
    have hp := map_diagnostics .start ss
    rw [hempty] at hk
    rw [show diagnostics .start ss = [] from hscan] at hp
    intro s hm
    exact ⟨by simpa using List.filterMap_eq_nil_iff.1 hk.symm s hm, List.filterMap_eq_nil_iff.1 hp.symm s hm⟩
  rw [← hs.flatMap_text, List.mem_flatMap] at hi
  obtain ⟨s, hm, hc⟩ := hi
  obtain ⟨hk, hp⟩ := hnone s hm
  obtain ⟨rest, hb⟩ := hs.exists_before hm
  cases hb with
  | blank hspace =>
    rw [List.mem_singleton] at hc
    subst hc
    cases hspace
  | comment => cases hmarks '/' (htext _ hm '/' List.mem_cons_self)
  | unclosed | other => cases hp
  | _ => cases hk

/-- A line that does not leave is an entry at once when it opens no more braces than it closes. -/
theorem readEntry_line_iff {line : List Char} (h : isLeaving (content line) = false) (rest : List (List Char)) :
    readEntry (line :: rest) = ⟨some (content line), prompts 1, rest⟩ ↔ balance (content line) ≤ 0 := by
  have hentry : text [content line] = content line := by simp [text]
  constructor
  · intro hr
    have ht := readEntry_takes (line :: rest)
    rw [hr] at ht
    generalize hinput : line :: rest = input at ht
    generalize hres : Reading.mk (some (content line)) (prompts 1) rest = r at ht
    cases ht with
    | @entry taken rest' _ he =>
      obtain ⟨-, -, rfl⟩ := Reading.mk.inj hres
      have htaken : taken = [line] := (List.append_cancel_right (show [line] ++ rest = taken ++ rest from hinput)).symm
      subst htaken
      simpa [openIn] using he.closed
    | leave | endOfInput => cases (Reading.mk.inj hres).1
  · intro hb
    have hfeed := feed_behind [] (content line)
    rw [if_neg (by simp [LeavesAt, h]), if_pos (by simpa [openIn] using hb)] at hfeed
    rw [readEntry, readFrom, show Pending.start = .behind [] from rfl, hfeed, prompt_behind]
    simp [hentry, prompts, promptsFrom_one]

/-! ## Entries -/

/-- No more braces are opened than closed in the comments and strings of the source, nor the other way round. -/
def HidesNone (source : String) : Prop := ∀ ss, Splits ss source.toList → surplus (hidden ss) = 0

/-- The braces of lines are those of their tokens and those in their comments and strings. So
    a reading goes on as long as a block is open if the hidden braces balance, and exactly if
    braces and blocks agree in the lines that it looks at. A line that is accepted does not
    leave; it is an entry exactly if it hides no more opening braces than closing ones. -/
theorem readEntry_blocks (input : List (List Char)) :
    (∀ ls ss, Splits ss (text ls).toList → openIn ls = blocks (scan (text ls)).tokens + surplus (hidden ss)) ∧
    ((∀ line ∈ input.head?, isLeaving (content line) = false) →
      ((∀ taken, taken <+: input → HidesNone (text (taken.map content))) → Follows input (readEntry input)) ∧
      (Follows input (readEntry input) ↔ ∀ taken, Reached input taken → Agrees (taken.map content))) ∧
    ∀ line rest, input = line :: rest → (parseSource (content line)).diagnostics = [] →
      isLeaving (content line) = false ∧ ∀ ss, Splits ss (content line).toList →
        (readEntry input = ⟨some (content line), prompts 1, rest⟩ ↔ surplus (hidden ss) ≤ 0) := by
  have hbraces : ∀ ls ss, Splits ss (text ls).toList →
      openIn ls = blocks (scan (text ls)).tokens + surplus (hidden ss) := fun ls ss hs => by
    rw [openIn_eq_balance, balance_eq hs]
  refine ⟨hbraces, fun hfirst => ⟨fun hhidden => ?_, follows_iff hfirst⟩, ?_⟩
  · refine (follows_iff hfirst).2 fun taken hreached => ?_
    obtain ⟨ss, hs⟩ := exists_splits _ (Nat.le_refl (text (taken.map content)).toList.length)
    rw [Agrees, OpenBlocks, hbraces _ ss hs, hhidden taken hreached.isPrefix ss hs, Int.add_zero]
  · rintro line rest rfl haccepted
    have hleaving := isLeaving_of_accepted haccepted
    refine ⟨hleaving, fun ss hs => ?_⟩
    obtain ⟨d, eof, htokens, heof, -⟩ := derivation_of_parseSource haccepted
    have hblocks : blocks (scan (content line)).tokens = 0 := by
      rw [htokens, blocks_append, d.blocks_word, blocks_cons, heof]
      rfl
    rw [readEntry_line_iff hleaving, balance_eq hs, hblocks, Int.zero_add]

/-- The braces of a string close each other: the entry is the function. -/
theorem readEntry_blocks_function :
    let input := ["fun f() \x7b\n", "  print \"\x7b\x7d\";\n", "\x7d\n", "f();\n"].map String.toList
    Follows input (readEntry input) ∧
      (readEntry input).entry = some "fun f() \x7b\n  print \"\x7b\x7d\";\n\x7d" := by
  intro input
  obtain ⟨-, hfollows, -⟩ := readEntry_blocks input
  have hagrees : ∀ taken ∈ input.inits, Agrees (taken.map content) := by decide +kernel
  exact ⟨(hfollows (by decide +kernel)).2.2 fun taken h => hagrees taken ((List.mem_inits _ _).2 h.isPrefix),
    by decide +kernel⟩

/-- A program whose string hides an opening brace. -/
def hiddenBrace : List Char := "print \"\x7b\";".toList

/-- It is a program without an open block, but it is asked for more and never answered. -/
theorem not_follows_hiddenBrace :
    (parseSource (content hiddenBrace)).diagnostics = [] ∧ ¬OpenBlocks [content hiddenBrace] ∧
      readEntry [hiddenBrace] = ⟨none, "> . ", []⟩ ∧ ¬Follows [hiddenBrace] (readEntry [hiddenBrace]) := by
  have hclosed : ¬OpenBlocks [content hiddenBrace] := by decide +kernel
  have hread : readEntry [hiddenBrace] = ⟨none, "> . ", []⟩ := by decide +kernel
  refine ⟨by decide +kernel, hclosed, hread, fun h => ?_⟩
  rw [hread] at h
  cases h with
  | entry _ _ _ _ _ hr => cases (Reading.mk.inj hr).1
  | endOfInput hopen _ =>
    refine hclosed (hopen [hiddenBrace] ⟨List.prefix_refl _, List.cons_ne_nil _ _, fun before hb hne hlast => ?_⟩)
    rcases List.prefix_cons_iff.1 hb with rfl | ⟨more, rfl, hmore⟩
    · exact absurd rfl hne
    · exact absurd (by rw [List.prefix_nil.1 hmore]) hlast

end LoxSyntax.Prompt
