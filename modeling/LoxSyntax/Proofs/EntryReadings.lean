/-
  LoxSyntax.Proofs.EntryReadings — what readings of the prompt take of the input.

  A reading takes the shortest run of lines that opens no more braces than it closes, or a
  line that leaves, or all that is left; it never takes a part of a line. The entry has the
  characters of its lines, line ends included but for the last one. So the entries that were
  read, each with its line end, and what is unread make up the input, as long as each
  reading gave an entry. The last line alone may lack its line end.

  - `ended_of_mem_dropLast`: every line of a text but the last has its line end.
  - `answered_readEntry`: what one reading answers.
  - `written_append_flatten`: entries in front of what is unread.
  - `readTimes_input`: any number of readings.
-/

import Mathlib.Data.List.Basic
import LoxSyntax.Proofs.Prompt.Entries

namespace LoxSyntax.Prompt

/-! ## Runs of lines -/

/-- The lines open no more braces than they close. -/
def Closes (ls : List (List Char)) : Prop := ls.flatten.count '\x7b' ≤ ls.flatten.count '\x7d'

instance (ls : List (List Char)) : Decidable (Closes ls) := inferInstanceAs (Decidable (_ ≤ _))

/-- The shortest run of lines at the start of the input that opens no more braces than it closes. -/
structure ShortestRun (input taken : List (List Char)) : Prop where
  begins : taken <+: input
  ne_nil : taken ≠ []
  closes : Closes taken
  shortest : ∀ run, run <+: input → run ≠ [] → Closes run → taken.length ≤ run.length

/-- The first line leaves. -/
def Leaves (input : List (List Char)) : Prop :=
  ∃ line ∈ input.head?, Text.strip (content line) = "exit" ∨ Text.strip (content line) = "quit"

/-- The prompts of the first line that is asked for and of `more` further ones. -/
def promptsBefore (more : Nat) : String := "> " ++ String.join (List.replicate more ". ")

/-- What a reading answers: the lines of the shortest run, or nothing at a line that leaves,
    or nothing at the end of input. -/
inductive Answered (input : List (List Char)) : Reading → Prop where
  | entry {taken rest : List (List Char)} (hinput : input = taken ++ rest) (hstay : ¬Leaves input)
      (h : ShortestRun input taken) :
      Answered input ⟨some (text (taken.map content)), promptsBefore (taken.length - 1), rest⟩
  | leave {line : List Char} {rest : List (List Char)} (hinput : input = line :: rest) (h : Leaves input) :
      Answered input ⟨none, promptsBefore 0, rest⟩
  | endOfInput (hstay : ¬Leaves input) (h : ∀ run, run <+: input → run ≠ [] → ¬Closes run) :
      Answered input ⟨none, promptsBefore input.length, []⟩

variable {input taken rest : List (List Char)} {line : List Char}

theorem leaves_iff (input : List (List Char)) :
    Leaves input ↔ ∃ line ∈ input.head?, isLeaving (content line) = true := by
  simp only [Leaves, isLeaving, Bool.or_eq_true, decide_eq_true_eq]

theorem prompts_succ (n : Nat) : prompts (n + 1) = promptsBefore n := by
  have hdots : (List.range' 1 n).map promptAt = List.replicate n ". " := by
    rw [List.eq_replicate_iff]
    refine ⟨by simp, fun s hs => ?_⟩
    obtain ⟨i, hi, rfl⟩ := List.mem_map.1 hs
    have := (List.mem_range'_1.1 hi).1
    exact if_neg (by omega)
  rw [prompts, promptsFrom_succ, promptsFrom, hdots]
  rfl

theorem count_content {c : Char} (hc : c ≠ '\n') (line : List Char) : (content line).toList.count c = line.count c := by
  rw [content, String.toList_ofList]
  split
  · next h =>
    obtain ⟨front, rfl⟩ := List.getLast?_eq_some_iff.1 h
    simp [List.count_append, hc.symm]
  · rfl

/-- The braces of lines are those of their characters. -/
theorem openIn_map_content (ls : List (List Char)) :
    openIn (ls.map content) = ls.flatten.count '\x7b' - ls.flatten.count '\x7d' := by
  induction ls with
  | nil => rfl
  | cons l ls ih =>
    simp only [List.map_cons, openIn, ih, balance, count_content (c := '\x7b') (by decide),
      count_content (c := '\x7d') (by decide), List.flatten_cons, List.count_append]
    omega

theorem closes_iff (ls : List (List Char)) : Closes ls ↔ openIn (ls.map content) ≤ 0 := by
  rw [openIn_map_content, Closes]
  omega

theorem IsEntry.shortestRun (h : IsEntry (taken.map content)) (rest : List (List Char)) :
    ShortestRun (taken ++ rest) taken := by
  refine ⟨List.prefix_append _ _, by simpa using h.ne_nil, (closes_iff _).2 h.closed, ?_⟩
  intro run hrun hne hcloses
  refine Nat.not_lt.1 fun hlt => ?_
  have hbefore : run <+: taken := List.prefix_of_prefix_length_le hrun (List.prefix_append _ _) (by omega)
  have hopen := h.isOpen_map run hbefore hne fun he => Nat.ne_of_lt hlt (congrArg List.length he)
  exact absurd ((closes_iff _).1 hcloses) (Int.not_le.2 hopen)

/-- What one reading answers, and when it answers nothing. -/
theorem answered_readEntry (input : List (List Char)) : Answered input (readEntry input) := by
  have ht := readEntry_takes input
  generalize readEntry input = r at ht
  cases ht with
  | @entry taken rest hne he =>
    have hstay : ¬Leaves (taken ++ rest) := by
      rw [leaves_iff]
      rintro ⟨line, hl, hleaves⟩
      obtain ⟨first, more, rfl⟩ := List.exists_cons_of_ne_nil hne
      obtain rfl : first = line := by simpa using hl
      have hfirst := he.first (content first) (by simp)
      rw [hfirst] at hleaves
      cases hleaves
    obtain ⟨n, hn⟩ := Nat.exists_eq_succ_of_ne_zero (mt List.length_eq_zero_iff.1 hne)
    have hp : promptsFrom 0 taken.length = promptsBefore (taken.length - 1) := by
      rw [hn]
      exact prompts_succ n
    rw [List.length_nil, hp]
    exact .entry rfl hstay (IsEntry.shortestRun he rest)
  | @leave line rest hl =>
    have hp : promptsFrom 0 1 = promptsBefore 0 := prompts_succ 0
    rw [List.length_nil, hp]
    exact .leave rfl ((leaves_iff _).2 ⟨line, by simp, hl.2⟩)
  | endOfInput hb =>
    have hp : promptsFrom 0 (input.length + 1) = promptsBefore input.length := prompts_succ _
    rw [List.length_nil, hp]
    refine .endOfInput ?_ ?_
    · rw [leaves_iff]
      rintro ⟨line, hl, hleaves⟩
      have hfirst := hb.first (content line) (by simpa using ⟨line, hl, rfl⟩)
      rw [hfirst] at hleaves
      cases hleaves
    · intro run hrun hne hcloses
      have hopen := hb.isOpen (run.map content) (hrun.map content) (by simpa using hne)
      exact absurd ((closes_iff _).1 hcloses) (Int.not_le.2 hopen)

theorem Answered.entry_eq_none_iff {r : Reading} (h : Answered input r) :
    r.entry = none ↔ Leaves input ∨ ∀ run, run <+: input → run ≠ [] → ¬Closes run := by
  cases h with
  | entry _ hstay hrun =>
    refine iff_of_false (by simp) ?_
    rintro (hl | hnone)
    · exact hstay hl
    · exact hnone _ hrun.begins hrun.ne_nil hrun.closes
  | leave _ hl => exact iff_of_true rfl (.inl hl)
  | endOfInput _ hnone => exact iff_of_true rfl (.inr hnone)

/-! ## Line ends -/

theorem ne_nil_of_mem_lines {cs line : List Char} (h : line ∈ lines cs) : line ≠ [] := by
  induction cs generalizing line with
  | nil => cases h
  | cons c cs ih =>
    simp only [lines] at h
    split at h
    · rcases List.mem_cons.1 h with rfl | h
      · exact List.cons_ne_nil _ _
      · exact ih h
    · split at h
      · obtain rfl := List.mem_singleton.1 h
        exact List.cons_ne_nil _ _
      · next l ls hls =>
        rcases List.mem_cons.1 h with rfl | h
        · exact List.cons_ne_nil _ _
        · exact ih (hls ▸ List.mem_cons_of_mem l h)

/-- Every line of a text but the last has its line end. -/
theorem ended_of_mem_dropLast {cs line : List Char} (h : line ∈ (lines cs).dropLast) : line.getLast? = some '\n' := by
  induction cs generalizing line with
  | nil => cases h
  | cons c cs ih =>
    simp only [lines] at h
    split at h
    · next hc =>
      cases hls : lines cs with
      | nil => simp [hls] at h
      | cons l ls =>
        rw [hls, List.dropLast_cons_cons, ← hls] at h
        rcases List.mem_cons.1 h with rfl | h
        · simp [hc]
        · exact ih h
    · split at h
      · cases h
      · next l ls hls =>
        cases ls with
        | nil => cases h
        | cons l' ls =>
          rw [List.dropLast_cons_cons] at h
          rw [hls, List.dropLast_cons_cons] at ih
          have hmem : l ∈ lines cs := by simp [hls]
          rcases List.mem_cons.1 h with rfl | h
          · rw [List.getLast?_cons_of_ne_nil (ne_nil_of_mem_lines hmem)]
            exact ih List.mem_cons_self
          · exact ih (List.mem_cons_of_mem l h)

/-- The contents of some lines, each with a line end. -/
def written (ls : List (List Char)) : List Char := ls.flatMap fun line => (content line).toList ++ ['\n']

theorem content_append_of_ended (h : line.getLast? = some '\n') : (content line).toList ++ ['\n'] = line := by
  obtain ⟨front, rfl⟩ := List.getLast?_eq_some_iff.1 h
  simp [content]

theorem content_of_not_ended (h : line.getLast? ≠ some '\n') : (content line).toList = line := by
  rw [content, if_neg h, String.toList_ofList]

theorem written_of_ended {ls : List (List Char)} (h : ∀ line ∈ ls, line.getLast? = some '\n') :
    written ls = ls.flatten := by
  rw [written, List.flatMap_def, List.map_congr_left fun line hl => content_append_of_ended (h line hl), List.map_id']

/-- The text of lines, with a line end, is their contents with a line end each. -/
theorem toList_text_append (h : taken ≠ []) : (text (taken.map content)).toList ++ ['\n'] = written taken := by
  induction taken with
  | nil => exact absurd rfl h
  | cons line ls ih =>
    cases ls with
    | nil => simp [text, written]
    | cons line' ls =>
      rw [List.map_cons, List.map_cons, text_cons_cons, ← List.map_cons]
      have ih := ih (List.cons_ne_nil line' ls)
      simp only [String.toList_append, List.append_assoc, ih]
      simp [written]

/-- Lines at the start of a text, written with their line ends, in front of what is behind them:
    that is the text, but for the line end that its last line may lack. -/
theorem written_append_flatten {cs : List Char} {front rest : List (List Char)} (h : lines cs = front ++ rest) :
    written front ++ rest.flatten = cs ∨
      rest = [] ∧ cs.getLast? ≠ some '\n' ∧ written front = cs ++ ['\n'] := by
  have hcs : cs = front.flatten ++ rest.flatten := by rw [← List.flatten_append, ← h, flatten_lines]
  have hended : ∀ line ∈ (front ++ rest).dropLast, line.getLast? = some '\n' := by
    rw [← h]
    exact fun _ => ended_of_mem_dropLast
  by_cases hrest : rest = []
  · subst hrest
    rw [List.append_nil] at h hended
    rw [List.flatten_nil, List.append_nil] at hcs ⊢
    rcases List.eq_nil_or_concat' front with rfl | ⟨before, last, rfl⟩
    · exact .inl hcs.symm
    · rw [List.dropLast_concat] at hended
      have hwritten : written (before ++ [last]) = before.flatten ++ ((content last).toList ++ ['\n']) := by
        rw [← written_of_ended hended]
        simp [written]
      by_cases hlast : last.getLast? = some '\n'
      · left
        rw [hwritten, content_append_of_ended hlast, hcs, List.flatten_concat]
      · refine .inr ⟨rfl, ?_, ?_⟩
        · have hmem : last ∈ lines cs := by simp [h]
          rwa [hcs, List.flatten_concat, List.getLast?_append_of_ne_nil _ (ne_nil_of_mem_lines hmem)]
        · rw [hwritten, content_of_not_ended hlast, hcs, List.flatten_concat, List.append_assoc]
  · left
    rw [written_of_ended fun line hl => hended line ?_, ← hcs]
    rw [List.dropLast_append_of_ne_nil hrest]
    exact List.mem_append_left _ hl

/-! ## Any number of readings -/

/-- Some readings, one after the other, and what is unread behind them. -/
def readTimes : Nat → List (List Char) → List Reading × List (List Char)
  | 0, input => ([], input)
  | n + 1, input =>
    let r := readEntry input
    let (rs, rest) := readTimes n r.unread
    (r :: rs, rest)

variable {n i : Nat}

theorem readTimes_succ (n : Nat) (input : List (List Char)) : readTimes (n + 1) input =
    (readEntry input :: (readTimes n (readEntry input).unread).1, (readTimes n (readEntry input).unread).2) := rfl

/-- A reading begins where the ones before it ended. -/
theorem getElem?_readTimes (hi : i < n) (input : List (List Char)) :
    (readTimes n input).1[i]? = some (readEntry (readTimes i input).2) := by
  induction n generalizing i input with
  | zero => exact absurd hi (Nat.not_lt_zero i)
  | succ n ih =>
    cases i with
    | zero => rfl
    | succ i =>
      rw [readTimes_succ, List.getElem?_cons_succ, ih (Nat.lt_of_succ_lt_succ hi)]
      rfl

/-- The entries of some readings, each with its line end. -/
def writtenEntries (rs : List Reading) : List Char :=
  (rs.filterMap (·.entry)).flatMap fun entry => entry.toList ++ ['\n']

/-- As long as each reading gives an entry, the entries are the lines that were taken. -/
theorem readTimes_entries : ∀ {input : List (List Char)}, (∀ r ∈ (readTimes n input).1, r.entry ≠ none) →
    ∃ front, input = front ++ (readTimes n input).2 ∧ writtenEntries (readTimes n input).1 = written front := by
  induction n with
  | zero => exact fun {input} _ => ⟨[], rfl, rfl⟩
  | succ n ih =>
    intro input h
    rw [readTimes_succ] at h ⊢
    obtain ⟨hfirst, h⟩ := List.forall_mem_cons.1 h
    obtain ⟨front, hrest, hwritten⟩ := ih h
    have ha := answered_readEntry input
    generalize readEntry input = r at *
    cases ha with
    | @entry taken rest hinput _ hrun =>
      refine ⟨taken ++ front, ?_, ?_⟩
      · rw [List.append_assoc, ← hrest, hinput]
      · have hsplit : written (taken ++ front) = written taken ++ written front := List.flatMap_append
        rw [hsplit, ← toList_text_append hrun.ne_nil, ← hwritten]
        simp [writtenEntries]
    | leave | endOfInput => exact absurd rfl hfirst

/-- Each of any number of readings takes what the ones before it left: the shortest run of
    lines whose braces balance, and the entry has these lines; or a line that leaves, or all
    of it, and then there is no entry. It asks once for each line that it takes, and once
    more at the end of input. As long as there are entries, these, each with its line end, and
    what is unread make up the input; only its last line may have gained its line end. -/
theorem readTimes_input (stdin : List Char) (n : Nat) :
    (∀ i < n, ∃ r, (readTimes n (lines stdin)).1[i]? = some r ∧ Answered (readTimes i (lines stdin)).2 r ∧
      (r.entry = none ↔ Leaves (readTimes i (lines stdin)).2 ∨
        ∀ run, run <+: (readTimes i (lines stdin)).2 → run ≠ [] → ¬Closes run)) ∧
    ((∀ r ∈ (readTimes n (lines stdin)).1, r.entry ≠ none) →
      writtenEntries (readTimes n (lines stdin)).1 ++ (readTimes n (lines stdin)).2.flatten = stdin ∨
      (readTimes n (lines stdin)).2 = [] ∧ stdin.getLast? ≠ some '\n' ∧
        writtenEntries (readTimes n (lines stdin)).1 = stdin ++ ['\n']) := by
  constructor
  · intro i hi
    have ha := answered_readEntry (readTimes i (lines stdin)).2
    exact ⟨_, getElem?_readTimes hi _, ha, ha.entry_eq_none_iff⟩
  · intro hentries
    obtain ⟨front, hlines, hwritten⟩ := readTimes_entries hentries
    rw [hwritten]
    exact written_append_flatten hlines

/-- A line that would leave stands in an open entry, a blank line is an entry, and the last line
    lacks its line end. -/
theorem readTimes_input_unended :
    let stdin := "f \x7b\nexit\n\x7d\n\nb".toList
    (readTimes 3 (lines stdin)).1.map (·.entry) = [some "f \x7b\nexit\n\x7d", some "", some "b"] ∧
      (readTimes 3 (lines stdin)).1.map (·.prompts) = ["> . . ", "> ", "> "] ∧
      writtenEntries (readTimes 3 (lines stdin)).1 = stdin ++ ['\n'] := by
  intro stdin
  obtain ⟨-, hinput⟩ := readTimes_input stdin 3
  refine ⟨by decide +kernel, by decide +kernel, ?_⟩
  rcases hinput (by decide +kernel) with h | ⟨-, -, h⟩
  · exact absurd h (by decide +kernel)
  · exact h

end LoxSyntax.Prompt
