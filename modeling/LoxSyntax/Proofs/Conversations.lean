/-
  LoxSyntax.Proofs.Conversations — a conversation is its entries, one by one.

  Each entry is answered as by a prompt that was just started, in the mode at that point.
  So the output is a function of the entries alone, and what was reported about one of them
  is nowhere in the answer to another. But an entry can end the conversation: one that is
  accepted and whose tree is too high to be printed. There is no answer to it then, no
  farewell, and what stands behind it is not read. A sum with enough addends is such an
  entry.

  - `modeAfter_cons`: the mode behind one entry more in front.
  - `breaks_iff`: which entries end a conversation.
  - `converseFrom_entries`: a conversation that goes on from any shell.
  - `converse_entries`: a whole conversation.
  - `converse_longSum`: a conversation that a sum ends.
-/

import Mathlib.Logic.Function.Iterate
import LoxSyntax.Proofs.LongSums
import LoxSyntax.Proofs.Prompt.Entries

namespace LoxSyntax.Prompt

/-! ## Modes -/

/-- The mode behind some entries: switched once for each `:tokens`. -/
def modeAfter (showTokens : Bool) (texts : List String) : Bool := not^[texts.countP isToggle] showTokens

@[simp] theorem modeAfter_nil (showTokens : Bool) : modeAfter showTokens [] = showTokens := rfl

theorem modeAfter_cons (showTokens : Bool) (entry : String) (texts : List String) :
    modeAfter showTokens (entry :: texts) = modeAfter (modeBehind showTokens entry) texts := by
  unfold modeAfter modeBehind
  cases h : isToggle entry with
  | true => simp [h]
  | false => simp [h]

/-- What is written for the entries: the prompts of their lines, and the answers. -/
def exchanges (k : Stack) (showTokens : Bool) (entries : List (List String)) : String :=
  String.join (entries.mapIdx fun i ls =>
    prompts ls.length ++ answer k (modeAfter showTokens ((entries.take i).map text)) (text ls))

theorem exchanges_nil (k : Stack) (showTokens : Bool) : exchanges k showTokens [] = "" := by
  simp [exchanges]

theorem exchanges_cons (k : Stack) (showTokens : Bool) (ls : List String) (entries : List (List String)) :
    exchanges k showTokens (ls :: entries) = prompts ls.length ++ answer k showTokens (text ls) ++
      exchanges k (modeBehind showTokens (text ls)) entries := by
  simp [exchanges, List.mapIdx_cons, modeAfter_cons, String.append_assoc]

/-! ## Entries that end a conversation -/

/-- The entry is accepted, and its tree is too high to be printed. -/
structure Breaks (k : Stack) (entry : String) : Prop where
  program : isProgram entry = true
  parses : k.Parses entry
  ok : (parseSource entry).ok = true
  tooHigh : k.prints (parseSource entry).statements = false

variable {k : Stack} {entry : String} {texts : List String} {last unread : List (List Char)} {tail : String}
  {broken : Bool}

theorem breaks_of_gaveUp (h : ¬k.Parses entry) : (evaluate k (.start false) entry).broken = false := by
  obtain ⟨found, -, -, hfound⟩ := parseWithin_scan_gaveUp h
  have hr := hfound (Reporter.new false).reset
  simp only [Reporter.scan] at hr
  simp only [evaluate, Reporter.scan, Shell.start, hr]

theorem breaks_of_not_program (h : isProgram entry = false) : breaks k entry = false := by
  by_cases hb : Text.strip entry = ""
  · simp [breaks, respond, hb]
  · have ht : Text.strip entry = ":tokens" := by simpa [isProgram, isToggle, hb] using h
    simp [breaks, respond, ht]

/-- Which entries end a conversation. -/
theorem breaks_iff : breaks k entry = true ↔ Breaks k entry := by
  cases hp : isProgram entry with
  | false => exact iff_of_false (by simp [breaks_of_not_program hp]) fun h => by simpa [hp] using h.program
  | true =>
    rw [breaks, respond_of_isProgram k hp]
    by_cases h : k.Parses entry
    · rw [evaluate_parsed h]
      simp only [Bool.and_eq_true, Bool.not_eq_true']
      constructor
      · rintro ⟨hok, hhigh⟩
        exact ⟨hp, h, hok, hhigh⟩
      · intro hb
        exact ⟨hb.ok, hb.tooHigh⟩
    · exact iff_of_false (by simp [breaks_of_gaveUp h]) fun hb => h hb.parses

/-! ## Whole conversations -/

/-- How a conversation ends: at a line that leaves in place of an entry, at the end of
    input, which may drop the lines of an entry that is open, or, with nothing more
    written, at an entry that breaks it off. -/
inductive Ends (k : Stack) : (texts : List String) → (last : List (List Char)) → (tail : String) →
    (unread : List (List Char)) → (broken : Bool) → Prop where
  | leave {texts : List String} {line : List Char} {rest : List (List Char)} (h : ∀ e ∈ texts, ¬Breaks k e)
      (hl : isLeaving (content line) = true) : Ends k texts (line :: rest) (prompts 1 ++ farewell) rest false
  | endOfInput {texts : List String} {dropped : List (List Char)} (h : ∀ e ∈ texts, ¬Breaks k e)
      (hb : Begun (dropped.map content)) : Ends k texts dropped (prompts (dropped.length + 1) ++ farewell) [] false
  | broken {texts : List String} {entry : String} {rest : List (List Char)} (h : ∀ e ∈ texts, ¬Breaks k e)
      (he : Breaks k entry) : Ends k (texts ++ [entry]) rest "" rest true

/-- One entry more in front. -/
theorem Ends.cons (h : Ends k texts last tail unread broken) (he : ¬Breaks k entry) :
    Ends k (entry :: texts) last tail unread broken := by
  cases h with
  | leave h hl => exact .leave (List.forall_mem_cons.2 ⟨he, h⟩) hl
  | endOfInput h hb => exact .endOfInput (List.forall_mem_cons.2 ⟨he, h⟩) hb
  | broken h hb =>
    rw [← List.cons_append]
    exact .broken (List.forall_mem_cons.2 ⟨he, h⟩) hb

/-- The text of an entry that takes some lines. -/
def textOf (taken : List (List Char)) : String := text (taken.map content)

theorem converseFrom_entries (k : Stack) (n : Nat) (s : Shell) (input : List (List Char)) (h : input.length < n) :
    ∃ (entries : List (List (List Char))) (last : List (List Char)) (tail : String),
      (∀ e ∈ entries, IsEntry (e.map content)) ∧ input = entries.flatten ++ last ∧
      (converseFrom k n s input).output = exchanges k s.showTokens (entries.map (·.map content)) ++ tail ∧
      Ends k (entries.map textOf) last tail (converseFrom k n s input).unread (converseFrom k n s input).broken := by
  induction n generalizing s input with
  | zero => exact absurd h (Nat.not_lt_zero _)
  | succ n ih =>
    have ht := readEntry_takes input
    simp only [converseFrom]
    generalize readEntry input = r at ht
    cases ht with
    | @entry taken rest hne he =>
      have hlen := List.length_pos_iff.2 hne
      rw [List.length_append] at h
      have htext : text ([] ++ taken.map content) = textOf taken := rfl
      simp only [htext, broken_respond, output_respond]
      by_cases hb : Breaks k (textOf taken)
      · -- the entry is the last one, and nothing is written behind it
        refine ⟨[taken], rest, "", by simpa using he, by simp, ?_, ?_⟩
        · rw [breaks_iff.2 hb, if_pos rfl, List.map_singleton, exchanges_cons, exchanges_nil, List.length_map,
            String.append_empty, String.append_empty]
          rfl
        · rw [breaks_iff.2 hb, if_pos rfl]
          have hnone : ∀ e ∈ ([] : List String), ¬Breaks k e := by simp
          exact .broken hnone hb
      · obtain ⟨entries, last, tail, hentries, rfl, hrest, hends⟩ :=
          ih (respond k s (textOf taken)).shell rest (by omega)
        refine ⟨taken :: entries, last, tail, List.forall_mem_cons.2 ⟨he, hentries⟩, by simp, ?_, ?_⟩
        · rw [if_neg (mt breaks_iff.1 hb), hrest, showTokens_respond, List.map_cons, exchanges_cons, List.length_map]
          simp only [String.append_assoc]
          rfl
        · rw [if_neg (mt breaks_iff.1 hb)]
          exact hends.cons hb
    | @leave line rest hl => exact ⟨[], line :: rest, _, by simp, rfl, rfl, .leave (by simp) hl.2⟩
    | endOfInput hb => exact ⟨[], input, _, by simp, rfl, rfl, .endOfInput (by simp) hb⟩

/-- The output of a conversation is the banner, for each entry the prompts of its lines and
    an answer that depends on its text and on the mode alone, and the end. The mode is
    switched once for each `:tokens` before. The conversation ends with the prompts of the
    last reading and the farewell, at the end of input or at a line `exit` or `quit` in
    place of an entry, or else with the answer to the first entry that is accepted and
    whose tree is too high to be printed. Whatever a shell holds, it answers and breaks
    off like one that was just started; and nothing is written to the error output. -/
theorem converse_entries (k : Stack) (showTokens : Bool) (input : List (List Char)) :
    ∃ (entries : List (List (List Char))) (last : List (List Char)) (tail : String),
      (∀ e ∈ entries, IsEntry (e.map content)) ∧ input = entries.flatten ++ last ∧
      (converse k showTokens input).output =
        banner ++ exchanges k showTokens (entries.map (·.map content)) ++ tail ∧
      (converse k showTokens input).errors = "" ∧
      Ends k (entries.map textOf) last tail (converse k showTokens input).unread (converse k showTokens input).broken ∧
      ∀ (s : Shell) (entry : String), (respond k s entry).output = answer k s.showTokens entry ∧
        ((respond k s entry).broken = true ↔ Breaks k entry) := by
  obtain ⟨entries, last, tail, hentries, hinput, hout, hends⟩ :=
    converseFrom_entries k (input.length + 1) (.start showTokens) input (Nat.lt_succ_self _)
  refine ⟨entries, last, tail, hentries, hinput, ?_, errors_converse k showTokens input, hends, fun s entry => ?_⟩
  · rw [converse]
    simp only [hout, String.append_assoc]
    rfl
  · rw [broken_respond]
    exact ⟨output_respond k s entry, breaks_iff⟩

/-- A conversation that ends with its first entry. -/
theorem converse_of_breaks {input : List (List Char)} {shown : String}
    (hr : readEntry input = ⟨some entry, shown, unread⟩) (hb : Breaks k entry) :
    converse k false input = ⟨banner ++ shown, "", unread, true⟩ := by
  have hresponse := respond_of_isProgram k hb.program (.start false)
  rw [evaluate_parsed hb.parses] at hresponse
  simp only [hb.ok, hb.tooHigh, if_true, Bool.false_eq_true, if_false, Bool.not_false, Bool.and_self] at hresponse
  have herrors := errors_converse k false input
  simp only [converse, converseFrom, hr, hresponse, if_true, String.append_empty] at herrors ⊢
  rw [herrors]

/-! ## Sums -/

theorem mem_plusOnes : ∀ (n : Nat), ∀ c ∈ plusOnes n, c ∈ ['+', '1', ';']
  | 0 => by simp [plusOnes]
  | n + 1 => by
    have ih := mem_plusOnes n
    simp only [plusOnes, List.forall_mem_cons]
    exact ⟨by decide, by decide, ih⟩

theorem toList_sumSource (n : Nat) : (sumSource n).toList = '1' :: plusOnes n := String.toList_ofList

theorem balance_sum (n : Nat) : balance (sumSource n) = 0 := by
  have hnone : ∀ c : Char, c ∉ ['+', '1', ';'] → (sumSource n).toList.count c = 0 := by
    intro c hc
    rw [List.count_eq_zero, toList_sumSource]
    exact fun hm => hc (List.forall_mem_cons.2 ⟨by decide, mem_plusOnes n⟩ c hm)
  rw [balance, hnone _ (by decide), hnone _ (by decide)]
  rfl

theorem strip_sum_ne {word : String} (hw : '1' ∉ word.toList) (n : Nat) : Text.strip (sumSource n) ≠ word :=
  strip_ne (by simp [toList_sumSource]) (by decide) hw

theorem breaks_sum {frames n : Nat} (h : k.Within frames) (hn : frames ≤ n) (hp : k.Parses (sumSource n)) :
    Breaks k (sumSource n) := by
  obtain ⟨s, hs, -⟩ := parseSource_sum n
  refine ⟨?_, hp, by rw [hs]; rfl, h.not_prints_sum hn⟩
  simp [isProgram, isToggle, strip_sum_ne]

/-- A line that is a sum is an entry. -/
theorem readEntry_sum (n : Nat) (rest : List (List Char)) :
    readEntry (((sumSource n).toList ++ ['\n']) :: rest) = ⟨some (sumSource n), "> ", rest⟩ := by
  have hcontent : content ((sumSource n).toList ++ ['\n']) = sumSource n := by simp [content]
  have hleave : isLeaving (sumSource n) = false := by simp [isLeaving, strip_sum_ne]
  have hfeed : Pending.start.feed (sumSource n) = .entry (sumSource n) := by
    simp [Pending.feed, Pending.start, hleave, balance_sum]
  simp only [readEntry, readFrom, hcontent, hfeed]
  rfl

/-- A sum of five thousand ones, on a machine with a thousand frames: it is parsed, and the
    line behind it is never answered. -/
theorem converse_longSum : (Stack.uniform 1000).Within 1000 ∧ (Stack.uniform 1000).Parses (sumSource 4999) ∧
    ∀ k : Stack, k.Within 1000 → k.Parses (sumSource 4999) →
      converse k false [(sumSource 4999).toList ++ ['\n'], "2;\n".toList] =
        ⟨banner ++ "> ", "", ["2;\n".toList], true⟩ := by
  refine ⟨Stack.within_uniform 1000, Stack.parses_sum (by decide), fun k hk hp => ?_⟩
  have hr := readEntry_sum 4999 ["2;\n".toList]
  have hb := breaks_sum hk (by decide) hp
  exact converse_of_breaks hr hb

end LoxSyntax.Prompt
