/-
  LoxSyntax.Proofs.Json.Written — the written form of a value is a JSON text exactly when
  all its numbers are finite, and then it stands for that value alone.

  What is read where a value was written stands for that value and ends with it: the first
  character tells the kind, and behind it each part is fixed by the one in front, the
  numbers by what stands behind. The names of infinity and nan are the text of nothing, so
  a value that holds one of them has no text at all, whatever is around it.

  - `separated_rows`: the lines of an array or an object.
  - `enclose_fixed`: what is read where such lines were written.
  - `value_chars`, `fixes_chars`: values, as they are written and as they are read there.
  - `document_chars_iff`: whole texts.
-/

import Mathlib.Data.List.Forall2
import LoxSyntax.Proofs.Json.WrittenNumber
import LoxSyntax.Proofs.Json.WrittenString

namespace LoxSyntax

/-! ## Finite values -/

def Binary64.isFinite : Binary64 → Bool
  | .finite _ _ => true
  | .infinite _ | .nan => false

namespace Json

mutual

/-- No number in the value is infinite or nan. -/
def isFinite : Json → Bool
  | .null | .boolean _ | .integer _ | .text _ => true
  | .number x => x.isFinite
  | .array items => itemsFinite items
  | .object members => membersFinite members

def itemsFinite : List Json → Bool
  | [] => true
  | j :: js => j.isFinite && itemsFinite js

def membersFinite : List (String × Json) → Bool
  | [] => true
  | (_, j) :: ms => j.isFinite && membersFinite ms

end

theorem itemsFinite_eq_all (js : List Json) : itemsFinite js = js.all isFinite := by
  induction js with
  | nil => rfl
  | cons j js ih => rw [itemsFinite, ih, List.all_cons]

theorem membersFinite_eq_all (ms : List (String × Json)) : membersFinite ms = ms.all (·.2.isFinite) := by
  induction ms with
  | nil => rfl
  | cons m ms ih => rw [membersFinite, ih, List.all_cons]

end Json

namespace JsonText

open Json Lexical

variable {r r' : List Char}

/-! ## What texts begin with, and what ends them -/

/-- The text begins with a character of its own. -/
def Starts (cs : List Char) : Prop := ∃ c t, cs = c :: t ∧ isGap c = false ∧ c ∉ [']', '\x7d', ',']

theorem starts_cons {c : Char} {t : List Char} (hg : isGap c = false) (hc : c ∉ [']', '\x7d', ',']) : Starts (c :: t) :=
  ⟨c, t, rfl, hg, hc⟩

theorem Starts.append {cs : List Char} (h : Starts cs) (ds : List Char) : Starts (cs ++ ds) := by
  obtain ⟨c, t, rfl, hg, hc⟩ := h
  exact ⟨c, t ++ ds, rfl, hg, hc⟩

theorem Starts.stops {cs : List Char} (h : Starts cs) : Stops isGap cs := by
  obtain ⟨c, t, rfl, hg, -⟩ := h
  exact stops_cons.2 hg

theorem Starts.ne_cons {cs : List Char} (h : Starts cs) {c : Char} (hc : c ∈ [']', '\x7d', ',']) :
    cs ++ r ≠ c :: r' := by
  obtain ⟨d, t, rfl, -, hd⟩ := h
  intro he
  exact hd ((List.cons.inj he).1 ▸ hc)

theorem starts_of_inNumeral {c : Char} (h : inNumeral c = true) (t : List Char) : Starts (c :: t) := by
  have hall : ∀ d : Char, inNumeral d = false → c ≠ d := by
    rintro d hd rfl
    rw [h] at hd
    cases hd
  refine starts_cons ?_ ?_
  · simp [isGap, hall ' ' rfl, hall '\t' rfl, hall '\n' rfl, hall '\r' rfl]
  · simp [hall ']' rfl, hall '\x7d' rfl, hall ',' rfl]

theorem Numeral.exists_cons (n : Numeral) : ∃ c t, n.text = c :: t ∧ inNumeral c = true := by
  obtain ⟨d, t, hw, hd⟩ := n.whole_isDigits.exists_cons
  cases hn : n.negative with
  | true => exact ⟨'-', _, by rw [Numeral.text, hn]; rfl, rfl⟩
  | false => exact ⟨d, _, by rw [Numeral.text, hn, hw]; rfl, by simp [inNumeral, hd]⟩

theorem Numeral.starts (n : Numeral) : Starts n.text := by
  obtain ⟨c, t, hc, hi⟩ := n.exists_cons
  rw [hc]
  exact starts_of_inNumeral hi t

/-- A numeral begins with a character of numerals. -/
theorem Numeral.ne_cons (n : Numeral) {c : Char} (hc : inNumeral c = false) : n.text ++ r ≠ c :: r' := by
  obtain ⟨d, t, hd, hi⟩ := n.exists_cons
  rw [hd]
  intro he
  rw [(List.cons.inj he).1, hc] at hi
  cases hi

theorem StringText.starts {cs : List Char} {s : String} (h : StringText cs s) : Starts cs := by
  obtain ⟨_⟩ := h
  exact starts_cons rfl (by decide)

theorem Value.starts {cs : List Char} {j : Json} (h : Value cs j) : Starts cs := by
  cases h with
  | number n => exact n.starts
  | text h => exact h.starts
  | _ => exact starts_cons rfl (by decide)

theorem Member.starts {Text : List Char → Json → Prop} {cs : List Char} {m : String × Json} (h : Member Text cs m) :
    Starts cs := by
  obtain ⟨hk, _, _, _⟩ := h
  exact hk.starts.append _

theorem ends_cons {c : Char} (h : inNumeral c = false) : Ends (c :: r) := stops_cons.2 h

theorem Gap.ends {w : List Char} (hw : Gap w) (hr : Ends r) : Ends (w ++ r) := by
  cases w with
  | nil => exact hr
  | cons c w =>
    refine ends_cons ?_
    have hc := hw c List.mem_cons_self
    simp only [isGap, List.contains_eq_mem, decide_eq_true_eq, List.mem_cons, List.not_mem_nil, or_false] at hc
    rcases hc with rfl | rfl | rfl | rfl <;> rfl

theorem gap_margin (depth : Nat) : Gap (margin depth) := by
  intro c hc
  rcases List.mem_cons.1 hc with rfl | hc
  · rfl
  · rw [List.eq_of_mem_replicate hc]
    rfl

theorem gap_nil : Gap [] := fun _ hc => nomatch hc

theorem gap_blank : Gap [' '] := by simp [Gap, isGap]

/-- White space in front of something else is determined. -/
theorem gap_unique {w w' : List Char} (hw : Gap w) (hw' : Gap w') (hr : Stops isGap r) (hr' : Stops isGap r')
    (h : w ++ r = w' ++ r') : r = r' :=
  (run_unique hw hw' hr hr' h).2

/-! ## Rows -/

section Rows

variable {α : Type} {Text : List Char → α → Prop} {m m' : List Char}

/-- Elements, each but the first behind a comma and white space. -/
def rows (m : List Char) (ts : List (List Char)) : List Char := ts.flatMap fun t => ',' :: (m ++ t)

theorem rows_cons (m t : List Char) (ts : List (List Char)) : rows m (t :: ts) = ',' :: (m ++ (t ++ rows m ts)) := by
  simp [rows]

theorem enclose_cons (opening closing : Char) (depth : Nat) (t : List Char) (ts : List (List Char)) :
    enclose opening closing depth (t :: ts) =
      opening :: (margin (depth + 1) ++ (t ++ (rows (margin (depth + 1)) ts ++ margin depth)) ++ [closing]) := by
  simp [enclose, rows]

theorem separated_rows (hm : Gap m) (hm' : Gap m') {t : List Char} {ts : List (List Char)} {a : α} {as : List α}
    (h : List.Forall₂ Text (t :: ts) (a :: as)) : Separated Text (m ++ (t ++ (rows m ts ++ m'))) (a :: as) := by
  induction ts generalizing t a as with
  | nil =>
    cases h with
    | cons h hs =>
      cases hs
      exact .one hm h hm'
  | cons t' ts ih =>
    cases h with
    | cons h hs =>
      cases hs with
      | cons h' hs =>
        have hsep := Separated.cons hm h gap_nil (ih (.cons h' hs))
        simpa [rows_cons] using hsep

/-- What is read where `t` was written stands for `a`, which is finite, and ends with it. -/
def Fixes (Text : List Char → α → Prop) (t : List Char) (finite : Bool) (a : α) : Prop :=
  ∀ ⦃cs r r' : List Char⦄ ⦃b : α⦄, Text cs b → cs ++ r = t ++ r' → Ends r → Ends r' → finite = true ∧ b = a ∧ r = r'

/-- Each element is fixed by its text. -/
def AllFixed (Text : List Char → α → Prop) (finite : α → Bool) : List (List Char) → List α → Prop :=
  List.Forall₂ fun t a => Fixes Text t (finite a) a ∧ Starts t

variable {finite : α → Bool} {closing : Char}

/-- A closing bracket is no white space, no part of a numeral, no comma and no start. -/
structure Closing (c : Char) : Prop where
  not_gap : isGap c = false
  not_inNumeral : inNumeral c = false
  ne_comma : c ≠ ','
  no_start : c ∈ [']', '\x7d', ',']

theorem closing_bracket : Closing ']' := ⟨rfl, rfl, by decide, by decide⟩

theorem closing_brace : Closing '\x7d' := ⟨rfl, rfl, by decide, by decide⟩

theorem Closing.stops (hc : Closing closing) : Stops isGap (closing :: r) := stops_cons.2 hc.not_gap

theorem Closing.ends (hc : Closing closing) : Ends (closing :: r) := ends_cons hc.not_inNumeral

theorem ends_rows (hm' : Gap m') (hc : Closing closing) (ts : List (List Char)) :
    Ends (rows m ts ++ (m' ++ closing :: r)) := by
  cases ts with
  | nil => exact hm'.ends hc.ends
  | cons t ts =>
    rw [rows_cons]
    exact ends_cons rfl

/-- The first of the elements that are read is the first that was written. -/
theorem element_fixed (hText : ∀ cs b, Text cs b → Starts cs) (hm : Gap m) {t w cs : List Char} {a b : α} {f : Bool}
    (h : Fixes Text t f a) (ht : Starts t) (hw : Gap w) (hb : Text cs b) (hr : Ends r) (hr' : Ends r')
    (he : w ++ (cs ++ r) = m ++ (t ++ r')) : f = true ∧ b = a ∧ r = r' :=
  h hb (gap_unique hw hm ((hText cs b hb).append r).stops (ht.append r').stops he) hr hr'

theorem separated_fixed (hText : ∀ cs b, Text cs b → Starts cs) (hm : Gap m) (hm' : Gap m')
    (hc : Closing closing) {t : List Char} {ts : List (List Char)} {a : α} {as bs : List α} {cs : List Char}
    (h : AllFixed Text finite (t :: ts) (a :: as)) (hs : Separated Text cs bs)
    (he : cs ++ closing :: r = m ++ (t ++ (rows m ts ++ (m' ++ closing :: r')))) :
    (a :: as).all finite = true ∧ bs = a :: as ∧ r = r' := by
  have hcomma : ∀ {x : List Char}, Stops isGap (',' :: x) := stops_cons.2 rfl
  induction ts generalizing t a as bs cs with
  | nil =>
    obtain _ | ⟨⟨h, ht⟩, has⟩ := h
    cases has
    cases hs with
    | one hw hb hw' =>
      simp only [List.append_assoc] at he
      obtain ⟨hf, rfl, he⟩ := element_fixed hText hm h ht hw hb (hw'.ends hc.ends) (ends_rows hm' hc []) he
      exact ⟨by simp [hf], rfl, (List.cons.inj (gap_unique hw' hm' hc.stops hc.stops he)).2⟩
    | cons hw hb hw' _ =>
      simp only [List.append_assoc, List.cons_append] at he
      obtain ⟨-, -, he⟩ := element_fixed hText hm h ht hw hb (hw'.ends (ends_cons rfl)) (ends_rows hm' hc []) he
      exact absurd (List.cons.inj (gap_unique hw' hm' hcomma hc.stops he)).1.symm hc.ne_comma
  | cons t' ts ih =>
    obtain _ | ⟨⟨h, ht⟩, has⟩ := h
    obtain _ | ⟨h', has⟩ := has
    cases hs with
    | one hw hb hw' =>
      simp only [List.append_assoc] at he
      obtain ⟨-, -, he⟩ := element_fixed hText hm h ht hw hb (hw'.ends hc.ends)
        (ends_rows hm' hc (t' :: ts)) he
      rw [rows_cons] at he
      exact absurd (List.cons.inj (gap_unique hw' gap_nil hc.stops hcomma he)).1 hc.ne_comma
    | cons hw hb hw' hs =>
      simp only [List.append_assoc, List.cons_append] at he
      obtain ⟨hf, rfl, he⟩ :=
        element_fixed hText hm h ht hw hb (hw'.ends (ends_cons rfl)) (ends_rows hm' hc (t' :: ts)) he
      rw [rows_cons, List.cons_append, List.append_assoc, List.append_assoc] at he
      have he := (List.cons.inj (gap_unique hw' gap_nil hcomma hcomma he)).2
      obtain ⟨hfs, rfl, hr⟩ := ih (.cons h' has) hs he
      exact ⟨by rw [List.all_cons, hf, hfs]; rfl, rfl, hr⟩

theorem Separated.starts (hText : ∀ cs b, Text cs b → Starts cs) {cs : List Char} {as : List α}
    (h : Separated Text cs as) :
    ∃ w ds, cs = w ++ ds ∧ Gap w ∧ Starts ds := by
  cases h with
  | one hw h _ => exact ⟨_, _, rfl, hw, (hText _ _ h).append _⟩
  | cons hw h _ _ => exact ⟨_, _, rfl, hw, (hText _ _ h).append _⟩

/-- White space in front of a closing bracket does not begin with an element. -/
theorem Closing.not_separated (hc : Closing closing) {w w' ds : List Char} (hw : Gap w) (hw' : Gap w')
    (hds : Starts ds) :
    w ++ closing :: r ≠ w' ++ (ds ++ r') := by
  intro he
  exact hds.ne_cons hc.no_start (gap_unique hw hw' hc.stops (hds.append r').stops he).symm

/-- What is read where nothing or some lines were written between brackets. -/
theorem enclose_fixed (hText : ∀ cs b, Text cs b → Starts cs) (hc : Closing closing) {opening : Char} {depth : Nat}
    {texts : List (List Char)} {items bs : List α} {cs : List Char} (h : AllFixed Text finite texts items)
    (hs : (bs = [] ∧ Gap cs) ∨ Separated Text cs bs)
    (he : opening :: (cs ++ [closing]) ++ r = enclose opening closing depth texts ++ r') :
    items.all finite = true ∧ bs = items ∧ r = r' := by
  cases h with
  | nil =>
    simp only [enclose, List.cons_append, List.append_assoc, List.nil_append, List.cons.injEq, true_and] at he
    rcases hs with ⟨rfl, hw⟩ | hs
    · exact ⟨rfl, rfl, (List.cons.inj (gap_unique hw gap_nil hc.stops hc.stops he)).2⟩
    · obtain ⟨w, ds, rfl, hw, hds⟩ := hs.starts hText
      rw [List.append_assoc] at he
      exact absurd he.symm (hc.not_separated gap_nil hw hds)
  | cons h has =>
    simp only [enclose_cons, List.cons_append, List.append_assoc, List.nil_append, List.cons.injEq, true_and] at he
    rcases hs with ⟨rfl, hw⟩ | hs
    · exact absurd he (hc.not_separated hw (gap_margin _) h.2)
    · exact separated_fixed hText (gap_margin _) (gap_margin _) hc (.cons h has) hs he

end Rows

/-! ## Values as they are written -/

mutual

/-- A finite value is written by a text of it. -/
theorem value_chars (depth : Nat) : ∀ {j : Json}, j.isFinite = true → Value (j.chars depth) j
  | .null, _ => .null
  | .boolean true, _ => .trueName
  | .boolean false, _ => .falseName
  | .integer i, _ => by
    obtain ⟨n, ht, hv⟩ := exists_numeral_integer i
    rw [Json.chars, ← ht, ← hv]
    exact .number n
  | .number (.finite negative rank), _ => by
    obtain ⟨n, ht, hv⟩ := exists_numeral_finite negative rank
    rw [Json.chars, numberChars, ← ht, ← hv]
    · exact .number n
    · intro b h
      cases h
    · intro h
      cases h
  | .text s, _ => .text (stringText_stringChars s)
  | .array [], _ => .emptyArray gap_nil
  | .array (j :: js), h => by
    have hs := value_itemChars (depth + 1) h
    rw [Json.chars, itemChars, enclose_cons]
    exact .array (separated_rows (gap_margin _) (gap_margin _) hs)
  | .object [], _ => .emptyObject gap_nil
  | .object ((key, j) :: ms), h => by
    have hs := value_memberChars (depth + 1) h
    rw [Json.chars, memberChars, enclose_cons]
    exact .object (separated_rows (gap_margin _) (gap_margin _) hs)

theorem value_itemChars (depth : Nat) : ∀ {js : List Json}, itemsFinite js = true →
    List.Forall₂ Value (itemChars depth js) js
  | [], _ => .nil
  | j :: js, h => by
    rw [itemsFinite, Bool.and_eq_true] at h
    exact .cons (value_chars depth h.1) (value_itemChars depth h.2)

theorem value_memberChars (depth : Nat) : ∀ {ms : List (String × Json)}, membersFinite ms = true →
    List.Forall₂ (Member Value) (memberChars depth ms) ms
  | [], _ => .nil
  | (key, j) :: ms, h => by
    rw [membersFinite, Bool.and_eq_true] at h
    have hm := Member.mk (stringText_stringChars key) gap_nil gap_blank (value_chars depth h.1)
    refine .cons ?_ (value_memberChars depth h.2)
    simpa using hm

end

/-! ## Values as they are read -/

theorem StringText.ne_cons {cs : List Char} {s : String} (h : StringText cs s) {c : Char} (hc : c ≠ '"') :
    cs ++ r ≠ c :: r' := by
  obtain ⟨_⟩ := h
  exact fun he => hc (List.cons.inj he).1.symm

theorem fixes_null : Fixes Value ['n', 'u', 'l', 'l'] true .null := by
  intro cs r r' b hv he _ _
  cases hv with
  | null => exact ⟨rfl, rfl, by simpa using he⟩
  | number n => exact absurd he (n.ne_cons rfl)
  | text h => exact absurd he (h.ne_cons (by decide))
  | _ => exact absurd (List.cons.inj he).1 (by decide)

theorem fixes_boolean (b : Bool) : Fixes Value (if b then ['t', 'r', 'u', 'e'] else ['f', 'a', 'l', 's', 'e']) true
    (.boolean b) := by
  intro cs r r' j hv he _ _
  cases b with
  | true =>
    cases hv with
    | trueName => exact ⟨rfl, rfl, by simpa using he⟩
    | number n => exact absurd he (n.ne_cons rfl)
    | text h => exact absurd he (h.ne_cons (by decide))
    | _ => exact absurd (List.cons.inj he).1 (by decide)
  | false =>
    cases hv with
    | falseName => exact ⟨rfl, rfl, by simpa using he⟩
    | number n => exact absurd he (n.ne_cons rfl)
    | text h => exact absurd he (h.ne_cons (by decide))
    | _ => exact absurd (List.cons.inj he).1 (by decide)

theorem fixes_numeral (n : Numeral) : Fixes Value n.text true n.value := by
  intro cs r r' j hv he hr hr'
  cases hv with
  | number n' =>
    obtain ⟨rfl, hrest⟩ := n'.unique he hr hr'
    exact ⟨rfl, rfl, hrest⟩
  | text h =>
    obtain ⟨_⟩ := h
    exact absurd he.symm (n.ne_cons rfl)
  | _ => exact absurd he.symm (n.ne_cons rfl)

theorem fixes_text (s : String) : Fixes Value (stringChars s) true (.text s) := by
  intro cs r r' j hv he _ _
  cases hv with
  | text h =>
    obtain ⟨rfl, hrest⟩ := h.unique (stringText_stringChars s) he
    exact ⟨rfl, rfl, hrest⟩
  | number n => exact absurd he (n.ne_cons rfl)
  | _ => exact absurd (List.cons.inj he).1 (by decide)

/-- Behind the minus of a numeral there is a digit. -/
theorem Numeral.digit_of_minus (n : Numeral) {c : Char} (h : n.text ++ r = '-' :: c :: r') : c.isDigit = true := by
  obtain ⟨d, t, hw, hd⟩ := n.whole_isDigits.exists_cons
  rw [Numeral.text, hw] at h
  cases hn : n.negative with
  | true =>
    rw [hn] at h
    obtain ⟨-, h⟩ := List.cons.inj h
    exact (List.cons.inj h).1 ▸ hd
  | false =>
    rw [hn] at h
    rw [(List.cons.inj h).1] at hd
    cases hd

/-- No value is written like the name of infinity or nan. -/
theorem Value.ne_name {cs : List Char} {j : Json} (h : Value cs j) {c : Char} {name : List Char} (hc : c ∈ ['I', 'N'])
    (negative : Bool) : cs ++ r ≠ Binary64.signText negative ++ c :: name ++ r' := by
  have hletter : inNumeral c = false ∧ c.isDigit = false ∧ c ≠ '"' ∧ c ∉ ['n', 't', 'f', '[', '\x7b'] := by
    simp only [List.mem_cons, List.not_mem_nil, or_false] at hc
    rcases hc with rfl | rfl <;> decide
  intro he
  cases negative with
  | false =>
    cases h with
    | number n => exact n.ne_cons hletter.1 he
    | text h => exact h.ne_cons hletter.2.2.1 he
    | _ => exact hletter.2.2.2 ((List.cons.inj he).1 ▸ by decide)
  | true =>
    cases h with
    | number n =>
      have hd := n.digit_of_minus he
      rw [hletter.2.1] at hd
      cases hd
    | text h => exact h.ne_cons (by decide) he
    | _ => exact absurd (List.cons.inj he).1 (by decide)

theorem fixes_number (x : Binary64) : Fixes Value (numberChars x) x.isFinite (.number x) := by
  cases x with
  | finite negative rank =>
    obtain ⟨n, ht, hv⟩ := exists_numeral_finite negative rank
    have h := fixes_numeral n
    rwa [ht, hv] at h
  | infinite negative => exact fun cs r r' b hv he _ _ => absurd he (hv.ne_name (by decide) negative)
  | nan => exact fun cs r r' b hv he _ _ => absurd he (hv.ne_name (by decide) false)

theorem fixes_member {key : String} {t : List Char} {f : Bool} {j : Json} (h : Fixes Value t f j) (ht : Starts t) :
    Fixes (Member Value) (stringChars key ++ [':', ' '] ++ t) f (key, j) := by
  intro cs r r' m hv he hr hr'
  obtain ⟨hk, hw, hw', hv⟩ := hv
  simp only [List.append_assoc, List.cons_append, List.nil_append] at he
  obtain ⟨rfl, hcolon⟩ := hk.unique (stringText_stringChars key) he
  have hstop : ∀ {x : List Char}, Stops isGap (':' :: x) := stops_cons.2 rfl
  have hvalue := (List.cons.inj (gap_unique hw gap_nil hstop hstop hcolon)).2
  obtain ⟨hf, rfl, hrest⟩ := element_fixed (fun _ _ h => h.starts) gap_blank h ht hw' hv hr hr' hvalue
  exact ⟨hf, rfl, hrest⟩

theorem starts_numberChars (x : Binary64) : Starts (numberChars x) := by
  cases x with
  | finite negative rank =>
    obtain ⟨n, ht, -⟩ := exists_numeral_finite negative rank
    have h := n.starts
    rwa [ht] at h
  | infinite negative => cases negative <;> exact starts_cons rfl (by decide)
  | nan => exact starts_cons rfl (by decide)

theorem starts_chars (depth : Nat) : ∀ j : Json, Starts (j.chars depth)
  | .null | .boolean true | .boolean false | .text _ | .array [] | .object [] => starts_cons rfl (by decide)
  | .array (_ :: _) | .object (_ :: _) => starts_cons rfl (by decide)
  | .integer i => by
    obtain ⟨n, ht, -⟩ := exists_numeral_integer i
    rw [Json.chars, ← ht]
    exact n.starts
  | .number x => starts_numberChars x

mutual

theorem fixes_chars (depth : Nat) : ∀ j : Json, Fixes Value (j.chars depth) j.isFinite j
  | .null => fixes_null
  | .boolean b => fixes_boolean b
  | .integer i => by
    obtain ⟨n, ht, hv⟩ := exists_numeral_integer i
    have h := fixes_numeral n
    rw [ht, hv] at h
    exact h
  | .number x => fixes_number x
  | .text s => fixes_text s
  | .array items => by
    intro cs r r' b hv he _ _
    have hi := fixes_itemChars (depth + 1) items
    rw [isFinite, itemsFinite_eq_all]
    cases hv with
    | emptyArray hw =>
      obtain ⟨hf, hb, hr⟩ := enclose_fixed (fun _ _ h => Value.starts h) closing_bracket hi (.inl ⟨rfl, hw⟩) he
      exact ⟨hf, congrArg Json.array hb, hr⟩
    | array hs =>
      obtain ⟨hf, hb, hr⟩ := enclose_fixed (fun _ _ h => Value.starts h) closing_bracket hi (.inr hs) he
      exact ⟨hf, congrArg Json.array hb, hr⟩
    | number n => cases items <;> exact absurd he (n.ne_cons rfl)
    | text h => cases items <;> exact absurd he (h.ne_cons (by decide))
    | _ => cases items <;> exact absurd (List.cons.inj he).1 (by decide)
  | .object members => by
    intro cs r r' b hv he _ _
    have hm := fixes_memberChars (depth + 1) members
    rw [isFinite, membersFinite_eq_all]
    cases hv with
    | emptyObject hw =>
      obtain ⟨hf, hb, hr⟩ := enclose_fixed (fun _ _ h => Member.starts h) closing_brace hm (.inl ⟨rfl, hw⟩) he
      exact ⟨hf, congrArg Json.object hb, hr⟩
    | object hs =>
      obtain ⟨hf, hb, hr⟩ := enclose_fixed (fun _ _ h => Member.starts h) closing_brace hm (.inr hs) he
      exact ⟨hf, congrArg Json.object hb, hr⟩
    | number n => cases members <;> exact absurd he (n.ne_cons rfl)
    | text h => cases members <;> exact absurd he (h.ne_cons (by decide))
    | _ => cases members <;> exact absurd (List.cons.inj he).1 (by decide)

theorem fixes_itemChars (depth : Nat) : ∀ js : List Json, AllFixed Value isFinite (itemChars depth js) js
  | [] => .nil
  | j :: js => .cons ⟨fixes_chars depth j, starts_chars depth j⟩ (fixes_itemChars depth js)

theorem fixes_memberChars (depth : Nat) : ∀ ms : List (String × Json),
    AllFixed (Member Value) (·.2.isFinite) (memberChars depth ms) ms
  | [] => .nil
  | (key, j) :: ms =>
    .cons ⟨fixes_member (fixes_chars depth j) (starts_chars depth j), starts_cons rfl (by decide)⟩
      (fixes_memberChars depth ms)

end

/-! ## Whole texts -/

/-- The written form of a value, and white space behind it, is a text of finite values only,
    and of no other value. -/
theorem document_chars_iff {j j' : Json} {w : List Char} (hw : Gap w) :
    Document (j.chars 0 ++ w) j' ↔ j.isFinite = true ∧ j' = j := by
  constructor
  · intro h
    generalize hcs : j.chars 0 ++ w = cs at h
    obtain ⟨hw₁, hv, hw₂⟩ := h
    have hends : ∀ {w : List Char}, Gap w → Ends w := fun hw => by simpa using hw.ends (r := []) nofun
    have he := gap_unique hw₁ gap_nil (hv.starts.append _).stops ((starts_chars 0 j).append w).stops hcs.symm
    obtain ⟨hf, hj, -⟩ := fixes_chars 0 j hv he (hends hw₂) (hends hw)
    exact ⟨hf, hj⟩
  · rintro ⟨hf, rfl⟩
    exact .mk gap_nil (value_chars 0 hf) hw

end JsonText

end LoxSyntax
