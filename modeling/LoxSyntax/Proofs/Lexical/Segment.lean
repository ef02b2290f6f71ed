/-
  LoxSyntax.Proofs.Lexical.Segment — the lexical grammar: a source is a row of segments,
  and each is fixed by what stands behind its start.

  A segment is a blank, a comment, an operator, a string, a number, a word, a quote that
  nothing closes, or some other character. What may stand behind it is part of the
  grammar: a run of digits ends where no digit follows, and no point with a digit.

  - `Segment.Before.eq_first`: the first segment is determined by the characters.
  - `existsUnique_splits`: every source splits into segments in one way.
-/

import Mathlib.Data.List.TakeWhile
import LoxSyntax.Scanner

namespace LoxSyntax.Lexical

inductive Form where
  | blank
  | comment
  | operator (kind : TokenKind)
  /-- A string, with what stands between its quotes. -/
  | string (value : List Char)
  /-- A number, with its digits before and behind the point. -/
  | number (whole fraction : List Char)
  | word
  /-- A quote with no other behind it, and all that follows. -/
  | unclosed
  | other
  deriving DecidableEq, Repr

structure Segment where
  form : Form
  text : List Char
  deriving DecidableEq, Repr

/-- The next character, if there is one, does not have the property. -/
def Stops (p : Char → Bool) (rest : List Char) : Prop := ∀ c ∈ rest.head?, p c = false

/-- Next is a point with a digit behind it. -/
def PointDigit (rest : List Char) : Prop := rest.head? = some '.' ∧ rest.tail.head?.any isDigit = true

/-- The character starts none of the other forms. -/
def StartsNothing (c : Char) : Prop :=
  punctuation? c = none ∧ comparison? c = none ∧ c ≠ '/' ∧ isSpace c = false ∧ c ≠ '"' ∧ isDigit c = false ∧
    isAlpha c = false

/-- The segment may stand in front of the characters `rest`. -/
inductive Segment.Before : Segment → List Char → Prop where
  | blank {c : Char} {rest : List Char} (h : isSpace c = true) : Before ⟨.blank, [c]⟩ rest
  | comment {text rest : List Char} (ht : ∀ c ∈ text, (c != '\n') = true) (hr : Stops (· != '\n') rest) :
      Before ⟨.comment, '/' :: '/' :: text⟩ rest
  | punctuation {c : Char} {kind : TokenKind} {rest : List Char} (h : punctuation? c = some kind) :
      Before ⟨.operator kind, [c]⟩ rest
  | extended {c : Char} {extended alone : TokenKind} {rest : List Char} (h : comparison? c = some (extended, alone)) :
      Before ⟨.operator extended, [c, '=']⟩ rest
  | alone {c : Char} {extended alone : TokenKind} {rest : List Char} (h : comparison? c = some (extended, alone))
      (hr : rest.head? ≠ some '=') : Before ⟨.operator alone, [c]⟩ rest
  | slash {rest : List Char} (hr : rest.head? ≠ some '/') : Before ⟨.operator .slash, ['/']⟩ rest
  | string {value rest : List Char} (hv : ∀ c ∈ value, (c != '"') = true) :
      Before ⟨.string value, '"' :: (value ++ ['"'])⟩ rest
  | unclosed {text : List Char} (ht : ∀ c ∈ text, (c != '"') = true) : Before ⟨.unclosed, '"' :: text⟩ []
  | whole {d : Char} {ds rest : List Char} (hd : ∀ c ∈ d :: ds, isDigit c = true) (hr : Stops isDigit rest)
      (hp : ¬PointDigit rest) : Before ⟨.number (d :: ds) [], d :: ds⟩ rest
  | fraction {d f : Char} {ds fs rest : List Char} (hd : ∀ c ∈ d :: ds, isDigit c = true)
      (hf : ∀ c ∈ f :: fs, isDigit c = true) (hr : Stops isDigit rest) :
      Before ⟨.number (d :: ds) (f :: fs), d :: ds ++ '.' :: f :: fs⟩ rest
  | word {c : Char} {cs rest : List Char} (hc : isAlpha c = true) (hs : ∀ c ∈ cs, isAlphanumeric c = true)
      (hr : Stops isAlphanumeric rest) : Before ⟨.word, c :: cs⟩ rest
  | other {c : Char} {rest : List Char} (h : StartsNothing c) : Before ⟨.other, [c]⟩ rest

/-- The segments one behind the other are the source. -/
inductive Splits : List Segment → List Char → Prop where
  | nil : Splits [] []
  | cons {s : Segment} {ss : List Segment} {rest : List Char} (h : s.Before rest) (hs : Splits ss rest) :
      Splits (s :: ss) (s.text ++ rest)

/-! ## Runs of characters -/

theorem stops_cons {p : Char → Bool} {c : Char} {cs : List Char} : Stops p (c :: cs) ↔ p c = false := by
  simp [Stops]

theorem exists_run (p : Char → Bool) (cs : List Char) :
    ∃ w rest, cs = w ++ rest ∧ (∀ c ∈ w, p c = true) ∧ Stops p rest := by
  refine ⟨cs.takeWhile p, cs.dropWhile p, List.takeWhile_append_dropWhile.symm,
    fun c hc => List.mem_takeWhile_imp hc, ?_⟩
  intro c hc
  have h := List.head?_dropWhile_not p cs
  rw [hc] at h
  simpa using h

theorem takeWhile_run {p : Char → Bool} {w rest : List Char} (hw : ∀ c ∈ w, p c = true) (hr : Stops p rest) :
    (w ++ rest).takeWhile p = w := by
  rw [List.takeWhile_append_of_pos hw]
  cases rest with
  | nil => rw [List.takeWhile_nil, List.append_nil]
  | cons c rest => rw [List.takeWhile_cons_of_neg (by simp [hr c rfl]), List.append_nil]

theorem dropWhile_run {p : Char → Bool} {w rest : List Char} (hw : ∀ c ∈ w, p c = true) (hr : Stops p rest) :
    (w ++ rest).dropWhile p = rest := by
  rw [List.dropWhile_append_of_pos hw]
  cases rest with
  | nil => rfl
  | cons c rest => rw [List.dropWhile_cons_of_neg (by simp [hr c rfl])]

/-! ## How segments start -/

/-- The characters that are no digits and stand in no word, and start something. -/
def marks : List Char :=
  ['(', ')', '\x7b', '\x7d', ',', '.', '-', '+', ';', '*', '!', '=', '<', '>', '/', ' ', '\r', '\t', '\n', '"']

theorem mem_of_punctuation? {c : Char} {kind : TokenKind} (h : punctuation? c = some kind) : c ∈ marks.take 10 := by
  unfold punctuation? at h
  split at h <;> first | decide | cases h

theorem mem_of_comparison? {c : Char} {kinds : TokenKind × TokenKind} (h : comparison? c = some kinds) :
    c ∈ (marks.drop 10).take 4 := by
  unfold comparison? at h
  split at h <;> first | decide | cases h

theorem mem_of_isSpace {c : Char} (h : isSpace c = true) : c ∈ marks.drop 15 := by
  simp only [isSpace, Bool.or_eq_true, beq_iff_eq] at h
  rcases h with ((rfl | rfl) | rfl) | rfl <;> decide

theorem not_mem_of_all {p : Char → Bool} {c : Char} {cs : List Char} (h : p c = true) (hcs : cs.all (!p ·) = true) :
    c ∉ cs := by
  intro hc
  have := List.all_eq_true.1 hcs c hc
  rw [h] at this
  cases this

theorem punctuation?_eq_none {c : Char} (h : c ∉ marks.take 10) : punctuation? c = none := by
  cases hk : punctuation? c with
  | none => rfl
  | some kind => exact absurd (mem_of_punctuation? hk) h

theorem comparison?_eq_none {c : Char} (h : c ∉ (marks.drop 10).take 4) : comparison? c = none := by
  cases hk : comparison? c with
  | none => rfl
  | some kinds => exact absurd (mem_of_comparison? hk) h

theorem punctuation?_of_comparison? {c : Char} {kinds : TokenKind × TokenKind} (h : comparison? c = some kinds) :
    punctuation? c = none :=
  punctuation?_eq_none (not_mem_of_all (p := fun c => (comparison? c).isSome) (by rw [h]; rfl) (by decide))

theorem isSpace_start {c : Char} (h : isSpace c = true) : punctuation? c = none ∧ comparison? c = none ∧ c ≠ '/' := by
  refine ⟨punctuation?_eq_none (not_mem_of_all h (by decide)), comparison?_eq_none (not_mem_of_all h (by decide)), ?_⟩
  rintro rfl
  exact absurd h (by decide)

/-- What no mark is starts no operator, comment, blank or string. -/
theorem not_mark_start {c : Char} (h : c ∉ marks) :
    punctuation? c = none ∧ comparison? c = none ∧ c ≠ '/' ∧ isSpace c = false ∧ c ≠ '"' := by
  refine ⟨punctuation?_eq_none fun hc => h (List.mem_of_mem_take hc),
    comparison?_eq_none fun hc => h (List.mem_of_mem_drop (List.mem_of_mem_take hc)), ?_, ?_, ?_⟩
  · rintro rfl
    exact h (by decide)
  · exact Bool.eq_false_iff.2 fun hs => h (List.mem_of_mem_drop (mem_of_isSpace hs))
  · rintro rfl
    exact h (by decide)

theorem isDigit_start {c : Char} (h : isDigit c = true) : c ∉ marks := not_mem_of_all h (by decide)

theorem isAlpha_start {c : Char} (h : isAlpha c = true) : c ∉ marks := not_mem_of_all h (by decide)

theorem isDigit_of_isAlpha {c : Char} (h : isAlpha c = true) : isDigit c = false := by
  simp only [isAlpha, Bool.or_eq_true, Bool.and_eq_true, decide_eq_true_eq, beq_iff_eq] at h
  simp only [isDigit, Bool.and_eq_false_iff, decide_eq_false_iff_not]
  rcases h with (⟨h, -⟩ | ⟨h, -⟩) | rfl
  · exact .inr fun h' => absurd (Char.le_trans h h') (by decide)
  · exact .inr fun h' => absurd (Char.le_trans h h') (by decide)
  · exact .inr (by decide)

/-! ## The first segment -/

/-- The segment that the characters begin with. -/
def first (c : Char) (cs : List Char) : Segment :=
  match punctuation? c, comparison? c with
  | some kind, _ => ⟨.operator kind, [c]⟩
  | none, some (extended, alone) =>
    if cs.head? = some '=' then ⟨.operator extended, [c, '=']⟩ else ⟨.operator alone, [c]⟩
  | none, none =>
    if c = '/' then
      if cs.head? = some '/' then ⟨.comment, '/' :: '/' :: cs.tail.takeWhile (· != '\n')⟩
      else ⟨.operator .slash, ['/']⟩
    else if isSpace c then ⟨.blank, [c]⟩
    else if c = '"' then
      let value := cs.takeWhile (· != '"')
      if (cs.dropWhile (· != '"')).isEmpty then ⟨.unclosed, '"' :: value⟩ else ⟨.string value, '"' :: (value ++ ['"'])⟩
    else if isDigit c then
      let whole := c :: cs.takeWhile isDigit
      match cs.dropWhile isDigit with
      | '.' :: f :: fs =>
        if isDigit f then
          let fraction := f :: fs.takeWhile isDigit
          ⟨.number whole fraction, whole ++ '.' :: fraction⟩
        else ⟨.number whole [], whole⟩
      | _ => ⟨.number whole [], whole⟩
    else if isAlpha c then ⟨.word, c :: cs.takeWhile isAlphanumeric⟩
    else ⟨.other, [c]⟩

theorem Segment.Before.text_ne_nil {s : Segment} {rest : List Char} (h : s.Before rest) : s.text ≠ [] := by
  cases h <;> exact List.cons_ne_nil _ _

theorem first_whole {d : Char} {ds rest : List Char} (hd : ∀ c ∈ d :: ds, isDigit c = true) (hr : Stops isDigit rest)
    (hp : ¬PointDigit rest) : first d (ds ++ rest) = ⟨.number (d :: ds) [], d :: ds⟩ := by
  obtain ⟨hc, hd⟩ := List.forall_mem_cons.1 hd
  obtain ⟨h1, h2, h3, h4, h5⟩ := not_mark_start (isDigit_start hc)
  simp only [first, h1, h2, h3, h4, h5, hc, if_true, if_false, Bool.false_eq_true, takeWhile_run hd hr,
    dropWhile_run hd hr]
  split
  · next f fs =>
    have hf : ¬isDigit f = true := fun hf => hp ⟨rfl, hf⟩
    rw [if_neg hf]
  · rfl

theorem first_fraction {d f : Char} {ds fs rest : List Char} (hd : ∀ c ∈ d :: ds, isDigit c = true)
    (hf : ∀ c ∈ f :: fs, isDigit c = true) (hr : Stops isDigit rest) :
    first d (ds ++ '.' :: f :: (fs ++ rest)) = ⟨.number (d :: ds) (f :: fs), d :: ds ++ '.' :: f :: fs⟩ := by
  obtain ⟨hc, hd⟩ := List.forall_mem_cons.1 hd
  obtain ⟨hf, hfs⟩ := List.forall_mem_cons.1 hf
  obtain ⟨h1, h2, h3, h4, h5⟩ := not_mark_start (isDigit_start hc)
  have hr' : Stops isDigit ('.' :: f :: (fs ++ rest)) := stops_cons.2 (by decide)
  simp only [first, h1, h2, h3, h4, h5, hc, if_true, if_false, Bool.false_eq_true, takeWhile_run hd hr',
    dropWhile_run hd hr', hf, takeWhile_run hfs hr]

/-- The first segment is determined by the characters. -/
theorem Segment.Before.eq_first {s : Segment} {rest : List Char} (h : s.Before rest) {c : Char} {cs : List Char}
    (ht : s.text ++ rest = c :: cs) : s = first c cs := by
  cases h with
  | blank h =>
    obtain ⟨rfl, rfl⟩ := List.cons.inj ht
    obtain ⟨h1, h2, h3⟩ := isSpace_start h
    simp [first, h1, h2, h3, h]
  | comment ht' hr =>
    obtain ⟨rfl, rfl⟩ := List.cons.inj ht
    simp [first, punctuation?, comparison?, takeWhile_run ht' hr]
  | punctuation h =>
    obtain ⟨rfl, rfl⟩ := List.cons.inj ht
    simp [first, h]
  | extended h =>
    obtain ⟨rfl, rfl⟩ := List.cons.inj ht
    simp [first, punctuation?_of_comparison? h, h]
  | alone h hr =>
    obtain ⟨rfl, rfl⟩ := List.cons.inj ht
    simp [first, punctuation?_of_comparison? h, h, hr]
  | slash hr =>
    obtain ⟨rfl, rfl⟩ := List.cons.inj ht
    simp [first, punctuation?, comparison?, hr]
  | @string value rest hv =>
    obtain ⟨rfl, rfl⟩ := List.cons.inj ht
    have hr : Stops (· != '"') ('"' :: rest) := by simp [Stops]
    simp [first, punctuation?, comparison?, isSpace, takeWhile_run hv hr, dropWhile_run hv hr]
  | @unclosed text ht' =>
    obtain ⟨rfl, rfl⟩ := List.cons.inj ((List.append_nil _).symm.trans ht)
    have hr : Stops (· != '"') [] := by simp [Stops]
    have hw := takeWhile_run ht' hr
    have hd := dropWhile_run ht' hr
    rw [List.append_nil] at hw hd
    simp only [first, punctuation?, comparison?, hw, hd]
    rfl
  | @whole d ds rest hd hr hp =>
    obtain ⟨rfl, rfl⟩ : d = c ∧ ds ++ rest = cs := List.cons.inj ht
    exact (first_whole hd hr hp).symm
  | @fraction d f ds fs rest hd hf hr =>
    have hcs : d :: ds ++ '.' :: f :: fs ++ rest = d :: (ds ++ '.' :: f :: (fs ++ rest)) := by simp
    obtain ⟨rfl, rfl⟩ := List.cons.inj (hcs.symm.trans ht)
    exact (first_fraction hd hf hr).symm
  | word hc hs hr =>
    obtain ⟨rfl, rfl⟩ := List.cons.inj ht
    obtain ⟨h1, h2, h3, h4, h5⟩ := not_mark_start (isAlpha_start hc)
    simp [first, h1, h2, h3, h4, h5, isDigit_of_isAlpha hc, hc, takeWhile_run hs hr]
  | other h =>
    obtain ⟨rfl, rfl⟩ := List.cons.inj ht
    obtain ⟨h1, h2, h3, h4, h5, h6, h7⟩ := h
    simp [first, h1, h2, h3, h4, h5, h6, h7]

example : first '1' ['.', 'x'] = ⟨.number ['1'] [], ['1']⟩ := by decide

theorem exists_number {d : Char} (hd : isDigit d = true) (cs : List Char) :
    ∃ (s : Segment) (rest : List Char), s.Before rest ∧ d :: cs = s.text ++ rest := by
  obtain ⟨ds, rest, rfl, hds, hr⟩ := exists_run isDigit cs
  have hwhole : ∀ c ∈ d :: ds, isDigit c = true := List.forall_mem_cons.2 ⟨hd, hds⟩
  by_cases hp : PointDigit rest
  · obtain ⟨rest, rfl⟩ := List.head?_eq_some_iff.1 hp.1
    obtain ⟨f, hf, hf'⟩ := (Option.any_eq_true _ _).1 hp.2
    obtain ⟨rest, rfl⟩ := List.head?_eq_some_iff.1 hf
    obtain ⟨fs, rest, rfl, hfs, hr⟩ := exists_run isDigit rest
    exact ⟨⟨.number (d :: ds) (f :: fs), d :: ds ++ '.' :: f :: fs⟩, rest,
      .fraction hwhole (List.forall_mem_cons.2 ⟨hf', hfs⟩) hr, by simp⟩
  · exact ⟨⟨.number (d :: ds) [], d :: ds⟩, rest, .whole hwhole hr hp, rfl⟩

/-- Characters begin with a segment. -/
theorem exists_before (c : Char) (cs : List Char) : ∃ (s : Segment) (rest : List Char), s.Before rest ∧
    c :: cs = s.text ++ rest := by
  cases hp : punctuation? c with
  | some kind => exact ⟨⟨.operator kind, [c]⟩, cs, .punctuation hp, rfl⟩
  | none =>
  cases hk : comparison? c with
  | some kinds =>
    by_cases he : cs.head? = some '='
    · obtain ⟨cs, rfl⟩ := List.head?_eq_some_iff.1 he
      exact ⟨⟨.operator kinds.1, [c, '=']⟩, cs, .extended hk, rfl⟩
    · exact ⟨⟨.operator kinds.2, [c]⟩, cs, .alone hk he, rfl⟩
  | none =>
  by_cases hslash : c = '/'
  · subst hslash
    by_cases hs : cs.head? = some '/'
    · obtain ⟨cs, rfl⟩ := List.head?_eq_some_iff.1 hs
      obtain ⟨text, rest, rfl, ht, hr⟩ := exists_run (· != '\n') cs
      exact ⟨⟨.comment, '/' :: '/' :: text⟩, rest, .comment ht hr, rfl⟩
    · exact ⟨⟨.operator .slash, ['/']⟩, cs, .slash hs, rfl⟩
  cases hspace : isSpace c with
  | true => exact ⟨⟨.blank, [c]⟩, cs, .blank hspace, rfl⟩
  | false =>
  by_cases hquote : c = '"'
  · subst hquote
    obtain ⟨text, rest, rfl, ht, hr⟩ := exists_run (· != '"') cs
    cases rest with
    | nil => exact ⟨⟨.unclosed, '"' :: text⟩, [], .unclosed ht, rfl⟩
    | cons q rest =>
      obtain rfl : q = '"' := by simpa using hr q rfl
      exact ⟨⟨.string text, '"' :: (text ++ ['"'])⟩, rest, .string ht, by simp⟩
  cases hdigit : isDigit c with
  | true => exact exists_number hdigit cs
  | false =>
  cases halpha : isAlpha c with
  | true =>
    obtain ⟨w, rest, rfl, hw, hr⟩ := exists_run isAlphanumeric cs
    exact ⟨⟨.word, c :: w⟩, rest, .word halpha hw hr, rfl⟩
  | false => exact ⟨⟨.other, [c]⟩, cs, .other ⟨hp, hk, hslash, hspace, hquote, hdigit, halpha⟩, rfl⟩

/-! ## Splitting a source -/

theorem Splits.unique {ss ss' : List Segment} {cs : List Char} (h : Splits ss cs) (h' : Splits ss' cs) : ss = ss' := by
  induction h generalizing ss' with
  | nil =>
    generalize hcs : ([] : List Char) = cs at h'
    cases h' with
    | nil => rfl
    | cons hb hs => exact absurd (List.append_eq_nil_iff.1 hcs.symm).1 hb.text_ne_nil
  | @cons s ss rest hb hs ih =>
    obtain ⟨c, t, hc⟩ := List.exists_cons_of_ne_nil hb.text_ne_nil
    have hcs : s.text ++ rest = c :: (t ++ rest) := by rw [hc]; rfl
    generalize htext : s.text ++ rest = cs at h'
    cases h' with
    | nil => exact absurd (List.append_eq_nil_iff.1 htext).1 hb.text_ne_nil
    | @cons s' ss' rest' hb' hs' =>
      obtain rfl : s = s' := (hb.eq_first hcs).trans (hb'.eq_first (htext.symm.trans hcs)).symm
      obtain rfl := List.append_cancel_left htext
      rw [ih hs']

theorem exists_splits (n : Nat) {cs : List Char} (hn : cs.length ≤ n) : ∃ ss, Splits ss cs := by
  induction n generalizing cs with
  | zero =>
    obtain rfl := List.length_eq_zero_iff.1 (Nat.le_zero.1 hn)
    exact ⟨[], .nil⟩
  | succ n ih =>
    cases cs with
    | nil => exact ⟨[], .nil⟩
    | cons c cs =>
      obtain ⟨s, rest, hb, ht⟩ := exists_before c cs
      have hpos := List.length_pos_iff.2 hb.text_ne_nil
      have hlen := congrArg List.length ht
      rw [List.length_append] at hlen
      obtain ⟨ss, hs⟩ := ih (by omega : rest.length ≤ n)
      exact ⟨s :: ss, ht ▸ .cons hb hs⟩

/-- Every source splits into segments in one way. -/
theorem existsUnique_splits (cs : List Char) : ∃! ss, Splits ss cs := by
  obtain ⟨ss, hs⟩ := exists_splits cs.length (Nat.le_refl _)
  exact ⟨ss, hs, fun ss' hs' => hs'.unique hs⟩

/-- The texts of the segments, one behind the other, are the source. -/
theorem Splits.flatMap_text {ss : List Segment} {cs : List Char} (h : Splits ss cs) : ss.flatMap (·.text) = cs := by
  induction h with
  | nil => rfl
  | cons _ _ ih => rw [List.flatMap_cons, ih]

end LoxSyntax.Lexical
