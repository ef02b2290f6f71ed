/-
  LoxSyntax.Proofs.CursorCalls — what a cursor has consumed, whatever was asked of it.

  A cursor may be asked to read on, to look ahead, to take a character if it is the
  expected one, and whether it is at the end, in any order, and it may start behind the
  end or count its place from there. What was consumed are the characters from its start
  on, one by one: the place has moved up by their number, and line and column are counts
  over them. Nothing else moves the cursor. Reading and taking look at different
  characters when the place is negative, so what a call can do is said for each of them.

  - `Spot.pastAll_eq`: line and column behind any characters.
  - `next_cases`: reading fails out of reach, and gives the character at the place anywhere else.
  - `react_cases`: what one call can do.
  - `after_eq`: what any calls do.
  - `calls_accounted`: the books of a cursor.
-/

import LoxSyntax.Proofs.TokenPlaces

namespace LoxSyntax

namespace Lexical

/-- The characters behind the last line feed are counted, or all of them behind the start. -/
theorem Spot.pastAll_eq (p : Spot) (cs : List Char) : p.pastAll cs =
    ⟨p.line + cs.count '\n', if '\n' ∈ cs then columnBehind cs else p.column + cs.length⟩ := by
  induction cs using List.reverseRecOn with
  | nil => simp [Spot.pastAll]
  | append_singleton cs c ih =>
    rw [Spot.pastAll_append, ih]
    show Spot.past _ c = _
    by_cases hc : c = '\n'
    · subst hc
      simp [Spot.past, columnBehind]
      omega
    · have hc' : '\n' ≠ c := Ne.symm hc
      by_cases hm : '\n' ∈ cs
      · simp [Spot.past, columnBehind, hc, hm]
        omega
      · simp [Spot.past, hc, hc', hm]
        omega

end Lexical

open Lexical

/-! ## Calls -/

/-- What can be asked of a cursor. -/
inductive CursorCall where
  | next
  | peek (offset : Int)
  | accept (expected : String)
  | atEnd
  deriving DecidableEq, Repr

inductive CursorReply where
  | char (c : Char)
  | ahead (c : Option Char)
  | flag (b : Bool)
  | failed (e : ReadError)
  deriving DecidableEq, Repr

/-- What a call answers, which characters it consumes, and the cursor behind it. -/
structure CursorReaction where
  reply : CursorReply
  consumed : List Char
  cursor : Cursor
  deriving DecidableEq, Repr

/-- The character with an index; a negative one counts from the end. -/
def indexed (cs : List Char) (i : Int) : Option Char :=
  let i := if i < 0 then i + cs.length else i
  if i < 0 then none else cs[i.toNat]?

namespace Cursor

/-- What is read next: what is taken, too, when the expected character is there. -/
def upcoming (c : Cursor) : List Char :=
  match c.next with
  | .ok (ch, _) => [ch]
  | .error _ => []

def react (c : Cursor) : CursorCall → CursorReaction
  | .next =>
    match c.next with
    | .ok (ch, c') => ⟨.char ch, c.upcoming, c'⟩
    | .error e => ⟨.failed e, [], c⟩
  | .peek offset => ⟨.ahead (c.peek offset), [], c⟩
  | .accept expected =>
    match c.accept expected with
    | .ok (true, c') => ⟨.flag true, c.upcoming, c'⟩
    | .ok (false, c') => ⟨.flag false, [], c'⟩
    | .error e => ⟨.failed e, [], c⟩
  | .atEnd => ⟨.flag c.atEnd, [], c⟩

/-- The cursor behind some calls, whatever they answer. -/
def after (c : Cursor) (calls : List CursorCall) : Cursor := calls.foldl (fun c call => (c.react call).cursor) c

/-- The characters that some calls consume, in order. -/
def consumed : Cursor → List CursorCall → List Char
  | _, [] => []
  | c, call :: calls => (c.react call).consumed ++ (c.react call).cursor.consumed calls

/-! ## Single calls -/

/-- No character can be read at the place: it is behind the last one, or no index. -/
def OutOfReach (c : Cursor) : Prop := (c.source.size : Int) ≤ c.position ∨ c.position < leastIndex

variable {c : Cursor} {expected : String}

theorem charAt?_eq_indexed (c : Cursor) :
    c.charAt? (if c.position < 0 then c.position + c.source.size else c.position) =
      indexed c.source.toList c.position := by
  simp only [charAt?, indexed, Array.length_toList, Array.getElem?_toList]

theorem next_cases (h : -(c.source.size : Int) ≤ c.position) :
    (c.OutOfReach ∧ ∃ e, c.next = .error e) ∨
    (¬c.OutOfReach ∧ ∃ ch, indexed c.source.toList c.position = some ch ∧ c.next = .ok (ch, c.past ch)) := by
  by_cases hend : (c.source.size : Int) ≤ c.position
  · exact .inl ⟨.inl hend, _, next_eq_error_pastEnd hend⟩
  by_cases hleast : c.position < leastIndex
  · refine .inl ⟨.inr hleast, .noIndex, ?_⟩
    simp [next, atEnd, hend, hleast]
  · refine .inr ⟨not_or.2 ⟨hend, hleast⟩, ?_⟩
    obtain ⟨ch, hch⟩ : ∃ ch, indexed c.source.toList c.position = some ch := by
      unfold indexed
      by_cases hneg : c.position < 0
      · have hlt : (c.position + c.source.size).toNat < c.source.size := by omega
        exact ⟨c.source[(c.position + c.source.size).toNat], by simp [hneg, hlt]; omega⟩
      · have hlt : c.position.toNat < c.source.size := by omega
        exact ⟨c.source[c.position.toNat], by simp [hneg, hlt]⟩
    refine ⟨ch, hch, ?_⟩
    rw [← charAt?_eq_indexed] at hch
    simp only [next, atEnd, hend, hleast, decide_false, Bool.false_eq_true, if_false, hch]

theorem next_fails_iff (h : -(c.source.size : Int) ≤ c.position) : (∃ e, c.next = .error e) ↔ c.OutOfReach := by
  rcases next_cases h with ⟨hout, he⟩ | ⟨hin, ch, -, hnext⟩
  · exact iff_of_true he hout
  · refine iff_of_false ?_ hin
    rintro ⟨e, he⟩
    rw [hnext] at he
    cases he

/-- Behind the end and in front of the first character nothing is next, so only the empty text is expected there. -/
theorem peek_of_outOfReach (h : c.OutOfReach) : c.peek 0 = none := by
  rcases h with hend | hleast
  · by_cases hneg : c.position < 0
    · simp [peek, charAt?, hneg]
    · have hge : c.source.size ≤ c.position.toNat := by omega
      simp [peek, charAt?, hneg, hge]
  · have hneg : c.position < 0 := by
      unfold leastIndex at hleast
      omega
    simp [peek, charAt?, hneg]

theorem accept_fails_iff (h : -(c.source.size : Int) ≤ c.position) :
    (∃ e, c.accept expected = .error e) ↔ expected = "" ∧ c.OutOfReach := by
  rw [← next_fails_iff h]
  constructor
  · rintro ⟨e, he⟩
    by_cases hp : (c.peek 0).toList = expected.toList
    · rw [accept, if_pos hp] at he
      split at he
      · cases he
      · next e' hnext =>
        have hout := (next_fails_iff h).1 ⟨e', hnext⟩
        rw [peek_of_outOfReach hout] at hp
        exact ⟨String.toList_eq_nil_iff.1 hp.symm, e', hnext⟩
    · rw [accept_of_ne hp] at he
      cases he
  · rintro ⟨rfl, e, he⟩
    have hout := (next_fails_iff h).1 ⟨e, he⟩
    refine ⟨e, ?_⟩
    rw [accept, if_pos (by rw [peek_of_outOfReach hout]; rfl), he]

theorem cursor_of_accept_false {c' : Cursor} (h : c.accept expected = .ok (false, c')) : c' = c := by
  unfold accept at h
  split at h
  · split at h
    · cases h
    · cases h
  · cases h
    rfl

/-- A character is taken by reading it. -/
theorem next_of_accept {c' : Cursor} (h : c.accept expected = .ok (true, c')) :
    ∃ ch, c.next = .ok (ch, c') ∧ (c.peek 0).toList = expected.toList := by
  unfold accept at h
  split at h
  · next hp =>
    split at h
    · next ch _ hnext =>
      cases h
      exact ⟨ch, hnext, hp⟩
    · cases h
  · cases h

/-- A call consumes nothing and leaves the cursor where it is, or it consumes the character
    at the place. -/
theorem react_cases (h : -(c.source.size : Int) ≤ c.position) (call : CursorCall) :
    ((c.react call).consumed = [] ∧ (c.react call).cursor = c) ∨
    ∃ ch, indexed c.source.toList c.position = some ch ∧ (c.react call).consumed = [ch] ∧
      (c.react call).cursor = c.past ch := by
  have hread : ∀ ch c', c.next = .ok (ch, c') →
      indexed c.source.toList c.position = some ch ∧ c.upcoming = [ch] ∧ c' = c.past ch := by
    intro ch c' hnext
    rcases next_cases h with ⟨-, e, he⟩ | ⟨-, ch', hch, hok⟩
    · rw [he] at hnext
      cases hnext
    · rw [hok] at hnext
      cases hnext
      exact ⟨hch, by rw [upcoming, hok], rfl⟩
  cases call with
  | peek offset => exact .inl ⟨rfl, rfl⟩
  | atEnd => exact .inl ⟨rfl, rfl⟩
  | next =>
    simp only [react]
    split
    · next ch c' hnext =>
      obtain ⟨hch, hup, rfl⟩ := hread ch c' hnext
      exact .inr ⟨ch, hch, hup, rfl⟩
    · exact .inl ⟨rfl, rfl⟩
  | accept expected =>
    simp only [react]
    split
    · next c' haccept =>
      obtain ⟨ch, hnext, -⟩ := next_of_accept haccept
      obtain ⟨hch, hup, rfl⟩ := hread ch c' hnext
      exact .inr ⟨ch, hch, hup, rfl⟩
    · next c' haccept => exact .inl ⟨rfl, cursor_of_accept_false haccept⟩
    · exact .inl ⟨rfl, rfl⟩

/-! ## Any calls -/

/-- The characters stand in the source from the cursor's place on. -/
def Reads (c : Cursor) (taken : List Char) : Prop :=
  ∀ (i : Nat) (ch : Char), taken[i]? = some ch → indexed c.source.toList (c.position + i) = some ch

theorem Reads.cons {ch : Char} {taken : List Char} (hch : indexed c.source.toList c.position = some ch)
    (h : (c.past ch).Reads taken) : c.Reads (ch :: taken) := by
  intro i ch' hi
  cases i with
  | zero =>
    obtain rfl : ch = ch' := by simpa using hi
    simpa using hch
  | succ i =>
    have hrest := h i ch' hi
    rw [source_past, position_past] at hrest
    rw [← hrest]
    congr 1
    omega

/-- Some calls read the characters that they consume, and move past them. -/
theorem after_eq (calls : List CursorCall) : ∀ {c : Cursor}, -(c.source.size : Int) ≤ c.position →
    c.Reads (c.consumed calls) ∧ c.after calls = c.pastAll (c.consumed calls) := by
  induction calls with
  | nil => exact fun _ => ⟨by simp [Reads, consumed], rfl⟩
  | cons call calls ih =>
    intro c h
    have hafter : c.after (call :: calls) = (c.react call).cursor.after calls := rfl
    rw [consumed, hafter]
    rcases react_cases h call with ⟨hnone, hstay⟩ | ⟨ch, hch, hone, hpast⟩
    · rw [hnone, hstay]
      exact ih h
    · have hp : -((c.past ch).source.size : Int) ≤ (c.past ch).position := by
        rw [source_past, position_past]
        omega
      obtain ⟨hreads, heq⟩ := ih hp
      rw [hone, hpast]
      exact ⟨Reads.cons hch hreads, heq⟩

/-- The books of a cursor that was at a place once and consumed some characters since: they
    stand there in the source, and place, line and column are counts over them. -/
structure Accounted (start c : Cursor) (taken : List Char) : Prop where
  source : c.source = start.source
  reads : start.Reads taken
  position : c.position = start.position + taken.length
  line : c.line = start.line + taken.count '\n'
  column_newline : '\n' ∈ taken → c.column = 1 + (taken.rtakeWhile (· != '\n')).length
  column_same : '\n' ∉ taken → c.column = start.column + taken.length

theorem accounted_after (h : -(c.source.size : Int) ≤ c.position) (calls : List CursorCall) :
    c.Accounted (c.after calls) (c.consumed calls) := by
  obtain ⟨hreads, heq⟩ := after_eq calls h
  rw [heq]
  refine ⟨source_pastAll _ _, hreads, position_pastAll _ _, ?_, ?_, ?_⟩
  · rw [line_pastAll, Spot.pastAll_eq]
    rfl
  · intro hm
    rw [column_pastAll, Spot.pastAll_eq]
    exact if_pos hm
  · intro hm
    rw [column_pastAll, Spot.pastAll_eq]
    exact if_neg hm

/-! ## Answers -/

/-- What the calls do at a place. Reading consumes the character that it answers, and taking
    the expected one. Looking ahead, asking for the end, a character that is refused and a
    failure leave the cursor as it is. Reading fails out of reach and nowhere else, taking
    there and only when nothing is expected. -/
structure Answers (c : Cursor) : Prop where
  next : ∀ ch, (c.react .next).reply = .char ch → (c.react .next).consumed = [ch]
  accept : ∀ expected, (c.react (.accept expected)).reply = .flag true →
    ∃ ch, (c.react (.accept expected)).consumed = [ch] ∧ (expected ≠ "" → expected.toList = [ch])
  peek : ∀ offset, c.react (.peek offset) = ⟨.ahead (c.peek offset), [], c⟩
  atEnd : c.react .atEnd = ⟨.flag (c.source.size ≤ c.position), [], c⟩
  refused : ∀ expected, (c.react (.accept expected)).reply = .flag false →
    c.react (.accept expected) = ⟨.flag false, [], c⟩
  failed : ∀ call e, (c.react call).reply = .failed e → c.react call = ⟨.failed e, [], c⟩
  next_fails : (∃ e, (c.react .next).reply = .failed e) ↔ c.OutOfReach
  accept_fails : ∀ expected, (∃ e, (c.react (.accept expected)).reply = .failed e) ↔ expected = "" ∧ c.OutOfReach

theorem reply_next {e : ReadError} : (c.react .next).reply = .failed e ↔ c.next = .error e := by
  cases h : c.next with
  | ok r => simp [react, h]
  | error e' => simp [react, h]

theorem reply_accept {e : ReadError} :
    (c.react (.accept expected)).reply = .failed e ↔ c.accept expected = .error e := by
  cases h : c.accept expected with
  | ok r =>
    obtain ⟨b, c'⟩ := r
    cases b <;> simp [react, h]
  | error e' => simp [react, h]

/-- What is taken is read: the expected character is the next one. -/
theorem consumed_of_accept (h : (c.react (.accept expected)).reply = .flag true) :
    ∃ ch, (c.react (.accept expected)).consumed = [ch] ∧ (expected ≠ "" → expected.toList = [ch]) := by
  cases haccept : c.accept expected with
  | error e => simp [react, haccept] at h
  | ok r =>
    obtain ⟨b, c'⟩ := r
    cases b with
    | false => simp [react, haccept] at h
    | true =>
      obtain ⟨ch, hnext, hpeek⟩ := next_of_accept haccept
      refine ⟨ch, by simp [react, haccept, upcoming, hnext], fun hne => ?_⟩
      -- something is ahead, so the place is not negative and reading looks where peeking does
      cases hahead : c.peek 0 with
      | none =>
        rw [hahead] at hpeek
        exact absurd (String.toList_eq_nil_iff.1 hpeek.symm) hne
      | some ch' =>
        have hpos : 0 ≤ c.position := by
          by_contra hneg
          simp [Cursor.peek, charAt?, Int.not_le.1 hneg] at hahead
        have hchar : c.source[c.position.toNat]? = some ch' := by
          simpa [Cursor.peek, charAt?, Int.not_lt.2 hpos] using hahead
        rw [next_of_nonneg hpos hchar] at hnext
        cases hnext
        rw [← hpeek, hahead]
        rfl

theorem answers (h : -(c.source.size : Int) ≤ c.position) : c.Answers where
  next := by
    intro ch hreply
    cases hnext : c.next with
    | ok r => simpa [react, upcoming, hnext] using hreply
    | error e => simp [react, hnext] at hreply
  accept := fun _ => consumed_of_accept
  peek := fun _ => rfl
  atEnd := rfl
  refused := by
    intro expected hreply
    cases haccept : c.accept expected with
    | error e => simp [react, haccept] at hreply
    | ok r =>
      obtain ⟨b, c'⟩ := r
      cases b with
      | true => simp [react, haccept] at hreply
      | false => simp [react, haccept, cursor_of_accept_false haccept]
  failed := by
    intro call e hreply
    cases call with
    | next => simp [react, reply_next.1 hreply]
    | accept expected => simp [react, reply_accept.1 hreply]
    | peek offset => cases hreply
    | atEnd => cases hreply
  next_fails := by simp only [reply_next, next_fails_iff h]
  accept_fails := fun expected => by simp only [reply_accept, accept_fails_iff h]

/-- A text that is not too long for its places to be indices is out of reach at its end only. -/
theorem outOfReach_iff (h : -(c.source.size : Int) ≤ c.position) (hsize : (c.source.size : Int) ≤ -leastIndex) :
    c.OutOfReach ↔ (c.source.size : Int) ≤ c.position := by
  refine or_iff_left ?_
  omega

/-- A cursor that starts anywhere but in front of the first character, as counted from the
    end, has read the source from there on, whatever was asked of it: line and column are
    where the characters led it that it consumed. Nothing else moves it. Reading fails at and
    behind the end alone, and so does taking, when nothing is expected; no text is so long
    that a place in it would not be an index. -/
theorem calls_accounted (source : String) {p : Int} (line column : Int) (hp : -(source.length : Int) ≤ p)
    (calls : List CursorCall) :
    let start : Cursor := ⟨source.toList.toArray, p, line, column⟩
    start.Accounted (start.after calls) (start.consumed calls) ∧ (start.after calls).Answers ∧
      ((source.length : Int) ≤ -leastIndex →
        ((start.after calls).OutOfReach ↔ (source.length : Int) ≤ (start.after calls).position)) := by
  intro start
  have hsize : start.source.size = source.length := String.length_toList
  have hstart : -(start.source.size : Int) ≤ start.position := by
    rw [hsize]
    exact hp
  have hbooks := accounted_after hstart calls
  have hplace : -((start.after calls).source.size : Int) ≤ (start.after calls).position := by
    have := hbooks.position
    rw [hbooks.source]
    omega
  refine ⟨hbooks, answers hplace, fun hlen => ?_⟩
  rw [outOfReach_iff hplace (by rwa [hbooks.source, hsize]), hbooks.source, hsize]

/-- From the last character on to the first one, over a line feed and to the end, where
    nothing can be taken any more. -/
theorem calls_accounted_fromEnd :
    let start : Cursor := ⟨"x\ny".toList.toArray, -1, 1, 1⟩
    let calls := [.accept "", .peek 3, .accept "x", .next, .accept "\n", .next, .accept "", .next]
    start.consumed calls = "yx\ny".toList ∧ (start.after calls).position = 3 ∧ (start.after calls).line = 2 ∧
      (start.after calls).column = 2 ∧ ∃ e, ((start.after calls).react (.accept "")).reply = .failed e := by
  intro start calls
  obtain ⟨hbooks, hanswers, hreach⟩ := calls_accounted "x\ny" 1 1 (p := -1) (by decide) calls
  have hconsumed : start.consumed calls = "yx\ny".toList := by decide +kernel
  refine ⟨hconsumed, ?_, ?_, ?_, ?_⟩
  · rw [hbooks.position, hconsumed]
    rfl
  · rw [hbooks.line, hconsumed]
    decide
  · rw [hbooks.column_newline (by rw [hconsumed]; decide), hconsumed]
    decide
  · exact (hanswers.accept_fails "").2 ⟨rfl, (hreach (by decide)).2 (by decide +kernel)⟩

end Cursor

end LoxSyntax
