/-
  LoxSyntax.Proofs.TokenPlaces — lines and columns are counts over the source.

  The scanner moves its line and its column character by character. Behind some characters
  the line is one more than the line feeds among them, the column one more than the
  characters behind the last line feed. So a token has the column where it starts and the
  line where it ends, whatever segments stood in front of it, and no line is smaller than
  one that was given before.

  - `start_pastAll`: the spot behind some characters.
  - `gives_of_append` / `finds_of_append`: the place of one token, and of one problem.
  - `forall₂_along`: what a row of segments gives stands in the places of those that give it.
  - `pairwise_along`: its lines never decrease.
  - `scan_places`: where the tokens and the problems of a source stand in it.
-/

import Mathlib.Data.List.DropRight
import Mathlib.Data.List.Forall2
import LoxSyntax.Proofs.LexicalGrammar

namespace LoxSyntax

namespace Lexical

/-! ## Counting -/

/-- The line behind some characters. -/
def lineBehind (cs : List Char) : Int := 1 + cs.count '\n'

/-- The column behind some characters: those behind the last line feed are counted. -/
def columnBehind (cs : List Char) : Int := 1 + (cs.rtakeWhile (· != '\n')).length

theorem start_pastAll (cs : List Char) : Spot.start.pastAll cs = ⟨lineBehind cs, columnBehind cs⟩ := by
  induction cs using List.reverseRecOn with
  | nil => rfl
  | append_singleton cs c ih =>
    rw [Spot.pastAll_append, ih]
    show Spot.past _ c = _
    by_cases hc : c = '\n'
    · subst hc
      simp [Spot.past, lineBehind, columnBehind]
      omega
    · simp [Spot.past, lineBehind, columnBehind, hc]
      omega

/-! ## Places of segments -/

/-- A segment and the number of characters in front of it. -/
structure Place where
  first : Nat
  segment : Segment
  deriving DecidableEq, Repr

namespace Place

/-- The number of characters up to the end of the segment. -/
def last (p : Place) : Nat := p.first + p.segment.text.length

/-- The segment is what stands there in the source. -/
structure In (cs : List Char) (p : Place) : Prop where
  last_le : p.last ≤ cs.length
  text : (cs.take p.last).drop p.first = p.segment.text

/-- The token was read there: it has the column where the segment starts and the line where
    it ends. -/
structure Gives (cs : List Char) (p : Place) (t : Token) : Prop where
  place : p.In cs
  kind : p.segment.kind? = some t.kind
  lexeme : t.lexeme = String.ofList ((cs.take p.last).drop p.first)
  column : t.column = columnBehind (cs.take p.first)
  line : t.line = lineBehind (cs.take p.last)

/-- The problem was found there: a character that starts nothing on its own line, a quote
    that nothing closes on the last one. -/
inductive Finds (cs : List Char) (p : Place) : Diagnostic → Prop where
  | unexpected (hp : p.In cs) (c : Char) (hs : p.segment = ⟨.other, [c]⟩) :
      Finds cs p (.lexical (lineBehind (cs.take p.first)) "Unexpected character.")
  | unterminated (hp : p.In cs) (hf : p.segment.form = .unclosed) (hl : p.last = cs.length) :
      Finds cs p (.lexical (lineBehind cs) "Unterminated string.")

end Place

/-- The places of a row of segments that starts behind `first` characters. -/
def places (first : Nat) : List Segment → List Place
  | [] => []
  | s :: ss => ⟨first, s⟩ :: places (first + s.text.length) ss

/-- The places of the segments that give a token. -/
def tokenPlaces (ss : List Segment) : List Place := (places 0 ss).filter (·.segment.kind?.isSome)

/-- The places of the segments that are reported. -/
def problemPlaces (ss : List Segment) : List Place := (places 0 ss).filter (·.segment.problem?.isSome)

theorem Place.in_of_append (before rest : List Char) (s : Segment) :
    (Place.mk before.length s).In (before ++ (s.text ++ rest)) := by
  constructor
  · simp [Place.last]
  · simp [Place.last, List.take_append]

/-! ## Tokens and problems in their places -/

theorem gives_of_append (before rest : List Char) {s : Segment} {t : Token}
    (h : s.token? (Spot.start.pastAll before) = some t) :
    (Place.mk before.length s).Gives (before ++ (s.text ++ rest)) t := by
  obtain ⟨kind, hk, rfl⟩ := Option.map_eq_some_iff.1 h
  have hin := Place.in_of_append before rest s
  have hfirst : (before ++ (s.text ++ rest)).take before.length = before := List.take_left
  have hlast : (before ++ (s.text ++ rest)).take (before.length + s.text.length) = before ++ s.text := by
    rw [← List.append_assoc, ← List.length_append, List.take_left]
  refine ⟨hin, hk, congrArg String.ofList hin.text.symm, ?_, ?_⟩
  · rw [hfirst, start_pastAll]
  · rw [Place.last, hlast, ← Spot.pastAll_append, start_pastAll]

theorem lineBehind_append_singleton (cs : List Char) {c : Char} (hc : c ≠ '\n') :
    lineBehind (cs ++ [c]) = lineBehind cs := by
  simp [lineBehind, hc]

theorem finds_of_append {s : Segment} {before rest : List Char} (hb : s.Before rest) {d : Diagnostic}
    (h : s.diagnostic? (Spot.start.pastAll before) = some d) :
    (Place.mk before.length s).Finds (before ++ (s.text ++ rest)) d := by
  have hin := Place.in_of_append before rest s
  obtain ⟨message, hm, rfl⟩ := Option.map_eq_some_iff.1 h
  rw [← Spot.pastAll_append, start_pastAll]
  cases hb with
  | @unclosed text ht =>
    obtain rfl := Option.some.inj hm
    have h := Place.Finds.unterminated hin rfl (by simp [Place.last])
    rwa [List.append_nil ('"' :: text)] at h ⊢
  | @other c rest hn =>
    obtain rfl := Option.some.inj hm
    have hc : c ≠ '\n' := by
      rintro rfl
      exact absurd hn.2.2.2.1 (by decide)
    have h := Place.Finds.unexpected hin c rfl
    rwa [List.take_left, ← lineBehind_append_singleton before hc] at h
  | _ => cases hm

/-! ## Along a row of segments -/

/-- What the segments of a row give, one behind the other. -/
def along (give : Segment → Spot → Option α) : Spot → List Segment → List α
  | _, [] => []
  | p, s :: ss => (give s p).toList ++ along give (p.pastAll s.text) ss

theorem tokens_eq_along (p : Spot) (ss : List Segment) : tokens p ss = along Segment.token? p ss := by
  induction ss generalizing p with
  | nil => rfl
  | cons s ss ih => rw [tokens, along, ih]

theorem diagnostics_eq_along (p : Spot) (ss : List Segment) : diagnostics p ss = along Segment.diagnostic? p ss := by
  induction ss generalizing p with
  | nil => rfl
  | cons s ss ih => rw [diagnostics, along, ih]

variable {α : Type} {give : Segment → Spot → Option α} {gives : Segment → Bool} {At : List Char → Place → α → Prop}

/-- What is given stands in the places of the segments that give something. -/
theorem forall₂_along (hgives : ∀ s p, (give s p).isSome = gives s)
    (hat : ∀ (before rest : List Char) (s : Segment) (a : α), s.Before rest →
      give s (Spot.start.pastAll before) = some a → At (before ++ (s.text ++ rest)) ⟨before.length, s⟩ a)
    {ss : List Segment} {rest : List Char} (h : Splits ss rest) : ∀ before : List Char,
      List.Forall₂ (At (before ++ rest)) ((places before.length ss).filter (gives ·.segment))
        (along give (Spot.start.pastAll before) ss) := by
  induction h with
  | nil => exact fun _ => .nil
  | @cons s ss rest hb hs ih =>
    intro before
    have ih := ih (before ++ s.text)
    rw [List.append_assoc, List.length_append, Spot.pastAll_append] at ih
    have hs := hgives s (Spot.start.pastAll before)
    rw [places, along, List.filter_cons, ← hs]
    cases ha : give s (Spot.start.pastAll before) with
    | none => simpa using ih
    | some a => simpa using ⟨hat before rest s a hb ha, ih⟩

/-! ## Lines never decrease -/

theorem line_le_past (p : Spot) (c : Char) : p.line ≤ (p.past c).line := by
  unfold Spot.past
  split
  · exact Int.le_of_lt (Int.lt_succ p.line)
  · exact Int.le_refl _

theorem line_le_pastAll (cs : List Char) : ∀ p : Spot, p.line ≤ (p.pastAll cs).line := by
  induction cs with
  | nil => exact fun p => Int.le_refl _
  | cons c cs ih => exact fun p => Int.le_trans (line_le_past p c) (ih (p.past c))

variable {line : α → Int}

/-- What is given along a row has the lines in which its segments end. -/
theorem line_along (hline : ∀ s p a, give s p = some a → line a = (p.pastAll s.text).line) {ss : List Segment} :
    ∀ {p : Spot} {a : α}, a ∈ along give p ss →
      p.line ≤ line a ∧ line a ≤ (p.pastAll (ss.flatMap (·.text))).line := by
  induction ss with
  | nil => exact fun h => absurd h List.not_mem_nil
  | cons s ss ih =>
    intro p a h
    have hs := line_le_pastAll s.text p
    rw [List.flatMap_cons, Spot.pastAll_append]
    rcases List.mem_append.1 h with h | h
    · rw [hline s p a (by simpa using h)]
      exact ⟨hs, line_le_pastAll _ _⟩
    · obtain ⟨hle, hlast⟩ := ih h
      exact ⟨Int.le_trans hs hle, hlast⟩

theorem pairwise_along (hline : ∀ s p a, give s p = some a → line a = (p.pastAll s.text).line) (ss : List Segment) :
    ∀ p : Spot, (along give p ss).Pairwise (line · ≤ line ·) := by
  induction ss with
  | nil => exact fun _ => .nil
  | cons s ss ih =>
    intro p
    refine List.pairwise_append.2 ⟨?_, ih _, ?_⟩
    · cases give s p <;> simp
    · intro a ha b hb
      rw [hline s p a (by simpa using ha)]
      exact (line_along hline hb).1

theorem isSome_token? (s : Segment) (p : Spot) : (s.token? p).isSome = s.kind?.isSome := Option.isSome_map ..

theorem isSome_diagnostic? (s : Segment) (p : Spot) : (s.diagnostic? p).isSome = s.problem?.isSome :=
  Option.isSome_map ..

theorem line_token? {s : Segment} {p : Spot} {t : Token} (h : s.token? p = some t) :
    t.line = (p.pastAll s.text).line := by
  obtain ⟨kind, -, rfl⟩ := Option.map_eq_some_iff.1 h
  rfl

theorem line_diagnostic? {s : Segment} {p : Spot} {d : Diagnostic} (h : s.diagnostic? p = some d) :
    d.line = (p.pastAll s.text).line := by
  obtain ⟨message, -, rfl⟩ := Option.map_eq_some_iff.1 h
  rfl

end Lexical

open Lexical

/-- The tokens before the end of file have the columns where they start and the lines where
    they end, the end of file stands behind all characters, and a problem has the line where
    it is found, an unterminated string that of the end. So no line is smaller than one
    before it. -/
theorem scan_places (source : String) : ∃ (ss : List Segment) (us : List Token) (eof : Token),
    Splits ss source.toList ∧ (scan source).tokens = us ++ [eof] ∧
    List.Forall₂ (Place.Gives source.toList) (tokenPlaces ss) us ∧
    eof.kind = .eof ∧ eof.line = lineBehind source.toList ∧ eof.column = columnBehind source.toList ∧
    List.Forall₂ (Place.Finds source.toList) (problemPlaces ss) (scan source).diagnostics ∧
    (scan source).tokens.Pairwise (·.line ≤ ·.line) ∧ (scan source).diagnostics.Pairwise (·.line ≤ ·.line) := by
  obtain ⟨ss, hs⟩ := exists_splits _ (Nat.le_refl source.toList.length)
  have heof : (eofToken .start ss).line = lineBehind source.toList ∧
      (eofToken .start ss).column = columnBehind source.toList := by
    rw [eofToken, hs.flatMap_text, start_pastAll]
    exact ⟨rfl, rfl⟩
  rw [scan_eq hs, tokens_eq_along, diagnostics_eq_along]
  refine ⟨ss, _, _, hs, rfl, ?_, rfl, heof.1, heof.2, ?_, ?_, ?_⟩
  · exact forall₂_along isSome_token? (fun before rest s t _ => gives_of_append before rest) hs []
  · exact forall₂_along isSome_diagnostic? (fun _ _ _ _ hb h => finds_of_append hb h) hs []
  · refine List.pairwise_append.2 ⟨pairwise_along (fun _ _ _ => line_token?) ss _, List.pairwise_singleton _ _, ?_⟩
    intro t ht eof he
    rw [List.mem_singleton.1 he]
    exact (line_along (fun _ _ _ => line_token?) ht).2
  · exact pairwise_along (fun _ _ _ => line_diagnostic?) ss _

end LoxSyntax
