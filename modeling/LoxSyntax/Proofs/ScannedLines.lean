/-
  LoxSyntax.Proofs.ScannedLines — a source is scanned line by line.

  A line feed is a blank, and what may stand at the end of a source may stand in front of
  one: it ends a comment, is no digit, stands in no word and extends no operator. Only a
  quote that nothing closes runs over it. So a source and another one behind a line feed
  are split as they are split alone, and the second starts at the first column of a line.

  - `Segment.Before.newline`: a segment stays what it is in front of a line feed.
  - `Splits.newline`: the segments of two sources with a line feed between them.
  - `scan_newline`: their tokens and their problems.
-/

import LoxSyntax.Proofs.TokenPlaces

namespace LoxSyntax

def Token.down (n : Int) (t : Token) : Token := { t with line := t.line + n }

def Diagnostic.down (n : Int) (d : Diagnostic) : Diagnostic := { d with line := d.line + n }

namespace Lexical

/-! ## In front of a line feed -/

variable {rest : List Char}

theorem Stops.newline {p : Char → Bool} (h : Stops p rest) (hp : p '\n' = false) (more : List Char) :
    Stops p (rest ++ '\n' :: more) := by
  intro c hc
  cases rest with
  | nil =>
    obtain rfl : '\n' = c := by simpa using hc
    exact hp
  | cons c' rest => exact h c hc

theorem head?_newline {c : Char} (hc : c ≠ '\n') (h : rest.head? ≠ some c) (more : List Char) :
    (rest ++ '\n' :: more).head? ≠ some c := by
  cases rest with
  | nil => simpa using hc.symm
  | cons c' rest => exact h

theorem PointDigit.of_newline {more : List Char} (h : PointDigit (rest ++ '\n' :: more)) : PointDigit rest := by
  obtain ⟨hpoint, hdigit⟩ := h
  cases rest with
  | nil => exact absurd hpoint (by simp)
  | cons c rest =>
    refine ⟨hpoint, ?_⟩
    cases rest with
    | nil => exact absurd hdigit (by simp [isDigit])
    | cons f rest => exact hdigit

theorem Segment.Before.newline {s : Segment} (h : s.Before rest) (hs : s.form ≠ .unclosed) (more : List Char) :
    s.Before (rest ++ '\n' :: more) := by
  cases h with
  | blank h => exact .blank h
  | comment ht hr => exact .comment ht (hr.newline rfl more)
  | punctuation h => exact .punctuation h
  | extended h => exact .extended h
  | alone h hr => exact .alone h (head?_newline (by decide) hr more)
  | slash hr => exact .slash (head?_newline (by decide) hr more)
  | string hv => exact .string hv
  | unclosed => exact absurd rfl hs
  | whole hd hr hp => exact .whole hd (hr.newline rfl more) fun h => hp h.of_newline
  | fraction hd hf hr => exact .fraction hd hf (hr.newline rfl more)
  | word hc hcs hr => exact .word hc hcs (hr.newline rfl more)
  | other h => exact .other h

def newline : Segment := ⟨.blank, ['\n']⟩

/-- The segments of the two sources, and the line feed. -/
theorem Splits.newline {ss ss' : List Segment} {cs more : List Char} (h : Splits ss cs)
    (hu : ∀ s ∈ ss, s.form ≠ .unclosed) (h' : Splits ss' more) :
    Splits (ss ++ Lexical.newline :: ss') (cs ++ '\n' :: more) := by
  induction h with
  | nil => exact .cons (s := Lexical.newline) (.blank rfl) h'
  | @cons s ss rest hb _ ih =>
    obtain ⟨hs, hu⟩ := List.forall_mem_cons.1 hu
    rw [List.append_assoc]
    exact .cons (hb.newline hs more) (ih hu)

/-! ## Lower down -/

/-- The spot with `n` lines more above it. -/
def Spot.down (n : Int) (p : Spot) : Spot := ⟨p.line + n, p.column⟩

theorem Spot.down_past (n : Int) (p : Spot) (c : Char) : (p.down n).past c = (p.past c).down n := by
  unfold past
  split
  · simp only [down, Spot.mk.injEq, and_true]
    omega
  · rfl

theorem Spot.down_pastAll (n : Int) (cs : List Char) : ∀ p : Spot, (p.down n).pastAll cs = (p.pastAll cs).down n := by
  induction cs with
  | nil => exact fun _ => rfl
  | cons c cs ih =>
    intro p
    show ((p.down n).past c).pastAll cs = _
    rw [down_past, ih]
    rfl

/-- Behind a line feed a line starts. -/
theorem start_pastAll_newline (cs : List Char) :
    (Spot.start.pastAll cs).pastAll ['\n'] = Spot.start.down (1 + cs.count '\n') := by
  rw [start_pastAll]
  show Spot.past _ '\n' = _
  simp only [Spot.past, if_true, lineBehind, Spot.start, Spot.down, Spot.mk.injEq, and_true]
  omega

theorem Segment.token?_down (s : Segment) (n : Int) (p : Spot) :
    s.token? (p.down n) = (s.token? p).map (Token.down n) := by
  rw [token?, token?, Option.map_map, Spot.down_pastAll]
  rfl

theorem Segment.diagnostic?_down (s : Segment) (n : Int) (p : Spot) :
    s.diagnostic? (p.down n) = (s.diagnostic? p).map (Diagnostic.down n) := by
  rw [diagnostic?, diagnostic?, Option.map_map, Spot.down_pastAll]
  rfl

theorem eofToken_down (n : Int) (p : Spot) (ss : List Segment) :
    eofToken (p.down n) ss = (eofToken p ss).down n := by
  rw [eofToken, eofToken, Spot.down_pastAll]
  rfl

variable {α : Type} {give : Segment → Spot → Option α}

theorem along_down {n : Int} {f : α → α} (hgive : ∀ s p, give s (p.down n) = (give s p).map f) (ss : List Segment) :
    ∀ p, along give (p.down n) ss = (along give p ss).map f := by
  induction ss with
  | nil => exact fun _ => rfl
  | cons s ss ih =>
    intro p
    rw [along, along, hgive, Spot.down_pastAll, ih, List.map_append, Option.toList_map]

theorem along_append (ss ss' : List Segment) : ∀ p, along give p (ss ++ ss') =
    along give p ss ++ along give (p.pastAll (ss.flatMap (·.text))) ss' := by
  induction ss with
  | nil => exact fun _ => rfl
  | cons s ss ih =>
    intro p
    rw [List.cons_append, along, along, ih, List.flatMap_cons, Spot.pastAll_append, List.append_assoc]

/-- What the segments of two sources give with a line feed between them. -/
theorem along_newline {f : α → α} {ss ss' : List Segment} {cs : List Char} (h : Splits ss cs)
    (hgive : ∀ s p, give s (p.down (1 + cs.count '\n')) = (give s p).map f) (hblank : ∀ p, give newline p = none) :
    along give .start (ss ++ newline :: ss') = along give .start ss ++ (along give .start ss').map f := by
  rw [along_append, along, hblank, h.flatMap_text, newline, start_pastAll_newline, along_down hgive]
  rfl

end Lexical

open Lexical

/-- A segment that runs to the end of the source is reported. -/
theorem form_ne_unclosed {source : String} {ss : List Segment} (h : Splits ss source.toList)
    (hu : ∀ d ∈ (scan source).diagnostics, d.message ≠ "Unterminated string.") : ∀ s ∈ ss, s.form ≠ .unclosed := by
  intro s hs hf
  have hp : s.problem? = some "Unterminated string." := by rw [Segment.problem?, hf]
  have hm := List.mem_filterMap.2 ⟨s, hs, hp⟩
  rw [← map_diagnostics .start ss] at hm
  obtain ⟨d, hd, hm⟩ := List.mem_map.1 hm
  rw [scan_eq h] at hu
  exact hu d hd hm

/-- Behind a source without an open string and a line feed, another one gives what it gives
    alone, as many lines lower. -/
theorem scan_newline (a b : String) (ha : ∀ d ∈ (scan a).diagnostics, d.message ≠ "Unterminated string.") :
    ∃ us eof, (scan a).tokens = us ++ [eof] ∧ eof.kind = .eof ∧
      (scan (a ++ "\n" ++ b)).tokens = us ++ (scan b).tokens.map (·.down (1 + a.toList.count '\n')) ∧
      (scan (a ++ "\n" ++ b)).diagnostics =
        (scan a).diagnostics ++ (scan b).diagnostics.map (·.down (1 + a.toList.count '\n')) := by
  obtain ⟨ss, hs⟩ := exists_splits _ (Nat.le_refl a.toList.length)
  obtain ⟨ss', hs'⟩ := exists_splits _ (Nat.le_refl b.toList.length)
  have hlong : Splits (ss ++ newline :: ss') (a ++ "\n" ++ b).toList := by
    have h := hs.newline (form_ne_unclosed hs ha) hs'
    simpa using h
  have heof : eofToken .start (ss ++ newline :: ss') = (eofToken .start ss').down (1 + a.toList.count '\n') := by
    rw [← eofToken_down, ← start_pastAll_newline, eofToken, eofToken, List.flatMap_append, List.flatMap_cons,
      hs.flatMap_text, Spot.pastAll_append, Spot.pastAll_append]
    rfl
  rw [scan_eq hs, scan_eq hs', scan_eq hlong, heof]
  simp only [tokens_eq_along, diagnostics_eq_along]
  refine ⟨_, _, rfl, rfl, ?_, ?_⟩
  · rw [along_newline hs (fun s p => s.token?_down _ p) fun _ => rfl, List.map_append, List.append_assoc]
    rfl
  · exact along_newline hs (fun s p => s.diagnostic?_down _ p) fun _ => rfl

/-- The first source ends in the first half of an operator, the second one begins with the other. -/
theorem scan_newline_equal : (scan ("@\n=" ++ "\n" ++ "=")).tokens =
    [⟨.equal, "=", .nil, 2, 1⟩, ⟨.equal, "=", .nil, 3, 1⟩, ⟨.eof, "", .nil, 3, 2⟩] ∧
    (scan ("@\n=" ++ "\n" ++ "=")).diagnostics = [.lexical 1 "Unexpected character."] := by
  obtain ⟨us, eof, htokens, -, h, hd⟩ := scan_newline "@\n=" "=" (by decide)
  have hus : us = (scan "@\n=").tokens.dropLast := by rw [htokens, List.dropLast_concat]
  rw [h, hus, hd]
  exact ⟨rfl, rfl⟩

end LoxSyntax
