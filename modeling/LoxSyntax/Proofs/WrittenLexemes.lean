/-
  LoxSyntax.Proofs.WrittenLexemes — which lexemes survive being written next to each other.

  Lexemes are written one behind the other with blanks before, between and behind them,
  or with none. Maximal munch reads two of them as something else in five situations, one
  of which needs a third; and where none of these occurs, each is read as it is alone.

  - `merges_iff`: the first lexeme of a row is not kept exactly when it merges with what
    stands directly behind it.
  - `splits_row_iff`: a row splits into its lexemes and blanks exactly when nothing merges.
  - `segments_eq`: a split with the texts of a row, in order, is the split of the row.
  - `scan_written_iff`: a written row is read back exactly when nothing in it merges.
-/

import Mathlib.Data.List.Forall2
import LoxSyntax.Proofs.Lexical.Lexeme

namespace LoxSyntax.Lexical

/-- Blanks, of which there may be none. -/
abbrev Blanks := {cs : List Char // ∀ c ∈ cs, isSpace c = true}

/-- Lexemes, each with the blanks behind it. -/
abbrev Row := List (Lexeme × Blanks)

def written (row : Row) : List Char := row.flatMap fun p => p.1.text ++ p.2.1

/-- The source of a row with blanks in front. -/
def sourceOf (lead : Blanks) (row : Row) : String := String.ofList (lead.1 ++ written row)

/-- The first lexeme of the row is read together with what stands directly behind it. -/
inductive Merges : Row → Prop where
  | word {l m : Lexeme} {b b' : Blanks} {more : Row} (hb : b.1 = []) (hl : l.IsWord) (hm : m.IsWord ∨ m.IsNumber) :
      Merges ((l, b) :: (m, b') :: more)
  | number {l m : Lexeme} {b b' : Blanks} {more : Row} (hb : b.1 = []) (hl : l.IsNumber) (hm : m.IsNumber) :
      Merges ((l, b) :: (m, b') :: more)
  | point {l p m : Lexeme} {b b' b'' : Blanks} {more : Row} (hb : b.1 = []) (hb' : b'.1 = []) (hl : l.IsWhole)
      (hp : p.text = ['.']) (hm : m.IsNumber) : Merges ((l, b) :: (p, b') :: (m, b'') :: more)
  | equals {l m : Lexeme} {b b' : Blanks} {more : Row} (hb : b.1 = []) (hl : l.text ∈ extendable)
      (hm : m.text = ['='] ∨ m.text = ['=', '=']) : Merges ((l, b) :: (m, b') :: more)
  | slashes {l m : Lexeme} {b b' : Blanks} {more : Row} (hb : b.1 = []) (hl : l.text = ['/']) (hm : m.text = ['/']) :
      Merges ((l, b) :: (m, b') :: more)

/-! ## What a lexeme merges with -/

theorem isSpace_extends {c : Char} (h : isSpace c = true) :
    isAlphanumeric c = false ∧ isDigit c = false ∧ c ≠ '.' ∧ c ≠ '=' ∧ c ≠ '/' := by
  simp only [isSpace, Bool.or_eq_true, beq_iff_eq] at h
  rcases h with ((rfl | rfl) | rfl) | rfl <;> decide

/-- A blank extends nothing. -/
theorem ends_of_isSpace (l : Lexeme) {c : Char} (h : isSpace c = true) (cs : List Char) : l.Ends (c :: cs) := by
  obtain ⟨ha, hd, hp, he, hs⟩ := isSpace_extends h
  exact ⟨fun _ => stops_cons.2 ha, fun _ => stops_cons.2 hd, fun _ h => hp (by simpa using h.1), fun _ => by simpa,
    fun _ => by simpa⟩

theorem written_cons (l : Lexeme) (b : Blanks) (more : Row) :
    written ((l, b) :: more) = l.text ++ (b.1 ++ written more) := by
  rw [written, List.flatMap_cons, List.append_assoc]
  rfl

/-- A digit is next when a number is, with no blank in front. -/
theorem digit_next_iff {b : Blanks} {more : Row} : (b.1 ++ written more).head?.any isDigit = true ↔
    b.1 = [] ∧ ∃ m b' more', more = (m, b') :: more' ∧ m.IsNumber := by
  obtain ⟨bs, hbs⟩ := b
  cases bs with
  | cons c bs =>
    have hd : isDigit c = false := (isSpace_extends (hbs c List.mem_cons_self)).2.1
    simp [hd]
  | nil =>
    cases more with
    | nil => simp [written]
    | cons p more =>
      obtain ⟨m, b'⟩ := p
      obtain ⟨c, cs, hc⟩ := List.exists_cons_of_ne_nil m.text_ne_nil
      rw [List.nil_append, written_cons, hc]
      simp [(m.head hc).digit]

/-- Behind a point stands a digit when the next lexeme is a number, directly behind it. -/
theorem pointDigit_iff {m : Lexeme} {b : Blanks} {more : Row} : PointDigit (written ((m, b) :: more)) ↔
    m.text = ['.'] ∧ b.1 = [] ∧ ∃ k b' more', more = (k, b') :: more' ∧ k.IsNumber := by
  obtain ⟨c, cs, hc⟩ := List.exists_cons_of_ne_nil m.text_ne_nil
  have hw : written ((m, b) :: more) = c :: (cs ++ (b.1 ++ written more)) := by
    rw [written_cons, hc, List.cons_append]
  rw [PointDigit, hw, List.head?_cons, Option.some_inj, (m.head hc).point]
  refine and_congr_right fun hp => ?_
  obtain ⟨-, rfl⟩ := List.cons.inj (hc.symm.trans hp)
  exact digit_next_iff

theorem merges_cons_iff {l m : Lexeme} {b b' : Blanks} {more : Row} (hb : b.1 = []) :
    Merges ((l, b) :: (m, b') :: more) ↔ ¬l.Ends (written ((m, b') :: more)) := by
  obtain ⟨c, cs, hc⟩ := List.exists_cons_of_ne_nil m.text_ne_nil
  have hm := m.head hc
  have hw : written ((m, b') :: more) = c :: (cs ++ (b'.1 ++ written more)) := by
    rw [written_cons, hc, List.cons_append]
  constructor
  · intro h he
    cases h with
    | word _ hl hm' =>
      have := stops_cons.1 (hw ▸ he.word hl)
      rw [hm.alphanumeric.2 hm'] at this
      cases this
    | number _ hl hm' =>
      have := stops_cons.1 (hw ▸ he.number hl)
      rw [hm.digit.2 hm'] at this
      cases this
    | point _ hb' hl hp hk => exact he.point hl (pointDigit_iff.2 ⟨hp, hb', _, _, _, rfl, hk⟩)
    | equals _ hl hm' => exact he.equals hl (by rw [hw, List.head?_cons, hm.equals.2 hm'])
    | slashes _ hl hm' => exact he.slash hl (by rw [hw, List.head?_cons, hm.slash.2 hm'])
  · intro h
    by_contra hn
    refine h ⟨fun hl => ?_, fun hl => ?_, fun hl hp => ?_, fun hl he => ?_, fun hl he => ?_⟩
    · rw [hw, stops_cons, ← Bool.not_eq_true]
      exact fun ha => hn (.word hb hl (hm.alphanumeric.1 ha))
    · rw [hw, stops_cons, ← Bool.not_eq_true]
      exact fun hd => hn (.number hb hl (hm.digit.1 hd))
    · obtain ⟨htext, hb', k, b'', more', rfl, hk⟩ := pointDigit_iff.1 hp
      exact hn (.point hb hb' hl htext hk)
    · rw [hw, List.head?_cons] at he
      exact hn (.equals hb hl (hm.equals.1 (Option.some.inj he)))
    · rw [hw, List.head?_cons] at he
      exact hn (.slashes hb hl (hm.slash.1 (Option.some.inj he)))

/-- The first lexeme of a row is not kept exactly when it merges with what stands behind it. -/
theorem merges_iff {l : Lexeme} {b : Blanks} {more : Row} :
    Merges ((l, b) :: more) ↔ ¬l.segment.Before (b.1 ++ written more) := by
  rw [l.before_iff]
  obtain ⟨bs, hbs⟩ := b
  cases bs with
  | cons c bs =>
    refine iff_of_false ?_ (not_not_intro (ends_of_isSpace l (hbs c List.mem_cons_self) _))
    rintro (⟨hb, -⟩ | ⟨hb, -⟩ | ⟨hb, -⟩ | ⟨hb, -⟩ | ⟨hb, -⟩) <;> cases hb
  | nil =>
    cases more with
    | nil =>
      refine iff_of_false ?_ (not_not_intro ((l.before_iff []).1 l.before_nil))
      rintro ⟨⟩
    | cons p more => exact merges_cons_iff rfl

/-! ## Splitting a row -/

def Blanks.segments (b : Blanks) : List Segment := b.1.map fun c => ⟨.blank, [c]⟩

/-- The segments of the lexemes and of the blanks. -/
def segments (row : Row) : List Segment := row.flatMap fun p => p.1.segment :: Blanks.segments p.2

theorem segments_cons (l : Lexeme) (b : Blanks) (more : Row) :
    segments ((l, b) :: more) = l.segment :: (Blanks.segments b ++ segments more) := rfl

theorem splits_cons_iff {s : Segment} {ss : List Segment} {rest : List Char} :
    Splits (s :: ss) (s.text ++ rest) ↔ s.Before rest ∧ Splits ss rest := by
  refine ⟨fun h => ?_, fun ⟨hb, hs⟩ => .cons hb hs⟩
  generalize hcs : s.text ++ rest = cs at h
  cases h with
  | cons hb hs =>
    obtain rfl := List.append_cancel_left hcs
    exact ⟨hb, hs⟩

theorem splits_blanks_iff {b : Blanks} {ss : List Segment} {cs : List Char} :
    Splits (Blanks.segments b ++ ss) (b.1 ++ cs) ↔ Splits ss cs := by
  obtain ⟨bs, hbs⟩ := b
  induction bs with
  | nil => exact Iff.rfl
  | cons c bs ih =>
    obtain ⟨hc, hbs⟩ := List.forall_mem_cons.1 hbs
    exact (splits_cons_iff (s := ⟨.blank, [c]⟩)).trans ((and_iff_right (.blank hc)).trans (ih hbs))

/-- Somewhere in the row a lexeme merges with what stands behind it. -/
def MergesIn (row : Row) : Prop := ∃ back, back <:+ row ∧ Merges back

theorem mergesIn_cons_iff {p : Lexeme × Blanks} {row : Row} :
    MergesIn (p :: row) ↔ Merges (p :: row) ∨ MergesIn row := by
  simp [MergesIn, List.suffix_cons_iff, or_and_right, exists_or]

/-- A row splits into its lexemes and blanks exactly when nothing in it merges. -/
theorem splits_row_iff (row : Row) : Splits (segments row) (written row) ↔ ¬MergesIn row := by
  induction row with
  | nil =>
    refine iff_of_true .nil ?_
    rintro ⟨back, hb, hm⟩
    obtain rfl := List.suffix_nil.1 hb
    cases hm
  | cons p row ih =>
    obtain ⟨l, b⟩ := p
    rw [mergesIn_cons_iff, not_or, merges_iff, not_not, ← ih, written_cons, segments_cons, Lexeme.text,
      splits_cons_iff, splits_blanks_iff]

theorem Splits.exists_behind_blanks {b : Blanks} {ss : List Segment} {cs : List Char} (h : Splits ss (b.1 ++ cs)) :
    ∃ ss', ss = Blanks.segments b ++ ss' ∧ Splits ss' cs := by
  obtain ⟨ss', hs⟩ := exists_splits cs.length (Nat.le_refl _)
  exact ⟨ss', h.unique (splits_blanks_iff.2 hs), hs⟩

/-! ## The texts of a split -/

/-- The texts of the segments that give tokens. -/
def tokenTexts (ss : List Segment) : List (List Char) := ss.filterMap fun s => s.kind?.map fun _ => s.text

theorem tokenTexts_blanks (b : Blanks) (ss : List Segment) : tokenTexts (Blanks.segments b ++ ss) = tokenTexts ss := by
  obtain ⟨bs, hbs⟩ := b
  induction bs with
  | nil => rfl
  | cons c bs ih => exact ih (List.forall_mem_cons.1 hbs).2

/-- Each character of a split stands in a token's text or in one that gives no token. -/
theorem count_texts (c : Char) (ss : List Segment) : (ss.flatMap (·.text)).count c =
    (tokenTexts ss).flatten.count c + ((ss.filter (·.kind?.isNone)).flatMap (·.text)).count c := by
  induction ss with
  | nil => rfl
  | cons s ss ih =>
    rw [List.flatMap_cons, List.count_append, ih]
    simp only [tokenTexts, List.filterMap_cons, List.filter_cons]
    cases s.kind? <;> simp <;> omega

theorem count_slash_blanks (b : Blanks) : b.1.count '/' = 0 :=
  List.count_eq_zero.2 fun h => (isSpace_extends (b.2 _ h)).2.2.2.2 rfl

theorem count_slash_written (row : Row) : (written row).count '/' = (row.map (·.1.text)).flatten.count '/' := by
  induction row with
  | nil => rfl
  | cons p row ih =>
    obtain ⟨l, b⟩ := p
    simp [written_cons, count_slash_blanks, ih]

/-- Where the tokens' texts are those of the row's lexemes there is no room for a comment. -/
theorem form_ne_comment {lead : Blanks} {row : Row} {ss : List Segment} (h : Splits ss (lead.1 ++ written row))
    (ht : tokenTexts ss = row.map (·.1.text)) : ∀ s ∈ ss, s.form ≠ .comment := by
  intro s hm hf
  have hc := count_texts '/' ss
  rw [h.flatMap_text, ht, List.count_append, count_slash_blanks, count_slash_written] at hc
  have hnone : '/' ∉ (ss.filter (·.kind?.isNone)).flatMap (·.text) := List.count_eq_zero.1 (by omega)
  obtain ⟨rest, hb⟩ := h.exists_before hm
  obtain ⟨form, text⟩ := s
  obtain rfl : form = .comment := hf
  cases hb with
  | comment => exact hnone (List.mem_flatMap.2 ⟨_, List.mem_filter.2 ⟨hm, rfl⟩, List.mem_cons_self⟩)

/-- Where a lexeme is written no blank is. -/
theorem form_ne_blank {l : Lexeme} {s : Segment} {rest cs : List Char} (h : s.Before rest)
    (ht : l.text ++ cs = s.text ++ rest) : s.form ≠ .blank := by
  intro hf
  obtain ⟨c, cs', hc⟩ := List.exists_cons_of_ne_nil l.text_ne_nil
  obtain ⟨form, text⟩ := s
  obtain rfl : form = .blank := hf
  cases h with
  | blank hs =>
    rw [hc] at ht
    obtain ⟨rfl, -⟩ := List.cons.inj ht
    rw [(l.head hc).space] at hs
    cases hs

/-- A split with the texts of a row, in order, is the split of the row. -/
theorem segments_eq (row : Row) : ∀ {ss : List Segment}, Splits ss (written row) →
    (∀ s ∈ ss, s.kind? = none → s.form = .blank) → tokenTexts ss = row.map (·.1.text) → ss = segments row := by
  induction row with
  | nil =>
    intro ss h _ _
    exact h.unique .nil
  | cons p row ih =>
    obtain ⟨l, b⟩ := p
    intro ss h hblank ht
    rw [written_cons] at h
    generalize hcs : l.text ++ (b.1 ++ written row) = cs at h
    cases h with
    | nil => exact absurd (List.append_eq_nil_iff.1 hcs).1 l.text_ne_nil
    | @cons s ss rest hb hs =>
      obtain ⟨hfirst, hbehind⟩ := List.forall_mem_cons.1 hblank
      -- the lexeme's first character is no blank, so the segment there gives a token
      obtain ⟨kind, hk⟩ := Option.ne_none_iff_exists'.1 fun hn => form_ne_blank hb hcs (hfirst hn)
      simp only [tokenTexts, List.filterMap_cons, hk, Option.map_some, List.map_cons, List.cons.injEq] at ht
      obtain ⟨htext, ht⟩ := ht
      obtain rfl := l.eq_segment hb htext
      obtain rfl := List.append_cancel_left hcs
      obtain ⟨ss', rfl, hs'⟩ := hs.exists_behind_blanks
      have hrest : tokenTexts ss' = row.map (·.1.text) := (tokenTexts_blanks b ss').symm.trans ht
      rw [segments_cons, ih hs' (fun s hm => hbehind s (List.mem_append_right _ hm)) hrest]

/-! ## Reading a row back -/

/-- What the segments of blanks and lexemes give, each in its place. -/
theorem filterMap_segments {β : Type} {f : Segment → Option β} {g : Lexeme → Option β}
    (hb : ∀ c, f ⟨.blank, [c]⟩ = none) (hl : ∀ l : Lexeme, f l.segment = g l) (lead : Blanks) (row : Row) :
    (Blanks.segments lead ++ segments row).filterMap f = (row.map Prod.fst).filterMap g := by
  have hblanks : ∀ b : Blanks, (Blanks.segments b).filterMap f = [] := by
    intro b
    simp [Blanks.segments, hb]
  rw [List.filterMap_append, hblanks, List.nil_append]
  induction row with
  | nil => rfl
  | cons p row ih =>
    obtain ⟨l, b⟩ := p
    simp [segments_cons, hl, hblanks, ih, List.filterMap_cons]

theorem forall₂_gives_iff {us : List Token} {ls : List Lexeme} : List.Forall₂ (fun u l => l.Gives u) us ls ↔
    us.map (fun t => (t.kind, t.lexeme, t.literal)) =
      ls.map fun l => (l.kind, l.segment.lexeme, l.segment.literal) := by
  simp only [Lexeme.gives_iff]
  rw [← List.forall₂_eq_eq_eq, List.forall₂_map_left_iff, List.forall₂_map_right_iff]

/-- The tokens of a split are its texts. -/
theorem tokenTexts_of_gives {p : Spot} {ss : List Segment} {ls : List Lexeme}
    (h : List.Forall₂ (fun u l => l.Gives u) (tokens p ss) ls) : tokenTexts ss = ls.map (·.text) := by
  have ht := congrArg (List.map fun x => x.2.1.toList) ((map_tokens p ss).symm.trans (forall₂_gives_iff.1 h))
  simp only [List.map_filterMap, List.map_map, Option.map_map, Function.comp_def, Segment.lexeme,
    String.toList_ofList] at ht
  exact ht

/-- Behind no problem and with the texts of a row, what gives no token is a blank. -/
theorem form_eq_blank {lead : Blanks} {row : Row} {ss : List Segment} (h : Splits ss (lead.1 ++ written row))
    (hd : diagnostics .start ss = []) (ht : tokenTexts ss = row.map (·.1.text)) :
    ∀ s ∈ ss, s.kind? = none → s.form = .blank := by
  intro s hm hk
  have hproblem := List.filterMap_eq_nil_iff.1 ((map_diagnostics .start ss).symm.trans (by rw [hd]; rfl)) s hm
  have hcomment := form_ne_comment h ht s hm
  cases hf : s.form with
  | blank => rfl
  | comment => exact absurd hf hcomment
  | unclosed | other => simp [Segment.problem?, hf] at hproblem
  | operator | string | number | word => simp [Segment.kind?, hf] at hk

end LoxSyntax.Lexical

namespace LoxSyntax

open Lexical

/-- Scanning a written row reports nothing and gives its lexemes in order, each as it is alone, and
    then one end of file, exactly when no lexeme merges with what stands directly behind it. -/
theorem scan_written_iff (lead : Blanks) (row : Row) :
    ((scan (sourceOf lead row)).diagnostics = [] ∧ ∃ us eof, (scan (sourceOf lead row)).tokens = us ++ [eof] ∧
      eof.kind = .eof ∧ List.Forall₂ (fun u l => l.Gives u) us (row.map Prod.fst)) ↔ ¬MergesIn row := by
  have hsource : (sourceOf lead row).toList = lead.1 ++ written row := String.toList_ofList
  rw [← splits_row_iff, ← splits_blanks_iff (b := lead)]
  constructor
  · rintro ⟨hdiag, us, eof, htokens, -, hgives⟩
    obtain ⟨ss, hs⟩ := exists_splits _ (Nat.le_refl (sourceOf lead row).toList.length)
    rw [scan_eq hs] at hdiag htokens
    obtain ⟨rfl, -⟩ := List.append_inj' htokens rfl
    rw [hsource] at hs
    have htexts : tokenTexts ss = row.map (·.1.text) := by
      rw [tokenTexts_of_gives hgives, List.map_map]
      rfl
    have hblank := form_eq_blank hs hdiag htexts
    obtain ⟨ss', rfl, hs'⟩ := hs.exists_behind_blanks
    have hrow := segments_eq row hs' (fun s hm => hblank s (List.mem_append_right _ hm))
      ((tokenTexts_blanks lead ss').symm.trans htexts)
    rwa [hrow] at hs
  · intro h
    rw [← hsource] at h
    have hg := map_tokens .start (Blanks.segments lead ++ segments row)
    have hd := map_diagnostics .start (Blanks.segments lead ++ segments row)
    rw [filterMap_segments (fun _ => rfl) (g := fun l => some (l.kind, l.segment.lexeme, l.segment.literal))
      (fun l => by rw [l.kind?_segment, Option.map_some]), List.filterMap_eq_map'] at hg
    rw [filterMap_segments (fun _ => rfl) Lexeme.problem?_segment, List.filterMap_eq_nil_iff.2 fun _ _ => rfl,
      List.map_eq_nil_iff] at hd
    rw [scan_eq h]
    exact ⟨hd, _, _, rfl, rfl, forall₂_gives_iff.2 hg⟩

end LoxSyntax
