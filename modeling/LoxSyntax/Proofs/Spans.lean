/-
  LoxSyntax.Proofs.Spans — each declaration of a program is kept or reported, and depends
  on its own tokens only.

  A program is read one declaration after another, and what was abandoned is skipped up
  to where the next one starts. The tokens that one of these readings takes are a span:
  what the reading gives and reports, it gives and reports on its span alone, since it
  stopped in front of the tokens behind.

  - `declaration_alone`: the first declaration of a program, on its span alone.
  - `declaration_reported`: a declaration that is left out is reported.
  - `parseTokens_spans`: a program is put together from the programs of its spans.
-/

import LoxSyntax.Proofs.PanicRecovery
import LoxSyntax.Proofs.Reading.SeveredReaders

namespace LoxSyntax

open Grammar Parse

/-! ## One declaration -/

/-- A reading that stops in front of some tokens is the same without them. -/
theorem declaration_severed {span rest : List Token} {n : Nat} (hn : (span ++ rest).length < n) {rs : List Report}
    {o : Option Stmt} (h : Parse.declaration n (span ++ rest) = ⟨rs, .value o rest⟩) :
    ∃ rs', Parse.declaration (span.length + 1) span = ⟨rs', .value o []⟩ ∧
      ∀ eof, rs'.map (·.diagnostic eof) = rs.map (·.diagnostic eof) := by
  rw [List.length_append] at hn
  by_cases hr : rest = []
  · -- nothing is left, and only the number of levels changes
    subst hr
    have ha : Alike [] [] (span.length + 1) (Parse.declaration n) (Parse.declaration (span.length + 1)) :=
      (alike_levels (by simp at hn ⊢; omega) (Nat.le_refl _)).2
    have heq := (ha.at (Nat.lt_succ_self _)).eq_of_nil
    rw [List.append_nil] at h heq
    exact ⟨rs, heq.symm.trans h, fun _ => rfl⟩
  · have hs : Severed rest (span.length + 1) (Parse.declaration n) (Parse.declaration (span.length + 1)) :=
      (severed_levels hr (by omega) (Nat.le_refl _)).2
    have hv := hs.severs span (Nat.lt_succ_self _)
    rw [h] at hv
    obtain ⟨rs', h', hsame⟩ := hv.value_eq
    exact ⟨rs', h', fun eof => hsame.diagnostics_eq (hsame.place_ne (by simp [hr])) eof eof⟩

/-- The first declaration takes some tokens, and on these alone it does the same. -/
theorem declaration_alone {t : Token} {ts : List Token} {n : Nat} (hn : (t :: ts).length < n) :
    ∃ span rest rs rs' o, t :: ts = span ++ rest ∧ span ≠ [] ∧
      Parse.declaration n (t :: ts) = ⟨rs, .value o rest⟩ ∧
      Parse.declaration (span.length + 1) span = ⟨rs', .value o []⟩ ∧
      ∀ eof, rs'.map (·.diagnostic eof) = rs.map (·.diagnostic eof) := by
  obtain ⟨o, rest, ho, hlen⟩ := declaration_value hn
  obtain ⟨⟨_, hrest, span, hspan⟩, -⟩ := (steady_levels n).2.1 (t :: ts) hn
  rw [ho] at hrest
  obtain rfl := Option.some.inj hrest
  obtain ⟨rs, hd⟩ : ∃ rs, Parse.declaration n (t :: ts) = ⟨rs, .value o rest⟩ := ⟨_, by rw [← ho]⟩
  have hne : span ≠ [] := by
    intro hs
    rw [hs, List.nil_append] at hspan
    rw [hspan] at hlen
    exact Nat.not_succ_le_self _ hlen
  rw [← hspan] at hn hd
  obtain ⟨rs', hd', heq⟩ := declaration_severed hn hd
  exact ⟨span, rest, rs, rs', o, hspan.symm, hne, hspan ▸ hd, hd', heq⟩

/-- A declaration that is left out is reported. -/
theorem declaration_reported {ts rest : List Token} {n : Nat} (hn : ts.length < n) {rs : List Report}
    (h : Parse.declaration n ts = ⟨rs, .value none rest⟩) : rs ≠ [] := by
  cases n with
  | zero => cases h
  | succ n =>
    have hm := (recognizes_declarationForm (sound_insideOf n)).meets ts hn
    change recover (declarationForm (insideOf n)) ts = _ at h
    rw [recover_eq] at h
    generalize declarationForm (insideOf n) ts = P at h hm
    cases hm with
    | read => cases h
    | broken =>
      obtain ⟨rfl, -⟩ := Parsed.mk.inj h
      simp

/-! ## Spans -/

/-- In front of an end of file alone, a span gives a statement at most, and a problem when
    it gives none. -/
structure Span (eof : Token) (span : List Token) (p : Program) : Prop where
  ne_nil : span ≠ []
  parse : parseTokens (span ++ [eof]) = .ok p
  most : p.statements.length ≤ 1
  reported : p.statements = [] → p.diagnostics ≠ []

/-- The program of one declaration. -/
theorem span_of_declaration {span : List Token} (hne : span ≠ []) (hu : ∀ t ∈ span, t.kind ≠ .eof)
    (eof : Terminal .eof) {rs : List Report} {o : Option Stmt}
    (h : Parse.declaration (span.length + 1) span = ⟨rs, .value o []⟩) :
    Span eof.1 span ⟨o.toList, rs.map (·.diagnostic eof.1)⟩ := by
  refine ⟨hne, ?_, ?_, ?_⟩
  · rw [parseTokens_of_ofTokens? (ofTokens?_append_eof hu eof),
      TokenList.parse_eq (l := ⟨span, eof.1⟩) rfl (program_single hne h)]
  · cases o <;> simp
  · intro hs
    obtain rfl : o = none := by simpa using hs
    simpa using declaration_reported (Nat.lt_succ_self _) h

/-- The first span of a program, and the program of what is behind it. -/
theorem parse_cons {t : Token} {ts : List Token} (hu : ∀ u ∈ t :: ts, u.kind ≠ .eof) (eof : Terminal .eof) :
    ∃ span rest p, t :: ts = span ++ rest ∧ Span eof.1 span p ∧
      (TokenList.mk (t :: ts) eof.1).parse = ⟨p.statements ++ (TokenList.mk rest eof.1).parse.statements,
        p.diagnostics ++ (TokenList.mk rest eof.1).parse.diagnostics⟩ := by
  obtain ⟨span, rest, rs, rs', o, hspan, hne, hd, hd', heq⟩ := declaration_alone (Nat.lt_succ_self (t :: ts).length)
  have hlen : rest.length ≤ ts.length := by
    have hl := congrArg List.length hspan
    have hpos := List.length_pos_iff.2 hne
    simp only [List.length_cons, List.length_append] at hl
    omega
  refine ⟨span, rest, _, hspan, span_of_declaration hne (fun u hm => hu u (by simp [hspan, hm])) eof hd', ?_⟩
  -- what is behind the span is a program of its own
  obtain ⟨statements, hv⟩ := program_value (Nat.lt_succ_self rest.length)
  have hq : Parse.program (rest.length + 1) rest =
      ⟨(Parse.program (rest.length + 1) rest).reports, .value statements []⟩ := by rw [← hv]
  have hrest := declarations_eq_program (n := (t :: ts).length + 1) (by simp; omega) hlen
  have hp := (program_cons hd).value (run_map (o.toList ++ ·) (hrest.trans hq))
  rw [TokenList.parse_eq (l := ⟨t :: ts, eof.1⟩) rfl hp, TokenList.parse_eq (l := ⟨rest, eof.1⟩) rfl hq,
    List.map_append, heq]

theorem parse_spans (eof : Terminal .eof) : ∀ (n : Nat) (body : List Token), body.length = n →
    (∀ t ∈ body, t.kind ≠ .eof) → ∃ spans parts, spans.flatten = body ∧ List.Forall₂ (Span eof.1) spans parts ∧
      (TokenList.mk body eof.1).parse = ⟨parts.flatMap (·.statements), parts.flatMap (·.diagnostics)⟩ := by
  intro n
  induction n using Nat.strongRecOn with
  | ind n ih =>
  intro body hn hu
  cases body with
  | nil => exact ⟨[], [], rfl, .nil, rfl⟩
  | cons t ts =>
    obtain ⟨span, rest, p, hspan, hs, hp⟩ := parse_cons hu eof
    have hlen : rest.length < n := by
      have hl := congrArg List.length hspan
      have hpos := List.length_pos_iff.2 hs.ne_nil
      rw [List.length_append] at hl
      omega
    obtain ⟨spans, parts, hflat, hall, hrest⟩ :=
      ih rest.length hlen rest rfl fun u hm => hu u (by simp [hspan, hm])
    refine ⟨span :: spans, p :: parts, ?_, .cons hs hall, ?_⟩
    · rw [List.flatten_cons, hflat, hspan]
    · rw [hp, hrest, List.flatMap_cons, List.flatMap_cons]

/-- The tokens before the first end of file are cut into spans, and the program of a token
    list is the programs that its spans give in front of that end of file, one after another. -/
theorem parseTokens_spans (ts : List Token) (eof : Terminal .eof) :
    ∃ (first : Token) (p : Program) (spans : List (List Token)) (parts : List Program),
      (ts ++ [eof.1]).find? (·.isEof) = some first ∧ parseTokens (ts ++ [eof.1]) = .ok p ∧
      spans.flatten = (ts ++ [eof.1]).takeWhile (!·.isEof) ∧ List.Forall₂ (Span first) spans parts ∧
      p.statements = parts.flatMap (·.statements) ∧ p.diagnostics = parts.flatMap (·.diagnostics) := by
  obtain ⟨l, more, hl, hts, heof⟩ := parseTokens_eof ts eof
  have hbody : ∀ t ∈ l.body, t.isEof = false := TokenList.body_ofTokens? hl
  obtain ⟨spans, parts, hflat, hall, hp⟩ :=
    parse_spans ⟨l.eof, heof⟩ _ l.body rfl fun t ht => beq_eq_false_iff_ne.1 (hbody t ht)
  refine ⟨l.eof, l.parse, spans, parts, ?_, parseTokens_of_ofTokens? hl, ?_, hall, ?_, ?_⟩
  · have hnone : l.body.find? (·.isEof) = none := by simpa using hbody
    rw [hts, List.find?_append, hnone]
    simp [Token.isEof, heof]
  · rw [hflat, TokenList.body_eq_of_ofTokens? hl]
  · exact congrArg Program.statements hp
  · exact congrArg Program.diagnostics hp

end LoxSyntax
