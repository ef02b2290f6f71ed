/-
  LoxSyntax.Proofs.Acceptance — the parser accepts its grammar, and builds its trees.

  - `parseTokens_accepts`: nothing is reported about a token list exactly when the tokens
    before its first end of file are derived by the documented grammar. Then there is a
    derivation in which each `else` belongs to the nearest `if`, and the statements are
    its tree.
-/

import Mathlib.Data.List.TakeWhile
import LoxSyntax.Program
import LoxSyntax.Proofs.Reading.Soundness

namespace LoxSyntax

open Grammar Parse

/-! ## Token lists -/

/-- A list that ends with an end of file is parsed; its program stands before the first one. -/
theorem parseTokens_eof (ts : List Token) (eof : Terminal .eof) : ∃ (l : TokenList) (more : List Token),
    TokenList.ofTokens? (ts ++ [eof.1]) = .ok l ∧ ts ++ [eof.1] = l.body ++ l.eof :: more ∧ l.eof.kind = .eof := by
  have he : TokenList.endsWithEof (ts ++ [eof.1]) = true := by simp [TokenList.endsWithEof, Token.isEof, eof.2]
  cases hd : (ts ++ [eof.1]).dropWhile (!·.isEof) with
  | nil =>
    have := List.dropWhile_eq_nil_iff.1 hd eof.1 (by simp)
    simp [Token.isEof, eof.2] at this
  | cons t more =>
    refine ⟨⟨(ts ++ [eof.1]).takeWhile (!·.isEof), t⟩, more, ?_, ?_, ?_⟩
    · simp only [TokenList.ofTokens?, he, hd, if_true]
    · rw [← hd, List.takeWhile_append_dropWhile]
    · have h := List.head?_dropWhile_not (fun t : Token => !t.isEof) (ts ++ [eof.1])
      rw [hd] at h
      simpa [Token.isEof] using h

theorem parseTokens_of_ofTokens? {ts : List Token} {l : TokenList} (h : TokenList.ofTokens? ts = .ok l) :
    parseTokens ts = .ok l.parse := by
  rw [parseTokens, h]
  rfl

/-- What is parsed is a program and its end of file. -/
theorem ofTokens?_of_parseTokens {ts : List Token} {p : Program} (h : parseTokens ts = .ok p) :
    ∃ l, TokenList.ofTokens? ts = .ok l ∧ p = l.parse := by
  rw [parseTokens] at h
  cases hl : TokenList.ofTokens? ts with
  | error e =>
    rw [hl] at h
    cases h
  | ok l =>
    rw [hl] at h
    cases h
    exact ⟨l, rfl, rfl⟩

/-- What is said about an error and the token that it blames. -/
def Grammar.Mark.diagnostic (m : Mark) : Diagnostic := .syntactic m.2 m.1.message

theorem Parse.Marked.blamed {rs : List Report} {ms : List Mark} (h : Marked rs ms) (eof : Token) :
    rs.map (fun r => (r.error, r.blamed eof)) = ms := by
  induction h with
  | nil => rfl
  | @cons r m rs ms hm _ ih =>
    rw [List.map_cons, ih]
    obtain ⟨he, hp, -⟩ := hm
    rw [he, Report.blamed, List.headD_eq_head?_getD, hp]
    rfl

namespace TokenList

theorem ofTokens?_append {us ts : List Token} {l : TokenList} (hu : ∀ t ∈ us, t.isEof = false)
    (h : ofTokens? ts = .ok l) : ofTokens? (us ++ ts) = .ok ⟨us ++ l.body, l.eof⟩ := by
  unfold ofTokens? at h ⊢
  split at h
  · next he =>
    have hne : ts ≠ [] := by
      rintro rfl
      cases he
    have he' : endsWithEof (us ++ ts) = true := by
      rw [endsWithEof, List.getLast?_append_of_ne_nil us hne]
      exact he
    have hu' : ∀ t ∈ us, (!t.isEof) = true := fun t ht => by rw [hu t ht]; rfl
    rw [he', if_pos rfl, List.dropWhile_append_of_pos hu', List.takeWhile_append_of_pos hu']
    split at h
    · cases h
      rfl
    · cases h
  · cases h

theorem body_eq_of_ofTokens? {ts : List Token} {l : TokenList} (h : ofTokens? ts = .ok l) :
    l.body = ts.takeWhile (!·.isEof) := by
  unfold ofTokens? at h
  split at h
  · split at h
    · cases h
      rfl
    · cases h
  · cases h

/-- The errors that are reported, each with the token that it blames. -/
def blames (l : TokenList) : List Mark :=
  (l.parseWithin (l.body.length + 1)).reports.map fun r => (r.error, r.blamed l.eof)

theorem diagnostics_parse (l : TokenList) : l.parse.diagnostics = l.blames.map Mark.diagnostic := by
  rw [blames, List.map_map]
  rfl

theorem parse_diagnostics_eq_nil_iff (l : TokenList) :
    l.parse.diagnostics = [] ↔ (l.parseWithin (l.body.length + 1)).reports = [] := by
  simp [parse, diagnostics]

/-- A derivation gives the statements, and the marks that are reported. -/
theorem parse_of_derivation {l : TokenList} {d : Clause .program} (hw : d.word = l.body) (hn : d.NearestElse) :
    l.parse.statements = d.tree ∧ Marked (l.parseWithin (l.body.length + 1)).reports d.marks := by
  obtain ⟨rs, hm, h⟩ := reads_program (d := d) (Nat.lt_succ_self _) hn
  rw [hw] at h
  simp only [parse, parseWithin, h, Outcome.value?, Option.getD_some]
  exact ⟨trivial, hm⟩

theorem blames_of_derivation {l : TokenList} {d : Clause .program} (hw : d.word = l.body) : l.blames = d.marks := by
  have hm := (parse_of_derivation (by rw [d.word_nearest, hw]) d.nearestElse_nearest).2
  rw [← d.marks_nearest]
  exact hm.blamed l.eof

/-- What is accepted is derived. -/
theorem derivation_of_parse {l : TokenList} (h : (l.parseWithin (l.body.length + 1)).reports = []) :
    ∃ d : Clause .program, d.word = l.body ∧ d.Documented := by
  have hp := meets_program (Nat.lt_succ_self l.body.length)
  rw [parseWithin] at h
  generalize Parse.program (l.body.length + 1) l.body = P at h hp
  cases hp with
  | read hb hm hl he =>
    obtain ⟨d, rfl, rfl, rfl⟩ := hl
    obtain rfl := he
    refine ⟨d, by simpa using hb.symm, d.documented_iff.2 ?_⟩
    exact hm.eq_nil_iff.1 h
  | broken _ _ _ _ _ => simp at h

/-- What is accepted is derived with each `else` belonging to the nearest `if`, and its tree is built. -/
theorem nearest_of_parse {l : TokenList} (h : l.parse.diagnostics = []) :
    ∃ d : Clause .program, d.word = l.body ∧ d.NearestElse ∧ d.Documented ∧ l.parse.statements = d.tree := by
  obtain ⟨d, hw, hd⟩ := derivation_of_parse (l.parse_diagnostics_eq_nil_iff.1 h)
  have hw' : d.nearest.word = l.body := by rw [d.word_nearest, hw]
  exact ⟨d.nearest, hw', d.nearestElse_nearest, Clause.documented_nearest hd,
    (parse_of_derivation hw' d.nearestElse_nearest).1⟩

end TokenList

theorem parseTokens_accepts (ts : List Token) (eof : Terminal .eof) :
    ∃ p : Program, parseTokens (ts ++ [eof.1]) = .ok p ∧
      (p.diagnostics = [] ↔
        ∃ d : Clause .program, d.word = (ts ++ [eof.1]).takeWhile (!·.isEof) ∧ d.Documented) ∧
      (p.diagnostics = [] → ∃ d : Clause .program, d.word = (ts ++ [eof.1]).takeWhile (!·.isEof) ∧ d.Documented ∧
        d.NearestElse ∧ p.statements = d.tree) ∧
      ∀ d : Clause .program, d.word = (ts ++ [eof.1]).takeWhile (!·.isEof) → d.Documented → d.NearestElse →
        p.statements = d.tree := by
  obtain ⟨l, more, hl, -, -⟩ := parseTokens_eof ts eof
  have hb := TokenList.body_eq_of_ofTokens? hl
  have hiff : l.parse.diagnostics = [] ↔ ∃ d : Clause .program, d.word = l.body ∧ d.Documented := by
    rw [l.parse_diagnostics_eq_nil_iff]
    constructor
    · exact TokenList.derivation_of_parse
    · rintro ⟨d, hw, hd⟩
      have hm := (TokenList.parse_of_derivation (by rw [d.word_nearest, hw]) d.nearestElse_nearest).2
      rw [d.marks_nearest, d.documented_iff.1 hd] at hm
      exact hm.eq_nil_iff.2 rfl
  rw [← hb]
  refine ⟨l.parse, parseTokens_of_ofTokens? hl, hiff, ?_,
    fun d hw _ hn => (TokenList.parse_of_derivation hw hn).1⟩
  intro h
  obtain ⟨d, hw, hn, hd, ht⟩ := TokenList.nearest_of_parse h
  exact ⟨d, hw, hd, hn, ht⟩

end LoxSyntax
