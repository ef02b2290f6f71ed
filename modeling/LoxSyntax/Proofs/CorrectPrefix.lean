/-
  LoxSyntax.Proofs.CorrectPrefix — the first error that is not soft blames the first token
  that no program can go on with.

  The relaxed grammar is the one of all derivations, documented or not.

  - `firstHardError_correctPrefix`: the tokens in front of the blamed one begin a program;
    with it they begin none, or are none when it is the end of file.
-/

import LoxSyntax.Proofs.Acceptance
import LoxSyntax.Proofs.Reading.LocalReaders

namespace LoxSyntax

open Grammar Parse

/-- The first report that is not soft. -/
def firstHard? (rs : List Report) : Option Report := rs.find? (!·.error.isSoft)

/-- Where in the token list the report's token stands. -/
def TokenList.blamedIndex (l : TokenList) (r : Report) : Nat := l.body.length - r.place.length

theorem firstHard?_eq_none {rs : List Report} (h : ∀ r ∈ rs, r.error.isSoft = true) : firstHard? rs = none := by
  simpa [firstHard?] using h

theorem firstHard?_append {rs later : List Report} {r : Report} (h : ∀ s ∈ rs, s.error.isSoft = true)
    (hr : r.error.isSoft = false) : firstHard? (rs ++ r :: later) = some r := by
  rw [firstHard?, List.find?_append, ← firstHard?, firstHard?_eq_none h]
  simp [hr]

/-- A program that breaks off does so behind the beginning of one. -/
theorem exists_completion {depth : Nat} {ts : List Token} (h : ts.length < depth) {r : Report}
    (hr : firstHard? (Parse.program depth ts).reports = some r) :
    ∃ u v, ts = u ++ r.place ∧ ∃ d : Clause .program, d.word = u ++ v := by
  have hp := meets_program h
  generalize Parse.program depth ts = P at hp hr
  cases hp with
  | read _ hm _ _ =>
    rw [firstHard?_eq_none hm.isSoft] at hr
    cases hr
  | @broken u v place a rs later ms e o hts hs he hl ho =>
    rw [firstHard?_append hs he] at hr
    cases hr
    obtain ⟨d, hw, -⟩ := hl
    exact ⟨u, v, hts, d, hw⟩

theorem reports_soft_of_word {d : Clause .program} {depth : Nat} (h : d.word.length < depth) :
    ∀ r ∈ (Parse.program depth d.word).reports, r.error.isSoft = true := by
  obtain ⟨rs, hm, hr⟩ := reads_program (d := d.nearest) (by rwa [d.word_nearest]) d.nearestElse_nearest
  rw [d.word_nearest] at hr
  rw [hr]
  exact hm.isSoft

/-- No program goes on with the blamed token. -/
theorem no_completion {u r : List Token} {t : Token} {s : Report}
    (hs : firstHard? (Parse.program ((u ++ t :: r).length + 1) (u ++ t :: r)).reports = some s)
    (hp : s.place = t :: r) (d : Clause .program) (v : List Token) : d.word ≠ u ++ t :: v := by
  intro hw
  have hsoft : ∀ s ∈ (Parse.program (d.word.length + 1) d.word).reports, s.error.isSoft = true :=
    reports_soft_of_word (Nat.lt_succ_self _)
  have ha : Alike r v (u.length + 2) (Parse.program ((u ++ t :: r).length + 1)) (Parse.program (d.word.length + 1)) :=
    alike_program (by simp; omega) (by simp [hw]; omega)
  have h := ha.at (x := u ++ [t]) (by simp)
  simp only [List.append_assoc, List.singleton_append, ← hw] at h
  have hmem := List.mem_of_find?_eq_some hs
  have hhard := List.find?_some hs
  obtain ⟨s', hs', he'⟩ := h.exists_hard hmem (by simpa using hhard) (by simp [hp])
  rw [hsoft s' hs'] at he'
  cases he'

theorem firstHardError_correctPrefix (ts : List Token) (eof : Terminal .eof) :
    ∃ l : TokenList, parseTokens (ts ++ [eof.1]) = .ok l.parse ∧
      l.body = (ts ++ [eof.1]).takeWhile (!·.isEof) ∧
      l.parse.diagnostics = (l.parseWithin (l.body.length + 1)).reports.map (·.diagnostic l.eof) ∧
      ∀ r, firstHard? (l.parseWithin (l.body.length + 1)).reports = some r →
        (ts ++ [eof.1])[l.blamedIndex r]? = some (r.blamed l.eof) ∧
        (∃ d : Clause .program, (ts ++ [eof.1]).take (l.blamedIndex r) <+: d.word) ∧
        ((r.blamed l.eof).kind ≠ .eof →
          ∀ d : Clause .program, ¬(ts ++ [eof.1]).take (l.blamedIndex r + 1) <+: d.word) ∧
        ((r.blamed l.eof).kind = .eof →
          ∀ d : Clause .program, d.word ≠ (ts ++ [eof.1]).take (l.blamedIndex r)) := by
  obtain ⟨l, more, hl, hts, heof⟩ := parseTokens_eof ts eof
  refine ⟨l, parseTokens_of_ofTokens? hl, TokenList.body_eq_of_ofTokens? hl, rfl, ?_⟩
  intro r hr
  obtain ⟨u, v, hb, d, hd⟩ := exists_completion (Nat.lt_succ_self _) hr
  have hi : l.blamedIndex r = u.length := by
    rw [TokenList.blamedIndex, hb, List.length_append]
    omega
  rw [hi, hts, hb]
  simp only [List.append_assoc, List.take_left]
  refine ⟨?_, ⟨d, v, hd.symm⟩, fun hk d' hpre => ?_, fun hk d' hw => ?_⟩
  · cases hp : r.place <;> simp [Report.blamed, hp]
  · cases hp : r.place with
    | nil => exact absurd heof (by simpa [Report.blamed, hp] using hk)
    | cons t rest =>
      obtain ⟨v', hv'⟩ := hpre
      refine no_completion (u := u) (t := t) (r := rest) ?_ hp d' v' ?_
      · rw [← hp, ← hb]
        exact hr
      · rw [← hv', hp]
        simp [List.take_append, List.take_of_length_le]
  · cases hp : r.place with
    | cons t rest =>
      have ht : t ∈ l.body := by simp [hb, hp]
      have := TokenList.body_ofTokens? hl t ht
      rw [Report.blamed, hp, List.headD_cons] at hk
      simp [Token.isEof, hk] at this
    | nil =>
      have hbody : d'.word = l.body := by rw [hw, hb, hp, List.append_nil]
      have hlen : d'.word.length < l.body.length + 1 := by
        rw [hbody]
        exact Nat.lt_succ_self _
      have hsoft := reports_soft_of_word hlen
      rw [hbody] at hsoft
      rw [TokenList.parseWithin, firstHard?_eq_none hsoft] at hr
      cases hr

end LoxSyntax
