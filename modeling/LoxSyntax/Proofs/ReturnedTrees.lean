/-
  LoxSyntax.Proofs.ReturnedTrees — the statements that the parser returns, whatever was
  wrong.

  They are the tree of a derivation of those tokens that were kept, so they are shaped like
  the trees of programs: what was dropped was dropped as a whole, with its tokens. Each
  token is kept once at most, in the order of the program if there is no `for`.

  - `parseTokens_shaped`: every expression fits its place, and every statement.
  - `parseTokens_drawn`: the tokens of the trees are tokens of the program.
-/

import Mathlib.Data.Multiset.Defs
import LoxSyntax.Proofs.Grammar.Shape
import LoxSyntax.Proofs.Reading.Salvage
import LoxSyntax.Proofs.Tree.Tokens

namespace LoxSyntax

open Grammar

theorem TokenList.shaped (l : TokenList) : Shaped (fun _ => True) .program l.parse.statements := by
  obtain ⟨d, -, ht, hn⟩ := l.salvaged
  rw [← ht]
  exact d.shapedWithin (fun _ _ => trivial) hn

theorem parseTokens_shaped (ts : List Token) (eof : Terminal .eof) :
    ∃ p : Program, parseTokens (ts ++ [eof.1]) = .ok p ∧ Shaped (fun _ => True) .program p.statements := by
  obtain ⟨l, more, hl, -, -⟩ := parseTokens_eof ts eof
  exact ⟨l.parse, parseTokens_of_ofTokens? hl, l.shaped⟩

theorem TokenList.drawn (l : TokenList) : Drawn (stmtsTokens l.parse.statements) l.body := by
  obtain ⟨d, hw, ht, -⟩ := l.salvaged
  rw [← ht]
  refine ⟨d.drawn.subperm.trans hw.subperm, ?_⟩
  intro ho
  exact (d.drawn.sublist fun t hm => ho t (hw.subset hm)).trans hw

/-- Each token that the trees keep stands before the first end of file, and is kept no more
    often than it stands there. -/
theorem parseTokens_drawn (ts : List Token) (eof : Terminal .eof) :
    ∃ p : Program, parseTokens (ts ++ [eof.1]) = .ok p ∧
      (stmtsTokens p.statements).Subperm ((ts ++ [eof.1]).takeWhile (!·.isEof)) ∧
      (∀ t ∈ stmtsTokens p.statements, t ∈ (ts ++ [eof.1]).takeWhile (!·.isEof)) ∧
      ((ts ++ [eof.1]).Nodup → (stmtsTokens p.statements).Nodup) ∧
      ((∀ t ∈ ts, t.kind ≠ .kwFor) →
        (stmtsTokens p.statements).Sublist ((ts ++ [eof.1]).takeWhile (!·.isEof))) := by
  obtain ⟨l, more, hl, hts, -⟩ := parseTokens_eof ts eof
  have hb := TokenList.body_eq_of_ofTokens? hl
  have hfront := List.takeWhile_prefix (l := ts ++ [eof.1]) (!·.isEof)
  rw [← hb] at hfront ⊢
  have hd := l.drawn
  refine ⟨l.parse, parseTokens_of_ofTokens? hl, hd.subperm, fun t ht => hd.subperm.subset ht, ?_, ?_⟩
  · intro hn
    exact Multiset.nodup_of_le (Multiset.coe_le.2 hd.subperm) (hn.sublist hfront.sublist)
  · intro hfor
    refine hd.sublist ?_
    intro t ht
    rcases List.mem_append.1 (hfront.subset ht) with hm | hm
    · exact hfor t hm
    · rw [List.mem_singleton.1 hm, eof.2]
      decide

end LoxSyntax
