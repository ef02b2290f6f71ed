/-
  LoxSyntax.Proofs.RenamedTokens — the parser decides by the kinds of tokens only.

  Tokens of the same kinds and literals are read in the same way, whatever their lexemes
  and places are: the readings end alike, each value is the renamed one, and each report
  is at the renamed tokens. Skipping asks for kinds only as well. What stands behind the
  first end of file is never looked at.

  - `parseWithin_rename`: the reading of renamed tokens is the renamed reading.
  - `parseTokens_renamed`: so are the program and the blamed tokens of a renamed list with
    anything else behind its first end of file.
-/

import LoxSyntax.Proofs.PanicRecovery
import LoxSyntax.Proofs.Reading.PairedReaders

namespace LoxSyntax

open Grammar Parse

/-! ## Renamed readings -/

def Report.rename (f : Renaming) (r : Report) : Report := ⟨r.error, r.place.map f⟩

def Outcome.rename (f : Renaming) (g : α → β) : Outcome α → Outcome β
  | .value a rest => .value (g a) (rest.map f)
  | .abandoned rest => .abandoned (rest.map f)
  | .tooDeep rest => .tooDeep (rest.map f)

/-- The reading with its values changed by `g`. -/
def Parsed.rename (f : Renaming) (g : α → β) (P : Parsed α) : Parsed β :=
  ⟨P.reports.map (Report.rename f), P.outcome.rename f g⟩

variable {f : Renaming}

theorem rename_andThen {α β α' β' : Type} {g : α → α'} {h : β → β'} (P : Parsed α) {q : α → List Token → Parsed β}
    {q' : α' → List Token → Parsed β'} (hq : ∀ a ts, q' (g a) (ts.map f) = (q a ts).rename f h) :
    (P.rename f g).andThen q' = (P.andThen q).rename f h := by
  obtain ⟨rs, o⟩ := P
  cases o with
  | value a rest => simp [Parsed.rename, Outcome.rename, Parsed.andThen, hq]
  | abandoned rest | tooDeep rest => rfl

/-- The second reading is the first one, renamed. -/
def renamed (f : Renaming) : Pairing f where
  Pairs g P P' := P' = P.rename f g
  value _ _ _ := rfl
  abandoned _ _ _ _ := rfl
  soft _ _ _ := rfl
  tooDeep _ _ := rfl
  andThen := by
    rintro _ _ _ _ g h P P' q q' rfl hq
    exact rename_andThen P hq

theorem resume_map (before : Token) (ts : List Token) : resume (f before) (ts.map f) = (resume before ts).map f := by
  induction ts generalizing before with
  | nil => rfl
  | cons t ts ih =>
    simp only [List.map_cons, resume, f.kind_token]
    split
    · rfl
    · exact ih t

theorem synchronize_map (ts : List Token) : synchronize (ts.map f) = (synchronize ts).map f := by
  cases ts with
  | nil => rfl
  | cons t ts => exact resume_map t ts

theorem recovered_rename (g : α → β) (o : Outcome α) :
    recovered (o.rename f g) = (recovered o).rename f (Option.map g) := by
  cases o with
  | abandoned rest => simp [Outcome.rename, recovered, synchronize_map]
  | value a rest | tooDeep rest => rfl

theorem recover_rename {g : α → β} {p : Parse α} {p' : Parse β} {ts : List Token}
    (h : p' (ts.map f) = (p ts).rename f g) : recover p' (ts.map f) = (recover p ts).rename f (Option.map g) := by
  rw [recover_eq, recover_eq, h]
  exact congrArg (Parsed.mk _) (recovered_rename g (p ts).outcome)

theorem handles_recover : (renamed f).Handles recover recover := fun _ _ h ts => recover_rename (h ts)

/-! ## Renamed programs -/

namespace TokenList

def rename (f : Renaming) (l : TokenList) : TokenList := ⟨l.body.map f, f l.eof⟩

/-- The reading of renamed tokens is the renamed reading. -/
theorem parseWithin_rename (f : Renaming) (l : TokenList) (depth : Nat) :
    (l.rename f).parseWithin depth = (l.parseWithin depth).rename f (List.map (Stmt.rename f)) := by
  have h := paired_programBy (handles_recover (f := f)) depth l.body
  rw [programBy_recover] at h
  exact h

theorem statements_rename (f : Renaming) (l : TokenList) :
    (l.rename f).parse.statements = l.parse.statements.map (Stmt.rename f) := by
  have hlen : (l.rename f).body.length = l.body.length := List.length_map f
  simp only [parse, hlen, parseWithin_rename, Parsed.rename]
  cases (l.parseWithin (l.body.length + 1)).outcome <;> rfl

theorem blamed_rename (f : Renaming) (eof : Token) (r : Report) : (r.rename f).blamed (f eof) = f (r.blamed eof) := by
  obtain ⟨e, place⟩ := r
  cases place <;> rfl

theorem blames_rename (f : Renaming) (l : TokenList) : (l.rename f).blames = l.blames.map (Prod.map id f) := by
  have hlen : (l.rename f).body.length = l.body.length := List.length_map f
  simp only [blames, hlen, parseWithin_rename, Parsed.rename, List.map_map]
  refine List.map_congr_left ?_
  intro r _
  exact Prod.ext rfl (blamed_rename f l.eof r)

end TokenList

/-- A program in front of its first end of file, whatever stands behind that. -/
theorem parseTokens_body {body more : List Token} {first : Token} (hbody : ∀ t ∈ body, t.isEof = false)
    (hfirst : first.isEof = true) (hmore : TokenList.endsWithEof (first :: more) = true) :
    parseTokens (body ++ first :: more) = .ok (TokenList.mk body first).parse := by
  have h : TokenList.ofTokens? (first :: more) = .ok ⟨[], first⟩ := by
    simp [TokenList.ofTokens?, hmore, hfirst]
  have h := TokenList.ofTokens?_append hbody h
  rw [List.append_nil] at h
  exact parseTokens_of_ofTokens? h

/-- A token list is cut at its first end of file. Renaming the tokens up to there, and
    putting any other tokens behind, renames the tokens in the statements and the tokens that
    are blamed, and nothing else changes. -/
theorem parseTokens_renamed (f : Renaming) (body more more' : List Token) (first : Terminal .eof)
    (hbody : ∀ t ∈ body, t.kind ≠ .eof) (hmore : TokenList.endsWithEof (first.1 :: more) = true)
    (hmore' : TokenList.endsWithEof (f first.1 :: more') = true) :
    ∃ p p' : Program, parseTokens (body ++ first.1 :: more) = .ok p ∧
      parseTokens (body.map f ++ f first.1 :: more') = .ok p' ∧
      p'.statements = p.statements.map (Stmt.rename f) ∧
      p.diagnostics = (TokenList.mk body first.1).blames.map Mark.diagnostic ∧
      p'.diagnostics = (TokenList.mk (body.map f) (f first.1)).blames.map Mark.diagnostic ∧
      (TokenList.mk (body.map f) (f first.1)).blames = (TokenList.mk body first.1).blames.map (Prod.map id f) := by
  have hb : ∀ t ∈ body, t.isEof = false := fun t ht => beq_eq_false_iff_ne.2 (hbody t ht)
  have hb' : ∀ t ∈ body.map f, t.isEof = false := by
    intro t ht
    obtain ⟨u, hu, rfl⟩ := List.mem_map.1 ht
    rw [Token.isEof, f.kind_token]
    exact hb u hu
  have hf : first.1.isEof = true := beq_iff_eq.2 first.2
  have hf' : (f first.1).isEof = true := beq_iff_eq.2 ((f.kind_token _).trans first.2)
  let l : TokenList := ⟨body, first.1⟩
  exact ⟨l.parse, (l.rename f).parse, parseTokens_body hb hf hmore, parseTokens_body hb' hf' hmore',
    l.statements_rename f, l.diagnostics_parse, (l.rename f).diagnostics_parse, l.blames_rename f⟩

/-- Every token on the next line, without its lexeme. -/
def Renaming.nextLine : Renaming := ⟨fun t => { t with lexeme := "", line := t.line + 1 }, fun _ => rfl, fun _ => rfl⟩

theorem parseTokens_renamed_nextLine :
    ∃ p p' : Program, parseTokens [.bare .identifier "x", .bare .equal "=", .bare .semicolon ";",
        .bare .identifier "y", .bare .semicolon ";", .bare .eof ""] = .ok p ∧
      parseTokens [⟨.identifier, "", .nil, 2, 1⟩, ⟨.equal, "", .nil, 2, 1⟩, ⟨.semicolon, "", .nil, 2, 1⟩,
        ⟨.identifier, "", .nil, 2, 1⟩, ⟨.semicolon, "", .nil, 2, 1⟩, ⟨.eof, "", .nil, 2, 1⟩,
        .bare .kwVar "var", .bare .eof ""] = .ok p' ∧
      p'.statements = p.statements.map (Stmt.rename .nextLine) ∧
      p.diagnostics = [.syntactic (.bare .semicolon ";") "Expect expression."] ∧
      p'.diagnostics = [.syntactic ⟨.semicolon, "", .nil, 2, 1⟩ "Expect expression."] := by
  obtain ⟨p, p', hp, hp', hs, hd, hd', -⟩ := parseTokens_renamed .nextLine
    [.bare .identifier "x", .bare .equal "=", .bare .semicolon ";", .bare .identifier "y", .bare .semicolon ";"]
    [] [.bare .kwVar "var", .bare .eof ""] ⟨.bare .eof "", rfl⟩ (by decide) rfl rfl
  exact ⟨p, p', hp, hp', hs, hd, hd'⟩

end LoxSyntax
