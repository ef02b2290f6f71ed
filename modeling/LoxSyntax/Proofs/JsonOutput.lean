/-
  LoxSyntax.Proofs.JsonOutput — what the command writes as data can be read again.

  A source that is accepted gives one JSON text, and that stands for its statements or its
  tokens and for nothing else, if all the numbers in it are finite. A numeral of the source
  has no bound, and from about 1.8 · 10 ^ 308 on it is scanned as infinity, without a
  problem being reported. Then the command succeeds and its output is no JSON text.

  - `printedData`: what the command prints as data.
  - `runSource_json`: its output, and when it is a JSON text.
  - `hugeSource_no_document`: a source whose output is none.
-/

import LoxSyntax.Proofs.Drivers
import LoxSyntax.Proofs.Json.Written

namespace LoxSyntax

open CommandLine JsonText Lexical

/-- What the command prints as data: the tokens, or else the statements. -/
def printedData (tokens : Bool) (source : String) : Json :=
  .array (if tokens then (scan source).tokens.map Token.data else (parseSource source).statements.map Stmt.data)

variable {k : Stack} {source : String} {tokens : Bool}

/-- The output of a source that is accepted, as data. -/
theorem stdout_json (h : (runSource k ⟨tokens, true⟩ source).ending = .exited 0) :
    (runSource k ⟨tokens, true⟩ source).stdout = (printedData tokens source).write ++ "\n" := by
  cases tokens with
  | true => rw [runSource_tokens]; rfl
  | false =>
    by_cases hp : k.Parses source
    · rw [runSource_parsed hp] at h ⊢
      -- only the written tree ends with the code 0
      split at h
      · split at h
        · simp [*, Program.written, printedData]
        · cases h
      · cases h
    · obtain ⟨found, -, -, hrun⟩ := runSource_gaveUp hp true
      rw [hrun] at h
      cases h

/-- The output is a JSON text exactly if all numbers in the data are finite, and then the
    data is all that it stands for. -/
theorem document_stdout_iff (h : (runSource k ⟨tokens, true⟩ source).ending = .exited 0) (j : Json) :
    Document (runSource k ⟨tokens, true⟩ source).stdout.toList j ↔
      (printedData tokens source).isFinite = true ∧ j = printedData tokens source := by
  have hw : Gap ['\n'] := by simp [Gap, isGap]
  have htext : (runSource k ⟨tokens, true⟩ source).stdout.toList = (printedData tokens source).chars 0 ++ ['\n'] := by
    rw [stdout_json h, String.toList_append, Json.write, String.toList_ofList]
    rfl
  rw [htext, document_chars_iff hw]

/-- When the command succeeds it writes the statements or the tokens as data. What it writes
    is a JSON text exactly if all numbers in the data are finite, and then the data is all
    that the text stands for. -/
theorem runSource_json (k : Stack) (source : String) (tokens : Bool)
    (h : (runSource k ⟨tokens, true⟩ source).ending = .exited 0) :
    (runSource k ⟨tokens, true⟩ source).stdout = (printedData tokens source).write ++ "\n" ∧
    ∀ j, Document (runSource k ⟨tokens, true⟩ source).stdout.toList j ↔
      (printedData tokens source).isFinite = true ∧ j = printedData tokens source :=
  ⟨stdout_json h, document_stdout_iff h⟩

theorem runSource_json_print :
    (runSource .ample ⟨false, true⟩ "print \"a\" + 0.5;").ending = .exited 0 ∧
    Document (runSource .ample ⟨false, true⟩ "print \"a\" + 0.5;").stdout.toList
      (printedData false "print \"a\" + 0.5;") := by
  have h : (runSource .ample ⟨false, true⟩ "print \"a\" + 0.5;").ending = .exited 0 := by decide +kernel
  have hf : (printedData false "print \"a\" + 0.5;").isFinite = true := by decide +kernel
  obtain ⟨-, hdoc⟩ := runSource_json .ample "print \"a\" + 0.5;" false h
  exact ⟨h, (hdoc _).2 ⟨hf, rfl⟩⟩

/-! ## A numeral without a finite value -/

/-- The digits of 10 ^ 400. -/
def hugeDigits : List Char := '1' :: List.replicate 400 '0'

/-- A statement of one numeral. -/
def hugeSource : String := String.ofList (hugeDigits ++ [';'])

theorem ofDecimal_hugeDigits : Binary64.ofDecimal false (.ofNumeral hugeDigits []) = .infinite false := by
  decide +kernel

theorem splits_hugeSource :
    Splits [⟨.number hugeDigits [], hugeDigits⟩, ⟨.operator .semicolon, [';']⟩] hugeSource.toList := by
  have hd : ∀ c ∈ hugeDigits, isDigit c = true := by
    intro c hc
    rcases List.mem_cons.1 hc with rfl | hc
    · rfl
    · rw [List.eq_of_mem_replicate hc]
      rfl
  rw [hugeSource, String.toList_ofList]
  exact .cons (.whole hd (by simp [Stops, isDigit]) (by simp [PointDigit])) (.cons (.punctuation rfl) .nil)

/-- It is scanned without a problem, and its numeral as infinity. -/
theorem scan_hugeSource : ∃ t s e : Token, scan hugeSource = ⟨[t, s, e], []⟩ ∧ t.kind = .number ∧
    t.literal = .number (.infinite false) ∧ s.kind = .semicolon ∧ e.kind = .eof :=
  ⟨_, _, _, scan_eq splits_hugeSource, rfl, congrArg Literal.number ofDecimal_hugeDigits, rfl, rfl⟩

theorem parse_numeral {t s : Token} (ht : t.kind = .number) (hs : s.kind = .semicolon) (e : Token) :
    TokenList.parse ⟨[t, s], e⟩ = ⟨[.expression (.literal t.literal)], []⟩ := by
  obtain ⟨_, _, _, _, _⟩ := t
  obtain ⟨_, _, _, _, _⟩ := s
  subst ht hs
  rfl

theorem parseSource_hugeSource :
    parseSource hugeSource = ⟨[.expression (.literal (.number (.infinite false)))], []⟩ := by
  obtain ⟨t, s, e, hscan, ht, hv, hs, he⟩ := scan_hugeSource
  have hl : TokenList.ofTokens? (scan hugeSource).tokens = .ok ⟨[t, s], e⟩ := by
    simp [hscan, TokenList.ofTokens?, TokenList.endsWithEof, Token.isEof, ht, hs, he]
  rw [parseSource_eq hl, parse_numeral ht hs, hscan, hv]
  rfl

/-- The statement of the source, with the numeral as infinity. -/
theorem printedData_hugeSource (h : k.Covers true hugeSource) (tokens : Bool) :
    (runSource k ⟨tokens, true⟩ hugeSource).ending = .exited 0 ∧ (printedData tokens hugeSource).isFinite = false := by
  cases tokens with
  | true =>
    obtain ⟨t, s, e, hscan, -, hv, -, -⟩ := scan_hugeSource
    rw [runSource_tokens]
    simp [printedData, hscan, Token.data, hv, Literal.data, Json.isFinite, Json.itemsFinite, Json.membersFinite,
      Binary64.isFinite]
  | false =>
    rw [runSource_tree h]
    simp [printedData, parseSource_hugeSource, Program.ok, Stmt.data, Stmt.toNode, Expr.toNode, Node.data, Node.object,
      Literal.data, Json.isFinite, Json.itemsFinite, Json.membersFinite, Binary64.isFinite]

/-- A numeral whose output is no JSON text, of the tree and of the tokens. -/
theorem hugeSource_no_document : Stack.ample.Covers true hugeSource ∧ ∀ k : Stack, k.Covers true hugeSource →
    (runSource k ⟨false, true⟩ hugeSource).ending = .exited 0 ∧
    (∀ j, ¬Document (runSource k ⟨false, true⟩ hugeSource).stdout.toList j) ∧
    (runSource k ⟨true, true⟩ hugeSource).ending = .exited 0 ∧
    ∀ j, ¬Document (runSource k ⟨true, true⟩ hugeSource).stdout.toList j := by
  refine ⟨Stack.covers_ample true hugeSource, fun k h => ?_⟩
  obtain ⟨htree, hfinite⟩ := printedData_hugeSource h false
  obtain ⟨htokens, hfinite'⟩ := printedData_hugeSource h true
  refine ⟨htree, fun j h => ?_, htokens, fun j h => ?_⟩
  · simp [document_stdout_iff htree, hfinite] at h
  · simp [document_stdout_iff htokens, hfinite'] at h

end LoxSyntax
