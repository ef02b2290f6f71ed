/-
  LoxSyntax.Proofs.Lexical.Lexeme — the lexemes that give a token each.

  A lexeme is one of the nineteen operators, a word, a number without or with a point, or
  a string. Scanned alone it is one segment; which characters may follow it directly is
  read off its kind.

  - `Lexeme.before_iff`: a lexeme keeps its segment in front of characters exactly when
    these do not extend it.
  - `Lexeme.eq_segment`: a segment with the text of a lexeme is that lexeme's.
  - `Lexeme.scan_alone`: a lexeme that is scanned alone.
-/

import LoxSyntax.Proofs.LexicalGrammar

namespace LoxSyntax.Lexical

/-- The operators and their kinds. -/
def operators : List (List Char × TokenKind) :=
  [(['('], .leftParen), ([')'], .rightParen), (['\x7b'], .leftBrace), (['\x7d'], .rightBrace), ([','], .comma),
   (['.'], .dot), (['-'], .minus), (['+'], .plus), ([';'], .semicolon), (['/'], .slash), (['*'], .star),
   (['!'], .bang), (['!', '='], .bangEqual), (['='], .equal), (['=', '='], .equalEqual), (['>'], .greater),
   (['>', '='], .greaterEqual), (['<'], .less), (['<', '='], .lessEqual)]

/-- The operators that an equals sign extends. -/
def extendable : List (List Char) := [['!'], ['='], ['<'], ['>']]

inductive Lexeme where
  | operator (text : List Char) (kind : TokenKind) (h : (text, kind) ∈ operators)
  /-- A name or a reserved word. -/
  | word (c : Char) (cs : List Char) (hc : isAlpha c = true) (hs : ∀ c ∈ cs, isAlphanumeric c = true)
  /-- Digits. -/
  | whole (d : Char) (ds : List Char) (hd : ∀ c ∈ d :: ds, isDigit c = true)
  /-- Digits around a point. -/
  | fraction (d : Char) (ds : List Char) (f : Char) (fs : List Char) (hd : ∀ c ∈ d :: ds, isDigit c = true)
      (hf : ∀ c ∈ f :: fs, isDigit c = true)
  /-- A string, without its quotes. -/
  | string (value : List Char) (hv : ∀ c ∈ value, (c != '"') = true)

/-- What stands in front of some characters can stand alone. -/
theorem Segment.Before.before_nil {s : Segment} {rest : List Char} (h : s.Before rest) : s.Before [] := by
  cases h with
  | blank h => exact .blank h
  | comment ht => exact .comment ht (by simp [Stops])
  | punctuation h => exact .punctuation h
  | extended h => exact .extended h
  | alone h => exact .alone h (by simp)
  | slash => exact .slash (by simp)
  | string hv => exact .string hv
  | unclosed ht => exact .unclosed ht
  | whole hd => exact .whole hd (by simp [Stops]) (by simp [PointDigit])
  | fraction hd hf => exact .fraction hd hf (by simp [Stops])
  | word hc hs => exact .word hc hs (by simp [Stops])
  | other h => exact .other h

namespace Lexeme

def segment : Lexeme → Segment
  | .operator text kind _ => ⟨.operator kind, text⟩
  | .word c cs _ _ => ⟨.word, c :: cs⟩
  | .whole d ds _ => ⟨.number (d :: ds) [], d :: ds⟩
  | .fraction d ds f fs _ _ => ⟨.number (d :: ds) (f :: fs), d :: ds ++ '.' :: f :: fs⟩
  | .string value _ => ⟨.string value, '"' :: (value ++ ['"'])⟩

def text (l : Lexeme) : List Char := l.segment.text

def kind (l : Lexeme) : TokenKind :=
  match l with
  | .operator _ kind _ => kind
  | .word .. => (reservedWords.lookup l.segment.lexeme).getD .identifier
  | .whole .. | .fraction .. => .number
  | .string .. => .string

def IsWord : Lexeme → Prop
  | .word .. => True
  | _ => False

def IsWhole : Lexeme → Prop
  | .whole .. => True
  | _ => False

def IsNumber : Lexeme → Prop
  | .whole .. | .fraction .. => True
  | _ => False

theorem kind?_segment (l : Lexeme) : l.segment.kind? = some l.kind := by
  cases l <;> rfl

/-! ## What may follow -/

/-- The characters do not extend the lexeme. -/
structure Ends (l : Lexeme) (rest : List Char) : Prop where
  word : l.IsWord → Stops isAlphanumeric rest
  number : l.IsNumber → Stops isDigit rest
  point : l.IsWhole → ¬PointDigit rest
  equals : l.text ∈ extendable → rest.head? ≠ some '='
  slash : l.text = ['/'] → rest.head? ≠ some '/'

/-- The operators are the characters that stand for themselves, the comparisons with and
    without their equals sign, and the slash. -/
theorem operator_cases {text : List Char} {kind : TokenKind} (h : (text, kind) ∈ operators) :
    (∃ c, text = [c] ∧ punctuation? c = some kind) ∨
    (∃ c alone, text = [c, '='] ∧ comparison? c = some (kind, alone)) ∨
    (∃ c extended, text = [c] ∧ comparison? c = some (extended, kind)) ∨ text = ['/'] ∧ kind = .slash := by
  simp only [operators, List.mem_cons, Prod.mk.injEq, List.not_mem_nil, or_false] at h
  rcases h with ⟨rfl, rfl⟩ | ⟨rfl, rfl⟩ | ⟨rfl, rfl⟩ | ⟨rfl, rfl⟩ | ⟨rfl, rfl⟩ | ⟨rfl, rfl⟩ | ⟨rfl, rfl⟩ | ⟨rfl, rfl⟩ |
    ⟨rfl, rfl⟩ | ⟨rfl, rfl⟩ | ⟨rfl, rfl⟩ | ⟨rfl, rfl⟩ | ⟨rfl, rfl⟩ | ⟨rfl, rfl⟩ | ⟨rfl, rfl⟩ | ⟨rfl, rfl⟩ |
    ⟨rfl, rfl⟩ | ⟨rfl, rfl⟩ | ⟨rfl, rfl⟩ <;> first
    | exact .inl ⟨_, rfl, rfl⟩
    | exact .inr (.inl ⟨_, _, rfl, rfl⟩)
    | exact .inr (.inr (.inl ⟨_, _, rfl, rfl⟩))
    | exact .inr (.inr (.inr ⟨rfl, rfl⟩))

theorem punctuation_not_extended : ∀ c ∈ marks.take 10, [c] ∉ extendable ∧ [c] ≠ ['/'] := by
  simp [marks, extendable]

theorem comparison_extendable : ∀ c ∈ (marks.drop 10).take 4, [c] ∈ extendable ∧ [c] ≠ ['/'] := by
  simp [marks, extendable]

theorem operator_before_iff {text rest : List Char} {kind : TokenKind} (h : (text, kind) ∈ operators) :
    (Segment.mk (.operator kind) text).Before rest ↔
      (text ∈ extendable → rest.head? ≠ some '=') ∧ (text = ['/'] → rest.head? ≠ some '/') := by
  constructor
  · intro hb
    cases hb with
    | punctuation hp =>
      obtain ⟨hc, hs⟩ := punctuation_not_extended _ (mem_of_punctuation? hp)
      exact ⟨fun he => absurd he hc, fun he => absurd he hs⟩
    | extended => exact ⟨fun he => absurd he (by simp [extendable]), fun he => absurd he (by simp)⟩
    | alone hk hr => exact ⟨fun _ => hr, fun he => absurd he (comparison_extendable _ (mem_of_comparison? hk)).2⟩
    | slash hr => exact ⟨fun he => absurd he (by decide), fun _ => hr⟩
  · rintro ⟨heq, hslash⟩
    rcases operator_cases h with ⟨c, rfl, hp⟩ | ⟨c, alone, rfl, hk⟩ | ⟨c, extended, rfl, hk⟩ | ⟨rfl, rfl⟩
    · exact .punctuation hp
    · exact .extended hk
    · exact .alone hk (heq (comparison_extendable c (mem_of_comparison? hk)).1)
    · exact .slash (hslash rfl)

theorem fraction_before_iff {d f : Char} {ds fs rest : List Char} (hd : ∀ c ∈ d :: ds, isDigit c = true)
    (hf : ∀ c ∈ f :: fs, isDigit c = true) :
    (Segment.mk (.number (d :: ds) (f :: fs)) (d :: ds ++ '.' :: f :: fs)).Before rest ↔ Stops isDigit rest := by
  refine ⟨fun h => ?_, .fraction hd hf⟩
  generalize hs : Segment.mk (.number (d :: ds) (f :: fs)) (d :: ds ++ '.' :: f :: fs) = s at h
  cases h with
  | fraction _ _ hr => exact hr
  | _ => cases hs

/-- What begins with none of the operators' characters is not extended as they are. -/
theorem Ends.of_head {l : Lexeme} {c : Char} {cs rest : List Char} (ht : l.text = c :: cs)
    (hc : c ∉ ['!', '=', '<', '>', '/']) (hw : l.IsWord → Stops isAlphanumeric rest)
    (hn : l.IsNumber → Stops isDigit rest) (hp : l.IsWhole → ¬PointDigit rest) : l.Ends rest := by
  refine ⟨hw, hn, hp, fun h => absurd ?_ hc, fun h => absurd ?_ hc⟩
  · rw [ht] at h
    have hm : ∀ t ∈ extendable, ∀ c ∈ t.head?, c ∈ ['!', '=', '<', '>', '/'] := by
      simp [extendable]
    exact hm _ h c rfl
  · obtain ⟨rfl, -⟩ := List.cons.inj (ht.symm.trans h)
    decide

theorem not_mem_of_not_mark {c : Char} (h : c ∉ marks) : c ∉ ['!', '=', '<', '>', '/'] :=
  fun hc => h (List.mem_of_mem_drop (show c ∈ marks.drop 10 from List.mem_of_mem_take (i := 5) hc))

/-- A lexeme keeps its segment in front of characters that do not extend it, and of no others. -/
theorem before_iff (l : Lexeme) (rest : List Char) : l.segment.Before rest ↔ l.Ends rest := by
  cases l with
  | operator text kind h =>
    refine (operator_before_iff h).trans ⟨fun ⟨he, hs⟩ => ?_, fun he => ⟨he.equals, he.slash⟩⟩
    exact ⟨False.elim, False.elim, False.elim, he, hs⟩
  | word c cs hc hs =>
    refine ⟨fun h => ?_, fun h => .word hc hs (h.word trivial)⟩
    cases h with
    | word _ _ hr =>
      exact .of_head rfl (not_mem_of_not_mark (isAlpha_start hc)) (fun _ => hr) False.elim False.elim
  | whole d ds hd =>
    refine ⟨fun h => ?_, fun h => .whole hd (h.number trivial) (h.point trivial)⟩
    cases h with
    | whole _ hr hp =>
      exact .of_head rfl (not_mem_of_not_mark (isDigit_start (hd d List.mem_cons_self))) False.elim (fun _ => hr)
        fun _ => hp
  | fraction d ds f fs hd hf =>
    refine (fraction_before_iff hd hf).trans ⟨fun hr => ?_, fun h => h.number trivial⟩
    exact .of_head rfl (not_mem_of_not_mark (isDigit_start (hd d List.mem_cons_self))) False.elim (fun _ => hr)
      False.elim
  | string value hv =>
    refine ⟨fun _ => ?_, fun _ => .string hv⟩
    exact .of_head rfl (by decide) False.elim False.elim False.elim

/-- How a lexeme begins tells what it can extend. -/
structure Head (l : Lexeme) (c : Char) : Prop where
  space : isSpace c = false
  alphanumeric : isAlphanumeric c = true ↔ l.IsWord ∨ l.IsNumber
  digit : isDigit c = true ↔ l.IsNumber
  equals : c = '=' ↔ l.text = ['='] ∨ l.text = ['=', '=']
  slash : c = '/' ↔ l.text = ['/']
  point : c = '.' ↔ l.text = ['.']

/-- What begins with no operator's character is no operator. -/
theorem Head.of_head {l : Lexeme} {c : Char} {cs : List Char} (ht : l.text = c :: cs) (hc : c ∉ ['=', '/', '.'])
    (hs : isSpace c = false) (ha : isAlphanumeric c = true ↔ l.IsWord ∨ l.IsNumber)
    (hd : isDigit c = true ↔ l.IsNumber) : l.Head c := by
  simp only [List.mem_cons, List.not_mem_nil, or_false, not_or] at hc
  refine ⟨hs, ha, hd, ?_, ?_, ?_⟩ <;> simp [ht, hc]

theorem Head.of_isAlpha {l : Lexeme} {c : Char} {cs : List Char} (ht : l.text = c :: cs) (hc : isAlpha c = true)
    (hw : l.IsWord) (hn : ¬l.IsNumber) : l.Head c :=
  .of_head ht (not_mem_of_all hc (by decide)) (not_mark_start (isAlpha_start hc)).2.2.2.1
    (by simp [isAlphanumeric, hc, hw]) (by simp [isDigit_of_isAlpha hc, hn])

theorem Head.of_isDigit {l : Lexeme} {c : Char} {cs : List Char} (ht : l.text = c :: cs) (hc : isDigit c = true)
    (hn : l.IsNumber) : l.Head c :=
  .of_head ht (not_mem_of_all hc (by decide)) (not_mark_start (isDigit_start hc)).2.2.2.1
    (by simp [isAlphanumeric, hc, hn]) (by simp [hc, hn])

theorem operators_head : ∀ p ∈ operators, ∀ c ∈ p.1.head?, isSpace c = false ∧ isAlphanumeric c = false ∧
    isDigit c = false ∧ (c = '=' ↔ p.1 = ['='] ∨ p.1 = ['=', '=']) ∧ (c = '/' ↔ p.1 = ['/']) ∧
    (c = '.' ↔ p.1 = ['.']) := by
  simp [operators, isSpace, isAlphanumeric, isAlpha, isDigit]

theorem head (l : Lexeme) {c : Char} {cs : List Char} (h : l.text = c :: cs) : l.Head c := by
  cases l with
  | operator text kind hk =>
    obtain ⟨h1, h2, h3, h4, h5, h6⟩ := operators_head _ hk c (by rw [show text = c :: cs from h]; rfl)
    exact ⟨h1, by simp [h2, IsWord, IsNumber], by simp [h3, IsNumber], h4, h5, h6⟩
  | word c' cs' hc hs =>
    obtain ⟨rfl, -⟩ := List.cons.inj h
    exact .of_isAlpha h hc trivial id
  | whole d ds hd =>
    obtain ⟨rfl, -⟩ := List.cons.inj h
    exact .of_isDigit h (hd d List.mem_cons_self) trivial
  | fraction d ds f fs hd hf =>
    obtain ⟨rfl, -⟩ := List.cons.inj h
    exact .of_isDigit h (hd d List.mem_cons_self) trivial
  | string value hv =>
    obtain ⟨rfl, -⟩ := List.cons.inj h
    exact .of_head h (by decide) (by decide) (by simp [IsWord, IsNumber]; decide) (by simp [IsNumber]; decide)

theorem before_nil (l : Lexeme) : l.segment.Before [] := by
  rw [before_iff]
  constructor <;> simp [Stops, PointDigit]

theorem text_ne_nil (l : Lexeme) : l.text ≠ [] := l.before_nil.text_ne_nil

/-- A segment with the text of a lexeme is that lexeme's. -/
theorem eq_segment (l : Lexeme) {s : Segment} {rest : List Char} (h : s.Before rest) (ht : s.text = l.text) :
    s = l.segment := by
  obtain ⟨c, cs, hc⟩ := List.exists_cons_of_ne_nil l.text_ne_nil
  have hl : l.segment.text ++ [] = c :: cs := by rw [List.append_nil, ← hc, text]
  have hs : s.text ++ [] = c :: cs := by rw [List.append_nil, ht, hc]
  rw [h.before_nil.eq_first hs, l.before_nil.eq_first hl]

/-! ## Scanned alone -/

theorem problem?_segment (l : Lexeme) : l.segment.problem? = none := by
  cases l <;> rfl

/-- The lexeme scanned alone gives its token, and no problem. -/
theorem scan_alone (l : Lexeme) : ∃ alone eof, scan (String.ofList l.text) = ⟨[alone, eof], []⟩ ∧
    eof.kind = .eof ∧ alone.kind = l.kind ∧ alone.literal = l.segment.literal := by
  have hs : Splits [l.segment] (String.ofList l.text).toList := by
    have h : Splits [l.segment] (l.segment.text ++ []) := .cons l.before_nil .nil
    rwa [List.append_nil, ← text, ← String.toList_ofList (l := l.text)] at h
  rw [scan_eq hs]
  simp only [tokens, diagnostics, Segment.token?, Segment.diagnostic?, l.kind?_segment, l.problem?_segment]
  exact ⟨_, _, rfl, rfl, rfl, rfl⟩

/-- A token of the lexeme, with the kind and the literal that the lexeme has when it is scanned
    alone. -/
def Gives (l : Lexeme) (t : Token) : Prop :=
  ∃ alone eof, scan (String.ofList l.text) = ⟨[alone, eof], []⟩ ∧ t.lexeme = String.ofList l.text ∧
    t.kind = alone.kind ∧ t.literal = alone.literal

theorem gives_iff (l : Lexeme) (t : Token) :
    l.Gives t ↔ (t.kind, t.lexeme, t.literal) = (l.kind, l.segment.lexeme, l.segment.literal) := by
  obtain ⟨alone, eof, hs, -, hk, hl⟩ := l.scan_alone
  constructor
  · rintro ⟨alone', eof', hs', ht, hk', hl'⟩
    obtain ⟨rfl, -⟩ := List.cons.inj (congrArg Scan.tokens (hs.symm.trans hs'))
    rw [hk', hk, ht, hl', hl]
    rfl
  · intro h
    simp only [Prod.mk.injEq] at h
    exact ⟨alone, eof, hs, h.2.1, h.1.trans hk.symm, h.2.2.trans hl.symm⟩

end Lexeme

end LoxSyntax.Lexical
