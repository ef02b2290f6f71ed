/-
  LoxSyntax.Proofs.Lexical.Recording — a scanner that records what it asks of its source.

  The recording scanner is the scanner, step by step, and notes each character that is
  read, each slice that is cut out of the source and each text that is read as a number. It
  forgets nothing of this when it fails. Apart from its notes it does what the scanner
  does, wherever it stands and whatever it marked before.

  Between two segments the notes are exact: each character of the next segment is read
  once, in order, and then the lexeme is cut out, for a word and a number twice, and for a
  string its value before.

  - `outcome_scanToken`, `outcome_scanTokens`: but for the notes, it is the scanner.
  - `accesses_scanToken`, `accesses_scanTokens`: what is asked for one segment and for all.
-/

import LoxSyntax.Proofs.Lexical.Scanning

namespace LoxSyntax

open Lexical

/-- What a scanner asks of its source. -/
inductive Access where
  /-- The next character, at this position. -/
  | read (position : Int)
  | lexeme (first last : Int)
  /-- What stands between the quotes of a string. -/
  | value (first last : Int)
  /-- The text is read as a number. -/
  | number (text : String)
  deriving DecidableEq, Repr

/-- An outcome, and what was asked on the way to it. -/
structure Recorded (α : Type) where
  accesses : List Access
  outcome : α

namespace Recording

variable {α β ε ε' : Type}

def note (accesses : List Access) (r : Recorded α) : Recorded α := ⟨accesses ++ r.accesses, r.outcome⟩

/-- Goes on with what was gained, or ends with the error. -/
def andThen (r : Recorded (Except ε α)) (fail : ε → ε') (k : α → Recorded (Except ε' β)) : Recorded (Except ε' β) :=
  match r.outcome with
  | .ok a => note r.accesses (k a)
  | .error e => ⟨r.accesses, .error (fail e)⟩

/-! ## The recording cursor -/

def next (c : Cursor) : Recorded (Except ReadError (Char × Cursor)) := ⟨[.read c.position], c.next⟩

def accept (c : Cursor) (expected : String) : Recorded (Except ReadError (Bool × Cursor)) :=
  if (c.peek 0).toList = expected.toList then andThen (next c) id fun (_, c) => ⟨[], .ok (true, c)⟩
  else ⟨[], .ok (false, c)⟩

def advanceWhile (p : Char → Bool) : Nat → Cursor → Recorded (Except ReadError Cursor)
  | 0, c => ⟨[], .ok c⟩
  | n + 1, c =>
    if (c.peek 0).any p then andThen (next c) id fun (_, c) => advanceWhile p n c
    else ⟨[], .ok c⟩

def skipWhile (p : Char → Bool) (c : Cursor) : Recorded (Except ReadError Cursor) := advanceWhile p c.remaining c

/-! ## The recording scanner -/

def onward (s : Scanner) (r : Recorded (Except ReadError α)) (k : α → Recorded (Except Stopped Scanner)) :
    Recorded (Except Stopped Scanner) :=
  andThen r (fun e => ⟨.read e, s⟩) k

/-- The lexeme of the token at hand is cut out. -/
def lexeme (s : Scanner) : Access := .lexeme s.start s.cursor.position

def addToken (s : Scanner) (kind : TokenKind) (literal : Literal) : Recorded (Except Stopped Scanner) :=
  ⟨[lexeme s], .ok (s.addToken kind literal)⟩

def skipComment (s : Scanner) : Recorded (Except Stopped Scanner) :=
  onward s (skipWhile (· != '\n') s.cursor) fun cursor => ⟨[], .ok { s with cursor }⟩

def string (s : Scanner) : Recorded (Except Stopped Scanner) :=
  onward s (skipWhile (· != '"') s.cursor) fun cursor =>
    let s := { s with cursor }
    if cursor.atEnd then ⟨[], .ok (s.report "Unterminated string.")⟩
    else
      onward s (next cursor) fun (_, cursor) =>
        note [.value (s.start + 1) (cursor.position - 1)]
          (addToken { s with cursor } .string
            (.text (String.ofList (cursor.slice (s.start + 1) (cursor.position - 1)))))

def finishNumber (s : Scanner) : Recorded (Except Stopped Scanner) :=
  note [lexeme s, .number s.lexeme] <|
    match Binary64.ofText? s.lexeme with
    | some x => addToken s .number (.number x)
    | none => ⟨[], .error ⟨.notANumber s.lexeme, s⟩⟩

def number (s : Scanner) : Recorded (Except Stopped Scanner) :=
  onward s (skipWhile isDigit s.cursor) fun cursor =>
    let s := { s with cursor }
    if cursor.peek 0 = some '.' && (cursor.peek 1).any isDigit then
      onward s (next cursor) fun (_, cursor) =>
        onward s (skipWhile isDigit cursor) fun cursor => finishNumber { s with cursor }
    else finishNumber s

def identifier (s : Scanner) : Recorded (Except Stopped Scanner) :=
  onward s (skipWhile isAlphanumeric s.cursor) fun cursor =>
    let s := { s with cursor }
    note [lexeme s] (addToken s (Scanner.wordKind s.lexeme) .nil)

def finishToken (s : Scanner) (c : Char) : Recorded (Except Stopped Scanner) :=
  match punctuation? c, comparison? c with
  | some kind, _ => addToken s kind .nil
  | none, some (extended, alone) =>
    onward s (accept s.cursor "=") fun (taken, cursor) =>
      addToken { s with cursor } (if taken then extended else alone) .nil
  | none, none =>
    if c = '/' then
      onward s (accept s.cursor "/") fun (taken, cursor) =>
        let s := { s with cursor }
        if taken then skipComment s else addToken s .slash .nil
    else if isSpace c then ⟨[], .ok s⟩
    else if c = '"' then string s
    else if isDigit c then number s
    else if isAlpha c then identifier s
    else ⟨[], .ok (s.report "Unexpected character.")⟩

def scanToken (s : Scanner) : Recorded (Except Stopped Scanner) :=
  onward s (next s.cursor) fun (c, cursor) => finishToken { s with cursor } c

def scanRest : Nat → Scanner → Recorded (Except Stopped Scanner)
  | 0, s => ⟨[], .ok s⟩
  | n + 1, s => if s.cursor.atEnd then ⟨[], .ok s⟩ else andThen (scanToken s.mark) id (scanRest n)

def scanTokens (s : Scanner) : Recorded (Except Stopped Scanner) :=
  andThen (scanRest s.cursor.remaining s) id fun s => ⟨[], .ok s.addEof⟩

/-! ## Without the notes -/

variable {r : Recorded (Except ReadError α)} {k : α → Recorded (Except Stopped Scanner)}

@[simp] theorem outcome_note (accesses : List Access) (r : Recorded α) : (note accesses r).outcome = r.outcome := rfl

@[simp] theorem outcome_next (c : Cursor) : (next c).outcome = c.next := rfl

@[simp] theorem outcome_addToken (s : Scanner) (kind : TokenKind) (literal : Literal) :
    (addToken s kind literal).outcome = .ok (s.addToken kind literal) := rfl

@[simp] theorem outcome_accept (c : Cursor) (expected : String) : (accept c expected).outcome = c.accept expected := by
  unfold accept Cursor.accept andThen
  split
  · rw [outcome_next]
    cases c.next <;> rfl
  · rfl

theorem outcome_advanceWhile (p : Char → Bool) (n : Nat) : ∀ c, (advanceWhile p n c).outcome = c.advanceWhile p n := by
  induction n with
  | zero => exact fun _ => rfl
  | succ n ih =>
    intro c
    unfold advanceWhile Cursor.advanceWhile andThen
    split
    · rw [outcome_next]
      cases c.next with
      | ok r => exact ih r.2
      | error e => rfl
    · rfl

@[simp] theorem outcome_skipWhile (p : Char → Bool) (c : Cursor) : (skipWhile p c).outcome = c.skipWhile p :=
  outcome_advanceWhile p _ c

@[simp] theorem outcome_onward (s : Scanner) : (onward s r k).outcome = s.onward r.outcome fun a => (k a).outcome := by
  unfold onward andThen Scanner.onward
  cases r.outcome <;> rfl

@[simp] theorem outcome_skipComment (s : Scanner) : (skipComment s).outcome = s.skipComment := by
  simp only [skipComment, Scanner.skipComment, outcome_onward, outcome_skipWhile]

@[simp] theorem outcome_string (s : Scanner) : (string s).outcome = s.string := by
  simp only [string, Scanner.string, outcome_onward, outcome_skipWhile]
  congr 1
  funext cursor
  split <;> simp

@[simp] theorem outcome_finishNumber (s : Scanner) : (finishNumber s).outcome = s.finishNumber := by
  rw [finishNumber, Scanner.finishNumber, outcome_note]
  cases Binary64.ofText? s.lexeme <;> rfl

@[simp] theorem outcome_number (s : Scanner) : (number s).outcome = s.number := by
  simp only [number, Scanner.number, outcome_onward, outcome_skipWhile]
  congr 1
  funext cursor
  split <;> simp

@[simp] theorem outcome_identifier (s : Scanner) : (identifier s).outcome = s.identifier := by
  simp only [identifier, Scanner.identifier, outcome_onward, outcome_skipWhile, outcome_note, outcome_addToken]

theorem outcome_finishToken (s : Scanner) (c : Char) : (finishToken s c).outcome = s.finishToken c := by
  unfold finishToken Scanner.finishToken
  cases punctuation? c with
  | some kind => rfl
  | none =>
  cases comparison? c with
  | some kinds => simp only [outcome_onward, outcome_accept, outcome_addToken]
  | none =>
  by_cases hslash : c = '/'
  · simp only [hslash, if_true, outcome_onward, outcome_accept]
    congr 1
    funext r
    split <;> simp
  · simp only [hslash, if_false]
    split
    · rfl
    split
    · exact outcome_string s
    split
    · exact outcome_number s
    split
    · exact outcome_identifier s
    · rfl

/-- But for the notes, a step is the scanner's. -/
theorem outcome_scanToken (s : Scanner) : (scanToken s).outcome = s.scanToken := by
  simp only [scanToken, Scanner.scanToken, outcome_onward, outcome_next, outcome_finishToken]

theorem outcome_scanRest (n : Nat) : ∀ s, (scanRest n s).outcome = s.scanRest n := by
  induction n with
  | zero => exact fun _ => rfl
  | succ n ih =>
    intro s
    unfold scanRest Scanner.scanRest andThen
    split
    · rfl
    · rw [outcome_scanToken]
      cases s.mark.scanToken with
      | ok s' => exact ih s'
      | error e => rfl

/-- But for the notes, a scan is the scanner's. -/
theorem outcome_scanTokens (s : Scanner) : (scanTokens s).outcome = s.scanTokens := by
  rw [scanTokens, Scanner.scanTokens, andThen, outcome_scanRest]
  cases s.scanRest s.cursor.remaining <;> rfl

/-! ## What is asked for a segment -/

/-- Characters read one behind the other, `n` of them. -/
def reads (first : Int) : Nat → List Access
  | 0 => []
  | n + 1 => .read first :: reads (first + 1) n

/-- What is cut out of the source for a segment that starts at `first`. -/
def cuts (first : Int) (seg : Segment) : List Access :=
  let whole := Access.lexeme first (first + seg.text.length)
  match seg.form with
  | .operator _ => [whole]
  | .word => [whole, whole]
  | .number _ _ => [whole, .number seg.lexeme, whole]
  | .string value => [.value (first + 1) (first + 1 + value.length), whole]
  | .blank | .comment | .unclosed | .other => []

/-- What is asked for a segment that starts at `first`. -/
def asked (first : Int) (seg : Segment) : List Access := reads first seg.text.length ++ cuts first seg

/-- What is asked for a row of segments that starts at `first`. -/
def askedAll (first : Int) : List Segment → List Access
  | [] => []
  | seg :: ss => asked first seg ++ askedAll (first + seg.text.length) ss

theorem mem_reads {first : Int} {n : Nat} {a : Access} (h : a ∈ reads first n) : ∃ i < n, a = .read (first + i) := by
  induction n generalizing first with
  | zero => cases h
  | succ n ih =>
    rcases List.mem_cons.1 h with rfl | h
    · exact ⟨0, Nat.succ_pos n, by simp⟩
    · obtain ⟨i, hi, rfl⟩ := ih h
      have hplace : first + 1 + (i : Int) = first + (i + 1 : Nat) := by omega
      exact ⟨i + 1, Nat.succ_lt_succ hi, congrArg Access.read hplace⟩

theorem reads_add (first : Int) (m n : Nat) : reads first (m + n) = reads first m ++ reads (first + m) n := by
  induction m generalizing first with
  | zero => simp [reads]
  | succ m ih =>
    have hplace : first + ((m + 1 : Nat) : Int) = first + 1 + m := by omega
    rw [Nat.succ_add, reads, ih, hplace]
    rfl

@[simp] theorem accesses_note (accesses : List Access) (r : Recorded α) :
    (note accesses r).accesses = accesses ++ r.accesses := rfl

theorem accesses_onward {s : Scanner} {a : α} (h : r.outcome = .ok a) :
    (onward s r k).accesses = r.accesses ++ (k a).accesses := by
  rw [onward, andThen, h]
  rfl

/-! ### The cursor -/

section Cursor

variable {c : Cursor} {before text rest : List Char} {p : Char → Bool}

theorem accesses_advanceWhile (h : c.Between before (text ++ rest)) (ht : ∀ ch ∈ text, p ch = true) (hr : Stops p rest)
    {n : Nat} (hn : text.length ≤ n) : (advanceWhile p n c).accesses = reads c.position text.length := by
  induction text generalizing c before n with
  | nil =>
    cases n with
    | zero => rfl
    | succ n => rw [advanceWhile, h.any_ahead_of_stops hr]; rfl
  | cons ch text ih =>
    obtain ⟨hch, ht⟩ := List.forall_mem_cons.1 ht
    cases n with
    | zero => cases hn
    | succ n =>
      have hnext : (next c).outcome = .ok (ch, c.past ch) := h.next
      have hrest := ih h.past ht (Nat.le_of_succ_le_succ hn)
      rw [advanceWhile, if_pos (h.any_ahead hch), andThen, hnext]
      rw [Cursor.position_past] at hrest
      exact congrArg (Access.read c.position :: ·) hrest

theorem accesses_skipWhile (h : c.Between before (text ++ rest)) (ht : ∀ ch ∈ text, p ch = true) (hr : Stops p rest) :
    (skipWhile p c).accesses = reads c.position text.length := by
  refine accesses_advanceWhile h ht hr ?_
  rw [h.remaining, List.length_append]
  exact Nat.le_add_right _ _

end Cursor

/-! ### The scanner

What was asked so far is carried in front, so that no place has to be counted twice. The
scanner that a failure would leave, `s'`, does not matter for it. -/

variable {s s' : Scanner} {seg : Segment} {before text t w rest : List Char} {c : Char} {p : Char → Bool}

theorem position_taking (s : Scanner) (text : List Char) :
    (s.taking text).cursor.position = s.cursor.position + text.length :=
  Cursor.position_pastAll _ _

theorem reads_next {k : Char × Cursor → Recorded (Except Stopped Scanner)}
    (h : s.cursor.Between before (t ++ c :: rest)) :
    reads s.cursor.position t.length ++ (onward s' (next (s.taking t).cursor) k).accesses =
      reads s.cursor.position (t ++ [c]).length ++ (k (c, (s.taking (t ++ [c])).cursor)).accesses := by
  have houtcome : (next (s.taking t).cursor).outcome = .ok (c, (s.taking (t ++ [c])).cursor) := Scanner.taking_next h
  have hread : (next (s.taking t).cursor).accesses = reads (s.cursor.position + t.length) [c].length :=
    congrArg (fun place => [Access.read place]) (position_taking s t)
  rw [accesses_onward houtcome, hread, List.length_append, reads_add, List.append_assoc]

theorem reads_skipWhile {k : Cursor → Recorded (Except Stopped Scanner)}
    (h : s.cursor.Between before (t ++ (w ++ rest))) (hw : ∀ ch ∈ w, p ch = true) (hr : Stops p rest) :
    reads s.cursor.position t.length ++ (onward s' (skipWhile p (s.taking t).cursor) k).accesses =
      reads s.cursor.position (t ++ w).length ++ (k (s.taking (t ++ w)).cursor).accesses := by
  have houtcome : (skipWhile p (s.taking t).cursor).outcome = .ok (s.taking (t ++ w)).cursor :=
    (outcome_skipWhile _ _).trans (Scanner.taking_skipWhile h hw hr)
  rw [accesses_onward houtcome, accesses_skipWhile (Scanner.between_taking h) hw hr, position_taking,
    List.length_append, reads_add, List.append_assoc]

variable {expected : String} {k : Bool × Cursor → Recorded (Except Stopped Scanner)}

theorem reads_accept (h : s.cursor.Between before (t ++ c :: rest)) (he : expected.toList = [c]) :
    reads s.cursor.position t.length ++ (onward s' (accept (s.taking t).cursor expected) k).accesses =
      reads s.cursor.position (t ++ [c]).length ++ (k (true, (s.taking (t ++ [c])).cursor)).accesses := by
  have hnext : (next (s.taking t).cursor).outcome = .ok (c, (s.taking (t ++ [c])).cursor) := Scanner.taking_next h
  have haccept : accept (s.taking t).cursor expected =
      ⟨[.read (s.taking t).cursor.position], .ok (true, (s.taking (t ++ [c])).cursor)⟩ := by
    rw [accept, if_pos ((Scanner.between_taking h).expected_ahead he), andThen, hnext]
    rfl
  rw [haccept, position_taking, List.length_append, reads_add, List.append_assoc]
  rfl

theorem reads_accept_ne (h : s.cursor.Between before (t ++ rest)) (he : expected.toList = [c])
    (hr : rest.head? ≠ some c) :
    reads s.cursor.position t.length ++ (onward s' (accept (s.taking t).cursor expected) k).accesses =
      reads s.cursor.position t.length ++ (k (false, (s.taking t).cursor)).accesses := by
  rw [accept, if_neg ((Scanner.between_taking h).not_expected_ahead he hr)]
  rfl

theorem lexeme_taking (s : Scanner) (text : List Char) :
    lexeme (s.taking text) = .lexeme s.cursor.position (s.cursor.position + text.length) :=
  congrArg (Access.lexeme s.cursor.position) (position_taking s text)

theorem accesses_addToken (s : Scanner) (text : List Char) (kind : TokenKind) (literal : Literal) :
    (addToken (s.taking text) kind literal).accesses =
      [.lexeme s.cursor.position (s.cursor.position + text.length)] :=
  congrArg (fun a => [a]) (lexeme_taking s text)

/-- An operator is cut out once. -/
theorem asked_operator (s : Scanner) (text : List Char) (kind : TokenKind) :
    reads s.cursor.position text.length ++ (addToken (s.taking text) kind .nil).accesses =
      asked s.cursor.position ⟨.operator kind, text⟩ :=
  congrArg (_ ++ ·) (accesses_addToken s text kind .nil)

theorem asked_comment (h : s.cursor.Between before ('/' :: '/' :: (text ++ rest)))
    (ht : ∀ ch ∈ text, (ch != '\n') = true) (hr : Stops (· != '\n') rest) :
    reads s.cursor.position ['/', '/'].length ++ (skipComment (s.taking ['/', '/'])).accesses =
      asked s.cursor.position ⟨.comment, '/' :: '/' :: text⟩ :=
  reads_skipWhile (t := ['/', '/']) h ht hr

theorem asked_word (h : s.cursor.Between before (c :: w ++ rest)) (hw : ∀ ch ∈ w, isAlphanumeric ch = true)
    (hr : Stops isAlphanumeric rest) :
    reads s.cursor.position [c].length ++ (identifier (s.taking [c])).accesses =
      asked s.cursor.position ⟨.word, c :: w⟩ :=
  (reads_skipWhile (t := [c]) h hw hr).trans (congrArg (fun a => _ ++ [a, a]) (lexeme_taking s (c :: w)))

theorem asked_unclosed (h : s.cursor.Between before ('"' :: text ++ [])) (ht : ∀ ch ∈ text, (ch != '"') = true) :
    reads s.cursor.position ['"'].length ++ (string (s.taking ['"'])).accesses =
      asked s.cursor.position ⟨.unclosed, '"' :: text⟩ := by
  have h1 : s.cursor.Between before (['"'] ++ (text ++ [])) := h
  have hend : (s.taking (['"'] ++ text)).cursor.atEnd = true := (Scanner.between_taking h).atEnd
  rw [string, reads_skipWhile h1 ht (by simp [Stops]), if_pos hend]
  rfl

theorem asked_string (h : s.cursor.Between before ('"' :: (w ++ ['"']) ++ rest)) (hw : ∀ ch ∈ w, (ch != '"') = true) :
    reads s.cursor.position ['"'].length ++ (string (s.taking ['"'])).accesses =
      asked s.cursor.position ⟨.string w, '"' :: (w ++ ['"'])⟩ := by
  have h1 : s.cursor.Between before (['"'] ++ (w ++ '"' :: rest)) := by simpa using h
  have h2 : s.cursor.Between before ('"' :: w ++ '"' :: rest) := h1
  have hend : ¬(s.taking (['"'] ++ w)).cursor.atEnd = true := Bool.eq_false_iff.1 (Scanner.between_taking h2).atEnd
  have hclose : (s.taking ('"' :: (w ++ ['"']))).cursor.position - 1 = s.cursor.position + 1 + w.length := by
    rw [position_taking]
    simp
    omega
  have hcuts (literal : Literal) :
      (note [.value (s.cursor.position + 1) ((s.taking ('"' :: (w ++ ['"']))).cursor.position - 1)]
        (addToken (s.taking ('"' :: (w ++ ['"']))) .string literal)).accesses =
      cuts s.cursor.position ⟨.string w, '"' :: (w ++ ['"'])⟩ := by
    rw [accesses_note, accesses_addToken, hclose]
    rfl
  rw [string, reads_skipWhile h1 hw (by simp [Stops]), if_neg hend]
  exact (reads_next h2).trans (congrArg (_ ++ ·) (hcuts _))

theorem asked_finishNumber {whole fraction : List Char} (h : s.cursor.Between before (text ++ rest))
    (hb : (Segment.mk (.number whole fraction) text).Before rest) :
    reads s.cursor.position text.length ++ (finishNumber (s.taking text)).accesses =
      asked s.cursor.position ⟨.number whole fraction, text⟩ := by
  rw [finishNumber, Scanner.lexeme_taking h, ofText?_number hb, accesses_note, accesses_addToken, lexeme_taking]
  rfl

theorem asked_whole {d : Char} {ds : List Char} (h : s.cursor.Between before (d :: ds ++ rest))
    (hd : ∀ ch ∈ d :: ds, isDigit ch = true) (hr : Stops isDigit rest) (hp : ¬PointDigit rest) :
    reads s.cursor.position [d].length ++ (number (s.taking [d])).accesses =
      asked s.cursor.position ⟨.number (d :: ds) [], d :: ds⟩ := by
  have h1 : s.cursor.Between before ([d] ++ (ds ++ rest)) := h
  have h2 : s.cursor.Between before ([d] ++ ds ++ rest) := h
  have hpeek : ¬((s.taking ([d] ++ ds)).cursor.peek 0 = some '.' &&
      ((s.taking ([d] ++ ds)).cursor.peek 1).any isDigit) = true :=
    mt (Scanner.between_taking h2).point_ahead_iff.1 hp
  rw [number, reads_skipWhile h1 (List.forall_mem_cons.1 hd).2 hr, if_neg hpeek]
  exact asked_finishNumber h (.whole hd hr hp)

theorem asked_fraction {d f : Char} {ds fs : List Char}
    (h : s.cursor.Between before (d :: ds ++ '.' :: f :: fs ++ rest)) (hd : ∀ ch ∈ d :: ds, isDigit ch = true)
    (hf : ∀ ch ∈ f :: fs, isDigit ch = true) (hr : Stops isDigit rest) :
    reads s.cursor.position [d].length ++ (number (s.taking [d])).accesses =
      asked s.cursor.position ⟨.number (d :: ds) (f :: fs), d :: ds ++ '.' :: f :: fs⟩ := by
  have hpoint : Stops isDigit ('.' :: (f :: fs ++ rest)) := stops_cons.2 (by decide)
  have h1 : s.cursor.Between before ([d] ++ (ds ++ '.' :: (f :: fs ++ rest))) := by simpa using h
  have h2 : s.cursor.Between before ([d] ++ ds ++ '.' :: (f :: fs ++ rest)) := h1
  have h3 : s.cursor.Between before ([d] ++ ds ++ ['.'] ++ (f :: fs ++ rest)) := by simpa using h
  have hpeek : ((s.taking ([d] ++ ds)).cursor.peek 0 = some '.' &&
      ((s.taking ([d] ++ ds)).cursor.peek 1).any isDigit) = true :=
    (Scanner.between_taking h2).point_ahead_iff.2 ⟨rfl, hf f List.mem_cons_self⟩
  have htext : [d] ++ ds ++ ['.'] ++ (f :: fs) = d :: ds ++ '.' :: f :: fs := by simp
  have hfinish := asked_finishNumber h (.fraction hd hf hr)
  rw [← htext] at hfinish ⊢
  rw [number, reads_skipWhile h1 (List.forall_mem_cons.1 hd).2 hpoint, if_pos hpeek]
  refine (reads_next h2).trans ?_
  exact (reads_skipWhile h3 hf hr).trans hfinish

theorem finishToken_of_isDigit (s : Scanner) (hc : isDigit c = true) : finishToken s c = number s := by
  obtain ⟨h1, h2, h3, h4, h5⟩ := not_mark_start (isDigit_start hc)
  simp only [finishToken, h1, h2, h3, h4, h5, hc, Bool.false_eq_true, if_true, if_false]

theorem finishToken_of_isAlpha (s : Scanner) (hc : isAlpha c = true) : finishToken s c = identifier s := by
  obtain ⟨h1, h2, h3, h4, h5⟩ := not_mark_start (isAlpha_start hc)
  simp only [finishToken, h1, h2, h3, h4, h5, isDigit_of_isAlpha hc, hc, Bool.false_eq_true, if_true, if_false]

theorem asked_finishToken (h : s.cursor.Between before (seg.text ++ rest)) (hb : seg.Before rest) {ds : List Char}
    (hc : seg.text = c :: ds) :
    reads s.cursor.position [c].length ++ (finishToken (s.taking [c]) c).accesses = asked s.cursor.position seg := by
  cases hb with
  | blank hs =>
    obtain ⟨rfl, -⟩ := List.cons.inj hc
    obtain ⟨h1, h2, h3⟩ := isSpace_start hs
    simp only [finishToken, h1, h2, h3, hs, if_true, if_false]
    rfl
  | @comment text rest ht hr =>
    obtain ⟨rfl, -⟩ := List.cons.inj hc
    have hslash : s.cursor.Between before (['/'] ++ '/' :: (text ++ rest)) := h
    simp only [finishToken, punctuation?, comparison?, if_true]
    exact (reads_accept hslash rfl).trans (asked_comment h ht hr)
  | punctuation hk =>
    obtain ⟨rfl, -⟩ := List.cons.inj hc
    simp only [finishToken, hk]
    exact asked_operator s _ _
  | @extended c' kind _ rest hk =>
    obtain ⟨rfl, -⟩ := List.cons.inj hc
    have h' : s.cursor.Between before ([c'] ++ '=' :: rest) := h
    simp only [finishToken, punctuation?_of_comparison? hk, hk]
    exact (reads_accept h' rfl).trans (asked_operator s [c', '='] kind)
  | @alone c' _ kind rest hk hr =>
    obtain ⟨rfl, -⟩ := List.cons.inj hc
    simp only [finishToken, punctuation?_of_comparison? hk, hk]
    exact (reads_accept_ne h rfl hr).trans (asked_operator s [c'] kind)
  | slash hr =>
    obtain ⟨rfl, -⟩ := List.cons.inj hc
    simp only [finishToken, punctuation?, comparison?, if_true]
    exact (reads_accept_ne h rfl hr).trans (asked_operator s ['/'] .slash)
  | string hv =>
    obtain ⟨rfl, -⟩ := List.cons.inj hc
    exact asked_string h hv
  | unclosed ht =>
    obtain ⟨rfl, -⟩ := List.cons.inj hc
    exact asked_unclosed h ht
  | whole hd hr hp =>
    obtain ⟨rfl, -⟩ := List.cons.inj hc
    rw [finishToken_of_isDigit _ (hd _ List.mem_cons_self)]
    exact asked_whole h hd hr hp
  | fraction hd hf hr =>
    obtain ⟨rfl, -⟩ := List.cons.inj hc
    rw [finishToken_of_isDigit _ (hd _ List.mem_cons_self)]
    exact asked_fraction h hd hf hr
  | word hw hs hr =>
    obtain ⟨rfl, -⟩ := List.cons.inj hc
    rw [finishToken_of_isAlpha _ hw]
    exact asked_word h hs hr
  | other hn =>
    obtain ⟨rfl, -⟩ := List.cons.inj hc
    obtain ⟨h1, h2, h3, h4, h5, h6, h7⟩ := hn
    simp only [finishToken, h1, h2, h3, h4, h5, h6, h7, Bool.false_eq_true, if_false]
    rfl

/-- What is asked for one segment. -/
theorem accesses_scanToken (h : s.cursor.Between before (seg.text ++ rest)) (hb : seg.Before rest) :
    (scanToken s.mark).accesses = asked s.cursor.position seg := by
  obtain ⟨c, ds, hc⟩ := List.exists_cons_of_ne_nil hb.text_ne_nil
  have h' : s.cursor.Between before ([] ++ c :: (ds ++ rest)) := by
    rw [List.nil_append, ← List.cons_append, ← hc]
    exact h
  exact (reads_next h').trans (asked_finishToken h hb hc)

/-! ### All segments -/

theorem accesses_scanRest {ss : List Segment} {cs : List Char} (h : Splits ss cs) (hc : s.cursor.Between before cs)
    {n : Nat} (hn : cs.length ≤ n) : (scanRest n s).accesses = askedAll s.cursor.position ss := by
  induction h generalizing s before n with
  | nil =>
    cases n with
    | zero => rfl
    | succ n => rw [scanRest, hc.atEnd]; rfl
  | @cons seg ss rest hb _ ih =>
    have hpos := List.length_pos_iff.2 hb.text_ne_nil
    rw [List.length_append] at hn
    cases n with
    | zero => omega
    | succ n =>
      have hend : s.cursor.atEnd = false := by
        rw [hc.atEnd, List.isEmpty_eq_false_iff]
        exact List.append_ne_nil_of_left_ne_nil hb.text_ne_nil rest
      have hstep : (scanToken s.mark).outcome = .ok (s.behind seg) :=
        (outcome_scanToken _).trans (Scanner.scanToken_mark hc hb)
      have hbehind : (s.behind seg).cursor.Between (before ++ seg.text) rest := hc.pastAll
      have hplace : (s.behind seg).cursor.position = s.cursor.position + seg.text.length := Cursor.position_pastAll _ _
      rw [scanRest, hend, if_neg Bool.false_ne_true, andThen, hstep]
      show (scanToken s.mark).accesses ++ (scanRest n (s.behind seg)).accesses = _
      rw [accesses_scanToken hc hb, ih hbehind (by omega), hplace, askedAll]

/-- What is asked in the scan of a source. -/
theorem accesses_scanTokens {source : String} {ss : List Segment} (h : Splits ss source.toList) :
    (scanTokens (.ofSource source)).accesses = askedAll 0 ss := by
  have hc : (Scanner.ofSource source).cursor.Between [] source.toList := Cursor.between_ofSource source
  have hrest : (scanRest (Scanner.ofSource source).cursor.remaining (.ofSource source)).accesses = askedAll 0 ss :=
    accesses_scanRest h hc (Nat.le_of_eq hc.remaining.symm)
  have houtcome := (outcome_scanRest _ _).trans (Scanner.scanRest_eq h hc (Nat.le_of_eq hc.remaining.symm))
  rw [scanTokens, andThen, houtcome]
  exact (List.append_nil _).trans hrest

end Recording

end LoxSyntax
