/-
  LoxSyntax.Parse.Basic — reading a list of tokens: what a reader reports, and how it ends.

  The list holds the tokens before the end of the program, so the empty list is the end.
  A reader ends with a value and the tokens behind it, or it abandons what it was reading
  and leaves the tokens from the blamed one on, or the program is nested more deeply than
  it follows, and it gives up in front of the tokens where that shows. Whatever it ends
  with, what it reported stays reported, in order.

  A report keeps the tokens from the blamed one on: their first is the blamed token, and
  their number is its place. `recover` turns an abandoned reading into no value at all and
  skips to where the next statement is likely to start: behind a semicolon, or before a
  keyword that begins a declaration or a statement.

  Loops are bounded by the tokens that are left when they start, since each round takes
  one at least.

  - `run_bind`: a reader after a reader.
  - `synchronize_suffix`: recovery only drops tokens, and one at least unless at the end.
-/

import LoxSyntax.Diagnostic
import LoxSyntax.Parse.SyntaxError

namespace LoxSyntax

structure Report where
  error : SyntaxError
  /-- The tokens from the blamed one on; none when the end is blamed. -/
  place : List Token
  deriving DecidableEq, Repr

/-- The blamed token, where `eof` stands for the end. -/
def Report.blamed (eof : Token) (r : Report) : Token := r.place.headD eof

def Report.diagnostic (eof : Token) (r : Report) : Diagnostic := .syntactic (r.blamed eof) r.error.message

inductive Outcome (α : Type) where
  | value (a : α) (rest : List Token)
  | abandoned (rest : List Token)
  | tooDeep (rest : List Token)

/-- What was left, whatever the end. -/
def Outcome.rest : Outcome α → List Token
  | .value _ rest | .abandoned rest | .tooDeep rest => rest

structure Parsed (α : Type) where
  reports : List Report
  outcome : Outcome α

/-- The reading came upon a nesting that it did not follow. -/
def Parsed.GaveUp (P : Parsed α) : Prop := ∃ rest, P.outcome = .tooDeep rest

def Parse (α : Type) : Type := List Token → Parsed α

namespace Parse

def pure (a : α) : Parse α := fun ts => ⟨[], .value a ts⟩

def bind (p : Parse α) (f : α → Parse β) : Parse β := fun ts =>
  match p ts with
  | ⟨reports, .value a rest⟩ =>
    let q := f a rest
    ⟨reports ++ q.reports, q.outcome⟩
  | ⟨reports, .abandoned rest⟩ => ⟨reports, .abandoned rest⟩
  | ⟨reports, .tooDeep rest⟩ => ⟨reports, .tooDeep rest⟩

instance : Monad Parse where
  pure := pure
  bind := bind

theorem run_bind (p : Parse α) (f : α → Parse β) (ts : List Token) :
    (p >>= f) ts = match p ts with
      | ⟨reports, .value a rest⟩ => ⟨reports ++ (f a rest).reports, (f a rest).outcome⟩
      | ⟨reports, .abandoned rest⟩ => ⟨reports, .abandoned rest⟩
      | ⟨reports, .tooDeep rest⟩ => ⟨reports, .tooDeep rest⟩ := rfl

/-! ## Single tokens -/

def tooDeep : Parse α := fun ts => ⟨[], .tooDeep ts⟩

/-- Reports an error at the current token and abandons the reading. -/
def fail (e : SyntaxError) : Parse α := fun ts => ⟨[⟨e, ts⟩], .abandoned ts⟩

/-- Reports an error at a place, and goes on. -/
def report (e : SyntaxError) (place : List Token) : Parse Unit := fun ts => ⟨[⟨e, place⟩], .value () ts⟩

/-- The tokens that are left. -/
def here : Parse (List Token) := fun ts => ⟨[], .value ts ts⟩

/-- Goes on with other tokens. -/
def leave (f : List Token → List Token) : Parse Unit := fun ts => ⟨[], .value () (f ts)⟩

def nextIs (p : TokenKind → Bool) : Parse Bool := fun ts => ⟨[], .value (ts.head?.any (p ·.kind)) ts⟩

/-- Takes a token of the kind, or fails. -/
def expect (k : TokenKind) (e : SyntaxError) : Parse Token
  | [] => fail e []
  | t :: ts => if t.kind = k then ⟨[], .value t ts⟩ else fail e (t :: ts)

/-- Takes the next token and goes on by its rule, or by the other reader when there is no
    rule for it. -/
def dispatch (rule : Token → Option (Parse α)) (otherwise : Parse α) : Parse α
  | [] => otherwise []
  | t :: ts =>
    match rule t with
    | some p => p ts
    | none => otherwise (t :: ts)

/-- Takes the next token and goes on with it if its kind has the property. -/
def whenNext (p : TokenKind → Bool) (f : Token → Parse α) (otherwise : Parse α) : Parse α :=
  dispatch (fun t => if p t.kind then some (f t) else none) otherwise

/-! ## Loops -/

/-- Operands joined by operators, from the left. -/
def chainFrom (operand : Parse α) (join : α → Token → α → α) (isOperator : TokenKind → Bool) :
    List Token → α → Parse α
  | [], left => pure left
  | _ :: bound, left =>
    whenNext isOperator
      (fun operator => do
        let right ← operand
        chainFrom operand join isOperator bound (join left operator right))
      (pure left)

def chain (operand : Parse α) (join : α → Token → α → α) (isOperator : TokenKind → Bool) : Parse α := do
  let left ← operand
  chainFrom operand join isOperator (← here) left

/-- One more item, `count` having been read; each from the 256th on is reported. -/
def nextItem (item : Parse α) (excess : SyntaxError) (count : Nat) : Parse α := do
  if maxItems ≤ count then report excess (← here)
  item

/-- The items behind the commas. -/
def moreItems (item : Parse α) (excess : SyntaxError) : List Token → Nat → Parse (List α)
  | [], _ => pure []
  | _ :: bound, count =>
    whenNext (· == .comma)
      (fun _ => do
        let x ← nextItem item excess count
        let xs ← moreItems item excess bound (count + 1)
        pure (x :: xs))
      (pure [])

/-- Items separated by commas, one at least. -/
def items (item : Parse α) (excess : SyntaxError) : Parse (List α) := do
  let x ← item
  let xs ← moreItems item excess (← here) 1
  pure (x :: xs)

/-- Items up to a closing parenthesis, which is not taken. -/
def itemsBeforeParen (item : Parse α) (excess : SyntaxError) : Parse (List α) := do
  if ← nextIs (· == .rightParen) then pure [] else items item excess

/-- Reads again and again until the next token stops it, or the end. -/
def repeatUntil (stop : TokenKind → Bool) (read : Parse (List α)) : List Token → Parse (List α)
  | [] => pure []
  | _ :: bound => fun ts =>
    match ts with
    | [] => ⟨[], .value [] []⟩
    | t :: rest =>
      if stop t.kind then ⟨[], .value [] (t :: rest)⟩
      else
        (do
          let xs ← read
          let ys ← repeatUntil stop read bound
          pure (xs ++ ys)) (t :: rest)

/-! ## Recovery -/

/-- Skips tokens until one behind a semicolon or one that starts a statement; `before` is
    the token in front. -/
def resume (before : Token) : List Token → List Token
  | [] => []
  | t :: ts => if before.kind == .semicolon || t.kind.startsStatement then t :: ts else resume t ts

/-- Skips one token, and on to where the next statement is likely to start. -/
def synchronize : List Token → List Token
  | [] => []
  | t :: ts => resume t ts

/-- An abandoned reading gives no value, and the tokens that follow it are skipped. -/
def recover (p : Parse α) : Parse (Option α) := fun ts =>
  match p ts with
  | ⟨reports, .value a rest⟩ => ⟨reports, .value (some a) rest⟩
  | ⟨reports, .abandoned rest⟩ => ⟨reports, .value none (synchronize rest)⟩
  | ⟨reports, .tooDeep rest⟩ => ⟨reports, .tooDeep rest⟩

theorem resume_suffix (before : Token) (ts : List Token) : resume before ts <:+ ts := by
  induction ts generalizing before with
  | nil => exact List.suffix_refl _
  | cons t ts ih =>
    simp only [resume]
    split
    · exact List.suffix_refl _
    · exact (ih t).trans (List.suffix_cons t ts)

theorem synchronize_suffix (t : Token) (ts : List Token) : synchronize (t :: ts) <:+ ts := resume_suffix t ts

end Parse

end LoxSyntax
