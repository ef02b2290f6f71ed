/-
  LoxSyntax.Text.Quoted — a text between quotes, for messages that name a file or an
  argument. The quotes are single, or double when the text holds a single quote and no
  double one. The quote in use and the backslash are escaped by a backslash; a character
  that is not printable is written by its short name or its code point, so the quoted
  text is one printable line.

  - `quote_of_plain`: a text of printable characters without quotes and backslashes is
    only put between single quotes.
-/

import LoxSyntax.Text.Hex
import LoxSyntax.Text.Printable

namespace LoxSyntax.Text

def quoteMark (cs : List Char) : Char :=
  if cs.contains '\'' && !cs.contains '"' then '"' else '\''

def escapeCode (n : Nat) : List Char :=
  if n < 0x100 then '\\' :: 'x' :: hex 2 n
  else if n < 0x10000 then '\\' :: 'u' :: hex 4 n
  else '\\' :: 'U' :: hex 8 n

def escape (mark c : Char) : List Char :=
  if c = mark || c = '\\' then ['\\', c]
  else if c = '\n' then ['\\', 'n']
  else if c = '\r' then ['\\', 'r']
  else if c = '\t' then ['\\', 't']
  else if isPrintable c then [c]
  else escapeCode c.toNat

def quote (s : String) : String :=
  let mark := quoteMark s.toList
  String.ofList (mark :: s.toList.flatMap (escape mark) ++ [mark])

theorem flatMap_escape_of_plain {mark : Char} {cs : List Char}
    (h : ∀ c ∈ cs, isPrintable c = true ∧ c ≠ mark ∧ c ≠ '\\' ∧ c ≠ '\n' ∧ c ≠ '\r' ∧ c ≠ '\t') :
    cs.flatMap (escape mark) = cs := by
  induction cs with
  | nil => rfl
  | cons c cs ih =>
    obtain ⟨hp, h1, h2, h3, h4, h5⟩ := h c (by simp)
    rw [List.flatMap_cons, ih fun d hd => h d (by simp [hd])]
    simp [escape, hp, h1, h2, h3, h4, h5]

theorem quote_of_plain {s : String}
    (h : ∀ c ∈ s.toList, isPrintable c = true ∧ c ≠ '\'' ∧ c ≠ '\\' ∧ c ≠ '\n' ∧ c ≠ '\r' ∧ c ≠ '\t') :
    quote s = String.ofList ('\'' :: s.toList ++ ['\'']) := by
  have hn : ¬ '\'' ∈ s.toList := fun hm => (h _ hm).2.1 rfl
  have hm : quoteMark s.toList = '\'' := by simp [quoteMark, hn]
  simp only [quote, hm, flatMap_escape_of_plain h]

end LoxSyntax.Text
