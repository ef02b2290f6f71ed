/-
  LoxSyntax.Text.Hex — code points in hexadecimal, in lower case and at a fixed width,
  as the escapes of quoted names and of JSON strings write them.

  - `length_padLeft`: a text is never cut, only filled up.
-/

namespace LoxSyntax.Text

/-- The text filled up on the left to a width. -/
def padLeft (fill : Char) (width : Nat) (cs : List Char) : List Char :=
  List.replicate (width - cs.length) fill ++ cs

def hex (width n : Nat) : List Char := padLeft '0' width (Nat.toDigits 16 n)

theorem length_padLeft (fill : Char) (width : Nat) (cs : List Char) :
    (padLeft fill width cs).length = max width cs.length := by
  simp only [padLeft, List.length_append, List.length_replicate]
  omega

end LoxSyntax.Text
