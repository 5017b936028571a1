import PromptTags.Text.Basic

/-!
White space as Unicode defines it, the trimming of it, and the cutting of a text into lines.
-/

namespace PromptTags.Text

/-- Whether a character has the Unicode property White_Space. -/
def isBlank (c : Char) : Bool :=
  let n := c.toNat
  (9 ≤ n && n ≤ 13) || n == 0x20 || n == 0x85 || n == 0xA0 || n == 0x1680 ||
    (0x2000 ≤ n && n ≤ 0x200A) || n == 0x2028 || n == 0x2029 || n == 0x202F || n == 0x205F ||
    n == 0x3000

def trimEnd (t : Text) : Text := (t.reverse.dropWhile isBlank).reverse

def trim (t : Text) : Text := trimEnd (t.dropWhile isBlank)

/-- A line without the carriage return that may end it. -/
def chompReturn (line : Text) : Text :=
  if line.getLast? = some '\r' then line.dropLast else line

/-- The lines of a text: each ends with a newline or a carriage return and a newline, and the last
one may be left open. A text that ends with a newline has no empty line after it. -/
def lines (t : Text) : List Text :=
  let pieces := split '\n' t
  let full := pieces.dropLast.map chompReturn
  match pieces.getLast? with
  | none => full
  | some [] => full
  | some last => full ++ [last]

end PromptTags.Text
