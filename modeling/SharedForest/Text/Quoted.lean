/-
Debug text of values.

A string is shown in double quotes.  Quotes and backslashes get a backslash in front,
the four common controls have a letter of their own, and every other character
without a glyph is written as its code point in hexadecimal between braces.
-/
import SharedForest.Text.Glyphless

set_option autoImplicit false

namespace SharedForest

namespace Text

/-- A number in hexadecimal digits, as short as possible. -/
def hex (n : Nat) : String := String.ofList (Nat.toDigits 16 n)

/-- How a character is written inside double quotes. -/
def escapeChar (c : Char) : String :=
  match c with
  | '"' => "\\\""
  | '\\' => "\\\\"
  | '\n' => "\\n"
  | '\r' => "\\r"
  | '\t' => "\\t"
  | '\x00' => "\\0"
  | c =>
    if isGlyphless c then "\\u\x7b" ++ hex c.toNat ++ "\x7d" else String.singleton c

/-- A string in double quotes. -/
def quoted (s : String) : String :=
  "\"" ++ s.toList.foldl (fun out c => out ++ escapeChar c) "" ++ "\""

end Text

/-- Values that can be written down, once to be read by a person and once as they are. -/
class Written (α : Type) where
  /-- The debug text. -/
  debug : α → String
  /-- The text alone, without quotes. -/
  plain : α → String

instance : Written Int64 where
  debug i := toString i.toInt
  plain i := toString i.toInt

instance : Written Nat where
  debug n := toString n
  plain n := toString n

instance : Written String where
  debug := Text.quoted
  plain s := s

namespace Text

variable {α : Type}

/-- A list in brackets. -/
def bracketed (write : α → String) (xs : List α) : String :=
  "[" ++ ", ".intercalate (xs.map write) ++ "]"

/-- Entries between braces, on one line. -/
def entriesInline {β : Type} [Written α] [Written β] (xs : List (α × β)) : String :=
  "\x7b"
    ++ ", ".intercalate (xs.map fun (k, v) => Written.debug k ++ ": " ++ Written.debug v)
    ++ "\x7d"

/-- Entries between braces, each on a line of its own. -/
def entriesBlock {β : Type} [Written α] [Written β] (xs : List (α × β)) : String :=
  if xs.isEmpty then "\x7b\x7d"
  else
    "\x7b\n"
      ++ String.join
        (xs.map fun (k, v) => "    " ++ Written.debug k ++ ": " ++ Written.debug v ++ ",\n")
      ++ "\x7d"

end Text

end SharedForest
