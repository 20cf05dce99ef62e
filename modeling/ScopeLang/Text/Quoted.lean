import ScopeLang.Text.Printable

/-!
# Quoted text

A text between quotes on one line: quotes, backslashes and everything that does not show as itself
are written as escapes.
-/

namespace ScopeLang.Text

/-- A character by its code point, `\u{hex}`. -/
def codePointEscape (c : Char) : List Char :=
  '\\' :: 'u' :: '\x7b' :: (Nat.toDigits 16 c.toNat ++ ['\x7d'])

/-- How a character is written between quotes. -/
def escape (c : Char) : List Char :=
  match c with
  | '"' => ['\\', '"']
  | '\\' => ['\\', '\\']
  | '\n' => ['\\', 'n']
  | '\r' => ['\\', 'r']
  | '\t' => ['\\', 't']
  | '\x00' => ['\\', '0']
  | c => if isPrintable c then [c] else codePointEscape c

/-- The text between quotes. -/
def quote (text : String) : String :=
  String.ofList ('"' :: (text.toList.flatMap escape ++ ['"']))

end ScopeLang.Text
