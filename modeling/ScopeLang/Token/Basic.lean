import ScopeLang.Decimal.Style
import ScopeLang.Source.Position
import ScopeLang.Text.Quoted

/-!
# Tokens

The words of the language: numbers, quoted texts, names, six keywords, eight punctuation marks and
runs of operator characters. Which characters may stand in which word is decided here once.
-/

namespace ScopeLang

/-- The words that are no names. -/
inductive Keyword where
  | ifWord | thenWord | elseWord | lambdaWord | trueWord | falseWord
deriving DecidableEq

namespace Keyword

def all : List Keyword := [ifWord, thenWord, elseWord, lambdaWord, trueWord, falseWord]

def spelling : Keyword → String
  | ifWord => "if"
  | thenWord => "then"
  | elseWord => "else"
  | lambdaWord => "lambda"
  | trueWord => "true"
  | falseWord => "false"

/-- The keyword with this spelling. -/
def ofSpelling? (word : String) : Option Keyword := all.find? fun k => k.spelling == word

end Keyword

/-- The punctuation marks. Square brackets are read, although no phrase uses them. -/
inductive Mark where
  | comma | semicolon
  | openParen | closeParen
  | openBrace | closeBrace
  | openBracket | closeBracket
deriving DecidableEq

namespace Mark

def all : List Mark :=
  [comma, semicolon, openParen, closeParen, openBrace, closeBrace, openBracket, closeBracket]

def char : Mark → Char
  | comma => ','
  | semicolon => ';'
  | openParen => '('
  | closeParen => ')'
  | openBrace => '\x7b'
  | closeBrace => '\x7d'
  | openBracket => '['
  | closeBracket => ']'

def text (m : Mark) : String := m.char.toString

/-- The mark written by this character. -/
def ofChar? (c : Char) : Option Mark := all.find? fun m => m.char == c

end Mark

/-- What a token is, apart from where it stands. -/
inductive TokenKind where
  | number (value : Float)
  | text (content : String)
  | name (spelling : String)
  | keyword (word : Keyword)
  | mark (mark : Mark)
  | operator (symbol : String)

namespace TokenKind

/-- A token as messages and listings name it. -/
def describe : TokenKind → String
  | number value => "number " ++ Decimal.plain value
  | text content => "string " ++ Text.quote content
  | name spelling => "identifier " ++ spelling
  | keyword word => "keyword " ++ word.spelling
  | mark m => "punctuation " ++ m.text
  | operator symbol => "operator " ++ symbol

end TokenKind

/-- A token and the position of its first character. -/
structure Token where
  kind : TokenKind
  pos : Pos

/-! ### Character classes -/

/-- Blanks separate tokens and mean nothing else. -/
def isBlank (c : Char) : Bool := c == ' ' || c == '\t' || c == '\n' || c == '\r'

def isDigit (c : Char) : Bool := '0' ≤ c && c ≤ '9'

/-- A name begins with a small letter or an underscore. -/
def isNameStart (c : Char) : Bool := ('a' ≤ c && c ≤ 'z') || c == '_'

/-- Later characters of a name may also be digits and a few signs, some of which are operator
characters elsewhere. -/
def isNamePart (c : Char) : Bool := isNameStart c || isDigit c || "?!-<>=".toList.contains c

def isOperatorChar (c : Char) : Bool := "+-*/%=&|<>!".toList.contains c

end ScopeLang
