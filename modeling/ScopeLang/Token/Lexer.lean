import ScopeLang.Decimal.Reader
import ScopeLang.Error
import ScopeLang.Source.Cursor

/-!
# Finding the next token

Layout (blanks and comments) is skipped, then the longest token that starts at the next character is
read. Reading a token always takes at least one character, which is why listing the tokens of a text
comes to an end.

## Main definitions

* `Cursor.skipLayout` — the first place where a token can start.
* `Cursor.scan` — the next token, or why there is none.
-/

namespace ScopeLang

namespace Cursor

/-- Skips blanks and comments; `comment` says whether the text begins inside a comment. A comment
goes from `#` to the end of its line. -/
def skipLayoutFrom (comment : Bool) : List Char → Pos → Cursor
  | [], pos => ⟨[], pos⟩
  | c :: rest, pos =>
    if comment then skipLayoutFrom (c != '\n') rest (pos.next c)
    else if isBlank c then skipLayoutFrom false rest (pos.next c)
    else if c = '#' then skipLayoutFrom true rest (pos.next c)
    else ⟨c :: rest, pos⟩

/-- The first place at or after the cursor where a token can start. -/
def skipLayout (c : Cursor) : Cursor := skipLayoutFrom false c.rest c.pos

end Cursor

/-- The outcome of looking for a token. -/
inductive Scan where
  /-- A token, and what follows it. -/
  | token (token : Token) (rest : Cursor)
  /-- Only layout was left. -/
  | finished (rest : Cursor)
  /-- No token starts with this character; it stays unread. -/
  | unknown (c : Char) (rest : Cursor)
  /-- A quoted text ran into the end of the source. -/
  | unclosed (rest : Cursor)

/-- Reads a number: digits, then at most one point with any further digits. -/
def readNumber (c : Cursor) : TokenKind × Cursor :=
  let (whole, c) := c.readWhile isDigit
  match c.rest with
  | '.' :: rest =>
    let (fraction, c) := Cursor.readWhile isDigit ⟨rest, c.pos.next '.'⟩
    (.number (Decimal.ofDigits whole fraction), c)
  | _ => (.number (Decimal.ofDigits whole []), c)

/-- Reads a name or a keyword. -/
def readWord (c : Cursor) : TokenKind × Cursor :=
  let (word, c) := c.readWhile isNamePart
  let word := String.ofList word
  match Keyword.ofSpelling? word with
  | some k => (.keyword k, c)
  | none => (.name word, c)

/-- Reads an operator: as many operator characters as there are. -/
def readOperator (c : Cursor) : TokenKind × Cursor :=
  let (symbol, c) := c.readWhile isOperatorChar
  (.operator (String.ofList symbol), c)

/-- Reads a quoted text from behind its opening quote. A backslash takes the next character as it
is. The characters found so far come last first. The position is that of the end of the source if no
quote closes the text. -/
def readText (escaped : Bool) (found : List Char) : List Char → Pos → Except Pos (String × Cursor)
  | [], pos => .error pos
  | c :: rest, pos =>
    if escaped then readText false (c :: found) rest (pos.next c)
    else if c = '\\' then readText true found rest (pos.next c)
    else if c = '"' then .ok (String.ofList found.reverse, ⟨rest, pos.next c⟩)
    else readText false (c :: found) rest (pos.next c)

namespace Cursor

/-- Reads a token that starts right at the cursor. -/
def scanHere (c : Cursor) : Scan :=
  match c.rest with
  | [] => .finished c
  | ch :: rest =>
    let found (r : TokenKind × Cursor) : Scan := .token ⟨r.1, c.pos⟩ r.2
    if ch = '"' then
      match readText false [] rest (c.pos.next ch) with
      | .ok (content, c') => found (.text content, c')
      | .error pos => .unclosed ⟨[], pos⟩
    else if isDigit ch then found (readNumber c)
    else if isNameStart ch then found (readWord c)
    else match Mark.ofChar? ch with
      | some m => found (.mark m, ⟨rest, c.pos.next ch⟩)
      | none => if isOperatorChar ch then found (readOperator c) else .unknown ch c

/-- Looks for the next token. -/
def scan (c : Cursor) : Scan := c.skipLayout.scanHere

/-! ### Every token takes a character -/

theorem length_rest_skipLayoutFrom_le (comment : Bool) (text : List Char) (pos : Pos) :
    (skipLayoutFrom comment text pos).rest.length ≤ text.length := by
  induction text generalizing comment pos with
  | nil => simp [skipLayoutFrom]
  | cons c rest ih =>
    simp only [skipLayoutFrom]
    split
    · exact Nat.le_succ_of_le (ih _ _)
    · split
      · exact Nat.le_succ_of_le (ih _ _)
      · split
        · exact Nat.le_succ_of_le (ih _ _)
        · exact Nat.le_refl _

theorem length_rest_skipLayout_le (c : Cursor) : c.skipLayout.rest.length ≤ c.rest.length :=
  length_rest_skipLayoutFrom_le _ _ _

theorem length_dropWhile_le (p : Char → Bool) (text : List Char) :
    (text.dropWhile p).length ≤ text.length := (List.dropWhile_sublist p).length_le

theorem length_rest_readWhile_lt {p : Char → Bool} {ch : Char} (rest : List Char) (pos : Pos)
    (h : p ch = true) :
    (Cursor.readWhile p ⟨ch :: rest, pos⟩).2.rest.length < (ch :: rest).length := by
  simpa [readWhile, h] using Nat.lt_succ_of_le (length_dropWhile_le p rest)

theorem length_rest_readText_le {escaped : Bool} {found text : List Char} {pos : Pos}
    {content : String} {c : Cursor} (h : readText escaped found text pos = .ok (content, c)) :
    c.rest.length < text.length := by
  induction text generalizing escaped found pos with
  | nil => simp [readText] at h
  | cons ch rest ih =>
    simp only [readText] at h
    split at h
    · exact Nat.lt_succ_of_lt (ih h)
    · split at h
      · exact Nat.lt_succ_of_lt (ih h)
      · split at h
        · injection h with h
          injection h with _ h
          subst h
          exact Nat.lt_succ_self _
        · exact Nat.lt_succ_of_lt (ih h)

theorem length_rest_readNumber_lt {ch : Char} {rest : List Char} {pos : Pos}
    (h : isDigit ch = true) :
    (readNumber ⟨ch :: rest, pos⟩).2.rest.length < (ch :: rest).length := by
  have first := length_rest_readWhile_lt rest pos h
  simp only [readNumber]
  split
  · rename_i tail heq
    have : tail.length < (ch :: rest).length := by
      have := congrArg List.length heq
      simp only [List.length_cons] at this first ⊢
      omega
    exact Nat.lt_of_le_of_lt (length_dropWhile_le _ _) this
  · exact first

theorem length_rest_readWord_lt {ch : Char} {rest : List Char} {pos : Pos}
    (h : isNameStart ch = true) :
    (readWord ⟨ch :: rest, pos⟩).2.rest.length < (ch :: rest).length := by
  have part : isNamePart ch = true := by simp [isNamePart, h]
  have first := length_rest_readWhile_lt rest pos part
  simp only [readWord]
  split <;> exact first

theorem length_rest_readOperator_lt {ch : Char} {rest : List Char} {pos : Pos}
    (h : isOperatorChar ch = true) :
    (readOperator ⟨ch :: rest, pos⟩).2.rest.length < (ch :: rest).length :=
  length_rest_readWhile_lt rest pos h

theorem length_rest_scanHere_lt {c rest : Cursor} {t : Token} (h : c.scanHere = .token t rest) :
    rest.rest.length < c.rest.length := by
  obtain ⟨text, pos⟩ := c
  unfold scanHere at h
  cases text with
  | nil => simp at h
  | cons ch tail =>
    simp only at h
    split at h
    · split at h
      · rename_i hr
        cases h
        exact Nat.lt_succ_of_lt (length_rest_readText_le hr)
      · cases h
    · split at h
      · rename_i hd
        cases h
        exact length_rest_readNumber_lt hd
      · split at h
        · rename_i hn
          cases h
          exact length_rest_readWord_lt hn
        · split at h
          · cases h
            exact Nat.lt_succ_self _
          · split at h
            · rename_i ho
              cases h
              exact length_rest_readOperator_lt ho
            · cases h

/-- Looking for a token leaves a shorter text whenever it finds one. -/
theorem length_rest_scan_lt {c rest : Cursor} {t : Token} (h : c.scan = .token t rest) :
    rest.rest.length < c.rest.length :=
  Nat.lt_of_lt_of_le (length_rest_scanHere_lt h) c.length_rest_skipLayout_le

end Cursor

end ScopeLang
