import ScopeLang.Settings.Document

/-!
# How settings documents are spelled

The notation of settings documents leaves a writer many choices: blanks between all marks, several
spellings for a character between quotes, the order of the fields, and which fields are listed at
all. This module says what may be written, without regard to how it is read.

## Main definitions

* `CharSpelled`, `TextSpelled` — the spellings of a character and of a text between quotes.
* `Entry` — what a document says about a field.
* `ObjectSpelled` — the documents that say certain things in a certain order.

## Main statements

* `objectSpelled_toJson` — settings are written as such a document, with both fields.
-/

namespace ScopeLang.Settings

/-! ### Texts -/

/-- Blanks, perhaps none. -/
def Blank (w : List Char) : Prop := ∀ c ∈ w, c ∈ [' ', '\n', '\t', '\r']

/-- A hexadecimal digit, small or capital. -/
def HexDigit (c : Char) (v : Nat) : Prop :=
  v < 16 ∧ (c = Nat.digitChar v ∨ c = (Nat.digitChar v).toUpper)

/-- A unit of 16 bits in four hexadecimal digits. -/
inductive UnitSpelled : Nat → List Char → Prop where
  | mk {a b c d : Char} {p q r s : Nat} : HexDigit a p → HexDigit b q → HexDigit c r →
    HexDigit d s → UnitSpelled (((p * 16 + q) * 16 + r) * 16 + s) [a, b, c, d]

/-- The characters that have an escape of one letter. -/
def shortEscapes : List (Char × Char) :=
  [('"', '"'), ('\\', '\\'), ('/', '/'), ('b', '\x08'), ('f', '\x0c'), ('n', '\n'), ('r', '\r'),
    ('t', '\t')]

/-- The spellings of a character between quotes: as itself, by a short escape, by its code, or, when
its code takes more than 16 bits, by two units that share the rest of the code. -/
inductive CharSpelled : Char → List Char → Prop where
  | plain {c : Char} : c ≠ '"' → c ≠ '\\' → 0x20 ≤ c.toNat → CharSpelled c [c]
  | short {letter c : Char} : (letter, c) ∈ shortEscapes → CharSpelled c ['\\', letter]
  | code {c : Char} {w : List Char} : UnitSpelled c.toNat w → CharSpelled c ('\\' :: 'u' :: w)
  | pair {c : Char} {high low : Nat} {w v : List Char} : high < 0x400 → low < 0x400 →
    c.toNat = 0x10000 + high * 0x400 + low → UnitSpelled (0xD800 + high) w →
    UnitSpelled (0xDC00 + low) v → CharSpelled c ('\\' :: 'u' :: w ++ '\\' :: 'u' :: v)

/-- The spellings of a text between quotes. -/
inductive TextSpelled : List Char → List Char → Prop where
  | nil : TextSpelled [] []
  | cons {c : Char} {cs w v : List Char} : CharSpelled c w → TextSpelled cs v →
    TextSpelled (c :: cs) (w ++ v)

/-! ### Documents -/

/-- What a document says about a field. -/
inductive Entry where
  | maxCallDepth (n : UInt64)
  | logTimeFormat (format : String)

namespace Entry

def field : Entry → Field
  | maxCallDepth _ => .maxCallDepth
  | logTimeFormat _ => .logTimeFormat

/-- The settings with what the document says. -/
def apply (s : Settings) : Entry → Settings
  | maxCallDepth n => { s with maxCallDepth := n }
  | logTimeFormat format => { s with logTimeFormat := format }

end Entry

/-- The defaults, overridden by what a document says. -/
def overridden (entries : List Entry) : Settings := entries.foldl Entry.apply {}

/-- The spellings of a value: a number in decimal digits, or a text in quotes. -/
inductive ValueSpelled : Entry → List Char → Prop where
  | number (n : UInt64) : ValueSpelled (.maxCallDepth n) (Nat.repr n.toNat).toList
  | text {format : String} {w : List Char} : TextSpelled format.toList w →
    ValueSpelled (.logTimeFormat format) ('"' :: w ++ ['"'])

/-- A key and a value with the blanks around and between them. -/
inductive MemberSpelled : Entry → List Char → Prop where
  | mk {e : Entry} {a b c d key value : List Char} : Blank a → Blank b → Blank c → Blank d →
    TextSpelled e.field.key.toList key → ValueSpelled e value →
    MemberSpelled e (a ++ '"' :: key ++ '"' :: b ++ ':' :: c ++ value ++ d)

/-- One or more members with commas between them. -/
inductive MembersSpelled : List Entry → List Char → Prop where
  | last {e : Entry} {w : List Char} : MemberSpelled e w → MembersSpelled [e] w
  | cons {e : Entry} {es : List Entry} {w v : List Char} : MemberSpelled e w →
    MembersSpelled es v → MembersSpelled (e :: es) (w ++ ',' :: v)

/-- A document that is an object. -/
inductive ObjectSpelled : List Entry → List Char → Prop where
  | empty {a b c : List Char} : Blank a → Blank b → Blank c →
    ObjectSpelled [] (a ++ '\x7b' :: b ++ '\x7d' :: c)
  | members {es : List Entry} {a w b : List Char} : Blank a → Blank b → MembersSpelled es w →
    ObjectSpelled es (a ++ '\x7b' :: w ++ '\x7d' :: b)

/-! ### What is written -/

theorem hexDigit_digitChar {v : Nat} (h : v < 16) : HexDigit (Nat.digitChar v) v := ⟨h, .inl rfl⟩

/-- A control character is written by its code, with two leading zeros. -/
theorem charSpelled_control {c : Char} (h : c.toNat < 0x20) : CharSpelled c
    ['\\', 'u', '0', '0', Nat.digitChar (c.toNat / 16), Nat.digitChar (c.toNat % 16)] := by
  refine .code ?_
  have spelled : UnitSpelled (((0 * 16 + 0) * 16 + c.toNat / 16) * 16 + c.toNat % 16)
      ['0', '0', Nat.digitChar (c.toNat / 16), Nat.digitChar (c.toNat % 16)] :=
    .mk (hexDigit_digitChar (by decide)) (hexDigit_digitChar (by decide))
      (hexDigit_digitChar (by omega)) (hexDigit_digitChar (by omega))
  rwa [show ((0 * 16 + 0) * 16 + c.toNat / 16) * 16 + c.toNat % 16 = c.toNat by omega] at spelled

theorem charSpelled_jsonEscape (c : Char) : CharSpelled c (jsonEscape c) := by
  unfold jsonEscape
  split
  all_goals first | exact .short (by decide) | skip
  rename_i hquote hslash _ _ _ _ _
  split
  · exact charSpelled_control ‹_›
  · exact .plain hquote hslash (by omega)

theorem textSpelled_jsonEscape (text : List Char) : TextSpelled text (text.flatMap jsonEscape) := by
  induction text with
  | nil => exact .nil
  | cons c cs ih => exact .cons (charSpelled_jsonEscape c) ih

theorem blank_nil : Blank [] := nofun

/-- Settings are written as a document without blanks, which lists both fields in order. -/
theorem objectSpelled_toJson (s : Settings) :
    ObjectSpelled [.maxCallDepth s.maxCallDepth, .logTimeFormat s.logTimeFormat]
      (toJson s).toList := by
  have depth : MemberSpelled (.maxCallDepth s.maxCallDepth) _ :=
    .mk blank_nil blank_nil blank_nil blank_nil (textSpelled_jsonEscape _) (.number _)
  have format : MemberSpelled (.logTimeFormat s.logTimeFormat) _ :=
    .mk blank_nil blank_nil blank_nil blank_nil (textSpelled_jsonEscape _)
      (.text (textSpelled_jsonEscape _))
  have whole := ObjectSpelled.members blank_nil blank_nil (.cons depth (.last format))
  simpa [toJson, jsonQuote, Entry.field] using whole

end ScopeLang.Settings
