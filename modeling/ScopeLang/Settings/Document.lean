import ScopeLang.Settings.Lexeme

/-!
# Settings documents

A settings document is a JSON object with some of the fields, or a JSON array with the values of the
first fields. Missing fields keep their defaults; unknown and repeated ones are faults.

## Main definitions

* `Settings.ofJson` — the settings that a document holds, if they can be used.
* `Settings.toJson` — the document of settings, with all fields.
-/

namespace ScopeLang.Settings

/-! ### Reading -/

/-- The fields of a document. -/
inductive Field where
  | maxCallDepth
  | logTimeFormat
deriving DecidableEq

def Field.key : Field → String
  | maxCallDepth => "max_call_depth"
  | logTimeFormat => "log_time_format"

def Field.ofKey? (key : String) : Option Field :=
  [Field.maxCallDepth, Field.logTimeFormat].find? fun f => f.key == key

/-- What a document has said so far. -/
structure Draft where
  maxCallDepth : Option UInt64 := none
  logTimeFormat : Option String := none

namespace Draft

def has (d : Draft) : Field → Bool
  | .maxCallDepth => d.maxCallDepth.isSome
  | .logTimeFormat => d.logTimeFormat.isSome

/-- The number of fields still missing. -/
def missing (d : Draft) : Nat :=
  (if d.maxCallDepth.isSome then 0 else 1) + (if d.logTimeFormat.isSome then 0 else 1)

/-- The settings, with defaults for what was not said. -/
def toSettings (d : Draft) : Settings :=
  let defaults : Settings := {}
  { maxCallDepth := d.maxCallDepth.getD defaults.maxCallDepth
    logTimeFormat := d.logTimeFormat.getD defaults.logTimeFormat }

end Draft

/-- A whole number of 64 bits. -/
def readDepth (text : List Char) : Found UInt64 :=
  let fits (text : List Char) : Found UInt64 :=
    match readNumber text with
    | .error e => .error e
    | .ok (numeral, rest) =>
      match numeral.natural? with
      | some n => if n < UInt64.size then .ok (.ofNat n, rest) else .error .unfit
      | none => .error .unfit
  match text with
  | c :: _ => if c = '-' || c.isDigit then fits text else .error (misfit text)
  | [] => .error .early

def readFormat (text : List Char) : Found String :=
  match text with
  | '"' :: rest => readQuoted rest
  | _ => .error (misfit text)

/-- The value of a field, added to the draft. -/
def readField (d : Draft) (f : Field) (text : List Char) : Found Draft :=
  match f with
  | .maxCallDepth =>
    (readDepth (skipBlank text)).map fun (depth, rest) =>
      ({ d with maxCallDepth := some depth }, rest)
  | .logTimeFormat =>
    (readFormat (skipBlank text)).map fun (format, rest) =>
      ({ d with logTimeFormat := some format }, rest)

theorem missing_readField_lt {d d' : Draft} {f : Field} {text rest : List Char}
    (hf : d.has f = false) (h : readField d f text = .ok (d', rest)) : d'.missing < d.missing := by
  cases f <;> simp only [readField, Except.map] at h <;> split at h <;>
    simp only [Except.ok.injEq, Prod.mk.injEq, reduceCtorEq] at h <;> obtain ⟨rfl, _⟩ := h <;>
    simp_all [Draft.has, Draft.missing]

/-- A key that may stand here, and the field it names, from behind the opening quote to behind the
colon. -/
def readKey (d : Draft) (text : List Char) : Found { f : Field // d.has f = false } :=
  match readQuoted text with
  | .error e => .error e
  | .ok (key, rest) =>
    match Field.ofKey? key with
    | none => .error .unfit
    | some f =>
      if hf : d.has f = false then
        match skipBlank rest with
        | [] => .error .early
        | ':' :: rest => .ok (⟨f, hf⟩, rest)
        | _ => .error .malformed
      else .error .unfit

/-- The members of an object from a quote on, through the closing brace. -/
def readMembers (d : Draft) (text : List Char) : Found Draft :=
  match readKey d text with
  | .error e => .error e
  | .ok (f, rest) =>
    match _h : readField d f.1 rest with
    | .error e => .error e
    | .ok (d', rest) =>
      match skipBlank rest with
      | [] => .error .early
      | '\x7d' :: rest => .ok (d', rest)
      | ',' :: rest =>
        match skipBlank rest with
        | [] => .error .early
        | '"' :: rest => readMembers d' rest
        | _ => .error .malformed
      | _ => .error .malformed
termination_by d.missing
decreasing_by exact missing_readField_lt f.2 _h

/-- An object from behind its opening brace. -/
def readObject (text : List Char) : Found Draft :=
  match skipBlank text with
  | [] => .error .early
  | '\x7d' :: rest => .ok ({}, rest)
  | '"' :: rest => readMembers {} rest
  | _ => .error .malformed

/-- The closing bracket of an array. -/
def closeArray (d : Draft) (text : List Char) : Found Draft :=
  match skipBlank text with
  | [] => .error .early
  | ']' :: rest => .ok (d, rest)
  | _ => .error .malformed

/-- The second item of an array, if there is one, through the closing bracket. -/
def readSecond (d : Draft) (text : List Char) : Found Draft :=
  match skipBlank text with
  | [] => .error .early
  | ']' :: rest => .ok (d, rest)
  | ',' :: rest =>
    match skipBlank rest with
    | [] => .error .early
    | ']' :: _ => .error .malformed
    | rest =>
      match readField d .logTimeFormat rest with
      | .ok (d, rest) => closeArray d rest
      | .error e => .error e
  | _ => .error .malformed

/-- An array from behind its opening bracket. -/
def readArray (text : List Char) : Found Draft :=
  match skipBlank text with
  | [] => .error .early
  | ']' :: rest => .ok ({}, rest)
  | rest =>
    match readField {} .maxCallDepth rest with
    | .ok (d, rest) => readSecond d rest
    | .error e => .error e

/-- A whole document. Nothing but blanks may follow it. -/
def readDocument (text : List Char) : Except Misread Draft :=
  let found : Found Draft :=
    match skipBlank text with
    | '\x7b' :: rest => readObject rest
    | '[' :: rest => readArray rest
    | rest => .error (misfit rest)
  match found with
  | .error e => .error e
  | .ok (d, rest) => if (skipBlank rest).isEmpty then .ok d else .error .malformed

/-- The settings that a document holds, if they can be used. -/
def ofJson (source : String) : Except Problem Settings :=
  match readDocument source.toList with
  | .error fault => .error (.document fault)
  | .ok d =>
    match d.toSettings.validate with
    | .ok () => .ok d.toSettings
    | .error problem => .error problem

/-! ### Writing -/

/-- How a character is written between quotes in a document. -/
def jsonEscape (c : Char) : List Char :=
  match c with
  | '"' => ['\\', '"']
  | '\\' => ['\\', '\\']
  | '\x08' => ['\\', 'b']
  | '\x0c' => ['\\', 'f']
  | '\n' => ['\\', 'n']
  | '\r' => ['\\', 'r']
  | '\t' => ['\\', 't']
  | c =>
    if c.toNat < 0x20 then
      ['\\', 'u', '0', '0', Nat.digitChar (c.toNat / 16), Nat.digitChar (c.toNat % 16)]
    else [c]

def jsonQuote (text : String) : List Char := '"' :: (text.toList.flatMap jsonEscape ++ ['"'])

/-- The document of settings, without blanks. -/
def toJson (s : Settings) : String :=
  String.ofList <|
    '\x7b' :: (jsonQuote Field.maxCallDepth.key ++ ':' :: (Nat.repr s.maxCallDepth.toNat).toList ++
      ',' :: (jsonQuote Field.logTimeFormat.key ++ ':' :: (jsonQuote s.logTimeFormat ++ ['\x7d'])))

end ScopeLang.Settings
