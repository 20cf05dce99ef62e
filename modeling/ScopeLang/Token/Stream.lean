import ScopeLang.Token.Lexer

/-!
# Token streams

Tokens are read on demand, with one token of lookahead: a token that was only looked at waits in the
stream. A stream can be used after a failure. A character that starts no token stays where it is, so
that the failure comes again; a text without a closing quote is consumed, so that the stream is at
its end afterwards.

## Main definitions

* `TokenStream.next`, `TokenStream.peek` — take or look at the next token.
* `TokenStream.drain` — all tokens, and how they end.
-/

namespace ScopeLang

/-- How the tokens of a text end. -/
inductive Ending where
  /-- With the text, at this position. -/
  | finished (pos : Pos)
  /-- With something that is no token. -/
  | failed (e : Error)

def Ending.failure? : Ending → Option Error
  | finished _ => none
  | failed e => some e

/-- An unread source text, and the token that was looked at but not taken. -/
structure TokenStream where
  cursor : Cursor
  waiting : Option Token := none

namespace TokenStream

def ofString (source : String) : TokenStream := { cursor := .ofString source }

/-- The start of the waiting token, or else the place where reading stopped. -/
def pos (s : TokenStream) : Pos := s.waiting.elim s.cursor.pos Token.pos

/-- A failure at the current position. -/
def fail (s : TokenStream) (text : String) : Error := .malformed (.remark text) s.pos

/-- Reads a token from the text behind the waiting token. -/
def read (c : Cursor) : Except Error (Option Token) × Cursor :=
  match c.scan with
  | .token t rest => (.ok (some t), rest)
  | .finished rest => (.ok none, rest)
  | .unknown ch rest => (.error (.malformed (.unknownCharacter ch) rest.pos), rest)
  | .unclosed rest => (.error (.malformed .unclosedText rest.pos), rest)

/-- Takes the next token, if there is one. -/
def next (s : TokenStream) : Except Error (Option Token) × TokenStream :=
  match s.waiting with
  | some t => (.ok (some t), ⟨s.cursor, none⟩)
  | none => ((read s.cursor).1, ⟨(read s.cursor).2, none⟩)

/-- Puts a token back that was just taken. -/
def putBack (s : TokenStream) (t : Token) : TokenStream := ⟨s.cursor, some t⟩

/-- Looks at the next token without taking it. -/
def peek (s : TokenStream) : Except Error (Option Token) × TokenStream :=
  match s.next with
  | (.ok (some t), rest) => (.ok (some t), rest.putBack t)
  | other => other

/-- Are all tokens taken? -/
def atEnd (s : TokenStream) : Except Error Bool × TokenStream :=
  (s.peek.1.map Option.isNone, s.peek.2)

/-- How much is left: the characters, and one for a waiting token. -/
def size (s : TokenStream) : Nat := s.cursor.rest.length + s.waiting.toList.length

theorem size_next_lt {s rest : TokenStream} {t : Token} (h : s.next = (.ok (some t), rest)) :
    rest.size < s.size := by
  unfold next at h
  split at h
  · rename_i w hw
    cases h
    simp [size, hw]
  · rename_i hw
    unfold read at h
    split at h <;>
      simp only [Prod.mk.injEq, Except.ok.injEq, Option.some.injEq, reduceCtorEq, false_and] at h
    rename_i hs
    obtain ⟨_, rfl⟩ := h
    simpa [size, hw] using Cursor.length_rest_scan_lt hs

/-- All tokens of a stream in order, and how it ends. -/
def drain (s : TokenStream) : List Token × Ending :=
  match _h : s.next with
  | (.ok (some t), rest) =>
    match rest.drain with
    | (tokens, ending) => (t :: tokens, ending)
  | (.ok none, rest) => ([], .finished rest.pos)
  | (.error e, _) => ([], .failed e)
termination_by s.size
decreasing_by exact size_next_lt _h

end TokenStream

end ScopeLang
