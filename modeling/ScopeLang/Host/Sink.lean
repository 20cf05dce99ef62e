import ScopeLang.Error

/-!
# Where output goes

A sink keeps what was written to it. It may refuse to take text, or refuse to pass on what it took.
-/

namespace ScopeLang

structure Sink where
  written : String := ""
  /-- Why text is not taken. -/
  writeRefusal : Option String := none
  /-- Why text that was taken is not passed on. -/
  flushRefusal : Option String := none

namespace Sink

/-- Passes on what was taken. -/
def flush (s : Sink) : Except Error Unit :=
  match s.flushRefusal with
  | some why => .error (.outputFailed why)
  | none => .ok ()

/-- Writes a text and passes it on. An empty text cannot be refused. -/
def write (text : String) (s : Sink) : Except Error Unit × Sink :=
  if text.isEmpty then (s.flush, s)
  else
    match s.writeRefusal with
    | some why => (.error (.outputFailed why), s)
    | none => (s.flush, { s with written := s.written ++ text })

/-- Takes out what was written. -/
def drain (s : Sink) : String × Sink := (s.written, { s with written := "" })

end Sink

end ScopeLang
