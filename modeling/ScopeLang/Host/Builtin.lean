import ScopeLang.Eval.Basic
import ScopeLang.Host.Sink
import ScopeLang.Time.Format

/-!
# The functions of the host

Every program can print and log. A host may add functions of its own, which are known by keys of a
type `ε` and work on a state of type `ω`.
-/

namespace ScopeLang

/-- The keys of host functions. -/
inductive Builtin (ε : Type) where
  | print
  | println
  | log (timeFormat : String)
  | extra (key : ε)

/-- What host functions work on. -/
structure World (ω : Type) where
  sink : Sink := {}
  clock : TimeFormat.Clock := fun _ => ""
  extra : ω

/-- What the functions that a host adds do. -/
abbrev Extension (ε ω : Type) :=
  ε → List (Value (Builtin ε)) → ω → Except Error (Value (Builtin ε)) × ω

namespace Builtin

variable {ε ω : Type}

/-- The first argument, which may be missing. -/
def firstArg {κ : Type} (args : List (Value κ)) : Value κ := args.headD (.bool false)

/-- Writes a text; the value of doing so is `false`. -/
def emit (text : String) (w : World ω) : Except Error (Value (Builtin ε)) × World ω :=
  match w.sink.write text with
  | (r, sink) => (r.map fun _ => .bool false, { w with sink })

/-- The line that `log` writes. -/
def logLine (clock : TimeFormat.Clock) (timeFormat text : String) : Except Error String :=
  match TimeFormat.render clock timeFormat with
  | some time => .ok (time ++ " " ++ text ++ "\n")
  | none => .error (.outputFailed ("invalid log time format " ++ Text.quote timeFormat))

/-- What the functions of the host do. -/
def run (extension : Extension ε ω) : Host (Builtin ε) (World ω)
  | .print, args, w => emit (firstArg args).display w
  | .println, args, w => emit ((firstArg args).display ++ "\n") w
  | .log timeFormat, args, w =>
    match logLine w.clock timeFormat (firstArg args).display with
    | .ok line => emit line w
    | .error e => (.error e, w)
  | .extra key, args, w =>
    match extension key args w.extra with
    | (r, state) => (r, { w with extra := state })

end Builtin

end ScopeLang
