import ScopeLang.Eval.Run
import ScopeLang.Host.Builtin
import ScopeLang.Settings.Basic
import ScopeLang.Tree.Parser

/-!
# Sessions

A session evaluates one program after the other in the same root scope. After each evaluation the
scopes that neither the root nor the result reaches are given back.

## Main definitions

* `Session.new` — a session with the standard functions.
* `Session.evaluateNode`, `Session.evaluateText` — evaluates a tree or a source text.
* `Session.define` — adds a function of the host.
-/

namespace ScopeLang

/-- A running session. -/
structure Session (ε ω : Type) where
  settings : Settings
  state : State (Builtin ε) (World ω)

/-- The outcome of evaluating a program. -/
abbrev Outcome (ε : Type) := Except Error (Value (Builtin ε))

namespace State

variable {κ ω : Type}

/-- Binds a name in the root scope to a new host function of that name. -/
def defineBuiltin (name : String) (key : κ) (s : State κ ω) : State κ ω :=
  { s with
    arena := s.arena.define .root name (.builtin ⟨s.fresh, name, key⟩)
    fresh := s.fresh + 1 }

/-- Gives back the scopes that neither the root nor the values reach, and counts them. -/
def collect (values : List (Value κ)) (s : State κ ω) : Nat × State κ ω :=
  match s.arena.collect Value.scope? values with
  | (count, arena) => (count, { s with arena })

end State

namespace Session

variable {ε ω : Type}

/-- A session in which programs can print and log. -/
def new (settings : Settings) (world : World ω) : Session ε ω :=
  let state : State (Builtin ε) (World ω) := { world }
  let state := (state.defineBuiltin "print" .print).defineBuiltin "println" .println
  { settings, state := state.defineBuiltin "log" (.log settings.logTimeFormat) }

/-- The call depth at which every evaluation begins. -/
def calls (s : Session ε ω) : CallDepth := { limit := s.settings.maxCallDepth.toNat }

/-- Makes a function of the host callable by a name. -/
def define (name : String) (key : ε) (s : Session ε ω) : Session ε ω :=
  { s with state := s.state.defineBuiltin name (.extra key) }

/-- Evaluates a tree in the root scope. -/
def evaluateNode (extension : Extension ε ω) (n : Node) (s : Session ε ω) :
    Outcome ε × Session ε ω :=
  match evaluate (Builtin.run extension) s.calls .root n s.state with
  | (.ok v, state) => (.ok v, { s with state := (state.collect [v]).2 })
  | (.error e, state) => (.error e, { s with state := (state.collect []).2 })

/-- Evaluates a source text in the root scope. -/
def evaluateText (extension : Extension ε ω) (source : String) (s : Session ε ω) :
    Outcome ε × Session ε ω :=
  match parse source with
  | .ok n => s.evaluateNode extension n
  | .error e => (.error e, s)

/-- The value of a name in the root scope. -/
def get (name : String) (s : Session ε ω) : Outcome ε := s.state.arena.get .root name

/-- Changes where the session writes. -/
def withSink (f : Sink → Sink) (s : Session ε ω) : Session ε ω :=
  { s with state := { s.state with world := { s.state.world with sink := f s.state.world.sink } } }

/-- Takes out what was written. -/
def drain (s : Session ε ω) : String × Session ε ω :=
  (s.state.world.sink.written, s.withSink fun sink => sink.drain.2)

end Session

end ScopeLang
