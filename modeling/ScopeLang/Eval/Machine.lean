import ScopeLang.Eval.Basic

/-!
# A machine that evaluates

The machine keeps what evaluation still has to do on a stack of its own, so that neither deep trees
nor deep calls need native recursion. It takes one small step at a time and counts nested calls as
it goes.

## Main definitions

* `Machine.step`, `Machine.isDone` — one step, and whether there is none left to take.
* `Machine.Reaches` — a finite number of steps.
-/

namespace ScopeLang

variable {κ ω : Type}

/-- What is done with the value of the tree being evaluated. -/
inductive Frame (κ : Type) where
  /-- It is assigned to a name. -/
  | assign (name : String) (scope : ScopeId)
  /-- It is a left operand; the right one comes next. -/
  | right (op : BinaryOp) (right : Node) (scope : ScopeId)
  /-- It is a right operand. -/
  | operate (op : BinaryOp) (left : Value κ)
  /-- It decides a conditional. -/
  | branch (yes : Node) (no : Option Node) (scope : ScopeId)
  /-- It is a function; the arguments come next. -/
  | callee (args : List Node) (scope : ScopeId)
  /-- It is an argument; those before it come last first. -/
  | arg (f : Value κ) (done : List (Value κ)) (rest : List Node) (scope : ScopeId)
  /-- It is an item of a sequence. -/
  | item (rest : List Node) (scope : ScopeId)
  /-- It is the value of a call, whose scope is closed. -/
  | leave (scope : ScopeId)

/-- What the machine is at. -/
inductive Control (κ : Type) where
  | eval (n : Node) (scope : ScopeId)
  | give (r : Except Error (Value κ))

/-- What evaluation is at, what is still to do, how deep calls are nested, and the state. -/
structure Machine (κ ω : Type) where
  control : Control κ
  frames : List (Frame κ)
  calls : CallDepth
  state : State κ ω

namespace Machine

/-- Performs an action whose outcome is the value that the machine is at. -/
def perform (m : Machine κ ω) (x : Action κ ω (Value κ)) : Machine κ ω :=
  match x m.state with
  | (r, state) => { m with control := .give r, state }

/-- Goes on to evaluate a tree. -/
def visit (m : Machine κ ω) (n : Node) (scope : ScopeId) : Machine κ ω :=
  { m with control := .eval n scope }

/-- Adds something to do with the next value. -/
def push (m : Machine κ ω) (f : Frame κ) : Machine κ ω := { m with frames := f :: m.frames }

/-- Goes on to evaluate the items of a sequence. -/
def visitItems (m : Machine κ ω) (last : Value κ) (items : List Node) (scope : ScopeId) :
    Machine κ ω :=
  match items with
  | [] => m.perform (pure last)
  | n :: ns => (m.push (.item ns scope)).visit n scope

/-- Calls a value. A closure is entered unless calls are nested as deeply as they may be. -/
def call (host : Host κ ω) (m : Machine κ ω) (f : Value κ) (args : List (Value κ)) : Machine κ ω :=
  match f with
  | .closure c =>
    if m.calls.depth < m.calls.limit then
      match m.state.openCall c args with
      | (scope, state) => ⟨.eval c.body scope, .leave scope :: m.frames, m.calls.enter, state⟩
    else m.perform (.fail (.depthExceeded m.calls.limit))
  | .builtin b => m.perform (.callHost host b args)
  | v => m.perform (.fail (.notCallable v.describe))

/-- Goes on to evaluate arguments, or calls the function if there are none left. -/
def visitArgs (host : Host κ ω) (m : Machine κ ω) (f : Value κ) (done : List (Value κ))
    (args : List Node) (scope : ScopeId) : Machine κ ω :=
  match args with
  | [] => m.call host f done.reverse
  | n :: ns => (m.push (.arg f done ns scope)).visit n scope

/-- Begins to evaluate a tree. -/
def begin (m : Machine κ ω) (n : Node) (scope : ScopeId) : Machine κ ω :=
  match n with
  | .number x => m.perform (pure (.number x))
  | .text s => m.perform (pure (.text s))
  | .bool b => m.perform (pure (.bool b))
  | .var x => m.perform (.readName scope x)
  | .assign target value =>
    match target.name? with
    | some x => (m.push (.assign x scope)).visit value scope
    | none => m.perform (.fail (.invalidTarget target.print))
  | .binary op left right => (m.push (.right op right scope)).visit left scope
  | .ifThen test yes => (m.push (.branch yes none scope)).visit test scope
  | .ifElse test yes no => (m.push (.branch yes (some no) scope)).visit test scope
  | .lambda params body => m.perform (.makeClosure scope params body)
  | .call f args => (m.push (.callee args scope)).visit f scope
  | .seq items => m.visitItems (.bool false) items scope

/-- Closes a call. -/
def leaveCall (m : Machine κ ω) (scope : ScopeId) : Machine κ ω :=
  { m with calls := m.calls.leave, state := m.state.closeCall scope }

/-- Uses a value. -/
def useValue (host : Host κ ω) (m : Machine κ ω) (v : Value κ) (f : Frame κ) : Machine κ ω :=
  match f with
  | .assign x scope => m.perform (.assignName scope x v)
  | .right op right scope => (m.push (.operate op v)).visit right scope
  | .operate op left => m.perform (.ofExcept (op.apply left v))
  | .branch yes no scope =>
    if v.countsAsTrue then m.visit yes scope
    else match no with
      | some n => m.visit n scope
      | none => m.perform (pure (.bool false))
  | .callee args scope => m.visitArgs host v [] args scope
  | .arg f done rest scope => m.visitArgs host f (v :: done) rest scope
  | .item rest scope => m.visitItems v rest scope
  | .leave scope => m.leaveCall scope

/-- Gives up what was to be done with a value; only calls are still closed. -/
def dropFrame (m : Machine κ ω) (f : Frame κ) : Machine κ ω :=
  match f with
  | .leave scope => m.leaveCall scope
  | _ => m

/-- Has the machine its result? -/
def isDone (m : Machine κ ω) : Bool :=
  match m.control, m.frames with
  | .give _, [] => true
  | _, _ => false

/-- One step of the machine. When it has its result, nothing changes. -/
def step (host : Host κ ω) (m : Machine κ ω) : Machine κ ω :=
  match m.control with
  | .eval n scope => m.begin n scope
  | .give r =>
    match m.frames with
    | [] => m
    | f :: frames =>
      let m := { m with frames }
      match r with
      | .ok v => m.useValue host v f
      | .error _ => m.dropFrame f

/-- Some number of steps leads from one machine to another. -/
inductive Reaches (host : Host κ ω) : Machine κ ω → Machine κ ω → Prop where
  | refl (m : Machine κ ω) : Reaches host m m
  | step {m m' : Machine κ ω} : m.isDone = false → Reaches host (m.step host) m' → Reaches host m m'

theorem Reaches.trans {host : Host κ ω} {a b c : Machine κ ω} (h : Reaches host a b)
    (h' : Reaches host b c) : Reaches host a c := by
  induction h with
  | refl => exact h'
  | step hd _ ih => exact .step hd (ih h')

end Machine

end ScopeLang
