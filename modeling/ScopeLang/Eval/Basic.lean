import ScopeLang.Scope.Collect
import ScopeLang.Tree.Printer
import ScopeLang.Value

/-!
# The meaning of programs

Evaluation is a recursion in two layers. Within one call it follows the tree; each call of a closure
goes down one level of a supply of calls, which is what the depth limit leaves. Both layers are
structural, so evaluation always ends.

## Main definitions

* `State`, `Action` — what evaluation changes, and a computation that may fail; changes made before a
  failure stay.
* `evalWith` — evaluation of a tree, given what a call of a closure does.
* `callClosure` — what a call of a closure does, given how many nested calls are left.
* `eval` — evaluation under a call depth limit.
-/

namespace ScopeLang

/-- What the host does when one of its functions is called: `ω` is the host's own state. -/
abbrev Host (κ ω : Type) := κ → List (Value κ) → ω → Except Error (Value κ) × ω

/-- What evaluation changes. -/
structure State (κ ω : Type) where
  arena : Arena (Value κ) := .new
  /-- The identity of the next function. -/
  fresh : Nat := 0
  /-- The state of the host. -/
  world : ω

/-- A computation that changes the state and may fail. What was changed before a failure stays
changed. -/
def Action (κ ω α : Type) := State κ ω → Except Error α × State κ ω

namespace Action

variable {κ ω α β : Type}

def fail (e : Error) : Action κ ω α := fun s => (.error e, s)

def ofExcept (r : Except Error α) : Action κ ω α := fun s => (r, s)

def andThen (x : Action κ ω α) (f : α → Action κ ω β) : Action κ ω β := fun s =>
  match x s with
  | (.ok a, s) => f a s
  | (.error e, s) => (.error e, s)

instance : Monad (Action κ ω) where
  pure a := fun s => (.ok a, s)
  bind := andThen

@[simp] theorem pure_apply (a : α) (s : State κ ω) : (pure a : Action κ ω α) s = (.ok a, s) := rfl

theorem bind_apply (x : Action κ ω α) (f : α → Action κ ω β) (s : State κ ω) :
    (x >>= f) s = match x s with
      | (.ok a, s) => f a s
      | (.error e, s) => (.error e, s) := rfl

instance : LawfulMonad (Action κ ω) := by
  refine .mk' _ (fun x => funext fun s => ?id_map) (fun _ _ => rfl)
    fun x f g => funext fun s => ?bind_assoc
  case id_map =>
    change (x >>= pure) s = x s
    rw [bind_apply]
    rcases x s with ⟨_ | a, s⟩ <;> rfl
  case bind_assoc =>
    simp only [bind_apply]
    rcases x s with ⟨_ | a, s⟩ <;> rfl

end Action

/-- How deeply calls of closures are nested, and how deeply they may be. -/
structure CallDepth where
  depth : Nat := 0
  limit : Nat
deriving DecidableEq

namespace CallDepth

/-- The number of further calls that may be nested. -/
def remaining (c : CallDepth) : Nat := c.limit - c.depth

/-- One call deeper. -/
def enter (c : CallDepth) : CallDepth := { c with depth := c.depth + 1 }

/-- One call less deep. -/
def leave (c : CallDepth) : CallDepth := { c with depth := c.depth - 1 }

end CallDepth

namespace Action

variable {κ ω : Type}

/-- The value of a name. -/
def readName (scope : ScopeId) (name : String) : Action κ ω (Value κ) :=
  fun s => (s.arena.get scope name, s)

/-- Assigns a value to a name and gives it back. -/
def assignName (scope : ScopeId) (name : String) (value : Value κ) :
    Action κ ω (Value κ) := fun s =>
  match s.arena.set scope name value with
  | .ok arena => (.ok value, { s with arena })
  | .error e => (.error e, s)

/-- Makes a function from a lambda. -/
def makeClosure (scope : ScopeId) (params : List String) (body : Node) :
    Action κ ω (Value κ) := fun s =>
  (.ok (.closure ⟨s.fresh, params, body, scope⟩),
    { s with arena := s.arena.capture scope, fresh := s.fresh + 1 })

/-- Makes a value from a function of the host. -/
def makeBuiltin (name : String) (key : κ) : Action κ ω (Value κ) := fun s =>
  (.ok (.builtin ⟨s.fresh, name, key⟩), { s with fresh := s.fresh + 1 })

/-- Calls a function of the host. -/
def callHost (host : Host κ ω) (f : HostFunction κ) (args : List (Value κ)) :
    Action κ ω (Value κ) := fun s =>
  match host f.key args s.world with
  | (r, world) => (r, { s with world })

end Action

/-- Binds parameters to arguments in a scope. A missing argument is `false`; surplus ones are
dropped. -/
def bindParams {κ : Type} (arena : Arena (Value κ)) (scope : ScopeId) :
    List String → List (Value κ) → Arena (Value κ)
  | [], _ => arena
  | p :: ps, [] => bindParams (arena.define scope p (.bool false)) scope ps []
  | p :: ps, v :: vs => bindParams (arena.define scope p v) scope ps vs

namespace State

variable {κ ω : Type}

/-- Opens the scope of a call: inside the closure's scope, with the parameters bound. -/
def openCall (f : Closure) (args : List (Value κ)) (s : State κ ω) : ScopeId × State κ ω :=
  match s.arena.extend f.scope with
  | (scope, arena) => (scope, { s with arena := bindParams arena scope f.params args })

/-- Closes the scope of a call that has ended. -/
def closeCall (scope : ScopeId) (s : State κ ω) : State κ ω :=
  { s with arena := s.arena.release scope }

end State

/-- The name that a tree consists of. Only to such trees something can be assigned. -/
def Node.name? : Node → Option String
  | .var x => some x
  | _ => none

section Evaluation

variable {κ ω : Type}

/-- What a call of a closure does. -/
abbrev Caller (κ ω : Type) := Closure → List (Value κ) → Action κ ω (Value κ)

/-- Calls a value. -/
def applyWith (host : Host κ ω) (call : Caller κ ω) (f : Value κ) (args : List (Value κ)) :
    Action κ ω (Value κ) :=
  match f with
  | .closure f => call f args
  | .builtin f => .callHost host f args
  | v => .fail (.notCallable v.describe)

mutual

/-- Evaluates a tree in a scope. Both operands of an operator are evaluated, also of the logical
ones. -/
def evalWith (host : Host κ ω) (call : Caller κ ω) (scope : ScopeId) : Node → Action κ ω (Value κ)
  | .number x => pure (.number x)
  | .text s => pure (.text s)
  | .bool b => pure (.bool b)
  | .var x => .readName scope x
  | .assign target value =>
    match target.name? with
    | some x => do
      let v ← evalWith host call scope value
      .assignName scope x v
    | none => .fail (.invalidTarget target.print)
  | .binary op left right => do
    let a ← evalWith host call scope left
    let b ← evalWith host call scope right
    .ofExcept (op.apply a b)
  | .ifThen test yes => do
    let t ← evalWith host call scope test
    if t.countsAsTrue then evalWith host call scope yes else pure (.bool false)
  | .ifElse test yes no => do
    let t ← evalWith host call scope test
    if t.countsAsTrue then evalWith host call scope yes else evalWith host call scope no
  | .lambda params body => .makeClosure scope params body
  | .call callee args => do
    let f ← evalWith host call scope callee
    let vs ← evalAll host call scope args
    applyWith host call f vs
  | .seq items => evalSeq host call scope (.bool false) items

/-- Evaluates trees one after the other to their values. -/
def evalAll (host : Host κ ω) (call : Caller κ ω) (scope : ScopeId) :
    List Node → Action κ ω (List (Value κ))
  | [] => pure []
  | n :: ns => do
    let v ← evalWith host call scope n
    let vs ← evalAll host call scope ns
    return v :: vs

/-- Evaluates trees one after the other to the value of the last one, or to `last` if there are
none. -/
def evalSeq (host : Host κ ω) (call : Caller κ ω) (scope : ScopeId) (last : Value κ) :
    List Node → Action κ ω (Value κ)
  | [] => pure last
  | n :: ns => do
    let v ← evalWith host call scope n
    evalSeq host call scope v ns

end

/-- Calls a closure when `remaining` more calls may be nested. The scope of the call is closed also
when its body fails. -/
def callClosure (host : Host κ ω) (limit : Nat) : (remaining : Nat) → Caller κ ω
  | 0, _, _ => .fail (.depthExceeded limit)
  | n + 1, f, args => fun s =>
    match s.openCall f args with
    | (scope, s) =>
      match evalWith host (callClosure host limit n) scope f.body s with
      | (r, s) => (r, s.closeCall scope)

/-- Evaluates a tree in a scope, with calls nested no deeper than the limit. -/
def eval (host : Host κ ω) (calls : CallDepth) (scope : ScopeId) (n : Node) :
    Action κ ω (Value κ) :=
  evalWith host (callClosure host calls.limit calls.remaining) scope n

/-- Calls a value with arguments, with calls nested no deeper than the limit. -/
def apply (host : Host κ ω) (calls : CallDepth) (f : Value κ) (args : List (Value κ)) :
    Action κ ω (Value κ) :=
  applyWith host (callClosure host calls.limit calls.remaining) f args

end Evaluation

end ScopeLang
