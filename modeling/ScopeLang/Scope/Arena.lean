import ScopeLang.Error
import ScopeLang.Scope.Bindings

/-!
# The arena of scopes

All scopes live in numbered slots and refer to each other by handles. A handle holds the generation
of its slot at the time it was issued; freeing a slot raises the generation, so that old handles
resolve to nothing although the slot is used again. The root scope is in slot 0 and is never freed.

## Main definitions

* `Arena.extend`, `Arena.release` — make a scope inside another one; give it back when nothing was
  created in it.
* `Arena.lookup`, `Arena.get`, `Arena.set`, `Arena.define` — names as seen from a scope.
-/

namespace ScopeLang

/-- A handle to a scope. -/
structure ScopeId where
  index : Nat
  generation : UInt32
deriving DecidableEq

namespace ScopeId

def root : ScopeId := ⟨0, 0⟩

def text (id : ScopeId) : String :=
  "ScopeId \x7b index: " ++ toString id.index ++ ", generation: " ++
    toString id.generation.toNat ++ " \x7d"

end ScopeId

/-- A scope: its own names, the scope around it, and whether a function was created in it. -/
structure Scope (ν : Type) where
  bindings : Bindings ν := []
  parent : Option ScopeId := none
  captured : Bool := false

/-- A place for a scope. -/
structure Slot (ν : Type) where
  generation : UInt32 := 0
  scope : Option (Scope ν)

/-- The slots, and the numbers of the empty ones, the last freed first. -/
structure Arena (ν : Type) where
  slots : Array (Slot ν)
  free : List Nat := []

namespace Arena

variable {ν : Type}

/-- An arena with the root scope only. -/
def new : Arena ν := { slots := #[{ scope := some {} }] }

/-- The scope behind a handle, unless it was freed. -/
def scope? (a : Arena ν) (id : ScopeId) : Option (Scope ν) :=
  match a.slots[id.index]? with
  | some slot => if slot.generation = id.generation then slot.scope else none
  | none => none

/-- Changes the scope behind a handle, unless it was freed. -/
def update (a : Arena ν) (id : ScopeId) (f : Scope ν → Scope ν) : Arena ν :=
  { a with slots := a.slots.modify id.index fun slot =>
      if slot.generation = id.generation then { slot with scope := slot.scope.map f } else slot }

/-- Makes an empty scope inside `parent`, in the slot freed last or else in a new one. -/
def extend (a : Arena ν) (parent : ScopeId) : ScopeId × Arena ν :=
  let scope : Scope ν := { parent := some parent }
  match a.free with
  | i :: free =>
    (⟨i, (a.slots[i]?).elim 0 Slot.generation⟩,
      { slots := a.slots.modify i fun slot => { slot with scope := some scope }, free })
  | [] => (⟨a.slots.size, 0⟩, { a with slots := a.slots.push { scope := some scope } })

def parent? (a : Arena ν) (id : ScopeId) : Option ScopeId := (a.scope? id).bind Scope.parent

/-- Is this a handle to the scope around all others? -/
def isRoot (a : Arena ν) (id : ScopeId) : Bool := (a.scope? id).any fun scope => scope.parent.isNone

/-- Looks for a name in `id` and up to `steps - 1` scopes around it. -/
def lookupWithin (a : Arena ν) (name : String) : (steps : Nat) → (id : ScopeId) → Option ScopeId
  | 0, _ => none
  | steps + 1, id =>
    match a.scope? id with
    | none => none
    | some scope =>
      if scope.bindings.binds name then some id
      else
        match scope.parent with
        | none => none
        | some parent => a.lookupWithin name steps parent

/-- The innermost scope at or around `id` that binds the name. A freed scope on the way hides
everything around it. A way outward that ends visits no slot twice, so as many steps as there are
slots are enough. A search never ends where the way comes back to a scope and no scope on it binds the
name; `none` stands for this, too. The way comes back only if a scope was made inside a handle of
another arena, or if a slot was freed 2³² times, so that its generations started over. -/
def lookup (a : Arena ν) (id : ScopeId) (name : String) : Option ScopeId :=
  a.lookupWithin name a.slots.size id

/-- The value of a name as seen from a scope. -/
def get (a : Arena ν) (id : ScopeId) (name : String) : Except Error ν :=
  match (a.lookup id name).bind a.scope? |>.bind fun scope => scope.bindings.get? name with
  | some value => .ok value
  | none => .error (.undefinedVariable name)

/-- Binds a name in a scope itself; nothing happens to a freed scope. -/
def define (a : Arena ν) (id : ScopeId) (name : String) (value : ν) : Arena ν :=
  a.update id fun scope => { scope with bindings := scope.bindings.insert name value }

/-- Changes the binding of a name that is seen from a scope. Only in the root scope a new name comes
into being this way. -/
def set (a : Arena ν) (id : ScopeId) (name : String) (value : ν) : Except Error (Arena ν) :=
  match a.lookup id name with
  | some target => .ok (a.define target name value)
  | none => if a.isRoot id then .ok (a.define id name value) else .error (.undefinedVariable name)

/-- Notes that a function was created in a scope. -/
def capture (a : Arena ν) (id : ScopeId) : Arena ν :=
  a.update id fun scope => { scope with captured := true }

/-- Empties a slot. -/
def vacate (a : Arena ν) (index : Nat) : Arena ν :=
  { slots := a.slots.modify index fun slot => { generation := slot.generation + 1, scope := none }
    free := index :: a.free }

/-- Gives back the scope of a finished call, unless a function was created in it. The root is kept.
-/
def release (a : Arena ν) (id : ScopeId) : Arena ν :=
  match a.scope? id with
  | some scope => if scope.captured || scope.parent.isNone then a else a.vacate id.index
  | none => a

/-- The number of scopes in use. -/
def liveCount (a : Arena ν) : Nat := a.slots.countP fun slot => slot.scope.isSome

/-- A scope's names in order, behind the number of its slot. -/
def scopeText (index : Nat) (scope : Scope ν) : String :=
  let names := scope.bindings.names.mergeSort fun a b => a ≤ b
  toString index ++ "[" ++ String.intercalate ", " names ++ "]"

/-- All scopes in use with their names. -/
def text (a : Arena ν) : String :=
  let scopes := a.slots.toList.zipIdx.filterMap fun (slot, i) => slot.scope.map (scopeText i)
  "Environment \x7b " ++ String.intercalate " " scopes ++ " \x7d"

end Arena

end ScopeLang
