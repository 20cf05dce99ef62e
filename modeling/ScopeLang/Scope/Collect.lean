import ScopeLang.Scope.Arena

/-!
# Giving back scopes that nothing reaches

A scope is reached from the root or from given values through parents and through functions that are
bound to names. Every other scope is freed. Marking visits each scope once, so cycles of functions
and scopes do no harm.
-/

namespace ScopeLang.Arena

variable {ν : Type}

/-- The scopes that a scope leads to directly; `scopeOf` gives the scope that a value holds. -/
def successors (scopeOf : ν → Option ScopeId) (scope : Scope ν) : List ScopeId :=
  scope.parent.toList ++ scope.bindings.filterMap fun b => scopeOf b.2

/-- Setting a mark leaves fewer unmarked slots. -/
theorem count_false_set_lt {marked : Array Bool} {i : Nat} (h : marked[i]? = some false) :
    (marked.setIfInBounds i true).count false < marked.count false := by
  obtain ⟨hi, hv⟩ := Array.getElem?_eq_some_iff.1 h
  have mem : false ∈ marked := hv ▸ Array.getElem_mem hi
  have pos : 0 < marked.count false := Array.count_pos_iff.2 mem
  simp [Array.setIfInBounds, hi, Array.count_set, hv]
  omega

/-- The first pending scope that is in use and not marked, and the scopes pending behind it. -/
def nextUnmarked (a : Arena ν) (marked : Array Bool) :
    List ScopeId → Option (ScopeId × Scope ν × List ScopeId)
  | [] => none
  | id :: pending =>
    match a.scope? id, marked[id.index]? with
    | some scope, some false => some (id, scope, pending)
    | _, _ => a.nextUnmarked marked pending

theorem unmarked_of_nextUnmarked {a : Arena ν} {marked : Array Bool} {pending rest : List ScopeId}
    {id : ScopeId} {scope : Scope ν} (h : a.nextUnmarked marked pending = some (id, scope, rest)) :
    marked[id.index]? = some false := by
  induction pending with
  | nil => simp [nextUnmarked] at h
  | cons first pending ih =>
    unfold nextUnmarked at h
    split at h
    · rename_i hm
      simp only [Option.some.injEq, Prod.mk.injEq] at h
      exact h.1 ▸ hm
    · exact ih h

/-- Marks the slots of all scopes that are reached from the pending ones. -/
def mark (scopeOf : ν → Option ScopeId) (a : Arena ν) (pending : List ScopeId)
    (marked : Array Bool) : Array Bool :=
  match _h : a.nextUnmarked marked pending with
  | none => marked
  | some (id, scope, rest) =>
    a.mark scopeOf (successors scopeOf scope ++ rest) (marked.setIfInBounds id.index true)
termination_by marked.count false
decreasing_by exact count_false_set_lt (unmarked_of_nextUnmarked _h)

/-- The slots of the scopes that neither the root nor a value reaches, in ascending order. -/
def unreached (scopeOf : ν → Option ScopeId) (a : Arena ν) (values : List ν) : List Nat :=
  let marked := a.mark scopeOf (.root :: values.filterMap scopeOf) (.replicate a.slots.size false)
  (List.range a.slots.size).filter fun i =>
    (a.slots[i]?).any (fun slot => slot.scope.isSome) && marked[i]? == some false

/-- Frees all scopes that neither the root nor a value reaches, and counts them. -/
def collect (scopeOf : ν → Option ScopeId) (a : Arena ν) (values : List ν) : Nat × Arena ν :=
  let indices := a.unreached scopeOf values
  (indices.length, indices.foldl vacate a)

end ScopeLang.Arena
