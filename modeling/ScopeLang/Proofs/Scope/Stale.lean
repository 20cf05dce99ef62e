import ScopeLang.Proofs.Scope.Course
import ScopeLang.Proofs.Scope.Names

/-!
# Stale handles

A handle goes stale when the slot of its scope is emptied, and it stays so, whatever else comes to
live in the slot, until the generation of the slot has gone through all its values. No name is seen
from a stale handle, and nothing can be changed through it. What is inside a stale scope sees only
its own names.

## Main definitions

* `Arena.Inert` — a handle through which nothing is seen or changed.
* `Arena.Binds` — a scope inside another one that binds exactly the given names.

## Main statements

* `Arena.inert_of_not_alive` — stale handles are such.
* `Arena.alive_getLastD_iff` — when a handle leads to a scope in the course of a history.
* `Arena.Binds.lookup` — what is seen from a scope inside a stale one.
-/

namespace ScopeLang

namespace Arena

variable {ν : Type} {a b : Arena ν} {id x parent : ScopeId} {name : String} {value : ν}
  {names : List String} {i : Nat}

/-! ### What a stale handle does -/

section

variable (h : ¬ a.Alive id)

include h

theorem lookup_of_not_alive (name : String) : a.lookup id name = none := by
  have stale := scope?_eq_none_iff.2 h
  unfold lookup
  cases a.slots.size with
  | zero => rfl
  | succ n => simp [lookupWithin, stale]

theorem get_of_not_alive (name : String) : a.get id name = .error (.undefinedVariable name) := by
  simp [get, lookup_of_not_alive h]

theorem set_of_not_alive (name : String) (value : ν) :
    a.set id name value = .error (.undefinedVariable name) := by
  simp [set, lookup_of_not_alive h, isRoot, scope?_eq_none_iff.2 h]

theorem parent?_of_not_alive : a.parent? id = none := by
  simp [parent?, scope?_eq_none_iff.2 h]

theorem update_of_not_alive (f : Scope ν → Scope ν) : a.update id f = a := by
  have same : a.slots.modify id.index (fun slot => if slot.generation = id.generation then
      { slot with scope := slot.scope.map f } else slot) = a.slots := by
    refine Array.ext_getElem? fun i => ?_
    rw [Array.getElem?_modify]
    split
    · subst i
      cases hslot : a.slots[id.index]? with
      | none => rfl
      | some slot =>
        obtain ⟨g, scope⟩ := slot
        by_cases hg : g = id.generation
        · have empty : scope = none := by
            have := scope?_eq_none_iff.2 h
            simpa [scope?, hslot, hg] using this
          simp [hg, empty]
        · simp [hg]
    · rfl
  rw [update, same]

theorem define_of_not_alive (name : String) (value : ν) : a.define id name value = a :=
  update_of_not_alive h _

end

/-- Nothing is seen and nothing is changed through the handle. -/
structure Inert (a : Arena ν) (id : ScopeId) : Prop where
  get : ∀ name : String, a.get id name = .error (.undefinedVariable name)
  set : ∀ (name : String) (value : ν), a.set id name value = .error (.undefinedVariable name)
  define : ∀ (name : String) (value : ν), a.define id name value = a
  parent : a.parent? id = none

theorem inert_of_not_alive (h : ¬ a.Alive id) : a.Inert id where
  get := get_of_not_alive h
  set := set_of_not_alive h
  define := define_of_not_alive h
  parent := parent?_of_not_alive h

/-! ### When a handle is stale -/

section

variable {scopeOf : ν → Option ScopeId} {later : List (Arena ν)}

/-- A handle leads to a scope when its slot is occupied and has been through all generations a whole
number of times. -/
theorem alive_getLastD_iff (h : List.IsChain (Move scopeOf) (a :: later)) (ha : a.Tidy)
    (issued : a.Alive id) : (later.getLastD a).Alive id ↔
      (later.getLastD a).occupied id.index = true ∧ 2 ^ 32 ∣ frees id.index (a :: later) := by
  have same : (later.getLastD a).generation id.index = id.generation ↔
      2 ^ 32 ∣ frees id.index (a :: later) := by
    rw [generation_getLastD h ha, (alive_iff.1 issued).2, ← UInt32.toNat_inj, UInt32.toNat_add,
      UInt32.toNat_ofNat']
    have := id.generation.toNat_lt
    omega
  rw [alive_iff, same]

theorem not_alive_getLastD (h : List.IsChain (Move scopeOf) (a :: later)) (ha : a.Tidy)
    (issued : a.Alive id) (freed : 0 < frees id.index (a :: later))
    (few : frees id.index (a :: later) < 2 ^ 32) : ¬ (later.getLastD a).Alive id := by
  rw [alive_getLastD_iff h ha issued]
  rintro ⟨-, hdvd⟩
  exact (Nat.le_of_dvd freed hdvd).not_gt few

theorem frees_le_append (i : Nat) (l l' : List (Arena ν)) : frees i l ≤ frees i (l ++ l') := by
  induction l with
  | nil => exact Nat.zero_le _
  | cons a l ih =>
    cases l with
    | nil => exact Nat.zero_le _
    | cons b l => exact Nat.add_le_add_left ih _

/-- A stale handle stays stale while the history goes on. -/
theorem not_alive_append (h : List.IsChain (Move scopeOf) (a :: later)) (ha : a.Tidy)
    (issued : a.Alive id) (freed : 0 < frees id.index (a :: later)) {run : List (Arena ν)}
    (hrun : List.IsChain (Move scopeOf) (run ++ [b]))
    (link : ∀ c ∈ (run ++ [b]).head?, Move scopeOf (later.getLastD a) c)
    (few : frees id.index (a :: later ++ (run ++ [b])) < 2 ^ 32) : ¬ b.Alive id := by
  have chain : List.IsChain (Move scopeOf) (a :: (later ++ (run ++ [b]))) := by
    refine List.IsChain.append h hrun fun x hx y hy => ?_
    rw [List.getLast?_cons, ← List.getLastD_eq_getLast?] at hx
    exact Option.some.inj hx ▸ link y hy
  have last : (later ++ (run ++ [b])).getLastD a = b := by simp [List.getLastD_eq_getLast?]
  rw [← last]
  exact not_alive_getLastD chain ha issued (freed.trans_le (frees_le_append _ (a :: later) _)) few

/-- No slot is emptied when those in use stay so. -/
theorem frees_concat (keep : (later.getLastD a).occupied i = true → b.occupied i = true) :
    frees i (a :: later ++ [b]) = frees i (a :: later) := by
  induction later generalizing a with
  | nil => simpa [frees] using keep
  | cons c later ih =>
    rw [List.getLastD_cons] at keep
    rw [List.cons_append, List.cons_append, frees, ← List.cons_append, ih keep, frees]

end

/-! ### The names that a scope binds -/

/-- The scope is in use, inside the given one, and binds exactly the given names. -/
def Binds (a : Arena ν) (x parent : ScopeId) (names : List String) : Prop :=
  ∃ scope, a.scope? x = some scope ∧ scope.parent = some parent ∧
    ∀ name, scope.bindings.binds name = true ↔ name ∈ names

namespace Binds

theorem alive (h : a.Binds x parent names) : a.Alive x := by
  obtain ⟨scope, hs, -⟩ := h
  exact ⟨scope, hs⟩

theorem congr {names' : List String} (h : a.Binds x parent names)
    (same : ∀ name, name ∈ names' ↔ name ∈ names) : a.Binds x parent names' := by
  obtain ⟨scope, hs, hp, hb⟩ := h
  exact ⟨scope, hs, hp, fun name => (hb name).trans (same name).symm⟩

/-- A scope just opened binds nothing. -/
theorem extend_self (h : a.Tidy) (parent : ScopeId) :
    (a.extend parent).2.Binds (a.extend parent).1 parent [] :=
  ⟨{ parent := some parent }, by simp [h.scope?_extend], rfl, by simp [Bindings.binds, Bindings.get?]⟩

theorem define_self (h : a.Binds x parent names) (name : String) (value : ν) :
    (a.define x name value).Binds x parent (name :: names) := by
  obtain ⟨scope, hs, hp, hb⟩ := h
  refine ⟨{ scope with bindings := scope.bindings.insert name value },
    by simp [define, scope?_update, hs], hp, fun other => ?_⟩
  rw [binds_insert, hb, List.mem_cons]

/-- A scope that keeps its names binds the same ones. -/
theorem of_keepsNames (h : a.Binds x parent names) (kept : a.KeepsNames b x) :
    b.Binds x parent names := by
  obtain ⟨scope, hs, hp, hb⟩ := h
  obtain ⟨scope₀, scope', hs₀, hs', keeps⟩ := kept
  obtain rfl := Option.some.inj (hs.symm.trans hs₀)
  refine ⟨scope', hs', keeps.parent.trans hp, fun name => ?_⟩
  rw [← hb name]
  exact ⟨keeps.only (by simp [hp]) name, keeps.names name⟩

end Binds

/-- From a scope inside a stale one, exactly its own names are seen. -/
theorem Binds.lookup (h : a.Binds x parent names) (stale : ¬ a.Alive parent) (name : String) :
    a.lookup x name = if name ∈ names then some x else none := by
  have some_slot : ∃ n, a.slots.size = n + 1 := ⟨a.slots.size - 1, by have := h.alive.index_lt; omega⟩
  obtain ⟨n, hn⟩ := some_slot
  obtain ⟨scope, hs, hp, hb⟩ := h
  have outward : a.lookupWithin name n parent = none := by
    cases n with
    | zero => rfl
    | succ n => simp [lookupWithin, scope?_eq_none_iff.2 stale]
  simp only [Arena.lookup, hn, lookupWithin, hs, hp, outward, hb]

end Arena

end ScopeLang
