import Mathlib.Data.List.Nodup
import ScopeLang.Scope.Arena

/-!
# What handles resolve to

Every operation of the arena is described by the scopes that handles resolve to afterwards, so that
no later proof looks into slots. The description of a new scope needs the list of free slots to be
in order.

## Main definitions

* `Arena.Alive` — a handle to a scope in use.
* `Arena.Tidy` — exactly the empty slots are listed as free, each once.
* `Arena.allocate` — opens a scope without using a free slot again.
-/

namespace ScopeLang

namespace Arena

variable {ν : Type} {a : Arena ν}

/-- A handle to a scope in use. -/
def Alive (a : Arena ν) (id : ScopeId) : Prop := ∃ scope, a.scope? id = some scope

theorem scope?_eq_none_iff {id : ScopeId} : a.scope? id = none ↔ ¬ a.Alive id := by
  simp [Alive, Option.eq_none_iff_forall_ne_some]

theorem scope?_eq_some_iff {id : ScopeId} {scope : Scope ν} :
    a.scope? id = some scope ↔ ∃ slot, a.slots[id.index]? = some slot ∧
      slot.generation = id.generation ∧ slot.scope = some scope := by
  unfold scope?
  cases a.slots[id.index]? with
  | none => simp
  | some slot => by_cases hg : slot.generation = id.generation <;> simp [hg]

theorem Alive.index_lt {id : ScopeId} (h : a.Alive id) : id.index < a.slots.size := by
  obtain ⟨scope, hs⟩ := h
  obtain ⟨slot, hslot, -⟩ := scope?_eq_some_iff.1 hs
  exact (Array.getElem?_eq_some_iff.1 hslot).1

/-- Two handles to scopes in the same slot are one handle. -/
theorem Alive.eq_of_index_eq {x y : ScopeId} (hx : a.Alive x) (hy : a.Alive y)
    (h : x.index = y.index) : x = y := by
  obtain ⟨_, hx⟩ := hx
  obtain ⟨_, hy⟩ := hy
  obtain ⟨slot, hslot, hgx, -⟩ := scope?_eq_some_iff.1 hx
  obtain ⟨slot', hslot', hgy, -⟩ := scope?_eq_some_iff.1 hy
  obtain rfl : slot = slot' := by simpa [h, hslot'] using hslot.symm
  obtain ⟨i, g⟩ := x
  obtain ⟨j, g'⟩ := y
  simp_all

/-! ### Changing a scope -/

theorem scope?_update (a : Arena ν) (id x : ScopeId) (f : Scope ν → Scope ν) :
    (a.update id f).scope? x = if x = id then (a.scope? id).map f else a.scope? x := by
  obtain ⟨i, g⟩ := id
  obtain ⟨j, g'⟩ := x
  simp only [scope?, update, Array.getElem?_modify, ScopeId.mk.injEq]
  by_cases hij : i = j
  · subst hij
    cases a.slots[i]? with
    | none => simp
    | some slot => by_cases hg : slot.generation = g <;> by_cases hg' : g' = g <;> grind
  · simp [hij, Ne.symm hij]

@[simp] theorem alive_update {id x : ScopeId} {f : Scope ν → Scope ν} :
    (a.update id f).Alive x ↔ a.Alive x := by
  simp only [Alive, scope?_update]
  split
  · subst x
    cases a.scope? id <;> simp
  · rfl

/-! ### The free slots -/

/-- Exactly the empty slots are listed as free, each once. -/
structure Tidy (a : Arena ν) : Prop where
  nodup : a.free.Nodup
  mem_free : ∀ i, i ∈ a.free ↔ ∃ slot, a.slots[i]? = some slot ∧ slot.scope = none

theorem tidy_new : (new : Arena ν).Tidy where
  nodup := List.nodup_nil
  mem_free i := by cases i <;> simp [new]

/-- Nothing but an empty root scope is in a new arena. -/
theorem eq_of_scope?_new {id : ScopeId} {scope : Scope ν}
    (h : (Arena.new : Arena ν).scope? id = some scope) : id = .root ∧ scope = {} := by
  obtain ⟨slot, hslot, hg, hscope⟩ := scope?_eq_some_iff.1 h
  obtain ⟨i, g⟩ := id
  cases i with
  | zero => simp_all [Arena.new, ScopeId.root]; grind
  | succ i => simp [Arena.new] at hslot

theorem Tidy.update (h : a.Tidy) (id : ScopeId) (f : Scope ν → Scope ν) : (a.update id f).Tidy where
  nodup := h.nodup
  mem_free i := by
    refine (h.mem_free i).trans ?_
    simp only [Arena.update, Array.getElem?_modify]
    by_cases hi : id.index = i
    · cases a.slots[i]? with
      | none => simp [hi]
      | some slot => by_cases hg : slot.generation = id.generation <;> simp [hi, hg]
    · simp [hi]

/-! ### Opening a scope -/

/-- Opens a scope in a slot of its own, whatever slots are free. -/
def allocate (a : Arena ν) (parent : ScopeId) : ScopeId × Arena ν :=
  (⟨a.slots.size, 0⟩, { a with slots := a.slots.push { scope := some { parent := some parent } } })

theorem scope?_allocate_self (a : Arena ν) (parent : ScopeId) :
    a.scope? (a.allocate parent).1 = none := by
  simp [allocate, scope?]

theorem scope?_allocate (a : Arena ν) (parent x : ScopeId) :
    (a.allocate parent).2.scope? x =
      if x = (a.allocate parent).1 then some { parent := some parent } else a.scope? x := by
  obtain ⟨j, g⟩ := x
  simp only [allocate, scope?, Array.getElem?_push, ScopeId.mk.injEq]
  by_cases hj : j = a.slots.size
  · subst hj
    by_cases hg : g = 0
    · simp [hg]
    · simp [hg, Ne.symm hg]
  · simp [hj]

/-- Opening a scope takes an empty slot, or else adds one. -/
theorem Tidy.extend_cases (h : a.Tidy) (parent : ScopeId) :
    (∃ i free slot, a.free = i :: free ∧ a.slots[i]? = some slot ∧ slot.scope = none ∧
      a.extend parent = (⟨i, slot.generation⟩, { free, slots := a.slots.modify i fun slot =>
        { slot with scope := some { parent := some parent } } })) ∨
    (a.free = [] ∧ a.extend parent = a.allocate parent) := by
  unfold extend
  cases hf : a.free with
  | nil => exact .inr ⟨rfl, by simp [allocate, hf]⟩
  | cons i free =>
    obtain ⟨slot, hslot, hnone⟩ := (h.mem_free i).1 (by simp [hf])
    exact .inl ⟨i, free, slot, rfl, hslot, hnone, by simp [hslot]⟩

/-- A new scope does not have the handle of a scope in use. -/
theorem Tidy.scope?_extend_self (h : a.Tidy) (parent : ScopeId) :
    a.scope? (a.extend parent).1 = none := by
  rcases h.extend_cases parent with ⟨i, free, slot, -, hslot, hnone, he⟩ | ⟨-, he⟩
  · simp [he, scope?, hslot, hnone]
  · rw [he, scope?_allocate_self]

/-- Opening a scope adds an empty one inside the given one and changes no other. -/
theorem Tidy.scope?_extend (h : a.Tidy) (parent x : ScopeId) :
    (a.extend parent).2.scope? x =
      if x = (a.extend parent).1 then some { parent := some parent } else a.scope? x := by
  rcases h.extend_cases parent with ⟨i, free, slot, -, hslot, hnone, he⟩ | ⟨-, he⟩
  · obtain ⟨j, g⟩ := x
    simp only [he, scope?, Array.getElem?_modify, ScopeId.mk.injEq]
    by_cases hij : i = j
    · subst hij
      by_cases hg : g = slot.generation
      · simp [hslot, hg]
      · simp [hslot, hg, Ne.symm hg]
    · simp [hij, Ne.symm hij]
  · rw [he, scope?_allocate]

/-- A scope that is in use after opening one was so before, or is the new one. -/
theorem Tidy.scope?_of_extend (h : a.Tidy) {parent x : ScopeId} {scope : Scope ν}
    (hs : (a.extend parent).2.scope? x = some scope) :
    a.scope? x = some scope ∨ x = (a.extend parent).1 ∧ scope = { parent := some parent } := by
  rw [h.scope?_extend] at hs
  split at hs
  · exact .inr ⟨‹_›, (Option.some.inj hs).symm⟩
  · exact .inl hs

theorem Tidy.extend (h : a.Tidy) (parent : ScopeId) : (a.extend parent).2.Tidy := by
  rcases h.extend_cases parent with ⟨i, free, slot, hf, hslot, hnone, he⟩ | ⟨-, he⟩
  · have hnodup := h.nodup
    rw [hf, List.nodup_cons] at hnodup
    rw [he]
    refine ⟨hnodup.2, fun j => ?_⟩
    have hj := h.mem_free j
    simp only [hf, List.mem_cons] at hj
    simp only [Array.getElem?_modify]
    by_cases hij : i = j
    · subst hij
      simp [hnodup.1, hslot]
    · simpa [hij, Ne.symm hij] using hj
  · rw [he]
    refine ⟨h.nodup, fun j => (h.mem_free j).trans ?_⟩
    simp only [allocate, Array.getElem?_push]
    by_cases hj : j = a.slots.size <;> simp [hj]

/-! ### Closing a scope -/

theorem scope?_vacate (a : Arena ν) (i : Nat) (x : ScopeId) :
    (a.vacate i).scope? x = if x.index = i then none else a.scope? x := by
  obtain ⟨j, g⟩ := x
  simp only [scope?, vacate, Array.getElem?_modify]
  by_cases hij : i = j
  · subst hij
    cases a.slots[i]? <;> simp
  · simp [hij, Ne.symm hij]

theorem Tidy.vacate (h : a.Tidy) {i : Nat} {slot : Slot ν} (hs : a.slots[i]? = some slot)
    (used : slot.scope.isSome) : (a.vacate i).Tidy where
  nodup := by
    refine List.nodup_cons.2 ⟨fun hi => ?_, h.nodup⟩
    obtain ⟨slot', hs', hnone⟩ := (h.mem_free i).1 hi
    simp [hs, Option.some.injEq] at hs'
    simp [← hs', Option.isSome_iff_ne_none.1 used] at hnone
  mem_free j := by
    have hj := h.mem_free j
    simp only [Arena.vacate, List.mem_cons, Array.getElem?_modify]
    by_cases hij : i = j
    · subst hij
      simp [hs]
    · simpa [hij, Ne.symm hij] using hj

/-- Closing a scope changes nothing, or empties the slot of a scope that is neither captured nor the
outermost. -/
theorem release_cases (a : Arena ν) (id : ScopeId) :
    a.release id = a ∨ ∃ scope, a.scope? id = some scope ∧ scope.captured = false ∧
      scope.parent ≠ none ∧ a.release id = a.vacate id.index := by
  unfold release
  cases hs : a.scope? id with
  | none => exact .inl rfl
  | some scope => by_cases h : scope.captured || scope.parent.isNone <;> grind

theorem Tidy.release (h : a.Tidy) (id : ScopeId) : (a.release id).Tidy := by
  rcases a.release_cases id with he | ⟨scope, hs, -, -, he⟩
  · rwa [he]
  · obtain ⟨slot, hslot, -, hscope⟩ := scope?_eq_some_iff.1 hs
    rw [he]
    exact h.vacate hslot (by simp [hscope])

end Arena

end ScopeLang
