import Mathlib.Order.Bounds.Defs
import ScopeLang.Proofs.Scope.Layout

/-!
# The course of an arena

A list of arenas is the course of one when from each to the next it changes in one of the known ways.
Then the generation of a slot counts how often the slot was emptied, there are as many slots as there
ever were scopes in use at a time, and slots and free slots are in order at every moment.

## Main definitions

* `Arena.frees` — how often a slot was emptied in the course of an arena.
* `Arena.InOrder` — what is always true of an arena.

## Main statements

* `Arena.generation_getLastD` — a generation counts how often its slot was emptied.
* `Arena.isGreatest_liveCount` — there are as many slots as there were scopes in use when there were
  most.
* `Arena.inOrder_of_isChain` — a course that begins with the root scope keeps the arena in order.
-/

namespace ScopeLang

namespace Arena

variable {ν : Type} {a b : Arena ν} {scopeOf : ν → Option ScopeId} {i : Nat}

/-- How often the slot was emptied between one moment and the next. -/
def frees (i : Nat) : List (Arena ν) → Nat
  | a :: b :: later => (if a.occupied i = true ∧ b.occupied i = false then 1 else 0) +
    frees i (b :: later)
  | _ => 0

section

variable {later : List (Arena ν)} (h : List.IsChain (Move scopeOf) (a :: later))

include h

/-- What each change keeps is kept throughout. -/
theorem tidy_of_mem (ha : a.Tidy) : ∀ b ∈ a :: later, b.Tidy :=
  h.induction Tidy _ (fun _ _ hm => hm.tidy) fun _ => ha

theorem rooted_of_mem (ha : a.Tidy) (hr : a.Rooted) : ∀ b ∈ a :: later, b.Rooted := by
  have both := h.induction (fun b => b.Tidy ∧ b.Rooted) _
    (fun _ _ hm hb => ⟨hm.tidy hb.1, hm.rooted hb.1 hb.2⟩) fun _ => ⟨ha, hr⟩
  exact fun b hb => (both b hb).2

/-- The generation of a slot counts how often it was emptied, starting over when it overflows. -/
theorem generation_getLastD (ha : a.Tidy) (i : Nat) :
    (later.getLastD a).generation i = a.generation i + UInt32.ofNat (frees i (a :: later)) := by
  induction later generalizing a with
  | nil => simp [frees]
  | cons b later ih =>
    obtain ⟨hab, hrest⟩ := List.isChain_cons_cons.1 h
    rw [List.getLastD_cons, ih hrest (hab.tidy ha), hab.generation_eq ha, frees, UInt32.ofNat_add,
      UInt32.add_assoc]
    split <;> rfl

/-- There are as many slots as before, or as many as there were scopes in use at some time since; and
there were never more in use. -/
theorem size_getLastD (ha : a.Tidy) : a.slots.size ≤ (later.getLastD a).slots.size ∧
    (∀ b ∈ later, b.liveCount ≤ (later.getLastD a).slots.size) ∧
    ((later.getLastD a).slots.size = a.slots.size ∨
      ∃ b ∈ later, b.liveCount = (later.getLastD a).slots.size) := by
  induction later generalizing a with
  | nil => simp
  | cons b later ih =>
    obtain ⟨hab, hrest⟩ := List.isChain_cons_cons.1 h
    have hb := hab.tidy ha
    obtain ⟨hle, heq⟩ := hab.size ha
    obtain ⟨grown, bound, reached⟩ := ih hrest hb
    rw [List.getLastD_cons]
    refine ⟨hle.trans grown, List.forall_mem_cons.2 ⟨hb.liveCount_le.trans grown, bound⟩, ?_⟩
    rcases reached with hlast | ⟨c, hc, hlast⟩
    · -- no slot is added after this change, which may itself have added one
      rcases heq with heq | heq
      · exact .inl (hlast.trans heq)
      · exact .inr ⟨b, by simp, heq.trans hlast.symm⟩
    · exact .inr ⟨c, List.mem_cons_of_mem b hc, hlast⟩

/-- If all slots are occupied at first, there are as many slots as there were scopes in use at the
time when there were most. -/
theorem isGreatest_liveCount (ha : a.Tidy) (full : a.liveCount = a.slots.size) :
    IsGreatest { k | ∃ b ∈ a :: later, b.liveCount = k } (later.getLastD a).slots.size := by
  obtain ⟨grown, bound, reached⟩ := size_getLastD h ha
  constructor
  · rcases reached with hlast | ⟨b, hb, hlast⟩
    · exact ⟨a, by simp, full.trans hlast.symm⟩
    · exact ⟨b, List.mem_cons_of_mem a hb, hlast⟩
  · rintro k ⟨b, hb, rfl⟩
    rcases List.mem_cons.1 hb with rfl | hb
    · exact full.trans_le grown
    · exact bound b hb

end

/-- What is always true of an arena, given the arenas before it. -/
structure InOrder (past : List (Arena ν)) (a : Arena ν) : Prop where
  /-- The root scope is in slot 0, in its first generation, and inside no scope. -/
  root : ∃ scope, a.slots[0]? = some ⟨0, some scope⟩ ∧ scope.parent = none
  /-- Every other scope is inside one. -/
  eq_zero_of_parent : ∀ (i : Nat) (slot : Slot ν) (scope : Scope ν), a.slots[i]? = some slot →
    slot.scope = some scope → scope.parent = none → i = 0
  isRoot_iff : ∀ id : ScopeId, a.isRoot id = true ↔ id = .root
  free_nodup : a.free.Nodup
  /-- Exactly the slots without a scope are listed as free. -/
  mem_free_iff : ∀ i : Nat, i ∈ a.free ↔ ∃ slot, a.slots[i]? = some slot ∧ slot.scope = none
  free_lt : ∀ i ∈ a.free, i < a.slots.size
  liveCount_add_free : a.liveCount + a.free.length = a.slots.size
  /-- There are as many slots as there were scopes in use when there were most. -/
  size_isGreatest : IsGreatest { k | ∃ b ∈ past ++ [a], b.liveCount = k } a.slots.size
  /-- A slot is added for a new scope only when none is free. -/
  size_extend : ∀ parent : ScopeId,
    (a.extend parent).2.slots.size = a.slots.size + if a.free = [] then 1 else 0
  /-- A new scope takes no slot that is in use. -/
  slot_extend : ∀ (parent : ScopeId) (i : Nat) (slot : Slot ν), a.slots[i]? = some slot →
    slot.scope ≠ none → (a.extend parent).2.slots[i]? = some slot
  /-- The handle of a new scope leads to it, and is that of no scope in use. -/
  extend_fresh : ∀ parent : ScopeId, (a.extend parent).2.scope? (a.extend parent).1 =
    some { parent := some parent } ∧ ¬ a.Alive (a.extend parent).1

theorem Rooted.slot_zero (h : a.Rooted) :
    ∃ scope, a.slots[0]? = some ⟨0, some scope⟩ ∧ scope.parent = none := by
  obtain ⟨scope, hs, hp⟩ := Option.map_eq_some_iff.1 h.root
  obtain ⟨⟨g, s⟩, hslot, rfl, rfl⟩ := scope?_eq_some_iff.1 hs
  exact ⟨scope, hslot, hp⟩

theorem Rooted.eq_zero_of_parent (h : a.Rooted) {slot : Slot ν} {scope : Scope ν}
    (hslot : a.slots[i]? = some slot) (hs : slot.scope = some scope) (hp : scope.parent = none) :
    i = 0 := by
  have found : a.scope? ⟨i, slot.generation⟩ = some scope :=
    scope?_eq_some_iff.2 ⟨slot, hslot, rfl, hs⟩
  have outer : a.around ⟨i, slot.generation⟩ = some none := by simp [around, found, hp]
  exact congrArg ScopeId.index (h.only outer)

theorem inOrder_of_isGreatest {past : List (Arena ν)} (ha : a.Tidy) (hr : a.Rooted)
    (most : IsGreatest { k | ∃ b ∈ past ++ [a], b.liveCount = k } a.slots.size) :
    a.InOrder past where
  root := hr.slot_zero
  eq_zero_of_parent _ _ _ hslot hs hp := hr.eq_zero_of_parent hslot hs hp
  isRoot_iff id := by
    rw [Arena.isRoot_iff]
    exact ⟨hr.only, fun hid => hid ▸ hr.root⟩
  free_nodup := ha.nodup
  mem_free_iff := ha.mem_free
  free_lt i hi := by
    obtain ⟨slot, hslot, -⟩ := (ha.mem_free i).1 hi
    exact (Array.getElem?_eq_some_iff.1 hslot).1
  liveCount_add_free := ha.liveCount_add_length_free
  size_isGreatest := most
  size_extend := ha.size_extend
  slot_extend parent _ _ := ha.slot_extend parent
  extend_fresh parent := by
    refine ⟨by simp [ha.scope?_extend], ?_⟩
    rw [← scope?_eq_none_iff]
    exact ha.scope?_extend_self parent

/-- A course that begins with the root scope only keeps the arena in order. -/
theorem inOrder_of_isChain {past : List (Arena ν)}
    (chain : List.IsChain (Move scopeOf) (past ++ [a])) (first : (past ++ [a]).head? = some new) :
    InOrder past a := by
  obtain ⟨later, hl⟩ : ∃ later, past ++ [a] = new :: later := by
    cases past with
    | nil => exact ⟨[], by simpa using first⟩
    | cons b past => exact ⟨past ++ [a], by simpa using first⟩
  have last : later.getLastD new = a := by
    have := congrArg List.getLast? hl
    rw [List.getLast?_concat, List.getLast?_cons, ← List.getLastD_eq_getLast?] at this
    exact (Option.some.inj this).symm
  have mem : a ∈ new :: later := hl ▸ List.mem_concat_self
  rw [hl] at chain
  have most := isGreatest_liveCount chain tidy_new rfl
  rw [← hl, last] at most
  exact inOrder_of_isGreatest (tidy_of_mem chain tidy_new a mem)
    (rooted_of_mem chain tidy_new rooted_new a mem) most

end Arena

end ScopeLang
