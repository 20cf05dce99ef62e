import Mathlib.Data.Set.Card
import ScopeLang.Proofs.Scope.Issued

/-!
# Counting scopes

A slot is occupied when there is a scope in it. Counting the occupied slots is counting the handles
that lead to scopes in use, and in an orderly arena the slots that are not occupied are those in the
list of free ones.

## Main definitions

* `Arena.occupied` — whether there is a scope in a slot.

## Main statements

* `Arena.alive_iff` — when a handle leads to a scope.
* `Arena.Tidy.liveCount_add_length_free` — all slots are accounted for.
* `Arena.liveCount_eq_ncard` — scopes in use are counted by their handles.
-/

namespace ScopeLang

namespace Arena

variable {ν : Type} {a : Arena ν} {i : Nat} {id : ScopeId}

/-- Is there a scope in the slot? -/
def occupied (a : Arena ν) (i : Nat) : Bool := (a.slots[i]?).any fun slot => slot.scope.isSome

theorem occupied_iff : a.occupied i = true ↔
    ∃ slot scope, a.slots[i]? = some slot ∧ slot.scope = some scope := by
  simp [occupied, Option.any_eq_true, Option.isSome_iff_exists]

theorem occupied_of_slot {slot : Slot ν} (h : a.slots[i]? = some slot) :
    a.occupied i = slot.scope.isSome := by
  simp [occupied, h]

theorem lt_of_occupied (h : a.occupied i = true) : i < a.slots.size := by
  obtain ⟨slot, -, hslot, -⟩ := occupied_iff.1 h
  exact (Array.getElem?_eq_some_iff.1 hslot).1

/-- A handle leads to a scope when there is one in its slot and the slot is still in the generation
of the handle. -/
theorem alive_iff :
    a.Alive id ↔ a.occupied id.index = true ∧ a.generation id.index = id.generation := by
  simp only [Alive, scope?_eq_some_iff, occupied_iff, generation]
  constructor
  · rintro ⟨scope, slot, hslot, hg, hs⟩
    exact ⟨⟨slot, scope, hslot, hs⟩, by simpa [hslot] using hg⟩
  · rintro ⟨⟨slot, scope, hslot, hs⟩, hg⟩
    exact ⟨scope, slot, hslot, by simpa [hslot] using hg, hs⟩

/-- The handle of the scope in an occupied slot. -/
theorem alive_of_occupied (h : a.occupied i = true) : a.Alive ⟨i, a.generation i⟩ :=
  alive_iff.2 ⟨h, rfl⟩

theorem exists_alive_iff : (∃ id : ScopeId, id.index = i ∧ a.Alive id) ↔ a.occupied i = true := by
  constructor
  · rintro ⟨id, rfl, hid⟩
    exact (alive_iff.1 hid).1
  · exact fun h => ⟨_, rfl, alive_of_occupied h⟩

/-! ### Accounting for all slots -/

/-- Counting the items of a list is counting their positions. -/
theorem countP_range_getElem? {α : Type} (p : α → Bool) (l : List α) :
    (List.range l.length).countP (fun i => (l[i]?).any p) = l.countP p := by
  induction l with
  | nil => rfl
  | cons x l ih =>
    rw [List.length_cons, List.range_succ_eq_map, List.countP_cons, List.countP_map,
      List.countP_cons, ← ih]
    rfl

theorem liveCount_eq_countP : a.liveCount = (List.range a.slots.size).countP a.occupied := by
  have := countP_range_getElem? (fun slot => slot.scope.isSome) a.slots.toList
  simp only [Array.length_toList, Array.getElem?_toList, Array.countP_toList] at this
  exact this.symm

/-- Every slot is occupied or listed as free. -/
theorem Tidy.liveCount_add_length_free (h : a.Tidy) :
    a.liveCount + a.free.length = a.slots.size := by
  have same : a.free.Perm ((List.range a.slots.size).filter fun i => decide ¬ a.occupied i) := by
    refine (List.perm_ext_iff_of_nodup h.nodup (List.nodup_range.filter _)).2 fun i => ?_
    rw [h.mem_free]
    constructor
    · rintro ⟨slot, hslot, hnone⟩
      have hi : i < a.slots.size := (Array.getElem?_eq_some_iff.1 hslot).1
      simp [hi, occupied_of_slot hslot, hnone]
    · intro hi
      obtain ⟨hi, hfree⟩ : i < a.slots.size ∧ a.occupied i = false := by simpa using hi
      have hslot : a.slots[i]? = some a.slots[i] := Array.getElem?_eq_getElem hi
      exact ⟨_, hslot, by simpa [occupied_of_slot hslot] using hfree⟩
  calc
    a.liveCount + a.free.length
      = (List.range a.slots.size).countP a.occupied +
          (List.range a.slots.size).countP (fun i => decide ¬ a.occupied i) := by
        rw [liveCount_eq_countP, same.length_eq, List.countP_eq_length_filter (l := List.range _)
          (p := fun i => decide ¬ a.occupied i)]
    _ = (List.range a.slots.size).length := (List.length_eq_countP_add_countP a.occupied).symm
    _ = a.slots.size := List.length_range

theorem Tidy.liveCount_le (h : a.Tidy) : a.liveCount ≤ a.slots.size := by
  have := h.liveCount_add_length_free
  omega

/-! ### Counting handles -/

/-- Scopes in use are as many as their slots. -/
theorem ncard_eq_length {ids : Set ScopeId} (alive : ∀ x ∈ ids, a.Alive x) {indices : List Nat}
    (distinct : indices.Nodup) (slots : ∀ i, i ∈ indices ↔ ∃ x ∈ ids, x.index = i) :
    ids.ncard = indices.length := by
  have apart : Set.InjOn ScopeId.index ids :=
    fun x hx y hy hxy => Alive.eq_of_index_eq (alive x hx) (alive y hy) hxy
  have image : ScopeId.index '' ids = indices.toFinset := by
    ext i
    simp [slots]
  rw [← apart.ncard_image, image, Set.ncard_coe_finset, List.toFinset_card_of_nodup distinct]

/-- The scopes in use are as many as the handles that lead to them. -/
theorem liveCount_eq_ncard (a : Arena ν) : a.liveCount = { id | a.Alive id }.ncard := by
  have alive : ∀ x ∈ { id | a.Alive id }, a.Alive x := fun _ hx => hx
  have slots (i : Nat) : i ∈ (List.range a.slots.size).filter a.occupied ↔
      ∃ x ∈ { id | a.Alive id }, x.index = i := by
    have hi := exists_alive_iff (a := a) (i := i)
    have := lt_of_occupied (a := a) (i := i)
    simp only [List.mem_filter, List.mem_range, Set.mem_ofPred_eq]
    grind
  rw [ncard_eq_length alive (List.nodup_range.filter a.occupied) slots,
    liveCount_eq_countP, List.countP_eq_length_filter]

end Arena

end ScopeLang
