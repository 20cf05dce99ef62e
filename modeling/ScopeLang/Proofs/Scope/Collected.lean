import ScopeLang.Proofs.Scope.Names
import ScopeLang.Proofs.Scope.Reach
import ScopeLang.Value

/-!
# What collecting leaves behind

Collecting frees the unreached scopes and nothing else. The scopes that survive stay as they were,
names are found from them as before, and the slots that became empty are listed as free behind the
ones that were, in ascending order.

## Main definitions

* `Arena.Collected` — what there is to say about an arena after collecting.

## Main statements

* `Arena.collected` — it is so, whatever the arena.
* `Arena.collect_exact` — so it is for values of programs; marking ends, in whatever order.
-/

namespace ScopeLang

namespace Arena

variable {ν : Type} {a : Arena ν} {scopeOf : ν → Option ScopeId} {values : List ν}

/-- The scopes that collecting keeps: the root and the scopes of the values, with all that they lead
to. -/
abbrev Kept (scopeOf : ν → Option ScopeId) (a : Arena ν) (values : List ν) : ScopeId → Prop :=
  Reached scopeOf a (.root :: values.filterMap scopeOf)

/-! ### Emptied slots -/

theorem free_foldl_vacate (indices : List Nat) (a : Arena ν) :
    (indices.foldl vacate a).free = indices.reverse ++ a.free := by
  induction indices generalizing a with
  | nil => rfl
  | cons i rest ih => simp [ih, vacate]

theorem slot_foldl_vacate {indices : List Nat} (distinct : indices.Nodup) (a : Arena ν) (j : Nat) :
    (indices.foldl vacate a).slots[j]? =
      if j ∈ indices then (a.slots[j]?).map fun slot => ⟨slot.generation + 1, none⟩
      else a.slots[j]? := by
  induction indices generalizing a with
  | nil => rfl
  | cons i rest ih =>
    obtain ⟨hi, distinct⟩ := List.nodup_cons.1 distinct
    rw [List.foldl_cons, ih distinct]
    simp only [vacate, Array.getElem?_modify, List.mem_cons]
    by_cases hij : i = j
    · subst hij
      simp [hi]
    · simp [hij, Ne.symm hij]

theorem size_collect : (a.collect scopeOf values).2.slots.size = a.slots.size :=
  size_foldl_vacate _ a

theorem mem_unreached_iff {i : Nat} : i ∈ a.unreached scopeOf values ↔
    ∃ x : ScopeId, (a.Alive x ∧ ¬ a.Kept scopeOf values x) ∧ x.index = i := by
  constructor
  · intro hi
    obtain ⟨x, rfl, hx⟩ := exists_alive_iff.2 (occupied_of_unreached hi)
    exact ⟨x, ⟨hx, (index_mem_unreached_iff hx).1 hi⟩, rfl⟩
  · rintro ⟨x, ⟨hx, hgone⟩, rfl⟩
    exact (index_mem_unreached_iff hx).2 hgone

theorem nodup_unreached : (a.unreached scopeOf values).Nodup := List.nodup_range.filter _

theorem length_unreached :
    (a.unreached scopeOf values).length = { x | a.Alive x ∧ ¬ a.Kept scopeOf values x }.ncard :=
  (ncard_eq_length (fun _ hx => hx.1) nodup_unreached fun _ => mem_unreached_iff).symm

/-- Every scope in use survives or is counted. -/
theorem liveCount_collect : (a.collect scopeOf values).2.liveCount +
    (a.unreached scopeOf values).length = a.liveCount := by
  let used := (List.range a.slots.size).filter a.occupied
  let freed := a.unreached scopeOf values
  have gone : used.countP (· ∈ freed) = freed.length := by
    rw [List.countP_eq_length_filter]
    have distinct : (used.filter (· ∈ freed)).Nodup := (List.nodup_range.filter _).filter _
    refine ((List.perm_ext_iff_of_nodup distinct nodup_unreached).2 fun i => ?_).length_eq
    simp only [used, List.mem_filter, List.mem_range, decide_eq_true_eq]
    refine ⟨And.right, fun hi => ⟨?_, hi⟩⟩
    have hused := occupied_of_unreached hi
    exact ⟨lt_of_occupied hused, hused⟩
  have survivors : (a.collect scopeOf values).2.liveCount =
      used.countP fun i => decide ¬ (decide (i ∈ freed) = true) := by
    rw [liveCount_eq_countP, List.countP_filter, size_collect]
    refine List.countP_congr fun i _ => ?_
    simp [occupied_collect, freed, and_comm]
  calc
    (a.collect scopeOf values).2.liveCount + freed.length
      = used.countP (· ∈ freed) + used.countP fun i => decide ¬ (decide (i ∈ freed) = true) := by
        rw [survivors, gone, Nat.add_comm]
    _ = used.length := (List.length_eq_countP_add_countP _).symm
    _ = a.liveCount := by rw [liveCount_eq_countP, List.countP_eq_length_filter]

/-! ### Looking for names -/

/-- What a surviving scope leads to is as it was, whether it survived or was freed before. -/
theorem scope?_collect_of_successor {x y : ScopeId} {scope : Scope ν}
    (hx : (a.collect scopeOf values).2.scope? x = some scope) (hy : y ∈ successors scopeOf scope) :
    (a.collect scopeOf values).2.scope? y = a.scope? y := by
  obtain ⟨hs, hreach⟩ := scope?_collect.1 hx
  cases hsy : a.scope? y with
  | none =>
    refine scope?_eq_none_iff.2 fun ⟨scope', hs'⟩ => ?_
    rw [(scope?_collect.1 hs').1] at hsy
    cases hsy
  | some scope' => exact scope?_collect.2 ⟨hsy, hreach.next hs hy ⟨scope', hsy⟩⟩

/-- From a scope that collecting does not change, names are found as before. -/
theorem lookupWithin_collect (name : String) (steps : Nat) {x : ScopeId}
    (hx : (a.collect scopeOf values).2.scope? x = a.scope? x) :
    (a.collect scopeOf values).2.lookupWithin name steps x = a.lookupWithin name steps x := by
  induction steps generalizing x with
  | zero => rfl
  | succ steps ih =>
    cases hs : a.scope? x with
    | none => simp only [lookupWithin, hx, hs]
    | some scope =>
      rw [hs] at hx
      cases hp : scope.parent with
      | none => simp only [lookupWithin, hx, hs, hp]
      | some p =>
        have outer : p ∈ successors scopeOf scope := by simp [successors, hp]
        simp only [lookupWithin, hx, hs, hp, ih (scope?_collect_of_successor hx outer)]

theorem lookup_collect {x : ScopeId} (hx : (a.collect scopeOf values).2.Alive x) (name : String) :
    (a.collect scopeOf values).2.lookup x name = a.lookup x name := by
  obtain ⟨scope, hs⟩ := hx
  rw [lookup, lookup, size_collect, lookupWithin_collect name _ (hs.trans (scope?_collect.1 hs).1.symm)]

theorem get_collect {x : ScopeId} (hx : (a.collect scopeOf values).2.Alive x) (name : String) :
    (a.collect scopeOf values).2.get x name = a.get x name := by
  have found := lookup_collect hx name
  cases ht : a.lookup x name with
  | none => simp only [get, found, ht, Option.bind_none]
  | some target =>
    rw [ht] at found
    obtain ⟨scope, hs, -⟩ := binds_of_lookup found
    simp only [get, found, ht, Option.bind_some, hs, (scope?_collect.1 hs).1]

/-! ### Collecting exactly -/

/-- An arena before and after collecting, and the number of scopes that was reported. -/
structure Collected (scopeOf : ν → Option ScopeId) (values : List ν) (a : Arena ν) (count : Nat)
    (b : Arena ν) : Prop where
  /-- Exactly the reached scopes survive, each under its handle and unchanged. -/
  survivors : ∀ x scope, b.scope? x = some scope ↔ a.scope? x = some scope ∧ a.Kept scopeOf values x
  counted : count = { x | a.Alive x ∧ ¬ a.Kept scopeOf values x }.ncard
  accounted : b.liveCount + count = a.liveCount
  lookup : ∀ x name, b.Alive x → b.lookup x name = a.lookup x name
  get : ∀ x name, b.Alive x → b.get x name = a.get x name
  /-- The slots of the freed scopes are empty, in their next generation, and listed as free behind
  the others, in ascending order. Nothing happens to other slots. -/
  slots : ∃ freed : List Nat, freed.Pairwise (· < ·) ∧
    (∀ i, i ∈ freed ↔ ∃ x : ScopeId, (a.Alive x ∧ ¬ a.Kept scopeOf values x) ∧ x.index = i) ∧
    b.free.reverse = a.free.reverse ++ freed ∧
    ∀ j : Nat, b.slots[j]? = if j ∈ freed then
      (a.slots[j]?).map fun slot => ⟨slot.generation + 1, none⟩ else a.slots[j]?
  /-- Collecting again frees nothing. -/
  again : b.collect scopeOf values = (0, b)

theorem unreached_collect : (a.collect scopeOf values).2.unreached scopeOf values = [] := by
  refine List.eq_nil_iff_forall_not_mem.2 fun i hi => ?_
  obtain ⟨x, ⟨hx, hgone⟩, -⟩ := mem_unreached_iff.1 hi
  exact hgone (alive_collect_iff_reached.1 hx)

theorem collected (scopeOf : ν → Option ScopeId) (values : List ν) (a : Arena ν) :
    Collected scopeOf values a (a.collect scopeOf values).1 (a.collect scopeOf values).2 where
  survivors _ _ := scope?_collect
  counted := length_unreached
  accounted := liveCount_collect
  lookup _ name hx := lookup_collect hx name
  get _ name hx := get_collect hx name
  slots := by
    refine ⟨a.unreached scopeOf values, List.pairwise_lt_range.filter _, fun _ => mem_unreached_iff,
      ?_, slot_foldl_vacate nodup_unreached a⟩
    simp [collect, free_foldl_vacate]
  again := by
    rw [collect, unreached_collect]
    rfl

/-- Collecting frees exactly the scopes that neither the root nor a function among the values reaches,
and keeps all others as they were. Marking comes to an end in whatever order it takes up scopes, and
with the same marks. -/
theorem collect_exact {κ : Type} (a : Arena (Value κ)) (values : List (Value κ)) :
    Collected Value.scope? values a (a.collect Value.scope? values).1
      (a.collect Value.scope? values).2 ∧
    (WellFounded fun t s => Turn Value.scope? a s t) ∧
    ∀ s, (Relation.ReflTransGen (Turn Value.scope? a)
          ⟨.root :: values.filterMap Value.scope?, .replicate a.slots.size false⟩ s ∧
        ∀ t, ¬ Turn Value.scope? a s t) ↔
      s = ⟨0, a.mark Value.scope? (.root :: values.filterMap Value.scope?)
        (.replicate a.slots.size false)⟩ :=
  ⟨collected _ values a, wellFounded_turn _ a, fun _ => turns_stop_iff⟩

end Arena

end ScopeLang
