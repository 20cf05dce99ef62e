import ScopeLang.Proofs.Scope.Held
import ScopeLang.Proofs.Scope.Marking

/-!
# Collecting exactly the unreached scopes

The scopes whose slots are marked are the reached ones, and collecting frees all others. So it keeps
what makes an arena sound: what a scope leads to survives with it.

## Main statements

* `Arena.scope?_collect` — what handles resolve to after collecting.
* `Arena.Sound.collect` — collecting keeps the arena sound.
-/

namespace ScopeLang

namespace Arena

variable {ν : Type} {a : Arena ν} {scopeOf : ν → Option ScopeId}

theorem scope?_foldl_vacate (indices : List Nat) (a : Arena ν) (x : ScopeId) :
    (indices.foldl vacate a).scope? x = if x.index ∈ indices then none else a.scope? x := by
  induction indices generalizing a with
  | nil => simp
  | cons i rest ih =>
    rw [List.foldl_cons, ih, scope?_vacate]
    by_cases hx : x.index ∈ rest <;> by_cases hi : x.index = i <;> simp [hx, hi]

theorem Tidy.foldl_vacate (h : a.Tidy) {indices : List Nat} (distinct : indices.Nodup)
    (used : ∀ i ∈ indices, ∃ slot, a.slots[i]? = some slot ∧ slot.scope.isSome) :
    (indices.foldl Arena.vacate a).Tidy := by
  induction indices generalizing a with
  | nil => exact h
  | cons i rest ih =>
    obtain ⟨hi, distinct⟩ := List.nodup_cons.1 distinct
    obtain ⟨slot, hslot, hused⟩ := used i (by simp)
    refine ih (h.vacate hslot hused) distinct fun j hj => ?_
    have hij : i ≠ j := by
      rintro rfl
      exact hi hj
    obtain ⟨slot, hslot, hused⟩ := used j (by simp [hj])
    exact ⟨slot, by simpa [Arena.vacate, Array.getElem?_modify, hij] using hslot, hused⟩

theorem mem_unreached {values : List ν} {i : Nat} (h : i ∈ a.unreached scopeOf values) :
    ∃ slot, a.slots[i]? = some slot ∧ slot.scope.isSome := by
  have := (List.mem_filter.1 h).2
  cases hs : a.slots[i]? with
  | none => simp [hs] at this
  | some slot => exact ⟨slot, rfl, by simp_all⟩

theorem index_mem_unreached_iff {values : List ν} {id : ScopeId} (hid : a.Alive id) :
    id.index ∈ a.unreached scopeOf values ↔
      ¬ Reached scopeOf a (.root :: values.filterMap scopeOf) id := by
  let marked := a.mark scopeOf (.root :: values.filterMap scopeOf) (.replicate a.slots.size false)
  have hmark : marked[id.index]? = some true ↔ _ := mark_eq_true_iff hid
  have hmarked : marked[id.index]? = some true ∨ marked[id.index]? = some false :=
    hid.marked? (underway_mark scopeOf a _).size
  have hi := hid.index_lt
  obtain ⟨scope, hs⟩ := hid
  obtain ⟨slot, hslot, -, hscope⟩ := scope?_eq_some_iff.1 hs
  simp only [unreached, List.mem_filter, List.mem_range, hi, hslot, hscope, true_and,
    Option.any_some, Option.isSome_some, Bool.true_and, beq_iff_eq, ← hmark]
  change marked[id.index]? = some false ↔ ¬ marked[id.index]? = some true
  rcases hmarked with hm | hm <;> simp [hm]

/-- After collecting, exactly the reached scopes are in use, unchanged. -/
theorem scope?_collect {values : List ν} {x : ScopeId} {scope : Scope ν} :
    (a.collect scopeOf values).2.scope? x = some scope ↔
      a.scope? x = some scope ∧ Reached scopeOf a (.root :: values.filterMap scopeOf) x := by
  simp only [collect, scope?_foldl_vacate]
  constructor
  · intro hs
    split at hs
    · cases hs
    · rename_i hno
      exact ⟨hs, not_not.1 (hno ∘ (index_mem_unreached_iff ⟨scope, hs⟩).2)⟩
  · rintro ⟨hs, hreach⟩
    rw [if_neg fun hmem => (index_mem_unreached_iff ⟨scope, hs⟩).1 hmem hreach, hs]

theorem alive_collect_iff {values : List ν} {x : ScopeId} :
    (a.collect scopeOf values).2.Alive x ↔
      Reached scopeOf a (.root :: values.filterMap scopeOf) x := by
  constructor
  · rintro ⟨scope, hs⟩
    exact (scope?_collect.1 hs).2
  · intro hreach
    obtain ⟨scope, hs⟩ := hreach.alive
    exact ⟨scope, scope?_collect.2 ⟨hs, hreach⟩⟩

theorem Tidy.collect (h : a.Tidy) (values : List ν) : (a.collect scopeOf values).2.Tidy :=
  h.foldl_vacate (List.nodup_range.filter _) fun _ => mem_unreached

/-- What a scope that survives leads to survives unchanged. -/
theorem Held.collect {values : List ν} {x : ScopeId} (hx : a.Held x)
    (hreach : Reached scopeOf a (.root :: values.filterMap scopeOf) x) :
    (a.collect scopeOf values).2.Held x := by
  obtain ⟨scope, hs, hheld⟩ := hx
  exact ⟨scope, scope?_collect.2 ⟨hs, hreach⟩, hheld⟩

theorem Sound.collect (h : a.Sound scopeOf) (values : List ν) :
    (a.collect scopeOf values).2.Sound scopeOf := by
  refine { tidy := h.tidy.collect values, root := ?root, outermost := ?outermost, held := ?held,
           grounded := ?grounded }
  case root =>
    obtain ⟨scope, hr, hn⟩ := h.root
    exact ⟨scope, scope?_collect.2 ⟨hr, .start (by simp) ⟨scope, hr⟩⟩, hn⟩
  case outermost =>
    intro x scope hx hn
    exact h.outermost (scope?_collect.1 hx).1 hn
  case held =>
    intro x scope y hx hy
    obtain ⟨hx, hreach⟩ := scope?_collect.1 hx
    have hheld := h.held hx hy
    exact hheld.collect (hreach.next hx hy hheld.alive)
  case grounded =>
    intro x hx
    apply h.grounded_of_parents (alive_collect_iff.1 hx).alive
    intro y scope _ hy
    exact ⟨scope, (scope?_collect.1 hy).1, rfl⟩

/-- After collecting, everything in use is reached. -/
theorem alive_collect_iff_reached {values : List ν} {x : ScopeId} :
    (a.collect scopeOf values).2.Alive x ↔
      Reached scopeOf (a.collect scopeOf values).2 (.root :: values.filterMap scopeOf) x := by
  refine ⟨fun hx => ?_, Reached.alive⟩
  have hreach := alive_collect_iff.1 hx
  clear hx
  induction hreach with
  | start hmem hid => exact .start hmem (alive_collect_iff.2 (.start hmem hid))
  | next hprev hs hx halive ih =>
    exact ih.next (scope?_collect.2 ⟨hs, hprev⟩) hx
      (alive_collect_iff.2 (hprev.next hs hx halive))

end Arena

end ScopeLang
