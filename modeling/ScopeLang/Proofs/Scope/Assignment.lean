import ScopeLang.Proofs.Scope.Names

/-!
# What an assignment changes

An assignment changes one binding in one scope. Looking for another name goes the same way as
before, and looking for this one does so unless it gets to that scope. So a name reads as before from
every scope, except for the assigned one where it is found in the scope that was changed.

Where a name is found does not depend on the number of steps that a look-up allows itself: whenever
the unbounded search comes to an end, a look-up finds the same. The search comes to an end unless the
name is not found and the chain has no end, and an assignment does not change this.

## Main definitions

* `Arena.view` — what looking for a name makes of a scope.
* `Arena.Rebinds` — arenas that differ in one binding.

## Main statements

* `Arena.Search.lookup_eq` — a look-up finds what the search finds.
* `Arena.searchEnds_iff` — when a search comes to an end.
* `Arena.Rebinds.get`, `Arena.Rebinds.searchEnds_iff` — how names read when one binding has changed,
  and that looking for them ends as before.
-/

namespace ScopeLang

namespace Arena

variable {ν : Type} {a b : Arena ν} {id t x y : ScopeId} {name m : String} {value : ν} {steps : Nat}
  {found : Option ScopeId}

/-! ### Looking for a name in two arenas -/

/-- What looking for a name makes of a handle: nothing if the scope is freed, the end of the way if
the scope binds the name, or else the handle of the scope around it. -/
def view (a : Arena ν) (name : String) (id : ScopeId) : Option (Option (Option ScopeId)) :=
  (a.scope? id).map fun scope => if scope.bindings.binds name then none else some scope.parent

theorem view_eq_none_iff : a.view name id = none ↔ a.scope? id = none := Option.map_eq_none_iff

theorem view_eq_found_iff : a.view name id = some none ↔
    ∃ scope, a.scope? id = some scope ∧ scope.bindings.binds name = true := by
  simp [view]

theorem view_eq_outward_iff {p : Option ScopeId} : a.view name id = some (some p) ↔
    ∃ scope, a.scope? id = some scope ∧ scope.bindings.binds name = false ∧ scope.parent = p := by
  simp [view]

theorem lookupWithin_succ (a : Arena ν) (name : String) (steps : Nat) (id : ScopeId) :
    a.lookupWithin name (steps + 1) id = match a.view name id with
      | none | some (some none) => none
      | some none => some id
      | some (some (some parent)) => a.lookupWithin name steps parent := by
  simp only [lookupWithin, view]
  cases a.scope? id with
  | none => rfl
  | some scope =>
    cases hb : scope.bindings.binds name with
    | true => simp [hb]
    | false => cases hp : scope.parent <;> simp [hb, hp]

/-- Where the name is looked for in the same way, it is found in the same scope. -/
theorem lookupWithin_congr (same : ∀ z, b.view name z = a.view name z) (steps : Nat)
    (id : ScopeId) :
    b.lookupWithin name steps id = a.lookupWithin name steps id := by
  induction steps generalizing id with
  | zero => rfl
  | succ steps ih => simp only [lookupWithin_succ, same, ih]

/-- Scopes where the way ends need not agree for that, as long as it does not get there. -/
theorem lookupWithin_of_ne (others : ∀ z, z ≠ t → b.view name z = a.view name z)
    (ends : b.view name t = some none) (h : b.lookupWithin name steps id ≠ some t) :
    b.lookupWithin name steps id = a.lookupWithin name steps id := by
  induction steps generalizing id with
  | zero => rfl
  | succ steps ih =>
    have elsewhere : id ≠ t := by
      rintro rfl
      simp [lookupWithin_succ, ends] at h
    simp only [lookupWithin_succ, others id elsewhere] at h ⊢
    split at h
    · rfl
    · rfl
    · rfl
    · exact ih h

/-! ### Look-ups and the unbounded search -/

theorem search_of_lookup (h : a.lookup id name = some x) : a.Search name id (some x) := by
  unfold lookup at h
  generalize a.slots.size = steps at h
  induction steps generalizing id with
  | zero => simp [lookupWithin] at h
  | succ steps ih =>
    unfold lookupWithin at h
    split at h
    · cases h
    · rename_i scope hs
      split at h
      · rename_i hb
        cases h
        exact .here hs hb
      · rename_i hb
        split at h
        · cases h
        · rename_i parent hp
          exact .outward hs (Bool.eq_false_iff.2 hb) hp (ih h)

/-- Where the name is looked for in the same way, the search comes to the same. -/
theorem Search.congr (same : ∀ z, b.view name z = a.view name z) (h : a.Search name id found) :
    b.Search name id found := by
  induction h with
  | released hs =>
    exact .released (view_eq_none_iff.1 ((same _).trans (view_eq_none_iff.2 hs)))
  | here hs hb =>
    obtain ⟨scope, hs', hb'⟩ :=
      view_eq_found_iff.1 ((same _).trans (view_eq_found_iff.2 ⟨_, hs, hb⟩))
    exact .here hs' hb'
  | outermost hs hb hp =>
    obtain ⟨scope, hs', hb', hp'⟩ :=
      view_eq_outward_iff.1 ((same _).trans (view_eq_outward_iff.2 ⟨_, hs, hb, hp⟩))
    exact .outermost hs' hb' hp'
  | outward hs hb hp _ ih =>
    obtain ⟨scope, hs', hb', hp'⟩ :=
      view_eq_outward_iff.1 ((same _).trans (view_eq_outward_iff.2 ⟨_, hs, hb, hp⟩))
    exact .outward hs' hb' hp' ih

/-- The search ends here, or else where it ends from the scope around. -/
theorem searchEnds_of_view (h : ∀ p, a.view name id = some (some (some p)) → a.SearchEnds name p) :
    a.SearchEnds name id := by
  cases hview : a.view name id with
  | none => exact ⟨_, .released (view_eq_none_iff.1 hview)⟩
  | some way =>
    cases way with
    | none =>
      obtain ⟨scope, hs, hb⟩ := view_eq_found_iff.1 hview
      exact ⟨_, .here hs hb⟩
    | some around =>
      obtain ⟨scope, hs, hb, hp⟩ := view_eq_outward_iff.1 hview
      cases around with
      | none => exact ⟨_, .outermost hs hb hp⟩
      | some p =>
        obtain ⟨found, hfound⟩ := h p hview
        exact ⟨found, .outward hs hb hp hfound⟩

/-- Scopes from which the search ends need not agree for it to end. -/
theorem Search.ends_of_ne (h : a.Search name id found)
    (others : ∀ z, z ≠ t → b.view name z = a.view name z) (ends : b.SearchEnds name t) :
    b.SearchEnds name id := by
  have back {z : ScopeId}
      (hz : ∀ p, a.view name z = some (some (some p)) → b.SearchEnds name p) :
      b.SearchEnds name z := by
    by_cases hzt : z = t
    · exact hzt ▸ ends
    · exact searchEnds_of_view fun p hp => hz p ((others z hzt).symm.trans hp)
  induction h with
  | released hs => exact back fun p h => by simp [view, hs] at h
  | here hs hb => exact back fun p h => by simp [view, hs, hb] at h
  | outermost hs hb hp => exact back fun p h => by simp [view, hs, hb, hp] at h
  | outward hs hb hp _ ih =>
    refine back fun p h => ?_
    obtain rfl : _ = p := by simpa [view, hs, hb, hp] using h
    exact ih

/-- The search ends without success only where the chain of scopes ends. -/
theorem Search.grounded (h : a.Search name id none) : a.Grounded id := by
  generalize hfound : (none : Option ScopeId) = found at h
  induction h with
  | released hs => exact ⟨[], .released hs⟩
  | here => cases hfound
  | outermost hs _ hp => exact ⟨_, .outermost hs hp⟩
  | outward hs _ hp _ ih =>
    obtain ⟨ids, hids⟩ := ih hfound
    exact ⟨_, .inner hs hp hids⟩

theorem Search.binds (h : a.Search name id (some t)) :
    ∃ scope, a.scope? t = some scope ∧ scope.bindings.binds name = true := by
  generalize hfound : some t = found at h
  induction h with
  | released | outermost => cases hfound
  | here hs hb =>
    cases hfound
    exact ⟨_, hs, hb⟩
  | outward _ _ _ _ ih => exact ih hfound

/-- Takes a scope out of the one around it. -/
def cut (a : Arena ν) (t : ScopeId) : Arena ν :=
  a.update t fun scope => { scope with parent := none }

theorem scope?_cut (a : Arena ν) (t z : ScopeId) : (a.cut t).scope? z =
    if z = t then (a.scope? t).map fun scope => { scope with parent := none } else a.scope? z :=
  scope?_update a t z _

@[simp] theorem size_cut (a : Arena ν) (t : ScopeId) : (a.cut t).slots.size = a.slots.size :=
  Array.size_modify

/-- A search that ends in the scope does not notice. -/
theorem view_cut (ends : a.view name t = some none) (z : ScopeId) :
    (a.cut t).view name z = a.view name z := by
  by_cases hz : z = t
  · subst hz
    obtain ⟨scope, hs, hb⟩ := view_eq_found_iff.1 ends
    rw [ends]
    exact view_eq_found_iff.2 ⟨{ scope with parent := none }, by simp [scope?_cut, hs], hb⟩
  · rw [view, scope?_cut, if_neg hz, view]

/-- The chain from which a scope was found comes to an end when that scope is cut off. -/
theorem Search.grounded_cut (h : a.Search name id (some t)) : (a.cut t).Grounded id := by
  have ends := view_eq_found_iff.2 h.binds
  generalize hfound : some t = found at h
  induction h with
  | released | outermost => cases hfound
  | @here _ scope hs =>
    cases hfound
    have alone : (a.cut t).scope? t = some { scope with parent := none } := by simp [scope?_cut, hs]
    exact ⟨_, .outermost alone rfl⟩
  | @outward id p scope found hs hb hp _ ih =>
    obtain ⟨ids, hids⟩ := ih hfound
    have elsewhere : id ≠ t := by
      rintro rfl
      simp [view, hs, hb] at ends
    exact ⟨_, .inner (by rw [scope?_cut, if_neg elsewhere, hs]) hp hids⟩

/-- Whenever the unbounded search comes to an end, a look-up finds the same. A search that succeeds
may do so on a chain that goes on for ever; what is behind the scope found does not matter. -/
theorem Search.lookup_eq (h : a.Search name id found) : a.lookup id name = found := by
  cases found with
  | none => exact (h.grounded.search name).unique h
  | some t =>
    have same := view_cut (view_eq_found_iff.2 h.binds)
    have found := (h.grounded_cut.search name).unique (h.congr same)
    rwa [lookup, size_cut, lookupWithin_congr same] at found

/-- The search ends if it finds something or the chain of scopes ends, and else it does not: then it
goes round in a circle of scopes that do not bind the name. -/
theorem searchEnds_iff : a.SearchEnds name id ↔ a.lookup id name ≠ none ∨ a.Grounded id := by
  constructor
  · rintro ⟨_ | t, h⟩
    · exact .inr h.grounded
    · exact .inl (by simp [h.lookup_eq])
  · rintro (some_found | grounded)
    · obtain ⟨t, ht⟩ := Option.ne_none_iff_exists'.1 some_found
      exact ⟨_, search_of_lookup ht⟩
    · exact ⟨_, grounded.search name⟩

/-! ### Arenas that differ in one binding -/

/-- The arenas differ in one binding only: in the second one, the scope `t` binds the name to the
value. Slots, generations, the list of free slots, parents and notes on captured scopes are the
same. -/
structure Rebinds (a : Arena ν) (t : ScopeId) (name : String) (value : ν) (b : Arena ν) :
    Prop where
  layout : SameLayout a b
  slots : ∀ i, i ≠ t.index → b.slots[i]? = a.slots[i]?
  others : ∀ z, z ≠ t → b.scope? z = a.scope? z
  scope : ∃ s s', a.scope? t = some s ∧ b.scope? t = some s' ∧ s'.parent = s.parent ∧
    s'.captured = s.captured ∧ s'.bindings.get? name = some value ∧
      ∀ m, m ≠ name → s'.bindings.get? m = s.bindings.get? m

theorem rebinds_define (h : a.Alive t) (name : String) (value : ν) :
    a.Rebinds t name value (a.define t name value) where
  layout := a.sameLayout_define t name value
  slots i hi := by simp [define, update, Array.getElem?_modify, Ne.symm hi]
  others z hz := by rw [define, scope?_update, if_neg hz]
  scope := by
    obtain ⟨s, hs⟩ := h
    refine ⟨s, { s with bindings := s.bindings.insert name value }, hs,
      by simp [define, scope?_update, hs], rfl, rfl, Bindings.get?_insert_self .., fun m hm => ?_⟩
    exact Bindings.get?_insert_of_ne hm value s.bindings

namespace Rebinds

variable (h : a.Rebinds t name value b)

include h

theorem view_self : b.view name t = some none := by
  obtain ⟨-, s', -, hs', -, -, hvalue, -⟩ := h.scope
  exact view_eq_found_iff.2 ⟨s', hs', by simp [Bindings.binds, hvalue]⟩

theorem view_of_ne {z : ScopeId} (hz : z ≠ t) (m : String) : b.view m z = a.view m z := by
  rw [view, h.others z hz, view]

/-- Another name is looked for in the same way. -/
theorem view_of_name_ne (hm : m ≠ name) (z : ScopeId) : b.view m z = a.view m z := by
  by_cases hz : z = t
  · subst hz
    obtain ⟨s, s', hs, hs', hp, -, -, hkept⟩ := h.scope
    have binds : s'.bindings.binds m = s.bindings.binds m := by
      rw [Bindings.binds, hkept m hm, Bindings.binds]
    simp [view, hs, hs', hp, binds]
  · exact h.view_of_ne hz m

/-- Another name is found where it was found before. -/
theorem lookup_of_ne (hm : m ≠ name) (y : ScopeId) : b.lookup y m = a.lookup y m := by
  rw [lookup, h.layout.size_eq, lookupWithin_congr (h.view_of_name_ne hm), lookup]

/-- So is the name itself, if the scope did bind it. -/
theorem lookup_of_bound (bound : a.view name t = some none) (y : ScopeId) :
    b.lookup y name = a.lookup y name := by
  have same (z : ScopeId) : b.view name z = a.view name z := by
    by_cases hz : z = t
    · rw [hz, bound, h.view_self]
    · exact h.view_of_ne hz name
  rw [lookup, h.layout.size_eq, lookupWithin_congr same, lookup]

/-- So is the name itself from where it is not found in that scope. -/
theorem lookup_elsewhere (hy : b.lookup y name ≠ some t) : b.lookup y name = a.lookup y name := by
  rw [lookup, h.layout.size_eq] at hy ⊢
  exact lookupWithin_of_ne (fun z hz => h.view_of_ne hz name) h.view_self hy

/-- Looking for a name ends from the same scopes as before, if looking for the assigned one from the
scope that was changed did end. -/
theorem searchEnds_iff (ends : a.SearchEnds name t) (y : ScopeId) (m : String) :
    b.SearchEnds m y ↔ a.SearchEnds m y := by
  by_cases hm : m = name
  · subst hm
    have here : b.SearchEnds m t := searchEnds_of_view fun p hp => by simp [h.view_self] at hp
    constructor
    · rintro ⟨found, hb⟩
      exact hb.ends_of_ne (fun z hz => (h.view_of_ne hz m).symm) ends
    · rintro ⟨found, ha⟩
      exact ha.ends_of_ne (fun z hz => h.view_of_ne hz m) here
  · have same := h.view_of_name_ne hm
    constructor
    · rintro ⟨found, hb⟩
      exact ⟨found, hb.congr fun z => (same z).symm⟩
    · rintro ⟨found, ha⟩
      exact ⟨found, ha.congr same⟩

/-- Every name reads as before, except for this one where it is found in that scope. -/
theorem get (y : ScopeId) (m : String) :
    b.get y m = if m = name ∧ b.lookup y name = some t then .ok value else a.get y m := by
  obtain ⟨s, s', hs, hs', -, -, hvalue, hkept⟩ := h.scope
  by_cases hm : m = name
  · subst hm
    by_cases hy : b.lookup y m = some t
    · simp [Arena.get, hy, hs', hvalue]
    · have before := h.lookup_elsewhere hy
      simp only [hy, and_false, if_false, Arena.get, ← before]
      cases hfound : b.lookup y m with
      | none => rfl
      | some z =>
        have hz : z ≠ t := fun heq => hy (hfound.trans (congrArg some heq))
        simp only [Option.bind_some, h.others z hz]
  · simp only [hm, false_and, if_false, Arena.get, h.lookup_of_ne hm]
    cases hfound : a.lookup y m with
    | none => rfl
    | some z =>
      by_cases hz : z = t
      · subst hz
        simp only [Option.bind_some, hs, hs', hkept m hm]
      · simp only [Option.bind_some, h.others z hz]

end Rebinds

end Arena

end ScopeLang
