import ScopeLang.Proofs.Scope.Census

/-!
# How the layout of an arena changes

The layout of an arena is what remains of it without the names bound in its scopes and without the
notes on captured ones. An arena changes in four ways only: its layout stays, a scope is opened, the
slot of a scope is emptied, or all unreached scopes are collected. What these four do to slots,
generations and the list of free slots is all that is needed of them later on.

## Main definitions

* `Arena.SameLayout` — arenas that differ in names and notes only.
* `Arena.Move` — the four ways in which an arena changes.
* `Arena.Rooted` — the root scope, and no other, is inside no scope.

## Main statements

* `Move.tidy`, `Move.rooted`, `Move.size`, `Move.generation_eq` — what each change keeps.
* `Tidy.slot_extend`, `Tidy.size_extend` — which slot a new scope takes.
-/

namespace ScopeLang

/-- A slot without the names in its scope. -/
def Slot.outline {ν : Type} (slot : Slot ν) : UInt32 × Option (Option ScopeId) :=
  (slot.generation, slot.scope.map Scope.parent)

namespace Arena

variable {ν : Type} {a b c : Arena ν} {scopeOf : ν → Option ScopeId} {i : Nat} {id : ScopeId}

/-! ### Layouts -/

/-- The arenas have the same slots and free slots, with scopes of the same parents. -/
structure SameLayout (a b : Arena ν) : Prop where
  free : a.free = b.free
  slots : ∀ i : Nat, (a.slots[i]?).map Slot.outline = (b.slots[i]?).map Slot.outline

/-- The scope around the one that a handle leads to, if there is one. -/
def around (a : Arena ν) (id : ScopeId) : Option (Option ScopeId) := (a.scope? id).map Scope.parent

theorem isRoot_iff : a.isRoot id = true ↔ a.around id = some none := by
  simp only [isRoot, around]
  cases a.scope? id <;> simp

namespace SameLayout

theorem refl (a : Arena ν) : SameLayout a a := ⟨rfl, fun _ => rfl⟩

theorem trans (h : SameLayout a b) (h' : SameLayout b c) : SameLayout a c :=
  ⟨h.free.trans h'.free, fun i => (h.slots i).trans (h'.slots i)⟩

theorem symm (h : SameLayout a b) : SameLayout b a := ⟨h.free.symm, fun i => (h.slots i).symm⟩

theorem slot (h : SameLayout a b) {slot : Slot ν} (hs : b.slots[i]? = some slot) :
    ∃ slot', a.slots[i]? = some slot' ∧ slot'.outline = slot.outline := by
  have := h.slots i
  rw [hs, Option.map_some] at this
  exact Option.map_eq_some_iff.1 this

theorem slot_none_iff (h : SameLayout a b) : a.slots[i]? = none ↔ b.slots[i]? = none := by
  rw [← Option.map_eq_none_iff (f := Slot.outline), h.slots, Option.map_eq_none_iff]

theorem size_eq (h : SameLayout a b) : b.slots.size = a.slots.size := by
  have before := h.slot_none_iff (i := a.slots.size)
  have after := h.slot_none_iff (i := b.slots.size)
  simp only [Array.getElem?_eq_none_iff] at before after
  omega

theorem occupied_eq (h : SameLayout a b) : b.occupied i = a.occupied i := by
  cases hs : b.slots[i]? with
  | none => simp [occupied, hs, h.slot_none_iff.2 hs]
  | some slot =>
    obtain ⟨slot', hs', ho⟩ := h.slot hs
    have := congrArg (fun o => Option.isSome o.2) ho
    simpa [occupied, hs, hs', Slot.outline] using this.symm

theorem generation_eq (h : SameLayout a b) : b.generation i = a.generation i := by
  cases hs : b.slots[i]? with
  | none => simp [generation, hs, h.slot_none_iff.2 hs]
  | some slot =>
    obtain ⟨slot', hs', ho⟩ := h.slot hs
    simpa [generation, hs, hs', Slot.outline] using (congrArg Prod.fst ho).symm

theorem around_eq (h : SameLayout a b) : b.around id = a.around id := by
  simp only [around, scope?]
  cases hs : b.slots[id.index]? with
  | none => simp [h.slot_none_iff.2 hs]
  | some slot =>
    obtain ⟨slot', hs', ho⟩ := h.slot hs
    obtain ⟨hg, hp⟩ := Prod.mk.inj ho
    rw [hs']
    dsimp only
    rw [hg]
    split
    · exact hp.symm
    · rfl

theorem tidy (h : SameLayout a b) (ha : a.Tidy) : b.Tidy where
  nodup := h.free ▸ ha.nodup
  mem_free i := by
    rw [← h.free, ha.mem_free]
    have empty (slot : Slot ν) : slot.scope = none ↔ slot.outline.2 = none := by
      simp [Slot.outline]
    constructor
    · rintro ⟨slot, hs, hnone⟩
      have := h.slots i
      rw [hs, Option.map_some] at this
      obtain ⟨slot', hs', ho⟩ := Option.map_eq_some_iff.1 this.symm
      exact ⟨slot', hs', (empty slot').2 (ho ▸ (empty slot).1 hnone)⟩
    · rintro ⟨slot, hs, hnone⟩
      obtain ⟨slot', hs', ho⟩ := h.slot hs
      exact ⟨slot', hs', (empty slot').2 (ho ▸ (empty slot).1 hnone)⟩

/-- Changing a slot keeps layouts the same if the change looks at no names. -/
theorem slots_modify (h : SameLayout a b) {f : Slot ν → Slot ν}
    (hf : ∀ s t, s.outline = t.outline → (f s).outline = (f t).outline) (i j : Nat) :
    ((a.slots.modify i f)[j]?).map Slot.outline = ((b.slots.modify i f)[j]?).map Slot.outline := by
  simp only [Array.getElem?_modify]
  split
  · cases hs : b.slots[j]? with
    | none => simp [h.slot_none_iff.2 hs]
    | some slot =>
      obtain ⟨slot', hs', ho⟩ := h.slot hs
      simp [hs', hf _ _ ho]
  · exact h.slots j

/-- A new scope takes the same slot in arenas of the same layout. -/
theorem extend (h : SameLayout a b) (parent : ScopeId) :
    (b.extend parent).1 = (a.extend parent).1 ∧
      SameLayout (a.extend parent).2 (b.extend parent).2 := by
  cases hf : a.free with
  | nil =>
    have hf' : b.free = [] := h.free.symm.trans hf
    simp only [Arena.extend, hf, hf', h.size_eq, true_and]
    refine ⟨rfl, fun i => ?_⟩
    simp only [Array.getElem?_push, h.size_eq]
    split
    · rfl
    · exact h.slots i
  | cons j free =>
    have hf' : b.free = j :: free := h.free.symm.trans hf
    have hg := h.generation_eq (i := j)
    simp only [Arena.extend, hf, hf']
    refine ⟨congrArg (ScopeId.mk j) hg, ⟨rfl, h.slots_modify (fun s t hst => ?_) j⟩⟩
    exact congrArg (·, _) (congrArg Prod.fst hst)

theorem vacate (h : SameLayout a b) (i : Nat) : SameLayout (a.vacate i) (b.vacate i) where
  free := congrArg (List.cons i) h.free
  slots := h.slots_modify (fun _ _ hst => congrArg (·.1 + 1, none) hst) i

end SameLayout

theorem sameLayout_update (a : Arena ν) (id : ScopeId) {f : Scope ν → Scope ν}
    (hf : ∀ scope, (f scope).parent = scope.parent) : SameLayout a (a.update id f) where
  free := rfl
  slots i := by
    have same : Scope.parent ∘ f = Scope.parent := funext hf
    simp only [update, Array.getElem?_modify]
    by_cases hi : id.index = i
    · cases a.slots[i]? with
      | none => simp
      | some slot => by_cases hg : slot.generation = id.generation <;> simp [hi, hg, Slot.outline, same]
    · simp [hi]

theorem sameLayout_define (a : Arena ν) (id : ScopeId) (name : String) (value : ν) :
    SameLayout a (a.define id name value) :=
  a.sameLayout_update id fun _ => rfl

theorem sameLayout_capture (a : Arena ν) (id : ScopeId) : SameLayout a (a.capture id) :=
  a.sameLayout_update id fun _ => rfl

/-! ### Changes -/

/-- The ways in which an arena changes. -/
inductive Move (scopeOf : ν → Option ScopeId) (a : Arena ν) : Arena ν → Prop where
  | fill {b : Arena ν} : SameLayout a b → Move scopeOf a b
  | open {b : Arena ν} (parent : ScopeId) : SameLayout (a.extend parent).2 b → Move scopeOf a b
  | close {id : ScopeId} {scope : Scope ν} : a.scope? id = some scope → scope.parent ≠ none →
    Move scopeOf a (a.vacate id.index)
  | sweep (values : List ν) : Move scopeOf a (a.collect scopeOf values).2

theorem Move.of_release (a : Arena ν) (id : ScopeId) : Move scopeOf a (a.release id) := by
  rcases a.release_cases id with he | ⟨scope, hs, -, hp, he⟩
  · rw [he]
    exact .fill (.refl a)
  · rw [he]
    exact .close hs hp

/-- The root scope is there and inside no scope, and it is the only one of that kind. -/
structure Rooted (a : Arena ν) : Prop where
  root : a.around .root = some none
  only : ∀ {id}, a.around id = some none → id = .root

theorem rooted_new : (new : Arena ν).Rooted where
  root := rfl
  only := by
    rintro ⟨i, g⟩ h
    obtain ⟨scope, hs, -⟩ := Option.map_eq_some_iff.1 h
    obtain ⟨slot, hslot, hg, -⟩ := scope?_eq_some_iff.1 hs
    cases i with
    | zero =>
      obtain rfl : { scope := some {} } = slot := by simpa [new] using hslot
      exact congrArg (ScopeId.mk 0) hg.symm
    | succ i => simp [new] at hslot

/-- Nothing happens to the root as long as it stays and no other scope gets out of all scopes. -/
theorem Rooted.of_around (h : a.Rooted) (root : b.around .root = a.around .root)
    (old : ∀ id, b.around id = some none → a.around id = some none) : b.Rooted :=
  ⟨root.trans h.root, fun hid => h.only (old _ hid)⟩

theorem Rooted.alive_root (h : a.Rooted) : a.Alive .root := by
  obtain ⟨scope, hs, -⟩ := Option.map_eq_some_iff.1 h.root
  exact ⟨scope, hs⟩

theorem Tidy.around_extend (h : a.Tidy) (parent x : ScopeId) : (a.extend parent).2.around x =
    if x = (a.extend parent).1 then some (some parent) else a.around x := by
  simp only [around, h.scope?_extend]
  split <;> rfl

theorem around_vacate (a : Arena ν) (i : Nat) (x : ScopeId) :
    (a.vacate i).around x = if x.index = i then none else a.around x := by
  simp only [around, scope?_vacate]
  split <;> rfl

theorem around_of_collect {values : List ν} {x : ScopeId} {p : Option ScopeId}
    (h : (a.collect scopeOf values).2.around x = some p) : a.around x = some p := by
  obtain ⟨scope, hs, rfl⟩ := Option.map_eq_some_iff.1 h
  exact Option.map_eq_some_iff.2 ⟨scope, (scope?_collect.1 hs).1, rfl⟩

theorem Tidy.occupied_extend (h : a.Tidy) (parent : ScopeId) (ho : a.occupied i = true) :
    (a.extend parent).2.occupied i = true := by
  obtain ⟨id, rfl, hid⟩ := exists_alive_iff.2 ho
  exact exists_alive_iff.1 ⟨id, rfl, (h.grows_extend parent).alive hid⟩

theorem occupied_vacate (a : Arena ν) (i j : Nat) :
    (a.vacate i).occupied j = (a.occupied j && decide (j ≠ i)) := by
  simp only [occupied, vacate, Array.getElem?_modify]
  by_cases hij : i = j
  · subst hij
    cases a.slots[i]? <;> simp
  · simp [hij, Ne.symm hij]

theorem occupied_foldl_vacate (indices : List Nat) (a : Arena ν) (j : Nat) :
    (indices.foldl vacate a).occupied j = (a.occupied j && decide (j ∉ indices)) := by
  induction indices generalizing a with
  | nil => simp
  | cons i rest ih =>
    rw [List.foldl_cons, ih, occupied_vacate]
    by_cases hr : j ∈ rest <;> by_cases hi : j = i <;> simp [hr, hi]

theorem occupied_of_unreached {values : List ν} (h : i ∈ a.unreached scopeOf values) :
    a.occupied i = true := by
  obtain ⟨slot, hslot, hscope⟩ := mem_unreached h
  rw [occupied_of_slot hslot, hscope]

theorem occupied_collect {values : List ν} : (a.collect scopeOf values).2.occupied i =
    (a.occupied i && decide (i ∉ a.unreached scopeOf values)) :=
  occupied_foldl_vacate _ a i

theorem generation_collect {values : List ν} : (a.collect scopeOf values).2.generation i =
    if i ∈ a.unreached scopeOf values then a.generation i + 1 else a.generation i :=
  generation_foldl_vacate (List.nodup_range.filter _) fun _ hj =>
    lt_of_occupied (occupied_of_unreached hj)

theorem size_foldl_vacate (indices : List Nat) (a : Arena ν) :
    (indices.foldl vacate a).slots.size = a.slots.size := by
  induction indices generalizing a with
  | nil => rfl
  | cons i rest ih => rw [List.foldl_cons, ih, vacate, Array.size_modify]

namespace Move

theorem tidy (h : Move scopeOf a b) (ha : a.Tidy) : b.Tidy := by
  cases h with
  | fill h => exact h.tidy ha
  | «open» parent h => exact h.tidy (ha.extend parent)
  | close hs hp =>
    obtain ⟨slot, hslot, -, hscope⟩ := scope?_eq_some_iff.1 hs
    exact ha.vacate hslot (by simp [hscope])
  | sweep values => exact ha.collect values

/-- The root scope is neither closed nor collected, and no new scope is like it. -/
theorem rooted (h : Move scopeOf a b) (ha : a.Tidy) (hr : a.Rooted) : b.Rooted := by
  cases h with
  | fill h => exact hr.of_around h.around_eq fun _ hid => h.around_eq ▸ hid
  | «open» parent h =>
    -- the new scope is inside one, and its handle is not that of the root, which is in use
    refine hr.of_around ?_ fun id hid => ?_
    · rw [h.around_eq, ha.around_extend, if_neg]
      intro hroot
      obtain ⟨scope, hs⟩ := hr.alive_root
      simp [hroot, ha.scope?_extend_self] at hs
    · rw [h.around_eq, ha.around_extend] at hid
      split at hid
      · simp at hid
      · exact hid
  | @close id scope hs hp =>
    refine hr.of_around ?_ fun x hx => ?_
    · rw [around_vacate, if_neg]
      intro hi
      obtain rfl := hr.alive_root.eq_of_index_eq ⟨scope, hs⟩ hi
      have hroot := hr.root
      simp [around, hs, hp] at hroot
    · rw [around_vacate] at hx
      split at hx
      · simp at hx
      · exact hx
  | sweep values =>
    refine hr.of_around ?_ fun _ => around_of_collect
    obtain ⟨scope, hs⟩ := hr.alive_root
    have kept : (a.collect scopeOf values).2.scope? .root = some scope :=
      scope?_collect.2 ⟨hs, .start (by simp) ⟨scope, hs⟩⟩
    simp [around, hs, kept]

/-- Slots are never given up, and one is added only when none is left free. -/
theorem size (h : Move scopeOf a b) (ha : a.Tidy) : a.slots.size ≤ b.slots.size ∧
    (b.slots.size = a.slots.size ∨ b.liveCount = b.slots.size) := by
  have hb := h.tidy ha
  cases h with
  | fill h => simp [h.size_eq]
  | «open» parent h =>
    rcases ha.extend_cases parent with ⟨i, free, slot, -, -, -, he⟩ | ⟨hfree, he⟩
    · simp [h.size_eq, he]
    · have full : b.free = [] := by simpa [he, allocate, hfree] using h.free.symm
      have all := hb.liveCount_add_length_free
      simp only [full, List.length_nil, Nat.add_zero] at all
      refine ⟨?_, .inr all⟩
      simp [h.size_eq, he, allocate]
  | close => simp [vacate]
  | sweep values => simp [collect, size_foldl_vacate]

/-- A generation goes up by one when its slot is emptied, and stays otherwise. -/
theorem generation_eq (h : Move scopeOf a b) (ha : a.Tidy) (i : Nat) : b.generation i =
    a.generation i + if a.occupied i = true ∧ b.occupied i = false then 1 else 0 := by
  cases h with
  | fill h => simp [h.generation_eq, h.occupied_eq]
  | «open» parent h =>
    have := ha.occupied_extend (i := i) parent
    rw [h.generation_eq, h.occupied_eq, ha.generation_extend, if_neg]
    · simp
    · grind
  | @close id scope hs hp =>
    have alive : a.Alive id := ⟨scope, hs⟩
    have used := (alive_iff.1 alive).1
    rw [generation_vacate alive.index_lt, occupied_vacate]
    by_cases hi : i = id.index
    · subst hi
      simp [used]
    · cases a.occupied i <;> simp [hi]
  | sweep values =>
    rw [generation_collect, occupied_collect]
    by_cases hi : i ∈ a.unreached scopeOf values
    · simp [hi, occupied_of_unreached hi]
    · cases a.occupied i <;> simp [hi]

end Move

/-! ### What a new scope takes -/

/-- A new scope takes no slot that is in use. -/
theorem Tidy.slot_extend (h : a.Tidy) (parent : ScopeId) {slot : Slot ν}
    (hs : a.slots[i]? = some slot) (used : slot.scope ≠ none) :
    (a.extend parent).2.slots[i]? = some slot := by
  rcases h.extend_cases parent with ⟨j, free, slot', -, hslot', hnone, he⟩ | ⟨-, he⟩
  · have other : j ≠ i := by
      rintro rfl
      obtain rfl : slot = slot' := by simpa [hs] using hslot'
      exact used hnone
    simp [he, Array.getElem?_modify, other, hs]
  · have hi : i < a.slots.size := (Array.getElem?_eq_some_iff.1 hs).1
    simp [he, allocate, Array.getElem?_push, hi.ne, hs]

/-- A slot is added when none is free. -/
theorem Tidy.size_extend (h : a.Tidy) (parent : ScopeId) :
    (a.extend parent).2.slots.size = a.slots.size + if a.free = [] then 1 else 0 := by
  rcases h.extend_cases parent with ⟨i, free, slot, hf, -, -, he⟩ | ⟨hf, he⟩
  · simp [he, hf]
  · simp [he, hf, allocate]

end Arena

end ScopeLang
