import ScopeLang.Proofs.Scope.Chain
import ScopeLang.Proofs.Scope.Layout

/-!
# The names that scopes keep

An assignment binds a name where it is bound already, or else in the scope that is inside no other. So
a scope never loses a name, and it gets a new one only if it is the root. What a name refers to, as
seen from a scope that is in use, can then change in one way only: a name that referred to nothing
comes to be bound in the root.

## Main definitions

* `Scope.Keeps` — a scope with the names that it had, and new ones only if it is inside no other.
* `Arena.KeepsNames` — a scope in use stays so, with its names.
* `Arena.Refers` — what a name refers to before and after.

## Main statements

* `Arena.KeepsNames.set` — assignments let all scopes keep their names.
* `Arena.Search.stable` — what a name refers to when all scopes keep their names.
-/

namespace ScopeLang

variable {ν : Type}

/-- The scope has stayed where it was and kept its names. It has got new ones only if it is inside no
other scope. -/
structure Scope.Keeps (scope scope' : Scope ν) : Prop where
  parent : scope'.parent = scope.parent
  names : ∀ name, scope.bindings.binds name = true → scope'.bindings.binds name = true
  only : scope.parent ≠ none →
    ∀ name, scope'.bindings.binds name = true → scope.bindings.binds name = true

namespace Scope.Keeps

theorem refl (scope : Scope ν) : scope.Keeps scope := ⟨rfl, fun _ => id, fun _ _ => id⟩

theorem trans {s t u : Scope ν} (h : s.Keeps t) (h' : t.Keeps u) : s.Keeps u where
  parent := h'.parent.trans h.parent
  names name hs := h'.names name (h.names name hs)
  only hp name hu := h.only hp name (h'.only (h.parent ▸ hp) name hu)

end Scope.Keeps

namespace Arena

variable {a b c : Arena ν} {id x : ScopeId} {name : String} {value : ν}

/-- The scope is in use and stays so with its names. -/
def KeepsNames (a b : Arena ν) (x : ScopeId) : Prop :=
  ∃ scope scope', a.scope? x = some scope ∧ b.scope? x = some scope' ∧ scope.Keeps scope'

/-! ### What assignments do -/

theorem binds_insert {bs : Bindings ν} {other : String} :
    (bs.insert name value).binds other = true ↔ other = name ∨ bs.binds other = true := by
  unfold Bindings.binds
  by_cases h : other = name
  · simp [h]
  · simp [Bindings.get?_insert_of_ne h, h]

/-- A name is found in a scope that binds it. -/
theorem binds_of_lookup (h : a.lookup id name = some x) :
    ∃ scope, a.scope? x = some scope ∧ scope.bindings.binds name = true := by
  unfold lookup at h
  generalize a.slots.size = steps at h
  induction steps generalizing id with
  | zero => simp [lookupWithin] at h
  | succ steps ih =>
    unfold lookupWithin at h
    split at h
    · cases h
    · rename_i scope hs
      split at h
      · rename_i hb
        cases h
        exact ⟨scope, hs, hb⟩
      · split at h
        · cases h
        · exact ih h

/-- An assignment binds a name where it is bound already, or else in a scope that is inside none. -/
theorem set_cases (h : a.set id name value = .ok b) : ∃ target scope,
    b = a.define target name value ∧ a.scope? target = some scope ∧
      (scope.bindings.binds name = true ∨ scope.parent = none) := by
  unfold set at h
  split at h
  · rename_i target found
    cases h
    obtain ⟨scope, hs, hb⟩ := binds_of_lookup found
    exact ⟨target, scope, rfl, hs, .inl hb⟩
  · split at h
    · rename_i root
      cases h
      obtain ⟨scope, hs, hp⟩ := Option.map_eq_some_iff.1 (isRoot_iff.1 root)
      exact ⟨id, scope, rfl, hs, .inr hp⟩
    · cases h

namespace KeepsNames

theorem of_scope?_eq (hx : a.Alive x) (same : b.scope? x = a.scope? x) : a.KeepsNames b x := by
  obtain ⟨scope, hs⟩ := hx
  exact ⟨scope, scope, hs, same.trans hs, .refl scope⟩

theorem refl (hx : a.Alive x) : a.KeepsNames a x := .of_scope?_eq hx rfl

theorem trans (h : a.KeepsNames b x) (h' : b.KeepsNames c x) : a.KeepsNames c x := by
  obtain ⟨s, t, hs, ht, hst⟩ := h
  obtain ⟨t', u, ht', hu, htu⟩ := h'
  obtain rfl := Option.some.inj (ht.symm.trans ht')
  exact ⟨s, u, hs, hu, hst.trans htu⟩

theorem alive_right (h : a.KeepsNames b x) : b.Alive x := by
  obtain ⟨-, scope, -, hs, -⟩ := h
  exact ⟨scope, hs⟩

theorem capture (hx : a.Alive x) (id : ScopeId) : a.KeepsNames (a.capture id) x := by
  by_cases hid : x = id
  · subst hid
    obtain ⟨scope, hs⟩ := hx
    exact ⟨scope, { scope with captured := true }, hs, by simp [Arena.capture, scope?_update, hs],
      ⟨rfl, fun _ => id, fun _ _ => id⟩⟩
  · exact .of_scope?_eq hx (by rw [Arena.capture, scope?_update, if_neg hid])

theorem define_of_ne (hx : a.Alive x) (hid : x ≠ id) (name : String) (value : ν) :
    a.KeepsNames (a.define id name value) x :=
  .of_scope?_eq hx (by rw [define, scope?_update, if_neg hid])

/-- An assignment adds no name to a scope inside another one. -/
theorem set (hx : a.Alive x) (hset : a.set id name value = .ok b) : a.KeepsNames b x := by
  obtain ⟨target, scope, rfl, hs, hbound⟩ := set_cases hset
  by_cases hid : x = target
  · subst hid
    refine ⟨scope, { scope with bindings := scope.bindings.insert name value }, hs,
      by simp [define, scope?_update, hs], rfl, fun other hb => binds_insert.2 (.inr hb), ?_⟩
    intro hp other hb
    rcases binds_insert.1 hb with rfl | hb
    · exact hbound.resolve_right hp
    · exact hb
  · exact .define_of_ne hx hid name value

theorem extend (hx : a.Alive x) (ha : a.Tidy) (parent : ScopeId) :
    a.KeepsNames (a.extend parent).2 x := by
  refine .of_scope?_eq hx ?_
  rw [ha.scope?_extend, if_neg]
  rintro rfl
  exact scope?_eq_none_iff.1 (ha.scope?_extend_self parent) hx

theorem release (hx : a.Alive x) (hid : x ≠ id) : a.KeepsNames (a.release id) x :=
  .of_scope?_eq hx (scope?_release_of_ne hx hid)

end KeepsNames

/-! ### What names refer to -/

/-- What a name refers to stays the same, except that a name which refers to nothing may come to be
bound in the root. -/
structure Refers (before after : Option ScopeId) : Prop where
  found : ∀ x, before = some x → after = some x
  missing : before = none → after = none ∨ after = some .root

theorem Refers.refl (found : Option ScopeId) : Refers found found := ⟨fun _ => id, .inl⟩

/-- Looking for a name from a handle outward finds the same when all scopes in use keep their names
and the handles on the way that are stale stay so. -/
theorem Search.stable {P : ScopeId → Prop} {found : Option ScopeId}
    (outward : ∀ y scope p, P y → a.scope? y = some scope → scope.parent = some p → P p)
    (kept : ∀ y, a.Alive y → a.KeepsNames b y) (stale : ∀ y, P y → ¬ a.Alive y → ¬ b.Alive y)
    (only : ∀ y, a.around y = some none → y = .root) (h : a.Search name x found) (hx : P x) :
    ∃ found', b.Search name x found' ∧ Refers found found' := by
  induction h with
  | @released id hs =>
    have gone := stale id hx (scope?_eq_none_iff.1 hs)
    exact ⟨none, .released (scope?_eq_none_iff.2 gone), .refl none⟩
  | @here id scope hs hb =>
    obtain ⟨_, scope', hs₀, hs', keeps⟩ := kept id ⟨scope, hs⟩
    obtain rfl := Option.some.inj (hs.symm.trans hs₀)
    exact ⟨some id, .here hs' (keeps.names name hb), .refl _⟩
  | @outermost id scope hs hb hp =>
    obtain ⟨_, scope', hs₀, hs', keeps⟩ := kept id ⟨scope, hs⟩
    obtain rfl := Option.some.inj (hs.symm.trans hs₀)
    cases hb' : scope'.bindings.binds name with
    | false => exact ⟨none, .outermost hs' hb' (keeps.parent.trans hp), .refl none⟩
    | true =>
      -- the scope is inside no other, so it is the root, and may have got the name
      obtain rfl := only id (by simp [around, hs, hp])
      exact ⟨some .root, .here hs' hb', by simp, fun _ => .inr rfl⟩
  | @outward id p scope found hs hb hp _ ih =>
    obtain ⟨_, scope', hs₀, hs', keeps⟩ := kept id ⟨scope, hs⟩
    obtain rfl := Option.some.inj (hs.symm.trans hs₀)
    obtain ⟨found', hfound, refers⟩ := ih (outward id scope p hx hs hp)
    have unbound : scope'.bindings.binds name = false := by
      refine Bool.eq_false_iff.2 fun hb' => ?_
      simp [keeps.only (by simp [hp]) name hb'] at hb
    exact ⟨found', .outward hs' unbound (keeps.parent.trans hp) hfound, refers⟩

end Arena

end ScopeLang
