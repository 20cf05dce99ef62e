import Mathlib.Data.List.Perm.Subperm
import ScopeLang.Proofs.Scope.Slots

/-!
# Chains of scopes

The scopes around a scope form a chain of handles. Where the chain comes to an end it visits no
scope twice, hence it is no longer than there are slots, and looking for a name along it needs no
bound on the number of steps.

## Main definitions

* `Arena.Chain`, `Arena.Grounded` — the chain of a handle, and that it ends.
* `Arena.Search`, `Arena.SearchEnds` — looking for a name for as long as it takes, and that it ends.

## Main statements

* `Arena.Grounded.search` — along a chain that ends, a look-up is the unbounded search.
-/

namespace ScopeLang

namespace Arena

variable {ν : Type} {a b : Arena ν}

/-- The handles from `id` outward, up to the outermost scope or to a handle that resolves to
nothing. -/
inductive Chain (a : Arena ν) : ScopeId → List ScopeId → Prop where
  | released {id : ScopeId} : a.scope? id = none → Chain a id []
  | outermost {id : ScopeId} {scope : Scope ν} :
    a.scope? id = some scope → scope.parent = none → Chain a id [id]
  | inner {id parent : ScopeId} {scope : Scope ν} {rest : List ScopeId} :
    a.scope? id = some scope → scope.parent = some parent → Chain a parent rest →
      Chain a id (id :: rest)

/-- The chain of the handle comes to an end. -/
def Grounded (a : Arena ν) (id : ScopeId) : Prop := ∃ ids, a.Chain id ids

namespace Chain

variable {id : ScopeId} {ids : List ScopeId}

/-- A handle has one chain only. -/
theorem unique (h : a.Chain id ids) {ids' : List ScopeId} (h' : a.Chain id ids') : ids = ids' := by
  induction h generalizing ids' with
  | released hs => cases h' <;> simp_all
  | outermost hs hp => cases h' <;> simp_all
  | inner hs hp _ ih =>
    cases h' with
    | released hs' => simp_all
    | outermost hs' hp' => simp_all
    | inner hs' hp' hrest =>
      obtain rfl := Option.some.inj (hs.symm.trans hs')
      obtain rfl := Option.some.inj (hp.symm.trans hp')
      rw [ih hrest]

theorem alive (h : a.Chain id ids) {x : ScopeId} (hx : x ∈ ids) : a.Alive x := by
  induction h with
  | released => simp at hx
  | outermost hs => exact List.mem_singleton.1 hx ▸ ⟨_, hs⟩
  | inner hs _ _ ih =>
    rcases List.mem_cons.1 hx with rfl | hx
    · exact ⟨_, hs⟩
    · exact ih hx

/-- The rest of a chain is a chain. -/
theorem of_append {xs ys : List ScopeId} {x : ScopeId} (h : a.Chain id ids)
    (hids : ids = xs ++ x :: ys) : a.Chain x (x :: ys) := by
  induction h generalizing xs with
  | released => simp at hids
  | outermost hs hp =>
    cases xs with
    | nil =>
      obtain ⟨rfl, rfl⟩ : _ = x ∧ [] = ys := by simpa using hids
      exact .outermost hs hp
    | cons => simp at hids
  | inner hs hp hrest ih =>
    cases xs with
    | nil =>
      obtain ⟨rfl, rfl⟩ : _ = x ∧ _ = ys := by simpa using hids
      exact .inner hs hp hrest
    | cons y xs => exact ih (List.cons.inj hids).2

/-- A chain that ends visits no scope twice: from the second visit on it would go on for ever. -/
theorem nodup (h : a.Chain id ids) : ids.Nodup := by
  induction h with
  | released => exact List.nodup_nil
  | outermost => exact List.nodup_singleton _
  | @inner id parent scope rest hs hp hrest ih =>
    refine List.nodup_cons.2 ⟨fun hmem => ?_, ih⟩
    obtain ⟨xs, ys, hsplit⟩ := List.append_of_mem hmem
    have again : a.Chain id (id :: ys) := hrest.of_append hsplit
    have same : id :: rest = id :: ys := (Chain.inner hs hp hrest).unique again
    have := congrArg List.length hsplit
    simp only [List.cons.injEq, true_and] at same
    simp [same] at this
    omega

/-- The scopes of a chain lie in different slots. -/
theorem length_le (h : a.Chain id ids) : ids.length ≤ a.slots.size := by
  have distinct : (ids.map ScopeId.index).Nodup := by
    refine List.Nodup.map_on (fun x hx y hy hxy => ?_) h.nodup
    exact (h.alive hx).eq_of_index_eq (h.alive hy) hxy
  have within : ids.map ScopeId.index ⊆ List.range a.slots.size := by
    intro i hi
    obtain ⟨x, hx, rfl⟩ := List.mem_map.1 hi
    exact List.mem_range.2 (h.alive hx).index_lt
  simpa using (List.subperm_of_subset distinct within).length_le

end Chain

/-- A chain keeps its end when scopes on it disappear and the others keep their parents. It is
enough to look at handles with a property `P` that passes on to parents. -/
theorem Grounded.transfer {P : ScopeId → Prop}
    (outward : ∀ x scope p, P x → a.scope? x = some scope → scope.parent = some p → P p)
    (kept : ∀ x scope, P x → b.scope? x = some scope →
      ∃ scope', a.scope? x = some scope' ∧ scope'.parent = scope.parent)
    {id : ScopeId} (h : a.Grounded id) (hid : P id) : b.Grounded id := by
  obtain ⟨ids, h⟩ := h
  induction h with
  | @released id hs =>
    refine ⟨[], .released (Option.eq_none_iff_forall_ne_some.2 fun scope hb => ?_)⟩
    obtain ⟨_, ha, -⟩ := kept id scope hid hb
    simp [hs] at ha
  | @outermost id scope hs hp =>
    cases hb : b.scope? id with
    | none => exact ⟨[], .released hb⟩
    | some scope' =>
      obtain ⟨_, ha, hparent⟩ := kept id scope' hid hb
      obtain rfl := Option.some.inj (hs.symm.trans ha)
      exact ⟨[id], .outermost hb (hparent.symm.trans hp)⟩
  | @inner id parent scope rest hs hp _ ih =>
    obtain ⟨ids, hrest⟩ := ih (outward id scope parent hid hs hp)
    cases hb : b.scope? id with
    | none => exact ⟨[], .released hb⟩
    | some scope' =>
      obtain ⟨_, ha, hparent⟩ := kept id scope' hid hb
      obtain rfl := Option.some.inj (hs.symm.trans ha)
      exact ⟨id :: ids, .inner hb (hparent.symm.trans hp) hrest⟩

/-! ### Looking for a name -/

/-- Looking for a name from a scope outward, without a bound on the number of steps. -/
inductive Search (a : Arena ν) (name : String) : ScopeId → Option ScopeId → Prop where
  | released {id : ScopeId} : a.scope? id = none → Search a name id none
  | here {id : ScopeId} {scope : Scope ν} :
    a.scope? id = some scope → scope.bindings.binds name = true → Search a name id (some id)
  | outermost {id : ScopeId} {scope : Scope ν} :
    a.scope? id = some scope → scope.bindings.binds name = false → scope.parent = none →
      Search a name id none
  | outward {id parent : ScopeId} {scope : Scope ν} {found : Option ScopeId} :
    a.scope? id = some scope → scope.bindings.binds name = false → scope.parent = some parent →
      Search a name parent found → Search a name id found

/-- The search comes to an end. -/
def SearchEnds (a : Arena ν) (name : String) (id : ScopeId) : Prop := ∃ found, a.Search name id found

theorem Search.unique {name : String} {id : ScopeId} {found found' : Option ScopeId}
    (h : a.Search name id found) (h' : a.Search name id found') : found = found' := by
  induction h generalizing found' with
  | released => cases h' <;> simp_all
  | here => cases h' <;> simp_all
  | outermost => cases h' <;> simp_all
  | outward hs hb hp _ ih =>
    cases h' with
    | released | here | outermost => simp_all
    | outward hs' hb' hp' hrest =>
      obtain rfl := Option.some.inj (hs.symm.trans hs')
      obtain rfl := Option.some.inj (hp.symm.trans hp')
      exact ih hrest

theorem Chain.search_lookupWithin {id : ScopeId} {ids : List ScopeId} (h : a.Chain id ids)
    (name : String) {steps : Nat} (hsteps : ids.length ≤ steps) :
    a.Search name id (a.lookupWithin name steps id) := by
  induction h generalizing steps with
  | released hs => cases steps <;> simpa [lookupWithin, hs] using .released hs
  | @outermost id scope hs hp =>
    obtain ⟨steps, rfl⟩ : ∃ n, steps = n + 1 := ⟨steps - 1, by simp at hsteps; omega⟩
    cases hb : scope.bindings.binds name with
    | true => simpa [lookupWithin, hs, hb] using .here hs hb
    | false => simpa [lookupWithin, hs, hb, hp] using .outermost hs hb hp
  | @inner id parent scope rest hs hp _ ih =>
    obtain ⟨steps, rfl⟩ : ∃ n, steps = n + 1 := ⟨steps - 1, by simp at hsteps; omega⟩
    cases hb : scope.bindings.binds name with
    | true => simpa [lookupWithin, hs, hb] using .here hs hb
    | false =>
      have hrest : rest.length ≤ steps := by simpa using hsteps
      simpa [lookupWithin, hs, hb, hp] using .outward hs hb hp (ih hrest)

/-- Along a chain that ends, a look-up finds what the unbounded search finds. -/
theorem Grounded.search {id : ScopeId} (h : a.Grounded id) (name : String) :
    a.Search name id (a.lookup id name) := by
  obtain ⟨ids, h⟩ := h
  exact h.search_lookupWithin name h.length_le

end Arena

end ScopeLang
