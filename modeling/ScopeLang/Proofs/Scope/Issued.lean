import ScopeLang.Proofs.Scope.Reach

/-!
# Handles that were given out

A client may keep a handle for longer than its scope is in use. As long as no generation starts
over, a new scope never gets a handle that was given out before, so no scope ends up inside itself:
every chain comes to an end, and with it every look-up, whatever handles the client uses.

## Main definitions

* `Arena.Issued` — a handle that was given out.
* `Arena.GenLe` — no generation starts over.
* `Arena.Regular` — the arena holds handles only that were given out, and every chain ends.
-/

namespace ScopeLang

namespace Arena

variable {ν : Type} {a b c : Arena ν} {scopeOf : ν → Option ScopeId} {id x : ScopeId} {i j : Nat}

/-- The generation of a slot. -/
def generation (a : Arena ν) (i : Nat) : UInt32 := (a.slots[i]?).elim 0 Slot.generation

/-- A handle that was given out, to a scope in use or to an earlier scope of the same slot. -/
def Issued (a : Arena ν) (id : ScopeId) : Prop := a.Alive id ∨ id.generation < a.generation id.index

/-- No generation is smaller in the second arena. -/
def GenLe (a b : Arena ν) : Prop := ∀ i, a.generation i ≤ b.generation i

theorem Alive.generation_eq (h : a.Alive id) : id.generation = a.generation id.index := by
  obtain ⟨scope, hs⟩ := h
  obtain ⟨slot, hslot, hg, -⟩ := scope?_eq_some_iff.1 hs
  simp [generation, hslot, hg]

/-- Handles stay given out when generations do not fall, and rise with every scope that goes. -/
theorem Issued.of_genLe (h : GenLe a b)
    (gone : ∀ x, a.Alive x → ¬ b.Alive x → a.generation x.index ≠ b.generation x.index)
    (hx : a.Issued x) : b.Issued x := by
  have hle := h x.index
  rcases hx with hx | hlt
  · by_cases hb : b.Alive x
    · exact .inl hb
    · have hne := gone x hx hb
      rw [← hx.generation_eq] at hle hne
      right
      grind
  · right
    grind

/-! ### What the operations do to generations -/

@[simp] theorem generation_update {f : Scope ν → Scope ν} :
    (a.update id f).generation i = a.generation i := by
  simp only [generation, update, Array.getElem?_modify]
  by_cases hi : id.index = i
  · cases a.slots[i]? with
    | none => simp
    | some slot => by_cases hg : slot.generation = id.generation <;> simp [hi, hg]
  · simp [hi]

theorem Issued.update {f : Scope ν → Scope ν} (h : a.Issued x) : (a.update id f).Issued x := by
  simpa [Issued] using h

theorem Tidy.generation_extend (h : a.Tidy) (parent : ScopeId) :
    (a.extend parent).2.generation i = a.generation i := by
  rcases h.extend_cases parent with ⟨j, free, slot, -, hslot, -, he⟩ | ⟨-, he⟩
  · simp only [he, generation, Array.getElem?_modify]
    by_cases hj : j = i
    · subst hj
      simp [hslot]
    · simp [hj]
  · simp only [he, allocate, generation, Array.getElem?_push]
    by_cases hi : i = a.slots.size <;> simp [hi]

theorem Tidy.issued_extend (h : a.Tidy) (parent : ScopeId) (hx : a.Issued x) :
    (a.extend parent).2.Issued x := by
  refine hx.imp (h.grows_extend parent).alive fun hlt => ?_
  rwa [h.generation_extend]

theorem Tidy.issued_extend_self (h : a.Tidy) (parent : ScopeId) :
    (a.extend parent).2.Issued (a.extend parent).1 :=
  .inl (h.alive_extend_self parent)

/-- A new scope does not get a handle that was given out before. -/
theorem Tidy.not_issued_extend_self (h : a.Tidy) (parent : ScopeId) :
    ¬ a.Issued (a.extend parent).1 := by
  rintro (hx | hlt)
  · exact scope?_eq_none_iff.1 (h.scope?_extend_self parent) hx
  · have hg := (h.alive_extend_self parent).generation_eq
    rw [h.generation_extend] at hg
    grind

theorem generation_vacate (hi : i < a.slots.size) :
    (a.vacate i).generation j = if j = i then a.generation j + 1 else a.generation j := by
  simp only [generation, vacate, Array.getElem?_modify]
  by_cases hij : i = j
  · subst hij
    simp [hi]
  · simp [hij, Ne.symm hij]

theorem generation_foldl_vacate {indices : List Nat} (distinct : indices.Nodup)
    (hin : ∀ i ∈ indices, i < a.slots.size) : (indices.foldl vacate a).generation j =
      if j ∈ indices then a.generation j + 1 else a.generation j := by
  induction indices generalizing a with
  | nil => simp
  | cons i rest ih =>
    obtain ⟨hi, distinct⟩ := List.nodup_cons.1 distinct
    obtain ⟨hlt, hrest⟩ := List.forall_mem_cons.1 hin
    rw [List.foldl_cons, ih distinct (by simpa [vacate] using hrest), generation_vacate hlt]
    by_cases hj : j = i
    · subst hj
      simp [hi]
    · simp [hj]

theorem Issued.release (h : GenLe a (a.release id)) (hx : a.Issued x) :
    (a.release id).Issued x := by
  refine hx.of_genLe h fun y hy hgone => ?_
  rcases a.release_cases id with he | ⟨scope, hs, -, -, he⟩
  · exact absurd hy (by rwa [he] at hgone)
  · have hi : y.index = id.index := by
      by_contra hne
      obtain ⟨scope', hs'⟩ := hy
      exact hgone ⟨scope', by rw [he, scope?_vacate, if_neg hne, hs']⟩
    rw [he, generation_vacate (Alive.index_lt ⟨scope, hs⟩), if_pos hi]
    grind

theorem Issued.collect {values : List ν} (h : GenLe a (a.collect scopeOf values).2)
    (hx : a.Issued x) : (a.collect scopeOf values).2.Issued x := by
  refine hx.of_genLe h fun y hy hgone => ?_
  have hmem : y.index ∈ a.unreached scopeOf values :=
    (index_mem_unreached_iff hy).2 fun hreach => hgone (alive_collect_iff.2 hreach)
  have hin : ∀ i ∈ a.unreached scopeOf values, i < a.slots.size := by
    intro i hi
    obtain ⟨slot, hslot, -⟩ := mem_unreached hi
    exact (Array.getElem?_eq_some_iff.1 hslot).1
  have distinct : (a.unreached scopeOf values).Nodup := List.nodup_range.filter _
  simp only [Arena.collect, generation_foldl_vacate distinct hin, if_pos hmem]
  grind

/-! ### The invariant -/

/-- Every handle in the arena was given out, and every chain comes to an end. -/
structure Regular (scopeOf : ν → Option ScopeId) (a : Arena ν) : Prop where
  tidy : a.Tidy
  issued : ∀ {id scope x}, a.scope? id = some scope → x ∈ successors scopeOf scope → a.Issued x
  grounded : ∀ id, a.Grounded id

namespace Regular

theorem new : (Arena.new : Arena ν).Regular scopeOf := by
  have sound : (Arena.new : Arena ν).Sound scopeOf := .new
  refine ⟨sound.tidy, fun hs hx => .inl (sound.held hs hx).alive, fun id => ?_⟩
  by_cases hid : (Arena.new : Arena ν).Alive id
  · exact sound.grounded hid
  · exact ⟨[], .released (scope?_eq_none_iff.2 hid)⟩

/-- Chains end wherever the scopes that are left have their parents from before. -/
theorem grounded_of_parents (h : a.Regular scopeOf)
    (kept : ∀ x scope, b.scope? x = some scope →
      ∃ scope', a.scope? x = some scope' ∧ scope'.parent = scope.parent) (id : ScopeId) :
    b.Grounded id :=
  (h.grounded id).transfer (P := fun _ => True) (fun _ _ _ _ _ _ => trivial)
    (fun x scope _ => kept x scope) trivial

theorem update (h : a.Regular scopeOf) {f : Scope ν → Scope ν}
    (hp : ∀ scope, (f scope).parent = scope.parent)
    (hs : ∀ scope, a.scope? id = some scope →
      ∀ x ∈ successors scopeOf (f scope), x ∈ successors scopeOf scope ∨ a.Issued x) :
    (a.update id f).Regular scopeOf := by
  refine { tidy := h.tidy.update id f, issued := ?issued, grounded := ?grounded }
  case issued =>
    intro x scope y hx hy
    obtain ⟨scope', hx', -, hsucc⟩ := scope?_of_update hp hs hx
    rcases hsucc _ hy with hy | hissued
    · exact (h.issued hx' hy).update
    · exact hissued.update
  case grounded =>
    intro x
    apply h.grounded_of_parents
    intro y scope hy
    obtain ⟨scope', hy', hp', -⟩ := scope?_of_update hp hs hy
    exact ⟨scope', hy', hp'⟩

theorem define (h : a.Regular scopeOf) (id : ScopeId) (name : String) {value : ν}
    (hv : ∀ x, scopeOf value = some x → a.Issued x) : (a.define id name value).Regular scopeOf := by
  refine h.update (fun _ => rfl) fun scope _ x hx => ?_
  exact (mem_successors_insert hx).imp_right (hv x)

theorem capture (h : a.Regular scopeOf) (id : ScopeId) : (a.capture id).Regular scopeOf :=
  h.update (fun _ => rfl) fun _ _ _ hx => .inl hx

/-- A new scope lies on no chain that was there before, and its own goes on where the chain of its
parent was. -/
theorem extend (h : a.Regular scopeOf) {parent : ScopeId} (hparent : a.Issued parent) :
    (a.extend parent).2.Regular scopeOf := by
  have before {x} (hx : a.Issued x) : (a.extend parent).2.Grounded x := by
    refine (h.grounded x).transfer (P := a.Issued) ?_ ?_ hx
    · intro y scope p _ hy hp
      exact h.issued hy (mem_successors_of_parent hp)
    · intro y scope hy hs
      rcases h.tidy.scope?_of_extend hs with hs | ⟨rfl, -⟩
      · exact ⟨scope, hs, rfl⟩
      · exact absurd hy (h.tidy.not_issued_extend_self parent)
  refine { tidy := h.tidy.extend parent, issued := ?issued, grounded := ?grounded }
  case issued =>
    intro x scope y hx hy
    rcases h.tidy.scope?_of_extend hx with hx | ⟨-, rfl⟩
    · exact h.tidy.issued_extend parent (h.issued hx hy)
    · obtain rfl : _ = parent := by simpa [successors] using hy
      exact h.tidy.issued_extend _ hparent
  case grounded =>
    intro x
    cases hx : (a.extend parent).2.scope? x with
    | none => exact ⟨[], .released hx⟩
    | some scope =>
      rcases h.tidy.scope?_of_extend hx with hs | ⟨-, rfl⟩
      · exact before (.inl ⟨scope, hs⟩)
      · obtain ⟨ids, hids⟩ := before hparent
        exact ⟨_, .inner hx rfl hids⟩

/-- Scopes may go as long as their handles stay given out. -/
theorem shrink (h : a.Regular scopeOf) (tidy : b.Tidy) (issued : ∀ x, a.Issued x → b.Issued x)
    (sub : ∀ x scope, b.scope? x = some scope → a.scope? x = some scope) : b.Regular scopeOf where
  tidy := tidy
  issued hs hx := issued _ (h.issued (sub _ _ hs) hx)
  grounded := h.grounded_of_parents fun x scope hx => ⟨scope, sub x scope hx, rfl⟩

theorem release (h : a.Regular scopeOf) (hle : GenLe a (a.release id)) :
    (a.release id).Regular scopeOf :=
  h.shrink (h.tidy.release id) (fun _ => .release hle) fun _ _ => scope?_of_release

theorem collect (h : a.Regular scopeOf) {values : List ν}
    (hle : GenLe a (a.collect scopeOf values).2) : (a.collect scopeOf values).2.Regular scopeOf :=
  h.shrink (h.tidy.collect values) (fun _ => .collect hle) fun _ _ hx => (scope?_collect.1 hx).1

end Regular

end Arena

end ScopeLang
