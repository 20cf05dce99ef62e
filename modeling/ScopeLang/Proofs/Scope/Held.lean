import ScopeLang.Proofs.Scope.Chain
import ScopeLang.Scope.Collect

/-!
# Handles that are held

A scope that was never captured is closed with its call, so nothing may hold on to it. The arena is
sound when all handles in it, those of parents and those that bound values carry, are held: they
lead to a scope that was captured, or to the outermost one. Since opening, closing and changing
scopes keep what is held, a value that was safe to carry stays so while an evaluation lasts.

## Main definitions

* `Arena.Held` — a handle to a scope that is not closed with a call.
* `Arena.Sound` — the invariant of the arena.
* `Arena.Grows` — scopes in use stay in use, inside the same scopes, and stay captured.
-/

namespace ScopeLang

namespace Arena

variable {ν : Type} {a b c : Arena ν} {scopeOf : ν → Option ScopeId}

/-! ### What a scope leads to -/

theorem mem_successors_of_parent {scope : Scope ν} {x : ScopeId} (h : scope.parent = some x) :
    x ∈ successors scopeOf scope := by
  simp [successors, h]

theorem mem_successors_of_bound {scope : Scope ν} {x : ScopeId} {name : String} {value : ν}
    (h : (name, value) ∈ scope.bindings) (hx : scopeOf value = some x) :
    x ∈ successors scopeOf scope :=
  List.mem_append_right _ (List.mem_filterMap.2 ⟨(name, value), h, hx⟩)

/-- Binding a name to a value adds no binding but that one. -/
theorem mem_insert {name : String} {value : ν} {bs : Bindings ν} {b : String × ν}
    (h : b ∈ bs.insert name value) : b ∈ bs ∨ b = (name, value) := by
  induction bs with
  | nil => simpa [Bindings.insert] using h
  | cons first rest ih =>
    obtain ⟨n, v⟩ := first
    by_cases hn : n = name
    · simp only [Bindings.insert, hn, if_true, List.mem_cons] at h ⊢
      exact h.elim .inr fun h => .inl (.inr h)
    · simp only [Bindings.insert, hn, if_false, List.mem_cons] at h ⊢
      rcases h with h | h
      · exact .inl (.inl h)
      · exact (ih h).imp .inr fun h => h

/-- Binding a name in a scope makes it lead to nothing new but what the value carries. -/
theorem mem_successors_insert {scope : Scope ν} {name : String} {value : ν} {x : ScopeId}
    (hx : x ∈ successors scopeOf { scope with bindings := scope.bindings.insert name value }) :
    x ∈ successors scopeOf scope ∨ scopeOf value = some x := by
  rcases List.mem_append.1 hx with hx | hx
  · exact .inl (List.mem_append_left _ hx)
  · obtain ⟨⟨n, v⟩, hb, hbx⟩ := List.mem_filterMap.1 hx
    rcases mem_insert hb with hb | hnew
    · exact .inl (mem_successors_of_bound hb hbx)
    · obtain ⟨rfl, rfl⟩ := Prod.mk.inj hnew
      exact .inr hbx

/-! ### The invariant -/

/-- A handle to a scope that outlives the call it belongs to. -/
def Held (a : Arena ν) (id : ScopeId) : Prop :=
  ∃ scope, a.scope? id = some scope ∧ (scope.captured = true ∨ scope.parent = none)

theorem Held.alive {id : ScopeId} (h : a.Held id) : a.Alive id := by
  obtain ⟨scope, hs, -⟩ := h
  exact ⟨scope, hs⟩

/-- All handles in the arena are held, and only the root scope is inside no other. -/
structure Sound (scopeOf : ν → Option ScopeId) (a : Arena ν) : Prop where
  tidy : a.Tidy
  root : ∃ scope, a.scope? .root = some scope ∧ scope.parent = none
  outermost : ∀ {id scope}, a.scope? id = some scope → scope.parent = none → id = .root
  held : ∀ {id scope x}, a.scope? id = some scope → x ∈ successors scopeOf scope → a.Held x
  grounded : ∀ {id}, a.Alive id → a.Grounded id

/-- Every scope in use stays in use, inside the same scope, and stays captured if it was. -/
def Grows (a b : Arena ν) : Prop :=
  ∀ id scope, a.scope? id = some scope → ∃ scope', b.scope? id = some scope' ∧
    scope'.parent = scope.parent ∧ (scope.captured = true → scope'.captured = true)

namespace Grows

theorem refl (a : Arena ν) : Grows a a := fun _ scope hs => ⟨scope, hs, rfl, id⟩

theorem trans (h : Grows a b) (h' : Grows b c) : Grows a c := by
  intro id scope hs
  obtain ⟨scope', hs', hp, hc⟩ := h id scope hs
  obtain ⟨scope'', hs'', hp', hc'⟩ := h' id scope' hs'
  exact ⟨scope'', hs'', hp'.trans hp, hc' ∘ hc⟩

theorem alive (h : Grows a b) {id : ScopeId} (hid : a.Alive id) : b.Alive id := by
  obtain ⟨scope, hs⟩ := hid
  obtain ⟨scope', hs', -⟩ := h id scope hs
  exact ⟨scope', hs'⟩

theorem held (h : Grows a b) {id : ScopeId} (hid : a.Held id) : b.Held id := by
  obtain ⟨scope, hs, hheld⟩ := hid
  obtain ⟨scope', hs', hp, hc⟩ := h id scope hs
  exact ⟨scope', hs', hheld.imp hc fun hn => hp.trans hn⟩

end Grows

namespace Sound

theorem held_root (h : a.Sound scopeOf) : a.Held .root := by
  obtain ⟨scope, hs, hp⟩ := h.root
  exact ⟨scope, hs, .inr hp⟩

/-- The scope around a scope in use is in use. -/
theorem alive_parent (h : a.Sound scopeOf) {id p : ScopeId} {scope : Scope ν}
    (hs : a.scope? id = some scope) (hp : scope.parent = some p) : a.Alive p :=
  (h.held hs (mem_successors_of_parent hp)).alive

theorem new : (Arena.new : Arena ν).Sound scopeOf := by
  refine ⟨tidy_new, ⟨{}, rfl, rfl⟩, fun hs _ => (eq_of_scope?_new hs).1, fun hs hx => ?_,
    fun hid => ?_⟩
  · obtain ⟨-, rfl⟩ := eq_of_scope?_new hs
    simp [successors] at hx
  · obtain ⟨scope, hs⟩ := hid
    obtain ⟨-, rfl⟩ := eq_of_scope?_new hs
    exact ⟨_, .outermost hs rfl⟩

/-- The root scope stays the outermost one as the arena grows. -/
theorem root_of_grows (h : a.Sound scopeOf) (hab : Grows a b) :
    ∃ scope, b.scope? .root = some scope ∧ scope.parent = none := by
  obtain ⟨scope, hs, hp⟩ := h.root
  obtain ⟨scope', hs', hp', -⟩ := hab .root scope hs
  exact ⟨scope', hs', hp'.trans hp⟩

/-- A chain that ends still ends when the scopes in use keep their parents. -/
theorem grounded_of_parents (h : a.Sound scopeOf) {id : ScopeId} (hid : a.Alive id)
    (kept : ∀ x scope, a.Alive x → b.scope? x = some scope →
      ∃ scope', a.scope? x = some scope' ∧ scope'.parent = scope.parent) : b.Grounded id := by
  refine (h.grounded hid).transfer (P := a.Alive) (fun x scope p _ hs hp => ?_) kept hid
  exact h.alive_parent hs hp

end Sound

/-! ### Changing a scope -/

section Update

variable {id : ScopeId} {f : Scope ν → Scope ν}

theorem grows_update (hp : ∀ scope, (f scope).parent = scope.parent)
    (hc : ∀ scope, scope.captured = true → (f scope).captured = true) :
    Grows a (a.update id f) := by
  intro x scope hs
  by_cases hx : x = id
  · subst hx
    exact ⟨f scope, by simp [scope?_update, hs], hp scope, hc scope⟩
  · exact ⟨scope, by simp [scope?_update, hx, hs], rfl, fun h => h⟩

/-- A scope after the change is inside the same scope as before, and leads to nothing new but what
the change adds. -/
theorem scope?_of_update {P : ScopeId → Prop} (hp : ∀ scope, (f scope).parent = scope.parent)
    (hs : ∀ scope, a.scope? id = some scope →
      ∀ x ∈ successors scopeOf (f scope), x ∈ successors scopeOf scope ∨ P x)
    {x : ScopeId} {scope : Scope ν} (hx : (a.update id f).scope? x = some scope) :
    ∃ scope', a.scope? x = some scope' ∧ scope'.parent = scope.parent ∧
      ∀ y ∈ successors scopeOf scope, y ∈ successors scopeOf scope' ∨ P y := by
  rw [scope?_update] at hx
  split at hx
  · subst x
    obtain ⟨scope', hs', rfl⟩ := Option.map_eq_some_iff.1 hx
    exact ⟨scope', hs', (hp scope').symm, hs scope' hs'⟩
  · exact ⟨scope, hx, rfl, fun _ => .inl⟩

theorem Sound.update (h : a.Sound scopeOf) (hp : ∀ scope, (f scope).parent = scope.parent)
    (hc : ∀ scope, scope.captured = true → (f scope).captured = true)
    (hs : ∀ scope, a.scope? id = some scope →
      ∀ x ∈ successors scopeOf (f scope), x ∈ successors scopeOf scope ∨ a.Held x) :
    (a.update id f).Sound scopeOf := by
  have grows : Grows a (a.update id f) := grows_update hp hc
  refine { tidy := h.tidy.update id f, root := h.root_of_grows grows, outermost := ?outermost,
           held := ?held, grounded := ?grounded }
  case outermost =>
    intro x scope hx hn
    obtain ⟨scope', hx', hp', -⟩ := scope?_of_update hp hs hx
    exact h.outermost hx' (hp'.trans hn)
  case held =>
    intro x scope y hx hy
    obtain ⟨scope', hx', -, hsucc⟩ := scope?_of_update hp hs hx
    rcases hsucc _ hy with hy | hheld
    · exact grows.held (h.held hx' hy)
    · exact grows.held hheld
  case grounded =>
    intro x hx
    apply h.grounded_of_parents (alive_update.1 hx)
    intro y scope _ hy
    obtain ⟨scope', hy', hp', -⟩ := scope?_of_update hp hs hy
    exact ⟨scope', hy', hp'⟩

end Update

theorem grows_define (a : Arena ν) (id : ScopeId) (name : String) (value : ν) :
    Grows a (a.define id name value) := grows_update (fun _ => rfl) fun _ h => h

/-- A value may be bound in any scope when the handle it carries is held. -/
theorem Sound.define (h : a.Sound scopeOf) (id : ScopeId) (name : String) {value : ν}
    (hv : ∀ x, scopeOf value = some x → a.Held x) : (a.define id name value).Sound scopeOf :=
  h.update (fun _ => rfl) (fun _ h => h) fun _ _ x hx => (mem_successors_insert hx).imp_right (hv x)

theorem grows_capture (a : Arena ν) (id : ScopeId) : Grows a (a.capture id) :=
  grows_update (fun _ => rfl) fun _ _ => rfl

theorem Sound.capture (h : a.Sound scopeOf) (id : ScopeId) : (a.capture id).Sound scopeOf :=
  h.update (fun _ => rfl) (fun _ _ => rfl) fun _ _ _ hx => .inl hx

/-- Capturing a scope in use makes its handle safe to carry. -/
theorem held_capture {id : ScopeId} (h : a.Alive id) : (a.capture id).Held id := by
  obtain ⟨scope, hs⟩ := h
  exact ⟨{ scope with captured := true }, by simp [Arena.capture, scope?_update, hs], .inl rfl⟩

/-! ### Opening a scope -/

theorem Tidy.grows_extend (h : a.Tidy) (parent : ScopeId) : Grows a (a.extend parent).2 := by
  intro x scope hs
  have hx : x ≠ (a.extend parent).1 := by
    rintro rfl
    simp [h.scope?_extend_self] at hs
  exact ⟨scope, by simp [h.scope?_extend, hx, hs], rfl, fun h => h⟩

theorem Tidy.alive_extend_self (h : a.Tidy) (parent : ScopeId) :
    (a.extend parent).2.Alive (a.extend parent).1 :=
  ⟨{ parent := some parent }, by simp [h.scope?_extend]⟩

/-- A new scope may lie inside any scope whose handle is held. -/
theorem Sound.extend (h : a.Sound scopeOf) {parent : ScopeId} (hparent : a.Held parent) :
    (a.extend parent).2.Sound scopeOf := by
  have grows := h.tidy.grows_extend parent
  have grounded {x} (hx : a.Alive x) : (a.extend parent).2.Grounded x := by
    apply h.grounded_of_parents hx
    intro y scope hy hs
    rcases h.tidy.scope?_of_extend hs with hs | ⟨rfl, -⟩
    · exact ⟨scope, hs, rfl⟩
    · obtain ⟨_, hy⟩ := hy
      simp [h.tidy.scope?_extend_self] at hy
  refine { tidy := h.tidy.extend parent, root := h.root_of_grows grows, outermost := ?outermost,
           held := ?held, grounded := ?grounded }
  case outermost =>
    intro x scope hx hn
    rcases h.tidy.scope?_of_extend hx with hx | ⟨-, rfl⟩
    · exact h.outermost hx hn
    · simp at hn
  case held =>
    intro x scope y hx hy
    rcases h.tidy.scope?_of_extend hx with hx | ⟨-, rfl⟩
    · exact grows.held (h.held hx hy)
    · obtain rfl : _ = parent := by simpa [successors] using hy
      exact grows.held hparent
  case grounded =>
    rintro x ⟨scope, hs⟩
    rcases h.tidy.scope?_of_extend hs with hs' | ⟨rfl, rfl⟩
    · exact grounded ⟨scope, hs'⟩
    · obtain ⟨ids, hids⟩ := grounded hparent.alive
      exact ⟨_, .inner hs rfl hids⟩

/-! ### Closing a scope -/

/-- The scopes that are in use after closing one are as before. -/
theorem scope?_of_release {id x : ScopeId} {scope : Scope ν}
    (hs : (a.release id).scope? x = some scope) : a.scope? x = some scope := by
  rcases a.release_cases id with he | ⟨_, -, -, -, he⟩
  · rwa [he] at hs
  · rw [he, scope?_vacate] at hs
    split at hs
    · cases hs
    · exact hs

/-- Closing a scope leaves all other scopes alone. -/
theorem scope?_release_of_ne {id x : ScopeId} (hid : a.Alive x) (hne : x ≠ id) :
    (a.release id).scope? x = a.scope? x := by
  rcases a.release_cases id with he | ⟨scope, hs, -, -, he⟩
  · rw [he]
  · rw [he, scope?_vacate, if_neg fun hi => hne (hid.eq_of_index_eq ⟨scope, hs⟩ hi)]

/-- Closing a scope leaves the scopes that are held alone. -/
theorem Held.scope?_release {x : ScopeId} (hx : a.Held x) (id : ScopeId) :
    (a.release id).scope? x = a.scope? x := by
  rcases a.release_cases id with he | ⟨scope, hs, hc, hp, he⟩
  · rw [he]
  · refine scope?_release_of_ne hx.alive ?_
    rintro rfl
    obtain ⟨scope', hs', hheld⟩ := hx
    obtain rfl := Option.some.inj (hs.symm.trans hs')
    simp [hc, hp] at hheld

theorem Held.release {x : ScopeId} (hx : a.Held x) (id : ScopeId) : (a.release id).Held x := by
  have same := hx.scope?_release id
  obtain ⟨scope, hs, hheld⟩ := hx
  exact ⟨scope, same.trans hs, hheld⟩

theorem Sound.release (h : a.Sound scopeOf) (id : ScopeId) : (a.release id).Sound scopeOf := by
  refine { tidy := h.tidy.release id, root := ?root, outermost := ?outermost, held := ?held,
           grounded := ?grounded }
  case root =>
    obtain ⟨scope, hr, hn⟩ := h.root
    exact ⟨scope, (h.held_root.scope?_release id).trans hr, hn⟩
  case outermost =>
    intro x scope hx hn
    exact h.outermost (scope?_of_release hx) hn
  case held =>
    intro x scope y hx hy
    exact (h.held (scope?_of_release hx) hy).release id
  case grounded =>
    rintro x ⟨scope, hs⟩
    apply h.grounded_of_parents ⟨scope, scope?_of_release hs⟩
    intro y scope _ hy
    exact ⟨scope, scope?_of_release hy, rfl⟩

/-- A scope opened since and closed again has left no trace on the scopes that were in use. -/
theorem Grows.release (h : Grows a b) {id : ScopeId} (new : ¬ a.Alive id) :
    Grows a (b.release id) := by
  intro x scope hs
  obtain ⟨scope', hs', hp, hc⟩ := h x scope hs
  have hne : x ≠ id := by
    rintro rfl
    exact new ⟨scope, hs⟩
  exact ⟨scope', (scope?_release_of_ne ⟨scope', hs'⟩ hne).trans hs', hp, hc⟩

end Arena

end ScopeLang
