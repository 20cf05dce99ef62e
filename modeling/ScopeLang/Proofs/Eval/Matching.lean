import ScopeLang.Proofs.Eval.Renaming
import ScopeLang.Proofs.Scope.Census
import ScopeLang.Proofs.Scope.Reach

/-!
# Arenas that match

Two arenas match when they are the same up to a renaming of handles that misses no scope in use.
When two arenas are both renamed to a third one, which may hold more than they do, and both hold
only what is reached from related values, then they match.

## Main definitions

* `Meet` — handles that are related to one handle.
* `Arena.Matched` — arenas with a renaming that misses no scope in use.
* `Arena.Swept` — an arena that holds nothing but what is reached.

## Main statements

* `Arena.Renamed.meet` — two renamings to one arena make a renaming.
* `Arena.Renamed.matched` — arenas without unreached scopes that are renamed to one arena match.
* `Arena.Matched.liveCount_eq` — arenas that match have equally many scopes in use.
-/

namespace ScopeLang

variable {κ : Type} {R R' : ScopeId → ScopeId → Prop}

/-- Handles that are related to one handle. -/
def Meet (R R' : ScopeId → ScopeId → Prop) (x y : ScopeId) : Prop := ∃ z, R x z ∧ R' y z

theorem Meet.symm {x y : ScopeId} (h : Meet R R' x y) : Meet R' R y x := by
  obtain ⟨z, hx, hy⟩ := h
  exact ⟨z, hy, hx⟩

/-! ### Values and scopes that are related to the same -/

theorem Value.Rel.meet {u v w : Value κ} (h : u.Rel R w) (h' : v.Rel R' w) :
    u.Rel (Meet R R') v := by
  cases h with
  | closure hi hp hb hs =>
    cases h' with
    | closure hi' hp' hb' hs' =>
      exact .closure (hi.trans hi'.symm) (hp.trans hp'.symm) (hb.trans hb'.symm) ⟨_, hs, hs'⟩
  | _ => cases h'; constructor

theorem Agree.exists_ok {α β : Type} {P : α → β → Prop} {a : α} {r : Except Error β}
    (h : Agree P (.ok a) r) : ∃ b, r = .ok b := by
  cases h
  exact ⟨_, rfl⟩

theorem Agree.meet {r r' r'' : Except Error (Value κ)} (h : Agree (Value.Rel R) r r'')
    (h' : Agree (Value.Rel R') r' r'') : Agree (Value.Rel (Meet R R')) r r' := by
  cases h with
  | ok hv =>
    cases h' with
    | ok hw => exact .ok (hv.meet hw)
  | error e =>
    cases h'
    exact .error e

/-- The scope that a value holds is related to something. -/
theorem Value.Rel.exists_scope {v w : Value κ} (h : v.Rel R w) {x : ScopeId}
    (hx : v.scope? = some x) : ∃ y, R x y := by
  cases h with
  | closure _ _ _ hs =>
    obtain rfl := Option.some.inj hx
    exact ⟨_, hs⟩
  | _ => simp [scope?] at hx

theorem Bindings.Rel.exists_scope {bs cs : Bindings (Value κ)} (h : bs.Rel R cs)
    {b : String × Value κ} (hb : b ∈ bs) {x : ScopeId} (hx : b.2.scope? = some x) :
    ∃ y, R x y := by
  induction h with
  | nil => cases hb
  | cons hbc _ ih =>
    rcases List.mem_cons.1 hb with rfl | hb
    · exact hbc.2.exists_scope hx
    · exact ih hb

theorem Bindings.Rel.meet {bs cs ds : Bindings (Value κ)} (h : bs.Rel R ds) (h' : cs.Rel R' ds) :
    bs.Rel (Meet R R') cs := by
  induction h generalizing cs with
  | nil =>
    cases h'
    exact .nil
  | cons hb _ ih =>
    cases h' with
    | cons hc hrest => exact .cons ⟨hb.1.trans hc.1.symm, hb.2.meet hc.2⟩ (ih hrest)

namespace Scope.Rel

variable {s t u : Scope (Value κ)}

theorem meet (h : s.Rel R u) (h' : t.Rel R' u) : s.Rel (Meet R R') t := by
  obtain ⟨bs, p, c⟩ := s
  obtain ⟨cs, q, d⟩ := t
  obtain ⟨ds, r, e⟩ := u
  obtain ⟨hp, hb⟩ := h
  obtain ⟨hq, hc⟩ := h'
  refine ⟨?_, hb.meet hc⟩
  cases hp with
  | none =>
    cases hq
    exact .none
  | some hp =>
    cases hq with
    | some hq => exact .some ⟨_, hp, hq⟩

/-- What a scope leads to is related to something. -/
theorem exists_successor (h : s.Rel R t) {x : ScopeId}
    (hx : x ∈ Arena.successors Value.scope? s) : ∃ y, R x y := by
  rcases List.mem_append.1 hx with hx | hx
  · obtain ⟨y, -, hxy⟩ := h.exists_parent (Option.mem_toList.1 hx)
    exact ⟨y, hxy⟩
  · obtain ⟨b, hb, hbx⟩ := List.mem_filterMap.1 hx
    exact h.bindings.exists_scope hb hbx

end Scope.Rel

/-! ### Arenas -/

namespace Arena

variable {a b c : Arena (Value κ)}

/-- The same scopes are in use, up to a renaming of handles. -/
structure Matched (R : ScopeId → ScopeId → Prop) (a b : Arena (Value κ)) : Prop
    extends Renamed R a b where
  left_total : ∀ {x}, a.Alive x → ∃ y, R x y
  right_total : ∀ {y}, b.Alive y → ∃ x, R x y

namespace Renamed

theorem alive_right (h : Renamed R a b) {x y : ScopeId} (hxy : R x y) : b.Alive y := by
  obtain ⟨-, t, -, ht, -⟩ := h.scope hxy
  exact ⟨t, ht⟩

theorem meet (h : Renamed R a c) (h' : Renamed R' b c) : Renamed (Meet R R') a b where
  left_unique := by
    rintro x x' y ⟨z, hx, hy⟩ ⟨z', hx', hy'⟩
    obtain rfl := h'.right_unique hy hy'
    exact h.left_unique hx hx'
  right_unique := by
    rintro x y y' ⟨z, hx, hy⟩ ⟨z', hx', hy'⟩
    obtain rfl := h.right_unique hx hx'
    exact h'.left_unique hy hy'
  root := ⟨.root, h.root, h'.root⟩
  scope := by
    rintro x y ⟨z, hx, hy⟩
    obtain ⟨s, u, hs, hu, hsu⟩ := h.scope hx
    obtain ⟨t, u', ht, hu', htu⟩ := h'.scope hy
    obtain rfl := Option.some.inj (hu.symm.trans hu')
    exact ⟨s, t, hs, ht, hsu.meet htu⟩

/-- What is reached from related handles is related to something. -/
theorem exists_of_reached (h : Renamed R a b) {pending : List ScopeId}
    (start : ∀ x ∈ pending, ∃ y, R x y) {x : ScopeId} (hx : Reached Value.scope? a pending x) :
    ∃ y, R x y := by
  induction hx with
  | start hmem => exact start _ hmem
  | next _ hs hx _ ih =>
    obtain ⟨y, hxy⟩ := ih
    obtain ⟨t, -, hst⟩ := h.scope_of hxy hs
    exact hst.exists_successor hx

end Renamed

/-- An arena in which everything in use is reached from the root and the value of an outcome. -/
def Swept (a : Arena (Value κ)) (r : Except Error (Value κ)) : Prop :=
  ∀ {x}, a.Alive x → Reached Value.scope? a (.root :: r.toOption.toList.filterMap Value.scope?) x

theorem Renamed.exists_of_swept (h : Renamed R a b) {r r' : Except Error (Value κ)}
    (hr : Agree (Value.Rel R) r r') (swept : a.Swept r) {x : ScopeId} (hx : a.Alive x) :
    ∃ y, R x y := by
  refine h.exists_of_reached (fun x hx => ?_) (swept hx)
  rcases List.mem_cons.1 hx with rfl | hx
  · exact ⟨_, h.root⟩
  · obtain ⟨v, hv, hvx⟩ := List.mem_filterMap.1 hx
    cases hr with
    | ok hvw =>
      obtain rfl : v = _ := by simpa [Except.toOption] using hv
      exact hvw.exists_scope hvx
    | error e => simp [Except.toOption] at hv

/-- Arenas that are renamed to one arena match when nothing is in use in them without need. -/
theorem Renamed.matched (h : Renamed R a c) (h' : Renamed R' b c)
    {r r' r'' : Except Error (Value κ)} (hr : Agree (Value.Rel R) r r'')
    (hr' : Agree (Value.Rel R') r' r'') (swept : a.Swept r) (swept' : b.Swept r') :
    Matched (Meet R R') a b where
  toRenamed := h.meet h'
  left_total := (h.meet h').exists_of_swept (hr.meet hr') swept
  right_total hy := by
    obtain ⟨x, hyx⟩ := (h'.meet h).exists_of_swept (hr'.meet hr) swept' hy
    exact ⟨x, hyx.symm⟩

theorem Matched.liveCount_eq (h : Matched R a b) : a.liveCount = b.liveCount := by
  choose f hf using fun x => h.left_total (x := x)
  rw [liveCount_eq_ncard, liveCount_eq_ncard]
  refine Set.ncard_congr (fun x hx => f x hx) (fun x hx => ?_) (fun x x' hx hx' he => ?_)
    fun y hy => ?_
  · exact h.alive_right (hf x hx)
  · exact h.left_unique (hf x hx) (he ▸ hf x' hx')
  · obtain ⟨x, hxy⟩ := h.right_total hy
    exact ⟨x, h.alive hxy, h.right_unique (hf x _) hxy⟩

end Arena

end ScopeLang
