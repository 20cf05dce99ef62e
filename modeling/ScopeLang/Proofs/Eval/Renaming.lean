import ScopeLang.Proofs.Eval.Related
import ScopeLang.Proofs.Scope.Held

/-!
# Arenas up to the names of their scopes

Two arenas are the same up to a renaming of handles when related handles lead to scopes that bind
the same names to related values, inside related scopes. Nothing is said about the scopes without a
partner, so one arena may hold more than the other.

## Main definitions

* `Arena.Renamed` — related handles lead to like scopes, and the relation is one-to-one.

## Main statements

* `Arena.Renamed.get_agree`, `Arena.Renamed.set_agree` — programs cannot tell such arenas apart.
* `Arena.Renamed.restrict` — scopes without a future may be dropped on one side.
-/

namespace ScopeLang

variable {κ : Type} {R R' : ScopeId → ScopeId → Prop}

theorem Value.Rel.restrict {P : ScopeId → Prop} {v w : Value κ} (h : v.Rel R w)
    (hP : ∀ x, v.scope? = some x → P x) : v.Rel (fun x y => R x y ∧ P x) w := by
  cases h with
  | closure hi hp hb hs => exact .closure hi hp hb ⟨hs, hP _ rfl⟩
  | _ => constructor

/-! ### Bindings and scopes -/

/-- The same names, bound to related values. -/
def Bindings.Rel (R : ScopeId → ScopeId → Prop) (bs cs : Bindings (Value κ)) : Prop :=
  List.Forall₂ (fun b c => b.1 = c.1 ∧ b.2.Rel R c.2) bs cs

namespace Bindings.Rel

variable {bs cs : Bindings (Value κ)}

theorem mono (hR : ∀ x y, R x y → R' x y) (h : bs.Rel R cs) : bs.Rel R' cs :=
  h.imp fun _ _ hbc => ⟨hbc.1, hbc.2.mono hR⟩

theorem get? (h : bs.Rel R cs) (name : String) :
    Option.Rel (Value.Rel R) (bs.get? name) (cs.get? name) := by
  induction h with
  | nil => exact .none
  | @cons b c _ _ hbc _ ih =>
    obtain ⟨n, v⟩ := b
    obtain ⟨n', w⟩ := c
    obtain ⟨rfl, hv⟩ : n = n' ∧ v.Rel R w := hbc
    by_cases hn : n = name
    · simpa [Bindings.get?, hn] using hv
    · simpa [Bindings.get?, hn] using ih

theorem binds_eq (h : bs.Rel R cs) (name : String) : bs.binds name = cs.binds name := by
  have := h.get? name
  unfold binds
  cases hb : bs.get? name <;> cases hc : cs.get? name <;> simp_all

theorem insert (h : bs.Rel R cs) (name : String) {v w : Value κ} (hv : v.Rel R w) :
    (bs.insert name v).Rel R (cs.insert name w) := by
  induction h with
  | nil => exact .cons ⟨rfl, hv⟩ .nil
  | @cons b c _ _ hbc hrest ih =>
    obtain ⟨n, u⟩ := b
    obtain ⟨n', u'⟩ := c
    obtain ⟨rfl, hu⟩ : n = n' ∧ u.Rel R u' := hbc
    by_cases hn : n = name
    · simpa [Bindings.insert, hn] using .cons ⟨rfl, hv⟩ hrest
    · simpa [Bindings.insert, hn] using .cons ⟨rfl, hu⟩ ih

theorem restrict {P : ScopeId → Prop} (h : bs.Rel R cs)
    (hP : ∀ x ∈ bs.filterMap fun b => b.2.scope?, P x) : bs.Rel (fun x y => R x y ∧ P x) cs := by
  induction h with
  | nil => exact .nil
  | @cons b c _ _ hbc _ ih =>
    refine .cons ⟨hbc.1, hbc.2.restrict fun x hx => hP x ?_⟩ (ih fun x hx => hP x ?_)
    · exact List.mem_filterMap.2 ⟨b, by simp, hx⟩
    · obtain ⟨b', hb', hx⟩ := List.mem_filterMap.1 hx
      exact List.mem_filterMap.2 ⟨b', by simp [hb'], hx⟩

end Bindings.Rel

/-- Scopes inside related scopes that bind the same names to related values. -/
structure Scope.Rel (R : ScopeId → ScopeId → Prop) (s t : Scope (Value κ)) : Prop where
  parent : Option.Rel R s.parent t.parent
  bindings : s.bindings.Rel R t.bindings

namespace Scope.Rel

variable {s t : Scope (Value κ)}

theorem parent_eq_none (h : s.Rel R t) (hp : s.parent = none) : t.parent = none := by
  have hpq := h.parent
  cases hq : t.parent with
  | none => rfl
  | some q => simp [hp, hq] at hpq

theorem exists_parent (h : s.Rel R t) {p : ScopeId} (hp : s.parent = some p) :
    ∃ q, t.parent = some q ∧ R p q := by
  have hpq := h.parent
  cases hq : t.parent with
  | none => simp [hp, hq] at hpq
  | some q => exact ⟨q, rfl, by simpa [hp, hq] using hpq⟩

theorem mono (hR : ∀ x y, R x y → R' x y) (h : s.Rel R t) : s.Rel R' t := by
  obtain ⟨bs, p, c⟩ := s
  obtain ⟨cs, q, d⟩ := t
  obtain ⟨hp, hb⟩ := h
  refine ⟨?_, hb.mono hR⟩
  cases hp with
  | none => exact .none
  | some hpq => exact .some (hR _ _ hpq)

theorem restrict {P : ScopeId → Prop} (h : s.Rel R t)
    (hP : ∀ x ∈ Arena.successors Value.scope? s, P x) : s.Rel (fun x y => R x y ∧ P x) t := by
  obtain ⟨bs, p, c⟩ := s
  obtain ⟨cs, q, d⟩ := t
  obtain ⟨hp, hb⟩ := h
  refine ⟨?_, hb.restrict fun x hx => hP x (List.mem_append_right _ hx)⟩
  cases hp with
  | none => exact .none
  | some hpq => exact .some ⟨hpq, hP _ (by simp [Arena.successors])⟩

end Scope.Rel

/-! ### Arenas -/

namespace Arena

/-- Related handles lead to like scopes, and no two handles are related to the same one. -/
structure Renamed (R : ScopeId → ScopeId → Prop) (a b : Arena (Value κ)) : Prop where
  left_unique : ∀ {x x' y}, R x y → R x' y → x = x'
  right_unique : ∀ {x y y'}, R x y → R x y' → y = y'
  root : R .root .root
  scope : ∀ {x y}, R x y → ∃ s t, a.scope? x = some s ∧ b.scope? y = some t ∧ s.Rel R t

variable {a b : Arena (Value κ)} {x y : ScopeId}

/-- The two arenas with nothing but the root. -/
theorem renamed_new : Renamed (fun x y => x = .root ∧ y = .root) (new : Arena (Value κ)) new where
  left_unique h h' := h.1.trans h'.1.symm
  right_unique h h' := h.2.trans h'.2.symm
  root := ⟨rfl, rfl⟩
  scope := by
    rintro _ _ ⟨rfl, rfl⟩
    exact ⟨{}, {}, rfl, rfl, .none, .nil⟩

namespace Renamed

theorem alive (h : Renamed R a b) (hxy : R x y) : a.Alive x := by
  obtain ⟨s, -, hs, -⟩ := h.scope hxy
  exact ⟨s, hs⟩

theorem scope_of (h : Renamed R a b) (hxy : R x y) {s : Scope (Value κ)}
    (hs : a.scope? x = some s) : ∃ t, b.scope? y = some t ∧ s.Rel R t := by
  obtain ⟨s', t, hs', ht, hst⟩ := h.scope hxy
  obtain rfl := Option.some.inj (hs.symm.trans hs')
  exact ⟨t, ht, hst⟩

/-- Related handles have chains that end together. -/
theorem grounded (h : Renamed R a b) (hxy : R x y) (hx : a.Grounded x) : b.Grounded y := by
  obtain ⟨ids, hx⟩ := hx
  induction hx generalizing y with
  | released hs => exact absurd (h.alive hxy) (scope?_eq_none_iff.1 hs)
  | outermost hs hp =>
    obtain ⟨t, ht, hst⟩ := h.scope_of hxy hs
    exact ⟨_, .outermost ht (hst.parent_eq_none hp)⟩
  | inner hs hp _ ih =>
    obtain ⟨t, ht, hst⟩ := h.scope_of hxy hs
    obtain ⟨q, hq, hpq⟩ := hst.exists_parent hp
    obtain ⟨ids, hrest⟩ := ih hpq
    exact ⟨_, .inner ht hq hrest⟩

/-- Looking for a name from related handles comes to related ends. -/
theorem search (h : Renamed R a b) (hxy : R x y) {name : String} {found : Option ScopeId}
    (hx : a.Search name x found) :
    ∃ found', b.Search name y found' ∧ Option.Rel R found found' := by
  induction hx generalizing y with
  | released hs => exact absurd (h.alive hxy) (scope?_eq_none_iff.1 hs)
  | here hs hb =>
    obtain ⟨t, ht, hst⟩ := h.scope_of hxy hs
    exact ⟨some y, .here ht (hst.bindings.binds_eq name ▸ hb), .some hxy⟩
  | outermost hs hb hp =>
    obtain ⟨t, ht, hst⟩ := h.scope_of hxy hs
    refine ⟨none, .outermost ht ?_ (hst.parent_eq_none hp), .none⟩
    exact hst.bindings.binds_eq name ▸ hb
  | outward hs hb hp _ ih =>
    obtain ⟨t, ht, hst⟩ := h.scope_of hxy hs
    obtain ⟨q, hq, hpq⟩ := hst.exists_parent hp
    obtain ⟨found', hsearch, hfound⟩ := ih hpq
    exact ⟨found', .outward ht (hst.bindings.binds_eq name ▸ hb) hq hsearch, hfound⟩

theorem lookup (h : Renamed R a b) (hxy : R x y) (hx : a.Grounded x) (name : String) :
    Option.Rel R (a.lookup x name) (b.lookup y name) := by
  obtain ⟨found, hsearch, hfound⟩ := h.search hxy (hx.search name)
  rwa [((h.grounded hxy hx).search name).unique hsearch]

/-- A name has related values as seen from related scopes. -/
theorem get_agree (h : Renamed R a b) (hxy : R x y) (hx : a.Grounded x) (name : String) :
    Agree (Value.Rel R) (a.get x name) (b.get y name) := by
  have hlookup := h.lookup hxy hx name
  unfold get
  cases ha : a.lookup x name with
  | none =>
    cases hb : b.lookup y name with
    | none => exact .error _
    | some v => simp [ha, hb] at hlookup
  | some u =>
    cases hb : b.lookup y name with
    | none => simp [ha, hb] at hlookup
    | some v =>
      obtain ⟨s, t, hs, ht, hst⟩ := h.scope (x := u) (y := v) (by simpa [ha, hb] using hlookup)
      have hget := hst.bindings.get? name
      simp only [Option.bind_some, hs, ht]
      cases hv : s.bindings.get? name <;> cases hw : t.bindings.get? name
      · exact .error _
      · simp [hv, hw] at hget
      · simp [hv, hw] at hget
      · exact .ok (by simpa [hv, hw] using hget)

/-- Related scopes may be changed alike. -/
theorem update (h : Renamed R a b) (hxy : R x y) {f g : Scope (Value κ) → Scope (Value κ)}
    (hfg : ∀ s t, s.Rel R t → (f s).Rel R (g t)) : Renamed R (a.update x f) (b.update y g) where
  left_unique := h.left_unique
  right_unique := h.right_unique
  root := h.root
  scope := by
    intro u v huv
    obtain ⟨s, t, hs, ht, hst⟩ := h.scope huv
    by_cases hu : u = x
    · subst hu
      obtain rfl := h.right_unique huv hxy
      exact ⟨f s, g t, by simp [scope?_update, hs], by simp [scope?_update, ht], hfg s t hst⟩
    · have hv : v ≠ y := by
        rintro rfl
        exact hu (h.left_unique huv hxy)
      exact ⟨s, t, by simp [scope?_update, hu, hs], by simp [scope?_update, hv, ht], hst⟩

theorem define (h : Renamed R a b) (hxy : R x y) (name : String) {v w : Value κ}
    (hv : v.Rel R w) : Renamed R (a.define x name v) (b.define y name w) :=
  h.update hxy fun _ _ hst => ⟨hst.parent, hst.bindings.insert name hv⟩

theorem capture (h : Renamed R a b) (hxy : R x y) : Renamed R (a.capture x) (b.capture y) :=
  h.update hxy fun _ _ hst => ⟨hst.parent, hst.bindings⟩

theorem isRoot_eq (h : Renamed R a b) (hxy : R x y) : a.isRoot x = b.isRoot y := by
  obtain ⟨s, t, hs, ht, hst⟩ := h.scope hxy
  have hp := hst.parent
  simp only [isRoot, hs, ht, Option.any_some]
  cases hs' : s.parent <;> cases ht' : t.parent <;> simp [hs', ht'] at hp ⊢

/-- An assignment fails in both arenas or changes related scopes. -/
theorem set_agree (h : Renamed R a b) (hxy : R x y) (hx : a.Grounded x) (name : String)
    {v w : Value κ} (hv : v.Rel R w) :
    Agree (fun a' b' => ∃ u, a' = a.define u name v ∧ Renamed R a' b') (a.set x name v)
      (b.set y name w) := by
  have hlookup := h.lookup hxy hx name
  unfold set
  cases ha : a.lookup x name with
  | none =>
    cases hb : b.lookup y name with
    | none =>
      rw [← h.isRoot_eq hxy]
      cases a.isRoot x with
      | true => exact .ok ⟨x, rfl, h.define hxy name hv⟩
      | false => exact .error _
    | some v => simp [ha, hb] at hlookup
  | some u =>
    cases hb : b.lookup y name with
    | none => simp [ha, hb] at hlookup
    | some u' => exact .ok ⟨u, rfl, h.define (by simpa [ha, hb] using hlookup) name hv⟩

theorem bindParams (h : Renamed R a b) (hxy : R x y) (params : List String)
    {vs ws : List (Value κ)} (hvs : List.Forall₂ (Value.Rel R) vs ws) :
    Renamed R (bindParams a x params vs) (bindParams b y params ws) := by
  induction params generalizing a b vs ws with
  | nil => exact h
  | cons p ps ih =>
    cases hvs with
    | nil => exact ih (h.define hxy p (.bool false)) .nil
    | cons hv hvs => exact ih (h.define hxy p hv) hvs

/-- What a sound arena no longer holds may be forgotten, whatever the other arena still holds. -/
theorem restrict (h : Renamed R a b) {a' : Arena (Value κ)} (hs : a'.Sound Value.scope?)
    (sub : ∀ x s, a'.scope? x = some s → a.scope? x = some s) :
    Renamed (fun x y => R x y ∧ a'.Alive x) a' b where
  left_unique hu hv := h.left_unique hu.1 hv.1
  right_unique hu hv := h.right_unique hu.1 hv.1
  root := ⟨h.root, hs.held_root.alive⟩
  scope := by
    rintro x y ⟨hxy, s', hs'⟩
    obtain ⟨s, t, ha, hb, hst⟩ := h.scope hxy
    obtain rfl := Option.some.inj (ha.symm.trans (sub x s' hs'))
    exact ⟨s, t, hs', hb, hst.restrict fun u hu => (hs.held hs' hu).alive⟩

end Renamed

end Arena

end ScopeLang
