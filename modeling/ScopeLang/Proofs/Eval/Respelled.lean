import ScopeLang.Proofs.Eval.Related
import ScopeLang.Proofs.Scope.Layout
import ScopeLang.Proofs.Tree.Respelled

/-!
# Arenas with other names

Two arenas with the same handles are compared whose scopes bind like values to the same names, except
that in some scopes `x` is spelled `y` on the other side. Which these are does not matter as long as
a scope that does not bind `x` agrees about it with the scope around it: then a name is looked up
from a scope just as the other spelling of it is.

## Main definitions

* `Value.Akin` — values that differ in the code of closures only.
* `AgreeInKind` — outcomes that are related values, or errors of one kind.
* `Arena.Respelled` — arenas that differ in how `x` is spelled in some of the scopes.
* `Arena.Coherent` — scopes agree with those around them about the spelling of `x`.

## Main statements

* `Respelled.get_agree`, `Respelled.set_agree` — what the spellings of a name are bound to.
* `Respelled.extend`, `Respelled.release` — scopes are opened and closed in both arenas alike.
-/

namespace ScopeLang

variable {κ : Type}

/-! ### Values -/

/-- Values that agree up to closures. Closures have the same identity and hold the same scope; `C`
relates them otherwise. -/
inductive Value.Akin (C : Closure → Closure → Prop) : Value κ → Value κ → Prop where
  | number (a : Float) : Akin C (.number a) (.number a)
  | text (s : String) : Akin C (.text s) (.text s)
  | bool (b : Bool) : Akin C (.bool b) (.bool b)
  | builtin (f : HostFunction κ) : Akin C (.builtin f) (.builtin f)
  | closure {f g : Closure} : f.identity = g.identity → f.scope = g.scope → C f g →
    Akin C (.closure f) (.closure g)

/-- Outcomes that are errors of one kind, or values that `P` relates. -/
inductive AgreeInKind {α β : Type} (P : α → β → Prop) : Except Error α → Except Error β → Prop where
  | ok {a : α} {b : β} : P a b → AgreeInKind P (.ok a) (.ok b)
  | error {e e' : Error} : e.kind = e'.kind → AgreeInKind P (.error e) (.error e')

theorem AgreeInKind.imp {α β : Type} {P Q : α → β → Prop} {r : Except Error α} {r' : Except Error β}
    (h : AgreeInKind P r r') (hPQ : ∀ a b, P a b → Q a b) : AgreeInKind Q r r' := by
  cases h with
  | ok h => exact .ok (hPQ _ _ h)
  | error h => exact .error h

/-- One step after another in both outcomes. -/
theorem AgreeInKind.bind {α β γ δ : Type} {P : α → β → Prop} {Q : γ → δ → Prop}
    {r : Except Error α} {r' : Except Error β} {f : α → Except Error γ} {g : β → Except Error δ}
    (h : AgreeInKind P r r') (hfg : ∀ a b, P a b → AgreeInKind Q (f a) (g b)) :
    AgreeInKind Q (r >>= f) (r' >>= g) := by
  cases h with
  | ok h => exact hfg _ _ h
  | error h => exact .error h

namespace Value.Akin

variable {C C' : Closure → Closure → Prop} {v w v' w' : Value κ}

theorem imp (h : Akin C v w) (hC : ∀ f g, C f g → C' f g) : Akin C' v w := by
  cases h with
  | closure hi hs hfg => exact .closure hi hs (hC _ _ hfg)
  | _ => constructor

theorem of_scope?_eq_none (h : v.scope? = none) : Akin C v v := by
  cases v with
  | closure f => simp [scope?] at h
  | _ => constructor

theorem scope?_eq (h : Akin C v w) : v.scope? = w.scope? := by
  cases h with
  | closure _ hs => simp [scope?, hs]
  | _ => rfl

theorem countsAsTrue_eq (h : Akin C v w) : v.countsAsTrue = w.countsAsTrue := by
  cases h <;> rfl

theorem same_eq (h : Akin C v w) (h' : Akin C v' w') : v.same v' = w.same w' := by
  cases h <;> cases h' <;> simp_all [same]

theorem asNumber_agree (h : Akin C v w) : AgreeInKind Eq v.asNumber w.asNumber := by
  cases h with
  | number a => exact .ok rfl
  | _ => exact .error rfl

theorem asDivisor_agree (h : Akin C v w) : AgreeInKind Eq v.asDivisor w.asDivisor := by
  have number := h.asNumber_agree
  unfold asDivisor
  generalize v.asNumber = r, w.asNumber = r' at number ⊢
  cases number with
  | error he => exact .error he
  | ok ha =>
    subst ha
    dsimp only
    split
    · exact .error rfl
    · exact .ok rfl

end Value.Akin

namespace BinaryOp

variable {C : Closure → Closure → Prop} {v w v' w' : Value κ}

theorem onNumbers_akin {f : Float → Float → Value κ} (hf : ∀ a b, (f a b).scope? = none)
    (h : v.Akin C w) (h' : v'.Akin C w') :
    AgreeInKind (Value.Akin C) (onNumbers f v v') (onNumbers f w w') := by
  refine h.asNumber_agree.bind fun a _ ha => h'.asNumber_agree.bind fun b _ hb => ?_
  rw [← ha, ← hb]
  exact .ok (.of_scope?_eq_none (hf a b))

theorem onDivision_akin (f : Float → Float → Float) (h : v.Akin C w) (h' : v'.Akin C w') :
    AgreeInKind (Value.Akin C) (onDivision f v v') (onDivision f w w') := by
  refine h.asNumber_agree.bind fun a _ ha => h'.asDivisor_agree.bind fun b _ hb => ?_
  rw [← ha, ← hb]
  exact .ok (.number _)

/-- Operators do not look into closures. -/
theorem apply_akin (op : BinaryOp) (h : v.Akin C w) (h' : v'.Akin C w') :
    AgreeInKind (Value.Akin C) (op.apply v v') (op.apply w w') := by
  cases op with
  | or | and =>
    simp only [apply, h.countsAsTrue_eq]
    cases w.countsAsTrue <;> exact .ok ‹_›
  | equal | notEqual =>
    simp only [apply, h.same_eq h']
    exact .ok (.bool _)
  | divide | modulo => exact onDivision_akin _ h h'
  | _ => exact onNumbers_akin (fun _ _ => rfl) h h'

end BinaryOp

variable {x y : String} {m : Bool} {C C' : Closure → Closure → Prop}

/-! ### Bindings and scopes -/

/-- The names of the first bindings are spelled differently in the second ones, where they are bound
to like values. -/
def Bindings.Respelled (x y : String) (m : Bool) (C : Closure → Closure → Prop)
    (bs cs : Bindings (Value κ)) : Prop :=
  List.Forall₂ (fun b c => b.1 ≠ y ∧ c.1 = respell x y m b.1 ∧ b.2.Akin C c.2) bs cs

namespace Bindings.Respelled

variable {bs cs : Bindings (Value κ)} {name : String}

theorem imp (h : Respelled x y m C bs cs) (hC : ∀ f g, C f g → C' f g) :
    Respelled x y m C' bs cs :=
  List.Forall₂.imp (fun _ _ hbc => ⟨hbc.1, hbc.2.1, hbc.2.2.imp hC⟩) h

theorem get? (h : Respelled x y m C bs cs) (hn : name ≠ y) :
    Option.Rel (Value.Akin C) (bs.get? name) (cs.get? (respell x y m name)) := by
  induction h with
  | nil => exact .none
  | @cons b c _ _ hbc _ ih =>
    obtain ⟨n, v⟩ := b
    obtain ⟨n', w⟩ := c
    obtain ⟨hny, rfl, hv⟩ : n ≠ y ∧ n' = respell x y m n ∧ v.Akin C w := hbc
    simp only [Bindings.get?, respell_inj hny hn]
    split
    · exact .some hv
    · exact ih

theorem binds_eq (h : Respelled x y m C bs cs) (hn : name ≠ y) :
    cs.binds (respell x y m name) = bs.binds name := by
  have := h.get? hn
  unfold binds
  cases hb : bs.get? name <;> cases hc : cs.get? (respell x y m name) <;> simp_all

theorem insert (h : Respelled x y m C bs cs) (hn : name ≠ y) {v w : Value κ} (hv : v.Akin C w) :
    Respelled x y m C (bs.insert name v) (cs.insert (respell x y m name) w) := by
  induction h with
  | nil => exact .cons ⟨hn, rfl, hv⟩ .nil
  | @cons b c _ _ hbc hrest ih =>
    obtain ⟨n, u⟩ := b
    obtain ⟨n', u'⟩ := c
    obtain ⟨hny, rfl, hu⟩ : n ≠ y ∧ n' = respell x y m n ∧ u.Akin C u' := hbc
    simp only [Bindings.insert, respell_inj hny hn]
    split
    · exact .cons ⟨hny, rfl, hv⟩ hrest
    · exact .cons ⟨hny, rfl, hu⟩ ih

theorem filterMap_scope?_eq (h : Respelled x y m C bs cs) :
    (bs.filterMap fun b => b.2.scope?) = cs.filterMap fun b => b.2.scope? := by
  induction h with
  | nil => rfl
  | cons hbc _ ih => simp only [List.filterMap_cons, hbc.2.2.scope?_eq, ih]

end Bindings.Respelled

/-- Scopes that differ in how `x` is spelled. -/
structure Scope.Respelled (x y : String) (m : Bool) (C : Closure → Closure → Prop)
    (s t : Scope (Value κ)) : Prop where
  parent : s.parent = t.parent
  captured : s.captured = t.captured
  bindings : s.bindings.Respelled x y m C t.bindings

theorem Scope.Respelled.successors_eq {s t : Scope (Value κ)} (h : s.Respelled x y m C t) :
    Arena.successors Value.scope? s = Arena.successors Value.scope? t := by
  simp only [Arena.successors, h.parent, h.bindings.filterMap_scope?_eq]

/-! ### Arenas -/

namespace Arena

variable {mode mode' : ScopeId → Bool} {a b : Arena (Value κ)} {id : ScopeId} {name : String}

/-- The arenas have the same handles, and where `mode` holds of a scope, `x` is spelled `y` in it on
the other side. -/
structure Respelled (x y : String) (mode : ScopeId → Bool) (C : Closure → Closure → Prop)
    (a b : Arena (Value κ)) : Prop where
  layout : SameLayout a b
  scopes : ∀ id, Option.Rel (Scope.Respelled x y (mode id) C) (a.scope? id) (b.scope? id)

/-- A scope that does not bind `x` itself spells it like the scope around it. -/
def Coherent (x : String) (mode : ScopeId → Bool) (a : Arena (Value κ)) : Prop :=
  ∀ id scope parent, a.scope? id = some scope → scope.bindings.binds x = false →
    scope.parent = some parent → mode parent = mode id

/-- Whoever looks for a name goes on to the scope around with the same spelling of it. -/
theorem Coherent.respell_eq (h : a.Coherent x mode) {scope : Scope (Value κ)} {parent : ScopeId}
    (hs : a.scope? id = some scope) (hb : scope.bindings.binds name = false)
    (hp : scope.parent = some parent) :
    respell x y (mode parent) name = respell x y (mode id) name := by
  by_cases hx : name = x
  · subst hx
    rw [h id scope parent hs hb hp]
  · rw [respell_of_ne hx, respell_of_ne hx]

namespace Respelled

/-- In a new arena nothing is spelled. -/
theorem new : Respelled x y mode C (Arena.new : Arena (Value κ)) Arena.new where
  layout := .refl _
  scopes id := by
    cases hs : (Arena.new : Arena (Value κ)).scope? id with
    | none => exact .none
    | some scope =>
      obtain ⟨-, rfl⟩ := eq_of_scope?_new hs
      exact .some ⟨rfl, rfl, .nil⟩

theorem imp (h : Respelled x y mode C a b) (hC : ∀ f g, C f g → C' f g) :
    Respelled x y mode C' a b where
  layout := h.layout
  scopes id := by
    have rel := h.scopes id
    generalize a.scope? id = s, b.scope? id = t at rel ⊢
    cases rel with
    | none => exact .none
    | some hst => exact .some ⟨hst.parent, hst.captured, hst.bindings.imp hC⟩

theorem scope?_cases (h : Respelled x y mode C a b) (id : ScopeId) :
    (a.scope? id = none ∧ b.scope? id = none) ∨
      ∃ s t, a.scope? id = some s ∧ b.scope? id = some t ∧ s.Respelled x y (mode id) C t := by
  have rel := h.scopes id
  generalize a.scope? id = s, b.scope? id = t at rel ⊢
  cases rel with
  | none => exact .inl ⟨rfl, rfl⟩
  | some hst => exact .inr ⟨_, _, rfl, rfl, hst⟩

/-- The spelling of a name is looked up like the name, and it is the same where it is found. -/
theorem lookupWithin (h : Respelled x y mode C a b) (hc : a.Coherent x mode) (hn : name ≠ y)
    (steps : Nat) (id : ScopeId) :
    b.lookupWithin (respell x y (mode id) name) steps id = a.lookupWithin name steps id ∧
      ∀ target, a.lookupWithin name steps id = some target →
        respell x y (mode target) name = respell x y (mode id) name := by
  induction steps generalizing id with
  | zero => simp [Arena.lookupWithin]
  | succ steps ih =>
    simp only [Arena.lookupWithin]
    rcases h.scope?_cases id with ⟨hs, ht⟩ | ⟨s, t, hs, ht, hst⟩
    · simp [hs, ht]
    · simp only [hs, ht, hst.bindings.binds_eq hn, ← hst.parent]
      cases hb : s.bindings.binds name with
      | true => exact ⟨rfl, fun target htarget => by rw [Option.some.inj htarget]⟩
      | false =>
        cases hp : s.parent with
        | none => simp
        | some parent =>
          have spelled := hc.respell_eq (y := y) hs hb hp
          obtain ⟨hfound, hsame⟩ := ih parent
          rw [spelled] at hfound hsame
          exact ⟨hfound, hsame⟩

theorem lookup (h : Respelled x y mode C a b) (hc : a.Coherent x mode) (hn : name ≠ y)
    (id : ScopeId) :
    b.lookup id (respell x y (mode id) name) = a.lookup id name ∧
      ∀ target, a.lookup id name = some target →
        respell x y (mode target) name = respell x y (mode id) name := by
  rw [Arena.lookup, h.layout.size_eq]
  exact h.lookupWithin hc hn _ id

/-- A name and its spelling have like values. -/
theorem get_agree (h : Respelled x y mode C a b) (hc : a.Coherent x mode) (hn : name ≠ y)
    (id : ScopeId) :
    AgreeInKind (Value.Akin C) (a.get id name) (b.get id (respell x y (mode id) name)) := by
  obtain ⟨hfound, hsame⟩ := h.lookup hc hn id
  simp only [Arena.get, hfound]
  cases htarget : a.lookup id name with
  | none => exact .error rfl
  | some target =>
    simp only [Option.bind_some]
    rcases h.scope?_cases target with ⟨hs, ht⟩ | ⟨s, t, hs, ht, hst⟩
    · simp only [hs, ht, Option.bind_none]
      exact .error rfl
    · simp only [hs, ht, Option.bind_some, ← hsame target htarget]
      have value := hst.bindings.get? hn
      generalize s.bindings.get? name = v, t.bindings.get? (respell x y (mode target) name) = w
        at value ⊢
      cases value with
      | none => exact .error rfl
      | some hv => exact .ok hv

/-- Scopes may be changed in both arenas if that relates them as before. -/
theorem update (h : Respelled x y mode C a b) {f g : Scope (Value κ) → Scope (Value κ)}
    (hf : ∀ scope, (f scope).parent = scope.parent) (hg : ∀ scope, (g scope).parent = scope.parent)
    (hfg : ∀ s t, s.Respelled x y (mode id) C t → (f s).Respelled x y (mode id) C (g t)) :
    Respelled x y mode C (a.update id f) (b.update id g) where
  layout := ((a.sameLayout_update id hf).symm.trans h.layout).trans (b.sameLayout_update id hg)
  scopes z := by
    rw [scope?_update, scope?_update]
    split
    · subst z
      rcases h.scope?_cases id with ⟨hs, ht⟩ | ⟨s, t, hs, ht, hst⟩
      · rw [hs, ht]
        exact .none
      · rw [hs, ht]
        exact .some (hfg s t hst)
    · exact h.scopes z

theorem define (h : Respelled x y mode C a b) (hn : name ≠ y) {v w : Value κ} (hv : v.Akin C w)
    (id : ScopeId) : Respelled x y mode C (a.define id name v)
      (b.define id (respell x y (mode id) name) w) :=
  h.update (fun _ => rfl) (fun _ => rfl) fun _ _ hst =>
    ⟨hst.parent, hst.captured, hst.bindings.insert hn hv⟩

theorem capture (h : Respelled x y mode C a b) (id : ScopeId) :
    Respelled x y mode C (a.capture id) (b.capture id) :=
  h.update (fun _ => rfl) (fun _ => rfl) fun _ _ hst => ⟨hst.parent, rfl, hst.bindings⟩

theorem isRoot_eq (h : Respelled x y mode C a b) : b.isRoot id = a.isRoot id := by
  rw [Bool.eq_iff_iff, isRoot_iff, isRoot_iff, h.layout.around_eq]

/-- An assignment fails in both arenas or binds both spellings in the same scope. -/
theorem set_agree (h : Respelled x y mode C a b) (hc : a.Coherent x mode) (hn : name ≠ y)
    {v w : Value κ} (hv : v.Akin C w) (id : ScopeId) :
    AgreeInKind (fun a' b' => ∃ target, a' = a.define target name v ∧ Respelled x y mode C a' b')
      (a.set id name v) (b.set id (respell x y (mode id) name) w) := by
  obtain ⟨hfound, hsame⟩ := h.lookup hc hn id
  simp only [Arena.set, hfound, h.isRoot_eq]
  cases htarget : a.lookup id name with
  | some target => exact .ok ⟨target, rfl, hsame target htarget ▸ h.define hn hv target⟩
  | none =>
    simp only
    split
    · exact .ok ⟨id, rfl, h.define hn hv id⟩
    · exact .error rfl

theorem bindParams (h : Respelled x y mode C a b) (id : ScopeId) {params : List String}
    (hy : y ∉ params) {vs ws : List (Value κ)} (hvs : List.Forall₂ (Value.Akin C) vs ws) :
    Respelled x y mode C (bindParams a id params vs)
      (bindParams b id (params.map (respell x y (mode id))) ws) := by
  induction params generalizing a b vs ws with
  | nil => exact h
  | cons p ps ih =>
    simp only [List.mem_cons, not_or] at hy
    obtain ⟨hp, hps⟩ := hy
    cases hvs with
    | nil => exact ih (h.define (Ne.symm hp) (.bool false) id) hps .nil
    | cons hv hvs => exact ih (h.define (Ne.symm hp) hv id) hps hvs

/-- A new scope has the same handle in both arenas, and `x` may be spelled in it either way. -/
theorem extend (h : Respelled x y mode C a b) (ha : a.Tidy) (m : Bool) (parent : ScopeId) :
    (b.extend parent).1 = (a.extend parent).1 ∧
      Respelled x y (Function.update mode (a.extend parent).1 m) C (a.extend parent).2
        (b.extend parent).2 := by
  obtain ⟨hnew, hlayout⟩ := h.layout.extend parent
  refine ⟨hnew, hlayout, fun z => ?_⟩
  rw [ha.scope?_extend, (h.layout.tidy ha).scope?_extend, hnew]
  split
  · exact .some ⟨rfl, rfl, .nil⟩
  · rename_i hz
    rw [Function.update_of_ne hz]
    exact h.scopes z

/-- A scope is closed in both arenas or in neither. -/
theorem release (h : Respelled x y mode C a b) (id : ScopeId) :
    Respelled x y mode C (a.release id) (b.release id) := by
  unfold Arena.release
  rcases h.scope?_cases id with ⟨hs, ht⟩ | ⟨s, t, hs, ht, hst⟩
  · rw [hs, ht]
    exact h
  · simp only [hs, ht, hst.captured, hst.parent]
    split
    · exact h
    · refine ⟨h.layout.vacate id.index, fun z => ?_⟩
      rw [scope?_vacate, scope?_vacate]
      split
      · exact .none
      · exact h.scopes z

end Respelled

end Arena

end ScopeLang
