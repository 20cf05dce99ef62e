import Mathlib.Data.Option.Defs
import ScopeLang.Proofs.Scope.Layout

/-!
# Arenas that differ out of reach

Two arenas are compared that differ in the names bound in some scopes only, and no other scope leads
to one of these. Whatever is done from the other scopes keeps this up: a look-up never gets to where
the arenas differ, a new scope takes the same slot in both, and a closed one leaves it in both.

## Main definitions

* `Arena.OutOfReach` — a scope in use that a given scope does not lead to.
* `Arena.EqualExcept` — arenas that differ in the names bound in hidden scopes only.
* `Arena.Secluded` — no other scope leads to a hidden one.
* `Arena.Apart` — equal except for hidden scopes, which are as they were at the start.

## Main statements

* `EqualExcept.lookup` — looking for a name finds the same scope, and not a hidden one.
* `Apart.update`, `Apart.extend`, `Apart.release` — what changes of arenas keep.
-/

namespace ScopeLang

variable {ν : Type}

/-- The scopes are the same, except perhaps for the names bound in them if they are hidden. -/
structure Scope.EqualUnless (hidden : Prop) (s t : Scope ν) : Prop where
  parent : s.parent = t.parent
  captured : s.captured = t.captured
  bindings : ¬ hidden → s.bindings = t.bindings

theorem Scope.EqualUnless.eq {hidden : Prop} {s t : Scope ν} (h : s.EqualUnless hidden t)
    (hh : ¬ hidden) : s = t := by
  obtain ⟨bs, p, c⟩ := s
  obtain ⟨bs', p', c'⟩ := t
  obtain ⟨rfl, rfl, hbs⟩ := h
  obtain rfl := hbs hh
  rfl

namespace Arena

variable {scopeOf : ν → Option ScopeId} {hidden : ScopeId → Prop} {a b a₀ b₀ : Arena ν}
  {id : ScopeId}

/-- A scope in use that is not reached from `scope`. -/
def OutOfReach (scopeOf : ν → Option ScopeId) (a : Arena ν) (scope id : ScopeId) : Prop :=
  a.Alive id ∧ ¬ Reached scopeOf a [scope] id

/-- The arenas differ in nothing but the names bound in hidden scopes. -/
structure EqualExcept (hidden : ScopeId → Prop) (a b : Arena ν) : Prop where
  layout : SameLayout a b
  scopes : ∀ id, Option.Rel (Scope.EqualUnless (hidden id)) (a.scope? id) (b.scope? id)

/-- Hidden scopes are in use, and no scope that is not hidden leads to one. -/
structure Secluded (scopeOf : ν → Option ScopeId) (hidden : ScopeId → Prop) (a : Arena ν) :
    Prop where
  tidy : a.Tidy
  alive : ∀ {id}, hidden id → a.Alive id
  closed : ∀ {id scope x}, ¬ hidden id → a.scope? id = some scope →
    x ∈ successors scopeOf scope → ¬ hidden x

theorem secluded_outOfReach (h : a.Tidy) (scope : ScopeId) :
    Secluded scopeOf (a.OutOfReach scopeOf scope) a where
  tidy := h
  alive hid := hid.1
  closed := by
    rintro id s x hid hs hx ⟨halive, hno⟩
    have reached : Reached scopeOf a [scope] id :=
      Classical.byContradiction fun hn => hid ⟨⟨s, hs⟩, hn⟩
    exact hno (reached.next hs hx halive)

/-- A scope never hides itself. -/
theorem not_outOfReach_self (a : Arena ν) (scope : ScopeId) : ¬ a.OutOfReach scopeOf scope scope :=
  fun h => h.2 (.start (List.mem_singleton_self scope) h.1)

/-- Binding names in a hidden scope makes no other difference. -/
theorem equalExcept_define (a : Arena ν) (hid : hidden id) (name : String) (value : ν) :
    EqualExcept hidden a (a.define id name value) where
  layout := a.sameLayout_define id name value
  scopes x := by
    rw [define, scope?_update]
    split
    · subst x
      cases a.scope? id with
      | none => exact .none
      | some scope => exact .some ⟨rfl, rfl, fun hno => absurd hid hno⟩
    · cases a.scope? x with
      | none => exact .none
      | some scope => exact .some ⟨rfl, rfl, fun _ => rfl⟩

namespace EqualExcept

theorem scope?_eq (h : EqualExcept hidden a b) (hid : ¬ hidden id) :
    a.scope? id = b.scope? id := by
  have rel := h.scopes id
  generalize a.scope? id = s, b.scope? id = t at rel ⊢
  cases rel with
  | some hst => rw [hst.eq hid]
  | none => rfl

/-- Looking for a name finds the same scope, and not a hidden one. -/
theorem lookupWithin (h : EqualExcept hidden a b) (ha : Secluded scopeOf hidden a) (name : String)
    (steps : Nat) (hid : ¬ hidden id) :
    b.lookupWithin name steps id = a.lookupWithin name steps id ∧
      ∀ x, a.lookupWithin name steps id = some x → ¬ hidden x := by
  induction steps generalizing id with
  | zero => simp [Arena.lookupWithin]
  | succ steps ih =>
    simp only [Arena.lookupWithin, ← h.scope?_eq hid]
    cases hs : a.scope? id with
    | none => simp
    | some scope =>
      simp only
      split
      · exact ⟨rfl, fun x hx => Option.some.inj hx ▸ hid⟩
      · cases hp : scope.parent with
        | none => simp
        | some parent => exact ih (ha.closed hid hs (mem_successors_of_parent hp))

theorem lookup (h : EqualExcept hidden a b) (ha : Secluded scopeOf hidden a) (hid : ¬ hidden id)
    (name : String) :
    b.lookup id name = a.lookup id name ∧ ∀ x, a.lookup id name = some x → ¬ hidden x := by
  rw [Arena.lookup, h.layout.size_eq]
  exact h.lookupWithin ha name _ hid

/-- A name has the same value in both. -/
theorem get (h : EqualExcept hidden a b) (ha : Secluded scopeOf hidden a) (hid : ¬ hidden id)
    (name : String) : b.get id name = a.get id name := by
  obtain ⟨hfound, hno⟩ := h.lookup ha hid name
  simp only [Arena.get, hfound]
  cases ht : a.lookup id name with
  | none => rfl
  | some target => simp only [Option.bind_some, h.scope?_eq (hno target ht)]

theorem isRoot_eq (h : EqualExcept hidden a b) : b.isRoot id = a.isRoot id := by
  rw [Bool.eq_iff_iff, isRoot_iff, isRoot_iff, h.layout.around_eq]

end EqualExcept

/-- The arenas are equal except for hidden scopes. These are as in the arenas `a₀` and `b₀`, and
nothing else leads to them. -/
structure Apart (scopeOf : ν → Option ScopeId) (hidden : ScopeId → Prop) (a₀ b₀ a b : Arena ν) :
    Prop where
  equal : EqualExcept hidden a b
  secluded : Secluded scopeOf hidden a
  left : ∀ id, hidden id → a.scope? id = a₀.scope? id
  right : ∀ id, hidden id → b.scope? id = b₀.scope? id

namespace Apart

variable (h : Apart scopeOf hidden a₀ b₀ a b)
include h

/-- A scope that is not hidden is changed in the same way in both arenas. -/
theorem update {f : Scope ν → Scope ν} (hid : ¬ hidden id)
    (hp : ∀ scope, (f scope).parent = scope.parent)
    (hf : ∀ scope, a.scope? id = some scope →
      ∀ x ∈ successors scopeOf (f scope), x ∈ successors scopeOf scope ∨ ¬ hidden x) :
    Apart scopeOf hidden a₀ b₀ (a.update id f) (b.update id f) := by
  have other {x : ScopeId} (hx : hidden x) : x ≠ id := fun heq => hid (heq ▸ hx)
  refine { equal := ⟨?layout, ?scopes⟩, secluded := ⟨?tidy, ?alive, ?closed⟩, left := ?left,
           right := ?right }
  case layout =>
    exact ((a.sameLayout_update id hp).symm.trans h.equal.layout).trans (b.sameLayout_update id hp)
  case scopes =>
    intro x
    rw [scope?_update, scope?_update, ← h.equal.scope?_eq hid]
    split
    · cases a.scope? id with
      | none => exact .none
      | some scope => exact .some ⟨rfl, rfl, fun _ => rfl⟩
    · exact h.equal.scopes x
  case tidy => exact h.secluded.tidy.update id f
  case alive => exact fun hx => alive_update.2 (h.secluded.alive hx)
  case closed =>
    intro x scope y hx hs hy
    obtain ⟨scope', hs', -, hsucc⟩ := scope?_of_update hp hf hs
    rcases hsucc y hy with hy | hno
    · exact h.secluded.closed hx hs' hy
    · exact hno
  case left => exact fun x hx => by rw [scope?_update, if_neg (other hx), h.left x hx]
  case right => exact fun x hx => by rw [scope?_update, if_neg (other hx), h.right x hx]

theorem define (hid : ¬ hidden id) (name : String) {value : ν}
    (hv : ∀ x, scopeOf value = some x → ¬ hidden x) :
    Apart scopeOf hidden a₀ b₀ (a.define id name value) (b.define id name value) :=
  h.update hid (fun _ => rfl) fun _ _ x hx => (mem_successors_insert hx).imp_right (hv x)

theorem capture (hid : ¬ hidden id) :
    Apart scopeOf hidden a₀ b₀ (a.capture id) (b.capture id) :=
  h.update hid (fun _ => rfl) fun _ _ _ hx => .inl hx

/-- A new scope is the same in both arenas and not a hidden one. -/
theorem extend {parent : ScopeId} (hparent : ¬ hidden parent) :
    (b.extend parent).1 = (a.extend parent).1 ∧ ¬ hidden (a.extend parent).1 ∧
      Apart scopeOf hidden a₀ b₀ (a.extend parent).2 (b.extend parent).2 := by
  have ha := h.secluded.tidy
  have hb := h.equal.layout.tidy ha
  obtain ⟨hnew, hlayout⟩ := h.equal.layout.extend parent
  have fresh : ¬ hidden (a.extend parent).1 := fun hx =>
    scope?_eq_none_iff.1 (ha.scope?_extend_self parent) (h.secluded.alive hx)
  have other {x : ScopeId} (hx : hidden x) : x ≠ (a.extend parent).1 := fun heq => fresh (heq ▸ hx)
  refine ⟨hnew, fresh, ?_⟩
  refine { equal := ⟨hlayout, ?scopes⟩, secluded := ⟨ha.extend parent, ?alive, ?closed⟩,
           left := ?left, right := ?right }
  case scopes =>
    intro x
    rw [ha.scope?_extend, hb.scope?_extend, hnew]
    split
    · exact .some ⟨rfl, rfl, fun _ => rfl⟩
    · exact h.equal.scopes x
  case alive => exact fun hx => (ha.grows_extend parent).alive (h.secluded.alive hx)
  case closed =>
    intro x scope y hx hs hy
    rcases ha.scope?_of_extend hs with hs | ⟨-, rfl⟩
    · exact h.secluded.closed hx hs hy
    · obtain rfl : y = parent := by simpa [successors] using hy
      exact hparent
  case left => exact fun x hx => by rw [ha.scope?_extend, if_neg (other hx), h.left x hx]
  case right => exact fun x hx => by rw [hb.scope?_extend, hnew, if_neg (other hx), h.right x hx]

/-- No hidden scope is in the slot of another one. -/
theorem vacate {scope : Scope ν} (hid : ¬ hidden id) (hs : a.scope? id = some scope) :
    Apart scopeOf hidden a₀ b₀ (a.vacate id.index) (b.vacate id.index) := by
  have other {x : ScopeId} (hx : hidden x) : x.index ≠ id.index := fun heq =>
    hid ((h.secluded.alive hx).eq_of_index_eq ⟨scope, hs⟩ heq ▸ hx)
  have old {x : ScopeId} {s : Scope ν} (hx : (a.vacate id.index).scope? x = some s) :
      a.scope? x = some s := by
    rw [scope?_vacate] at hx
    split at hx
    · cases hx
    · exact hx
  refine { equal := ⟨h.equal.layout.vacate id.index, ?scopes⟩, secluded := ⟨?tidy, ?alive, ?closed⟩,
           left := ?left, right := ?right }
  case scopes =>
    intro x
    rw [scope?_vacate, scope?_vacate]
    split
    · exact .none
    · exact h.equal.scopes x
  case tidy =>
    obtain ⟨slot, hslot, -, hscope⟩ := scope?_eq_some_iff.1 hs
    exact h.secluded.tidy.vacate hslot (by simp [hscope])
  case alive =>
    intro x hx
    rw [Alive, scope?_vacate, if_neg (other hx)]
    exact h.secluded.alive hx
  case closed => exact fun hx hs hy => h.secluded.closed hx (old hs) hy
  case left => exact fun x hx => by rw [scope?_vacate, if_neg (other hx), h.left x hx]
  case right => exact fun x hx => by rw [scope?_vacate, if_neg (other hx), h.right x hx]

/-- A scope that is not hidden is closed in both arenas or in neither. -/
theorem release (hid : ¬ hidden id) :
    Apart scopeOf hidden a₀ b₀ (a.release id) (b.release id) := by
  have same := h.equal.scope?_eq hid
  unfold Arena.release
  rw [← same]
  cases hs : a.scope? id with
  | none => exact h
  | some scope =>
    simp only
    split
    · exact h
    · exact h.vacate hid hs

/-- Assigning to a name fails in both arenas or has the same effect in them. -/
theorem set (hid : ¬ hidden id) (name : String) {value : ν}
    (hv : ∀ x, scopeOf value = some x → ¬ hidden x) :
    (∃ a' b', a.set id name value = .ok a' ∧ b.set id name value = .ok b' ∧
      Apart scopeOf hidden a₀ b₀ a' b') ∨
    ∃ e, a.set id name value = .error e ∧ b.set id name value = .error e := by
  obtain ⟨hfound, hno⟩ := h.equal.lookup h.secluded hid name
  simp only [Arena.set, hfound, h.equal.isRoot_eq]
  cases ht : a.lookup id name with
  | some target => exact .inl ⟨_, _, rfl, rfl, h.define (hno target ht) name hv⟩
  | none =>
    simp only
    split
    · exact .inl ⟨_, _, rfl, rfl, h.define hid name hv⟩
    · exact .inr ⟨_, rfl, rfl⟩

end Apart

end Arena

end ScopeLang
