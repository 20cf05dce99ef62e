import ScopeLang.Proofs.Eval.Related
import ScopeLang.Proofs.Scope.Held

/-!
# Evaluation keeps the arena sound

An evaluation is compared with itself: its stages are the arenas it passes through, each of them
sound, and the values it carries hold only handles that are held. A call opens a scope that nothing
refers to yet. When it ends, the scope is closed only if it was never captured, and then nothing
refers to it either, not even a value that the evaluation still carries.

## Main definitions

* `HostCall.ReturnsGiven` — a function of the host that hands out no closures but its arguments.

## Main statements

* `eval_sound` — evaluation keeps the arena sound and returns a value that holds on to a scope in
  use.
-/

namespace ScopeLang

variable {κ ω : Type}

/-- What the host does when one function of its is called. -/
abbrev HostCall (κ ω : Type) := List (Value κ) → ω → Except Error (Value κ) × ω

/-- The function hands out no closure but one of the arguments that it was just given. -/
def HostCall.ReturnsGiven (call : HostCall κ ω) : Prop :=
  ∀ args world f, (call args world).1 = .ok (.closure f) → .closure f ∈ args

namespace Bindings

theorem mem_of_get? {ν : Type} {name : String} {v : ν} {bs : Bindings ν}
    (h : bs.get? name = some v) : (name, v) ∈ bs := by
  induction bs with
  | nil => simp [get?] at h
  | cons b rest ih =>
    obtain ⟨n, u⟩ := b
    by_cases hn : n = name
    · obtain rfl : u = v := by simpa [get?, hn] using h
      simp [hn]
    · exact List.mem_cons_of_mem _ (ih (by simpa [get?, hn] using h))

end Bindings

namespace Arena

variable {ν : Type} {a : Arena ν} {id : ScopeId} {name : String} {value : ν}

/-- A value that a name has is bound in a scope in use. -/
theorem bound_of_get (h : a.get id name = .ok value) :
    ∃ target scope, a.lookup id name = some target ∧ a.scope? target = some scope ∧
      (name, value) ∈ scope.bindings := by
  unfold get at h
  split at h
  · rename_i hv
    cases h
    obtain ⟨scope, hscope, hget⟩ := Option.bind_eq_some_iff.1 hv
    obtain ⟨target, htarget, hs⟩ := Option.bind_eq_some_iff.1 hscope
    exact ⟨target, scope, htarget, hs, Bindings.mem_of_get? hget⟩
  · cases h

/-- Assigning to a name binds it in some scope. -/
theorem define_of_set {b : Arena ν} (h : a.set id name value = .ok b) :
    ∃ target, b = a.define target name value := by
  unfold set at h
  split at h
  · cases h
    exact ⟨_, rfl⟩
  · split at h
    · cases h
      exact ⟨_, rfl⟩
    · cases h

theorem Sound.held_of_get {scopeOf : ν → Option ScopeId} (h : a.Sound scopeOf)
    (hget : a.get id name = .ok value) {x : ScopeId} (hx : scopeOf value = some x) : a.Held x := by
  obtain ⟨target, scope, -, hs, hmem⟩ := bound_of_get hget
  exact h.held hs (mem_successors_of_bound hmem hx)

end Arena

/-! ### Calls -/

/-- The scope that the value holds, if any, is held. -/
def Value.HeldIn (v : Value κ) (a : Arena (Value κ)) : Prop :=
  ∀ x, v.scope? = some x → a.Held x

theorem Value.HeldIn.mono {v : Value κ} {a b : Arena (Value κ)} (h : v.HeldIn a) (hab : a.Grows b) :
    v.HeldIn b :=
  fun x hx => hab.held (h x hx)

theorem Value.HeldIn.of_scope?_eq_none {v : Value κ} {a : Arena (Value κ)} (h : v.scope? = none) :
    v.HeldIn a := by
  simp [HeldIn, h]

/-- Binding parameters defines names in the scope, each as an argument or as the default. -/
theorem bindParams_induction {P : Arena (Value κ) → Prop} {a : Arena (Value κ)} {id : ScopeId}
    {args : List (Value κ)} (params : List String) (h : P a)
    (define : ∀ b name v, v ∈ args ∨ v = .bool false → P b → P (b.define id name v)) :
    P (bindParams a id params args) := by
  induction params generalizing a args with
  | nil => exact h
  | cons p ps ih =>
    cases args with
    | nil => exact ih (define a p _ (.inr rfl) h) define
    | cons v vs =>
      refine ih (define a p v (.inl (by simp)) h) fun b name u hu => ?_
      exact define b name u (hu.imp_left (List.mem_cons_of_mem v))

theorem bindParams_sound {a : Arena (Value κ)} (h : a.Sound Value.scope?) (id : ScopeId)
    (params : List String) {args : List (Value κ)} (hargs : ∀ v ∈ args, v.HeldIn a) :
    (bindParams a id params args).Sound Value.scope? ∧ a.Grows (bindParams a id params args) := by
  refine bindParams_induction (P := fun b => b.Sound Value.scope? ∧ a.Grows b) params
    ⟨h, .refl a⟩ ?_
  rintro b name v hv ⟨hs, hg⟩
  have hheld : v.HeldIn b := by
    rcases hv with hv | rfl
    · exact (hargs v hv).mono hg
    · exact .of_scope?_eq_none rfl
  exact ⟨hs.define id name hheld, hg.trans (b.grows_define id name v)⟩

/-- A call opens a scope that was not in use. -/
theorem State.openCall_sound {s : State κ ω} (h : s.arena.Sound Value.scope?) {f : Closure}
    (hf : s.arena.Held f.scope) {args : List (Value κ)} (hargs : ∀ v ∈ args, v.HeldIn s.arena) :
    (s.openCall f args).2.arena.Sound Value.scope? ∧
      s.arena.Grows (s.openCall f args).2.arena ∧ ¬ s.arena.Alive (s.openCall f args).1 ∧
      (s.openCall f args).2.arena.Alive (s.openCall f args).1 := by
  have opened := h.tidy.grows_extend f.scope
  obtain ⟨hs, hg⟩ := bindParams_sound (h.extend hf) (s.arena.extend f.scope).1 f.params
    fun v hv => (hargs v hv).mono opened
  refine ⟨hs, opened.trans hg, ?_, hg.alive (h.tidy.alive_extend_self f.scope)⟩
  exact Arena.scope?_eq_none_iff.1 (h.tidy.scope?_extend_self f.scope)

/-! ### The whole evaluation -/

/-- An evaluation beside itself, with sound arenas as its stages. -/
def custody (κ ω : Type) : Correspondence κ ω where
  Stage := Arena (Value κ)
  le := Arena.Grows
  refl := .refl
  trans := .trans
  state a s t := s = t ∧ s.arena = a ∧ a.Sound Value.scope?
  scope a x y := x = y ∧ a.Alive x
  handle a x y := x = y ∧ a.Held x
  scope_mono h hx := ⟨hx.1, h.alive hx.2⟩
  handle_mono h hx := ⟨hx.1, h.held hx.2⟩

theorem custody_value_iff {a : Arena (Value κ)} {v w : Value κ} :
    (custody κ ω).value a v w ↔ v = w ∧ v.HeldIn a :=
  Value.Rel.eq_and_iff

theorem custody_values_iff {a : Arena (Value κ)} {vs ws : List (Value κ)} :
    List.Forall₂ ((custody κ ω).value a) vs ws ↔ vs = ws ∧ ∀ v ∈ vs, v.HeldIn a :=
  Value.Rel.forall₂_eq_and_iff

theorem custody_respects {host : Host κ ω} (hh : ∀ key, HostCall.ReturnsGiven (host key)) :
    (custody κ ω).Respects host host where
  read := by
    rintro a x _ ⟨rfl, -⟩ name s _ ⟨rfl, rfl, hs⟩
    refine ⟨s.arena, .refl _, ⟨rfl, rfl, hs⟩, ?_⟩
    simp only [Action.readName]
    cases hget : s.arena.get x name with
    | error e => exact .error e
    | ok v => exact .ok (custody_value_iff.2 ⟨rfl, fun y hy => hs.held_of_get hget hy⟩)
  assign := by
    rintro a x _ v w ⟨rfl, -⟩ hv name s _ ⟨rfl, rfl, hs⟩
    obtain ⟨rfl, hheld⟩ := custody_value_iff.1 hv
    simp only [Action.assignName]
    cases hset : s.arena.set x name v with
    | error e => exact ⟨s.arena, .refl _, ⟨rfl, rfl, hs⟩, .error e⟩
    | ok b =>
      obtain ⟨target, rfl⟩ := Arena.define_of_set hset
      have grows := s.arena.grows_define target name v
      exact ⟨_, grows, ⟨rfl, rfl, hs.define target name hheld⟩,
        .ok (custody_value_iff.2 ⟨rfl, hheld.mono grows⟩)⟩
  create := by
    rintro a x _ ⟨rfl, hx⟩ params body s _ ⟨rfl, rfl, hs⟩
    refine ⟨_, s.arena.grows_capture x, ⟨rfl, rfl, hs.capture x⟩, .ok ?_⟩
    exact .closure rfl rfl rfl ⟨rfl, Arena.held_capture hx⟩
  host := by
    rintro a vs ws hvs f s _ ⟨rfl, rfl, hs⟩
    obtain ⟨rfl, hheld⟩ := custody_values_iff.1 hvs
    refine ⟨s.arena, .refl _, ⟨rfl, rfl, hs⟩, ?_⟩
    have given := hh f.key vs s.world
    simp only [Action.callHost]
    cases hr : (host f.key vs s.world).1 with
    | error e => exact .error e
    | ok v =>
      refine .ok (custody_value_iff.2 ⟨rfl, fun y hy => ?_⟩)
      cases v with
      | closure g => exact hheld _ (given g hr) y hy
      | _ => simp [Value.scope?] at hy

/-- Calls keep the arena sound: a scope that is closed with its call is held by nothing. -/
theorem custody_calls {host : Host κ ω} (hh : ∀ key, HostCall.ReturnsGiven (host key))
    (limit k : Nat) :
    (custody κ ω).Calls (callClosure host limit k) (callClosure host limit k) := by
  induction k with
  | zero => exact fun _ _ _ _ _ _ _ => .fail _
  | succ k ih =>
    intro a f g vs ws hf hvs s _ hst
    obtain ⟨rfl, rfl, hs⟩ := hst
    obtain ⟨hfg, hheld⟩ := custody_value_iff.1 hf
    obtain rfl : f = g := by simpa using hfg
    obtain ⟨rfl, hargs⟩ := custody_values_iff.1 hvs
    obtain ⟨hopen, grows, hnew, halive⟩ := State.openCall_sound hs (hheld _ rfl) hargs
    simp only [callClosure]
    obtain ⟨b, hb, ⟨-, harena, hsound⟩, hr⟩ := (custody_respects hh).evalWith ih f.body
      (p := (s.openCall f vs).2.arena) ⟨rfl, halive⟩ (s.openCall f vs).2 _ ⟨rfl, rfl, hopen⟩
    subst harena
    refine ⟨_, (grows.trans hb).release hnew, ⟨rfl, rfl, hsound.release _⟩, ?_⟩
    refine hr.imp fun v w _ hvw => ?_
    obtain ⟨rfl, hv⟩ := custody_value_iff.1 hvw
    exact custody_value_iff.2 ⟨rfl, fun x hx => (hv x hx).release _⟩

/-- Evaluation in a scope in use keeps the arena sound and every scope that was in use, and a
closure that it returns holds a scope in use. -/
theorem eval_sound {host : Host κ ω} (hh : ∀ key, HostCall.ReturnsGiven (host key)) {s : State κ ω}
    (hs : s.arena.Sound Value.scope?) {id : ScopeId} (hid : s.arena.Alive id) (calls : CallDepth)
    (n : Node) :
    (eval host calls id n s).2.arena.Sound Value.scope? ∧
      s.arena.Grows (eval host calls id n s).2.arena ∧
      ∀ v, (eval host calls id n s).1 = .ok v → v.HeldIn (eval host calls id n s).2.arena := by
  obtain ⟨a, grows, ⟨-, rfl, hsound⟩, hr⟩ := (custody_respects hh).evalWith
    (custody_calls hh calls.limit calls.remaining) n (p := s.arena) ⟨rfl, hid⟩ s s ⟨rfl, rfl, hs⟩
  refine ⟨hsound, grows, fun v hv => ?_⟩
  simp only [eval] at hv
  rw [hv] at hr
  cases hr with
  | ok h => exact (custody_value_iff.1 h).2

end ScopeLang
