import ScopeLang.Proofs.Eval.Custody
import ScopeLang.Proofs.Eval.Interrupted

/-!
# Where host functions come from

A program cannot make functions of the host. It has those that are bound in its environment when it
begins, and those that the host hands out while it runs. So if only functions of a known kind are
bound, and the host hands out no others, two hosts that do the same in the known functions are not
told apart, whatever else they do.

## Main definitions

* `Arena.AllBound` — all values bound in scopes in use have a property.
* `Likeness` — two hosts that do the same in the functions that are known.
* `Likeness.InStep` — two actions that do the same while only known functions are around.

## Main statements

* `Likeness.evaluate` — evaluations under two such hosts.
-/

namespace ScopeLang

/-! ### What is bound -/

namespace Arena

variable {ν : Type} {P : ν → Prop} {a b : Arena ν} {id : ScopeId} {name : String} {value : ν}

/-- All values bound in scopes in use have the property. -/
def AllBound (P : ν → Prop) (a : Arena ν) : Prop :=
  ∀ id scope, a.scope? id = some scope → ∀ b ∈ scope.bindings, P b.2

theorem allBound_new : (new : Arena ν).AllBound P := by
  intro id scope hs
  obtain ⟨-, rfl⟩ := eq_of_scope?_new hs
  exact nofun

namespace AllBound

theorem update (h : a.AllBound P) (id : ScopeId) {f : Scope ν → Scope ν}
    (hf : ∀ scope, (∀ b ∈ scope.bindings, P b.2) → ∀ b ∈ (f scope).bindings, P b.2) :
    (a.update id f).AllBound P := by
  intro x scope hs
  rw [scope?_update] at hs
  split at hs
  · obtain ⟨scope', hs', rfl⟩ := Option.map_eq_some_iff.1 hs
    exact hf scope' (h id scope' hs')
  · exact h x scope hs

theorem define (h : a.AllBound P) (id : ScopeId) (name : String) (hv : P value) :
    (a.define id name value).AllBound P := by
  refine h.update id fun scope hscope b hb => ?_
  rcases mem_insert hb with hb | rfl
  · exact hscope b hb
  · exact hv

theorem capture (h : a.AllBound P) (id : ScopeId) : (a.capture id).AllBound P :=
  h.update id fun _ hscope => hscope

/-- A new scope binds nothing. -/
theorem extend (h : a.AllBound P) (parent : ScopeId) : (a.extend parent).2.AllBound P := by
  intro x scope hs
  obtain ⟨slot, hslot, hg, hscope⟩ := scope?_eq_some_iff.1 hs
  have old (ho : a.slots[x.index]? = some slot) : ∀ b ∈ scope.bindings, P b.2 :=
    h x scope (scope?_eq_some_iff.2 ⟨slot, ho, hg, hscope⟩)
  unfold Arena.extend at hslot
  cases hfree : a.free with
  | nil =>
    simp only [hfree, Array.getElem?_push] at hslot
    split at hslot
    · obtain rfl := Option.some.inj hslot
      obtain rfl := Option.some.inj hscope
      exact nofun
    · exact old hslot
  | cons i free =>
    simp only [hfree, Array.getElem?_modify] at hslot
    split at hslot
    · obtain ⟨slot', -, rfl⟩ := Option.map_eq_some_iff.1 hslot
      obtain rfl := Option.some.inj hscope
      exact nofun
    · exact old hslot

theorem release (h : a.AllBound P) (id : ScopeId) : (a.release id).AllBound P := by
  rcases a.release_cases id with he | ⟨_, -, -, -, he⟩
  · rwa [he]
  · intro x scope hs
    rw [he, scope?_vacate] at hs
    split at hs
    · cases hs
    · exact h x scope hs

theorem of_get (h : a.AllBound P) (hget : a.get id name = .ok value) : P value := by
  obtain ⟨target, scope, -, hs, hmem⟩ := bound_of_get hget
  exact h target scope hs _ hmem

theorem of_set (h : a.AllBound P) (hv : P value) (hset : a.set id name value = .ok b) :
    b.AllBound P := by
  obtain ⟨target, rfl⟩ := define_of_set hset
  exact h.define target name hv

end AllBound

end Arena

/-- A call opens a scope in which the arguments are bound, or `false` for those that are missing. -/
theorem State.allBound_openCall {κ ω : Type} {P : Value κ → Prop} {s : State κ ω}
    (h : s.arena.AllBound P) (hfalse : P (.bool false)) (f : Closure) {args : List (Value κ)}
    (hargs : ∀ v ∈ args, P v) : (s.openCall f args).2.arena.AllBound P := by
  refine bindParams_induction f.params (h.extend f.scope) fun b name v hv hb => ?_
  refine hb.define _ name ?_
  rcases hv with hv | rfl
  · exact hargs v hv
  · exact hfalse

/-! ### Known functions -/

variable {κ ω ω' α β : Type}

/-- A value that is a function of the host only if it is a known one. -/
def Value.Known (known : κ → Prop) (v : Value κ) : Prop := ∀ f, v = .builtin f → known f.key

theorem Value.known_number {known : κ → Prop} (x : Float) : (number x : Value κ).Known known := nofun

theorem Value.known_bool {known : κ → Prop} (b : Bool) : (bool b : Value κ).Known known := nofun

theorem BinaryOp.known_onNumbers {known : κ → Prop} {f : Float → Float → Value κ}
    (hf : ∀ x y, (f x y).Known known) {v w u : Value κ} (h : onNumbers f v w = .ok u) :
    u.Known known := by
  simp only [onNumbers, bind, Except.bind] at h
  split at h
  · cases h
  · split at h
    · cases h
    · cases h
      exact hf _ _

theorem BinaryOp.known_onDivision {known : κ → Prop} {f : Float → Float → Float} {v w u : Value κ}
    (h : onDivision f v w = .ok u) : u.Known known := by
  simp only [onDivision, bind, Except.bind] at h
  split at h
  · cases h
  · split at h
    · cases h
    · cases h
      exact Value.known_number _

/-- Operators make no functions. -/
theorem BinaryOp.known_apply {known : κ → Prop} {op : BinaryOp} {v w u : Value κ}
    (hv : v.Known known) (hw : w.Known known) (h : op.apply v w = .ok u) : u.Known known := by
  cases op with
  | or | and =>
    simp only [apply, Except.ok.injEq] at h
    subst h
    split <;> assumption
  | equal | notEqual =>
    simp only [apply, Except.ok.injEq] at h
    subst h
    exact Value.known_bool _
  | divide | modulo => exact known_onDivision h
  | less | greater | lessEqual | greaterEqual =>
    exact known_onNumbers (fun _ _ => Value.known_bool _) h
  | add | subtract | multiply => exact known_onNumbers (fun _ _ => Value.known_number _) h

/-- Two hosts that do the same in the known functions, and hand out no others. -/
structure Likeness (host : Host κ ω) (host' : Host κ ω') where
  known : κ → Prop
  alike : ω → ω' → Prop
  step : ∀ key args w w', known key → (∀ v ∈ args, v.Known known) → alike w w' →
    (host key args w).1 = (host' key args w').1 ∧
      alike (host key args w).2 (host' key args w').2 ∧
      ∀ v, (host key args w).1 = .ok v → v.Known known

namespace Likeness

variable {host : Host κ ω} {host' : Host κ ω'} (L : Likeness host host')

/-- States that differ at most in the worlds, where only known functions are bound. -/
structure Aligned (s : State κ ω) (t : State κ ω') : Prop where
  beside : s.Beside L.alike t
  bound : s.arena.AllBound (Value.Known L.known)

/-- While only known functions are around, both actions do the same, and what they come to has the
property. -/
def InStep (P : α → Prop) (x : Action κ ω α) (y : Action κ ω' α) : Prop :=
  ∀ s t, L.Aligned s t →
    (x s).1 = (y t).1 ∧ L.Aligned (x s).2 (y t).2 ∧ ∀ a, (x s).1 = .ok a → P a

variable {L} {P : α → Prop} {Q : β → Prop}

/-- The property of values to be no function but a known one. -/
abbrev Known (L : Likeness host host') : Value κ → Prop := Value.Known L.known

namespace InStep

/-- What does the same from states beside each other only has to keep what is bound known. -/
theorem of_level {x : Action κ ω α} {y : Action κ ω' α} (h : Action.Level L.alike x y)
    (hx : ∀ s, s.arena.AllBound L.Known →
      (x s).2.arena.AllBound L.Known ∧ ∀ a, (x s).1 = .ok a → P a) : L.InStep P x y := by
  intro s t hst
  obtain ⟨hr, hbeside⟩ := h s t hst.beside
  obtain ⟨hbound, hP⟩ := hx s hst.bound
  exact ⟨hr, ⟨hbeside, hbound⟩, hP⟩

theorem ofExcept {r : Except Error α} (hr : ∀ a, r = .ok a → P a) :
    L.InStep P (.ofExcept r) (.ofExcept r) :=
  of_level (Action.level_ofExcept r) fun _ h => ⟨h, hr⟩

theorem pure {a : α} (ha : P a) : L.InStep P (Pure.pure a : Action κ ω α) (Pure.pure a) :=
  ofExcept fun _ h => Except.ok.inj h ▸ ha

theorem fail (e : Error) : L.InStep P (.fail e) (.fail e) := ofExcept nofun

/-- One action after another; the second ones are only compared at what the first can come to. -/
theorem bind {x : Action κ ω α} {y : Action κ ω' α} {f : α → Action κ ω β} {g : α → Action κ ω' β}
    (h : L.InStep P x y) (hfg : ∀ a, P a → L.InStep Q (f a) (g a)) :
    L.InStep Q (x >>= f) (y >>= g) := by
  intro s t hst
  obtain ⟨hr, hst', hP⟩ := h s t hst
  simp only [Action.bind_apply]
  cases hx : x s with
  | mk r s' =>
    cases hy : y t with
    | mk r' t' =>
      simp only [hx, hy] at hr hst' hP
      subst hr
      cases r with
      | ok a => exact hfg a (hP a rfl) s' t' hst'
      | error e => exact ⟨rfl, hst', fun a h => by cases h⟩

theorem readName (scope : ScopeId) (name : String) :
    L.InStep L.Known (.readName scope name) (.readName scope name) :=
  of_level (Action.level_readName scope name) fun _ h => ⟨h, fun _ hv => h.of_get hv⟩

theorem assignName (scope : ScopeId) (name : String) {v : Value κ} (hv : L.Known v) :
    L.InStep L.Known (.assignName scope name v) (.assignName scope name v) := by
  refine of_level (Action.level_assignName scope name v) fun s h => ?_
  simp only [Action.assignName]
  cases hset : s.arena.set scope name v with
  | ok a => exact ⟨h.of_set hv hset, fun w hw => Except.ok.inj hw ▸ hv⟩
  | error e => exact ⟨h, fun w hw => by cases hw⟩

theorem makeClosure (scope : ScopeId) (params : List String) (body : Node) :
    L.InStep L.Known (.makeClosure scope params body) (.makeClosure scope params body) := by
  refine of_level (Action.level_makeClosure scope params body) fun s h => ⟨h.capture scope, ?_⟩
  rintro v hv f rfl
  cases hv

theorem callHost {f : HostFunction κ} (hf : L.known f.key) {args : List (Value κ)}
    (hargs : ∀ v ∈ args, L.Known v) :
    L.InStep L.Known (.callHost host f args) (.callHost host' f args) := by
  intro s t hst
  obtain ⟨hr, hworld, hv⟩ := L.step f.key args _ _ hf hargs hst.beside.world
  exact ⟨hr, ⟨⟨hst.beside.arena, hst.beside.fresh, hworld⟩, hst.bound⟩, hv⟩

end InStep

/-- Calls of closures with known arguments are in step. -/
def Calls (L : Likeness host host') (call : Caller κ ω) (call' : Caller κ ω') : Prop :=
  ∀ f args, (∀ v ∈ args, L.Known v) → L.InStep L.Known (call f args) (call' f args)

variable {call : Caller κ ω} {call' : Caller κ ω'}

theorem Calls.applyWith (hc : L.Calls call call') {f : Value κ} (hf : L.Known f)
    {args : List (Value κ)} (hargs : ∀ v ∈ args, L.Known v) :
    L.InStep L.Known (applyWith host call f args) (applyWith host' call' f args) := by
  cases f with
  | closure f => exact hc f args hargs
  | builtin f => exact .callHost (hf f rfl) hargs
  | number | text | bool => exact .fail _

mutual

/-- Evaluations are in step if calls are. -/
theorem evalWith (hc : L.Calls call call') (scope : ScopeId) :
    (n : Node) → L.InStep L.Known (evalWith host call scope n) (evalWith host' call' scope n)
  | .number _ | .text _ | .bool _ => by
    simp only [ScopeLang.evalWith]
    exact .pure nofun
  | .var name => by
    simp only [ScopeLang.evalWith]
    exact .readName scope name
  | .lambda params body => by
    simp only [ScopeLang.evalWith]
    exact .makeClosure scope params body
  | .assign target value => by
    simp only [ScopeLang.evalWith]
    cases target.name? with
    | none => exact .fail _
    | some name => exact (evalWith hc scope value).bind fun v hv => .assignName scope name hv
  | .binary op left right => by
    simp only [ScopeLang.evalWith]
    refine (evalWith hc scope left).bind fun v hv => ?_
    refine (evalWith hc scope right).bind fun w hw => ?_
    exact .ofExcept fun u hu => BinaryOp.known_apply hv hw hu
  | .ifThen test yes => by
    simp only [ScopeLang.evalWith]
    refine (evalWith hc scope test).bind fun v _ => ?_
    cases v.countsAsTrue with
    | true => exact evalWith hc scope yes
    | false => exact .pure (Value.known_bool false)
  | .ifElse test yes no => by
    simp only [ScopeLang.evalWith]
    refine (evalWith hc scope test).bind fun v _ => ?_
    cases v.countsAsTrue with
    | true => exact evalWith hc scope yes
    | false => exact evalWith hc scope no
  | .call callee args => by
    simp only [ScopeLang.evalWith]
    refine (evalWith hc scope callee).bind fun f hf => ?_
    exact (evalAll hc scope args).bind fun vs hvs => hc.applyWith hf hvs
  | .seq items => by
    simp only [ScopeLang.evalWith]
    exact evalSeq hc scope items (Value.known_bool false)

theorem evalAll (hc : L.Calls call call') (scope : ScopeId) :
    (ns : List Node) → L.InStep (fun vs => ∀ v ∈ vs, L.Known v) (evalAll host call scope ns)
      (evalAll host' call' scope ns)
  | [] => by
    simp only [ScopeLang.evalAll]
    exact .pure nofun
  | n :: ns => by
    simp only [ScopeLang.evalAll]
    refine (evalWith hc scope n).bind fun v hv => ?_
    exact (evalAll hc scope ns).bind fun vs hvs => .pure (List.forall_mem_cons.2 ⟨hv, hvs⟩)

theorem evalSeq (hc : L.Calls call call') (scope : ScopeId) :
    (ns : List Node) → {last : Value κ} → L.Known last →
      L.InStep L.Known (evalSeq host call scope last ns) (evalSeq host' call' scope last ns)
  | [], _, hlast => by
    simp only [ScopeLang.evalSeq]
    exact .pure hlast
  | n :: ns, _, _ => by
    simp only [ScopeLang.evalSeq]
    exact (evalWith hc scope n).bind fun v hv => evalSeq hc scope ns hv

end

theorem callClosure (L : Likeness host host') (limit k : Nat) :
    L.Calls (callClosure host limit k) (callClosure host' limit k) := by
  induction k with
  | zero => exact fun _ _ _ => .fail _
  | succ k ih =>
    intro f args hargs s t hst
    obtain ⟨hscope, hopen⟩ := hst.beside.openCall f args
    have bound := State.allBound_openCall hst.bound (Value.known_bool false) f hargs
    obtain ⟨hr, hst', hv⟩ := evalWith ih (s.openCall f args).1 f.body _ _ ⟨hopen, bound⟩
    simp only [ScopeLang.callClosure, ← hscope]
    exact ⟨hr, ⟨hst'.beside.closeCall _, hst'.bound.release _⟩, hv⟩

/-- Evaluations under two hosts that do the same in the known functions do the same if only known
functions are bound at the beginning. -/
theorem evaluate (L : Likeness host host') (calls : CallDepth) (scope : ScopeId) (n : Node) :
    L.InStep L.Known (evaluate host calls scope n) (evaluate host' calls scope n) := by
  rw [evaluate_eq_eval, evaluate_eq_eval]
  exact evalWith (L.callClosure calls.limit calls.remaining) scope n

end Likeness

end ScopeLang
