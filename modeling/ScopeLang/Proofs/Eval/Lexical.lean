import ScopeLang.Proofs.Eval.Keeping
import ScopeLang.Proofs.Eval.Respelled
import ScopeLang.Proofs.Eval.Stale

/-!
# Spelling does not matter

Two trees that differ in how `x` is spelled are evaluated side by side. A stage is the arena of the
first evaluation together with the scopes in which `x` is spelled `y` in the second one. A call opens
a scope in which that is as in the body of the function; the closures that are around keep to what it
was in the scope that they hold. So nothing but spellings ever differs.

## Main definitions

* `Closure.PartRenamed` — closures that differ only by the name of one parameter.
* `HostCall.Unspelling` — functions of two hosts that do not look at spellings.
* `Stage`, `Stage.States` — stages of two evaluations, and the states that belong to them.
* `Stage.Paired` — actions that lead from stages to later stages.

## Main statements

* `Stage.evalWith_paired`, `Stage.callClosure_paired` — evaluations and calls of that kind.
* `evaluate_respelled` — whole evaluations.
-/

namespace ScopeLang

variable {κ ω ω' : Type}

/-- The closures differ only by what becomes of a part of a tree when a parameter `x` is renamed. -/
def Closure.PartRenamed (x y : String) (f g : Closure) : Prop :=
  Node.PartRenamed x y (.lambda f.params f.body) (.lambda g.params g.body)

/-- Both functions return the same value without a closure, or the argument at the same place, or they
fail in the same way, however `x` is spelled in closures among their arguments. -/
def HostCall.Unspelling (x y : String) (alike : ω → ω' → Prop) (call : HostCall κ ω)
    (call' : HostCall κ ω') : Prop :=
  ∀ args args' world world', List.Forall₂ (Value.Akin (Closure.PartRenamed x y)) args args' →
    alike world world' → alike (call args world).2 (call' args' world').2 ∧
      AgreeInKind (Handed args args') (call args world).1 (call' args' world').1

theorem Handed.akin {C : Closure → Closure → Prop} {args args' : List (Value κ)} {v w : Value κ}
    (h : Handed args args' v w) (hargs : List.Forall₂ (Value.Akin C) args args') : v.Akin C w := by
  cases h with
  | plain h => exact .of_scope?_eq_none h
  | given i hv hw =>
    obtain ⟨hi, rfl⟩ := List.getElem?_eq_some_iff.1 hv
    obtain ⟨hj, rfl⟩ := List.getElem?_eq_some_iff.1 hw
    exact hargs.get hi hj

/-- Only a name is spelled like a name. -/
theorem Node.Respelled.name?_cases {x y : String} {m : Bool} {n n' : Node}
    (h : Node.Respelled x y m n n') : (n.name? = none ∧ n'.name? = none) ∨
      ∃ name, name ≠ y ∧ n.name? = some name ∧ n'.name? = some (respell x y m name) := by
  cases h with
  | var hn => exact .inr ⟨_, hn, rfl, rfl⟩
  | _ => exact .inl ⟨rfl, rfl⟩

/-! ### Coherent arenas -/

/-- A call changes no scope but the one that it opens. -/
theorem State.scope?_openCall {s : State κ ω} (h : s.arena.Tidy) {f : Closure}
    {args : List (Value κ)} {z : ScopeId} (hz : z ≠ (s.openCall f args).1) :
    (s.openCall f args).2.arena.scope? z = s.arena.scope? z := by
  have hne : z ≠ (s.arena.extend f.scope).1 := hz
  have extended : (s.arena.extend f.scope).2.scope? z = s.arena.scope? z := by
    rw [h.scope?_extend, if_neg hne]
  refine bindParams_induction (P := fun b => b.scope? z = s.arena.scope? z) f.params extended ?_
  intro b name v _ hb
  rw [Arena.define, Arena.scope?_update]
  exact (if_neg hne).trans hb

namespace Arena

variable {x : String} {mode : ScopeId → Bool} {a : Arena (Value κ)}

theorem Coherent.define (h : a.Coherent x mode) (id : ScopeId) (name : String) (v : Value κ) :
    (a.define id name v).Coherent x mode := by
  intro z scope parent hz hb hp
  rw [Arena.define, scope?_update] at hz
  split at hz
  · obtain ⟨s, hs, rfl⟩ := Option.map_eq_some_iff.1 hz
    have before : s.bindings.binds x = false := by
      rw [Bool.eq_false_iff] at hb ⊢
      exact fun hx => hb (binds_insert.2 (.inr hx))
    subst z
    exact h id s parent hs before hp
  · exact h z scope parent hz hb hp

theorem Coherent.capture (h : a.Coherent x mode) (id : ScopeId) :
    (a.capture id).Coherent x mode := by
  intro z scope parent hz hb hp
  rw [Arena.capture, scope?_update] at hz
  split at hz
  · obtain ⟨s, hs, rfl⟩ := Option.map_eq_some_iff.1 hz
    subst z
    exact h id s parent hs hb hp
  · exact h z scope parent hz hb hp

theorem Coherent.release (h : a.Coherent x mode) (id : ScopeId) :
    (a.release id).Coherent x mode :=
  fun z scope parent hz hb hp => h z scope parent (scope?_of_release hz) hb hp

/-- In the scope of a call `x` may be spelled anew if it is a parameter. -/
theorem Coherent.openCall {s : State κ ω} (h : s.arena.Coherent x mode)
    (hs : s.arena.Sound Value.scope?) {f : Closure} (hf : s.arena.Alive f.scope)
    (args : List (Value κ)) {m : Bool} (hm : x ∉ f.params → m = mode f.scope) :
    (s.openCall f args).2.arena.Coherent x (Function.update mode (s.openCall f args).1 m) := by
  have other {z : ScopeId} (hz : s.arena.Alive z) : z ≠ (s.openCall f args).1 := by
    rintro rfl
    exact scope?_eq_none_iff.1 (hs.tidy.scope?_extend_self f.scope) hz
  intro z scope parent hz hb hp
  by_cases hnew : z = (s.openCall f args).1
  · subst hnew
    obtain ⟨scope', hscope, hparent, hbinds⟩ := State.openCall_binds hs.tidy f args
    obtain rfl := Option.some.inj (hz.symm.trans hscope)
    obtain rfl := Option.some.inj (hp.symm.trans hparent)
    have hx : x ∉ f.params := fun hx => by simp [(hbinds x).2 hx] at hb
    rw [Function.update_self, Function.update_of_ne (other hf), hm hx]
  · rw [State.scope?_openCall hs.tidy hnew] at hz
    rw [Function.update_of_ne hnew, Function.update_of_ne (other (hs.alive_parent hz hp))]
    exact h z scope parent hz hb hp

end Arena

/-! ### Stages -/

/-- The arena of the first evaluation, and the scopes in which `x` is spelled `y` in the second. -/
structure Stage (κ : Type) where
  arena : Arena (Value κ)
  mode : ScopeId → Bool

namespace Stage

variable {x y : String} {alike : ω → ω' → Prop} {p q r : Stage κ} {v w : Value κ}

/-- A later stage: the arena has grown, and the scopes that were in use spell as they did. -/
structure Le (p q : Stage κ) : Prop where
  grows : p.arena.Grows q.arena
  mode : ∀ {id}, p.arena.Alive id → q.mode id = p.mode id

theorem Le.refl (p : Stage κ) : p.Le p := ⟨.refl _, fun _ => rfl⟩

theorem Le.trans (h : p.Le q) (h' : q.Le r) : p.Le r :=
  ⟨h.grows.trans h'.grows, fun hid => (h'.mode (h.grows.alive hid)).trans (h.mode hid)⟩

theorem Le.alive (h : p.Le q) {id : ScopeId} (hid : p.arena.Alive id) : q.arena.Alive id :=
  h.grows.alive hid

theorem Le.respelled (h : p.Le q) {id : ScopeId} (hid : p.arena.Alive id) {n n' : Node}
    (hn : Node.Respelled x y (p.mode id) n n') : Node.Respelled x y (q.mode id) n n' := by
  rwa [h.mode hid]

theorem Le.respelledAll (h : p.Le q) {id : ScopeId} (hid : p.arena.Alive id) {ns ns' : List Node}
    (hns : Node.RespelledAll x y (p.mode id) ns ns') :
    Node.RespelledAll x y (q.mode id) ns ns' := by
  rwa [h.mode hid]

/-- Closures that hold a scope that outlives its call, and that are spelled as it is in that scope. -/
def Closures (x y : String) (p : Stage κ) (f g : Closure) : Prop :=
  p.arena.Held f.scope ∧
    Node.Respelled x y (p.mode f.scope) (.lambda f.params f.body) (.lambda g.params g.body)

/-- The values that belong together. -/
def Values (x y : String) (p : Stage κ) : Value κ → Value κ → Prop :=
  Value.Akin (p.Closures x y)

theorem Le.closures (h : p.Le q) {f g : Closure} (hfg : p.Closures x y f g) :
    q.Closures x y f g :=
  ⟨h.grows.held hfg.1, h.respelled hfg.1.alive hfg.2⟩

theorem Le.values (h : p.Le q) (hv : p.Values x y v w) : q.Values x y v w :=
  hv.imp fun _ _ => h.closures

theorem Values.heldIn (h : p.Values x y v w) : v.HeldIn p.arena := by
  intro z hz
  cases h with
  | closure _ _ hfg => exact Option.some.inj hz ▸ hfg.1
  | _ => simp [Value.scope?] at hz

theorem Values.heldIn_of_mem {vs ws : List (Value κ)} (h : List.Forall₂ (p.Values x y) vs ws) :
    ∀ v ∈ vs, v.HeldIn p.arena := by
  induction h with
  | nil => simp
  | cons hv _ ih => exact List.forall_mem_cons.2 ⟨hv.heldIn, ih⟩

theorem Values.akin (h : p.Values x y v w) : v.Akin (Closure.PartRenamed x y) w := by
  refine Value.Akin.imp h fun f g hfg => ?_
  obtain ⟨i, ps, body, z⟩ := g
  cases hfg.2 with
  | lambda _ _ _ hpart => exact hpart

/-- The states that belong to a stage. -/
structure States (x y : String) (alike : ω → ω' → Prop) (p : Stage κ) (s : State κ ω)
    (t : State κ ω') : Prop where
  arena : s.arena = p.arena
  sound : p.arena.Sound Value.scope?
  coherent : p.arena.Coherent x p.mode
  respelled : p.arena.Respelled x y p.mode (p.Closures x y) t.arena
  fresh : s.fresh = t.fresh
  world : alike s.world t.world

/-- Actions that lead from states of a stage to states of a later one, with outcomes that agree. -/
def Paired (x y : String) (alike : ω → ω' → Prop) {α β : Type} (P : Stage κ → α → β → Prop)
    (p : Stage κ) (u : Action κ ω α) (u' : Action κ ω' β) : Prop :=
  ∀ s t, p.States x y alike s t → ∃ q, p.Le q ∧ q.States x y alike (u s).2 (u' t).2 ∧
    AgreeInKind (P q) (u s).1 (u' t).1

namespace Paired

variable {α β γ δ : Type} {P : Stage κ → α → β → Prop} {Q : Stage κ → γ → δ → Prop}

theorem ofExcept {o : Except Error α} {o' : Except Error β} (h : AgreeInKind (P p) o o') :
    Paired x y alike P p (.ofExcept o) (.ofExcept o') :=
  fun _ _ hst => ⟨p, .refl p, hst, h⟩

theorem pure {a : α} {b : β} (h : P p a b) :
    Paired x y alike P p (Pure.pure a : Action κ ω α) (Pure.pure b : Action κ ω' β) :=
  ofExcept (.ok h)

theorem fail {e e' : Error} (h : e.kind = e'.kind) :
    Paired x y alike P p (.fail e) (.fail e') :=
  ofExcept (.error h)

theorem bind {u : Action κ ω α} {u' : Action κ ω' β} {f : α → Action κ ω γ}
    {g : β → Action κ ω' δ} (h : Paired x y alike P p u u')
    (hfg : ∀ q a b, p.Le q → P q a b → Paired x y alike Q q (f a) (g b)) :
    Paired x y alike Q p (u >>= f) (u' >>= g) := by
  intro s t hst
  obtain ⟨q, hpq, hst', ho⟩ := h s t hst
  simp only [Action.bind_apply]
  generalize u s = o, u' t = o' at hst' ho ⊢
  obtain ⟨o, s'⟩ := o
  obtain ⟨o', t'⟩ := o'
  cases ho with
  | error he => exact ⟨q, hpq, hst', .error he⟩
  | ok hab =>
    obtain ⟨r, hqr, hst'', ho'⟩ := hfg q _ _ hpq hab s' t' hst'
    exact ⟨r, hpq.trans hqr, hst'', ho'⟩

end Paired

/-! ### The basic actions -/

section

variable {id : ScopeId} {name : String}

theorem readName_paired (hn : name ≠ y) (id : ScopeId) :
    Paired x y alike (Values x y) p (.readName id name)
      (.readName id (respell x y (p.mode id) name)) := by
  intro s t hst
  refine ⟨p, .refl p, hst, ?_⟩
  simp only [Action.readName, hst.arena]
  exact hst.respelled.get_agree hst.coherent hn id

theorem assignName_paired (hn : name ≠ y) (hv : p.Values x y v w) (id : ScopeId) :
    Paired x y alike (Values x y) p (.assignName id name v)
      (.assignName id (respell x y (p.mode id) name) w) := by
  intro s t hst
  have assigned := hst.respelled.set_agree hst.coherent hn hv id
  simp only [Action.assignName, hst.arena]
  generalize p.arena.set id name v = o, t.arena.set id _ w = o' at assigned ⊢
  cases assigned with
  | error he => exact ⟨p, .refl p, hst, .error he⟩
  | @ok _ b h =>
    obtain ⟨target, rfl, hb⟩ := h
    have later : p.Le ⟨p.arena.define target name v, p.mode⟩ :=
      ⟨p.arena.grows_define target name v, fun _ => rfl⟩
    refine ⟨_, later, ?_, .ok (later.values hv)⟩
    exact ⟨rfl, hst.sound.define target name hv.heldIn, hst.coherent.define target name v,
      hb.imp fun _ _ => later.closures, hst.fresh, hst.world⟩

theorem makeClosure_paired (hid : p.arena.Alive id) {params params' : List String}
    {body body' : Node}
    (h : Node.Respelled x y (p.mode id) (.lambda params body) (.lambda params' body')) :
    Paired x y alike (Values x y) p (.makeClosure id params body)
      (.makeClosure id params' body') := by
  intro s t hst
  have later : p.Le ⟨p.arena.capture id, p.mode⟩ := ⟨p.arena.grows_capture id, fun _ => rfl⟩
  refine ⟨_, later, ?_, .ok ?_⟩
  · exact ⟨by simp only [Action.makeClosure, hst.arena], hst.sound.capture id,
      hst.coherent.capture id, (hst.respelled.capture id).imp fun _ _ => later.closures,
      congrArg (· + 1) hst.fresh, hst.world⟩
  · exact .closure hst.fresh rfl ⟨Arena.held_capture hid, h⟩

theorem callHost_paired {host : Host κ ω} {host' : Host κ ω'}
    (hh : ∀ key, HostCall.Unspelling x y alike (host key) (host' key)) {vs ws : List (Value κ)}
    (hvs : List.Forall₂ (p.Values x y) vs ws) (f : HostFunction κ) :
    Paired x y alike (Values x y) p (.callHost host f vs) (.callHost host' f ws) := by
  intro s t hst
  obtain ⟨hworld, ho⟩ := hh f.key vs ws s.world t.world (hvs.imp fun _ _ hv => hv.akin) hst.world
  refine ⟨p, .refl p, ⟨hst.arena, hst.sound, hst.coherent, hst.respelled, hst.fresh, hworld⟩, ?_⟩
  exact ho.imp fun _ _ hv => hv.akin hvs

end

/-! ### Calls -/

/-- The stage when a scope was opened in which `x` is spelled `y` if `m` holds. -/
def opened (p : Stage κ) (s : State κ ω) (f : Closure) (args : List (Value κ)) (m : Bool) :
    Stage κ :=
  ⟨(s.openCall f args).2.arena, Function.update p.mode (s.openCall f args).1 m⟩

/-- The stage when a scope was closed. -/
def closed (p : Stage κ) (id : ScopeId) : Stage κ := ⟨p.arena.release id, p.mode⟩

/-- Calls of like closures open one scope, in which `x` is spelled like in the body. -/
theorem States.openCall {s : State κ ω} {t : State κ ω'} (hst : p.States x y alike s t)
    {f g : Closure} (hfg : p.Values x y (.closure f) (.closure g)) {vs ws : List (Value κ)}
    (hvs : List.Forall₂ (p.Values x y) vs ws) :
    ¬ p.arena.Alive (s.openCall f vs).1 ∧ (t.openCall g ws).1 = (s.openCall f vs).1 ∧
      ∃ m, Node.Respelled x y m f.body g.body ∧ p.Le (p.opened s f vs m) ∧
        (p.opened s f vs m).arena.Alive (s.openCall f vs).1 ∧
          (p.opened s f vs m).States x y alike (s.openCall f vs).2 (t.openCall g ws).2 := by
  obtain ⟨a, mode⟩ := p
  obtain ⟨rfl, hs, hcoherent, hrespelled, hfresh, hworld⟩ := hst
  have hargs : ∀ v ∈ vs, v.HeldIn s.arena := Values.heldIn_of_mem hvs
  obtain ⟨i, ps, body, z⟩ := g
  cases hfg with
  | closure _ hscope hfg =>
    obtain ⟨hheld, hspelled⟩ := hfg
    obtain rfl : f.scope = z := hscope
    cases hspelled with
    | @lambda _ m _ _ _ hy hx hbody =>
      obtain ⟨hsound, hgrows, hnew, halive⟩ := State.openCall_sound hs hheld hargs
      have kept {id : ScopeId} (hid : s.arena.Alive id) :
          Function.update mode (s.openCall f vs).1 m id = mode id := by
        apply Function.update_of_ne
        rintro rfl
        exact hnew hid
      have later : Le ⟨s.arena, mode⟩ (opened ⟨s.arena, mode⟩ s f vs m) := ⟨hgrows, kept⟩
      obtain ⟨hsame, hextended⟩ := hrespelled.extend hs.tidy m f.scope
      have bound := (hextended.imp fun _ _ => later.closures).bindParams (s.openCall f vs).1 hy
        (hvs.imp fun _ _ => later.values)
      refine ⟨hnew, hsame, m, hbody, later, halive, ?_⟩
      refine ⟨rfl, hsound, hcoherent.openCall hs hheld.alive vs hx, ?_, hfresh, hworld⟩
      have spelled : Function.update mode (s.arena.extend f.scope).1 m (s.openCall f vs).1 = m :=
        Function.update_self ..
      rw [spelled] at bound
      simp only [State.openCall, hsame]
      exact bound

/-- Whatever was carried when the scope of a call is closed may be carried on. -/
theorem Values.closed (h : p.Values x y v w) (id : ScopeId) : (p.closed id).Values x y v w :=
  Value.Akin.imp h fun _ _ hfg => ⟨hfg.1.release id, hfg.2⟩

theorem States.closeCall {s : State κ ω} {t : State κ ω'} (h : p.States x y alike s t)
    (id : ScopeId) : (p.closed id).States x y alike (s.closeCall id) (t.closeCall id) where
  arena := congrArg (Arena.release · id) h.arena
  sound := h.sound.release id
  coherent := h.coherent.release id
  respelled := (h.respelled.release id).imp fun _ _ hfg => ⟨hfg.1.release id, hfg.2⟩
  fresh := h.fresh
  world := h.world

/-! ### Evaluation -/

/-- Calls of like closures with like arguments belong together. -/
def Calls (x y : String) (alike : ω → ω' → Prop) (call : Caller κ ω) (call' : Caller κ ω') : Prop :=
  ∀ (p : Stage κ) f g vs ws, p.Values x y (.closure f) (.closure g) →
    List.Forall₂ (p.Values x y) vs ws → Paired x y alike (Values x y) p (call f vs) (call' g ws)

section

variable {host : Host κ ω} {host' : Host κ ω'} {call : Caller κ ω} {call' : Caller κ ω'}

theorem applyWith_paired (hh : ∀ key, HostCall.Unspelling x y alike (host key) (host' key))
    (hc : Calls x y alike call call') (hv : p.Values x y v w) {vs ws : List (Value κ)}
    (hvs : List.Forall₂ (p.Values x y) vs ws) :
    Paired x y alike (Values x y) p (applyWith host call v vs) (applyWith host' call' w ws) := by
  cases hv with
  | closure hi hs hfg => exact hc p _ _ vs ws (.closure hi hs hfg) hvs
  | builtin f => exact callHost_paired hh hvs f
  | _ => exact .fail rfl

mutual

/-- Evaluations of trees that are spelled as it is in their scope belong together. -/
theorem evalWith_paired (hh : ∀ key, HostCall.Unspelling x y alike (host key) (host' key))
    (hc : Calls x y alike call call') {id : ScopeId} : (n : Node) → {n' : Node} → {p : Stage κ} →
      p.arena.Alive id → Node.Respelled x y (p.mode id) n n' →
        Paired x y alike (Values x y) p (evalWith host call id n) (evalWith host' call' id n')
  | .number _, _, p, hid, h => by
    cases h
    simp only [evalWith]
    exact .pure (.number _)
  | .text _, _, p, hid, h => by
    cases h
    simp only [evalWith]
    exact .pure (.text _)
  | .bool _, _, p, hid, h => by
    cases h
    simp only [evalWith]
    exact .pure (.bool _)
  | .var name, _, p, hid, h => by
    cases h with
    | var hn =>
      simp only [evalWith]
      exact readName_paired hn id
  | .lambda params body, _, p, hid, h => by
    cases h with
    | lambda hy hx hbody hpart =>
      simp only [evalWith]
      exact makeClosure_paired hid (.lambda hy hx hbody hpart)
  | .assign target value, _, p, hid, h => by
    cases h with
    | assign htarget hvalue =>
      simp only [evalWith]
      rcases htarget.name?_cases with ⟨hno, hno'⟩ | ⟨name, hn, hname, hname'⟩
      · rw [hno, hno']
        exact .fail rfl
      · rw [hname, hname']
        refine (evalWith_paired hh hc value hid hvalue).bind fun q v w hpq hv => ?_
        rw [← hpq.mode hid]
        exact assignName_paired hn hv id
  | .binary op left right, _, p, hid, h => by
    cases h with
    | binary _ hleft hright =>
      simp only [evalWith]
      refine (evalWith_paired hh hc left hid hleft).bind fun q v w hpq hv => ?_
      refine (evalWith_paired hh hc right (hpq.alive hid) (hpq.respelled hid hright)).bind ?_
      exact fun r v' w' hqr hv' => .ofExcept (op.apply_akin (hqr.values hv) hv')
  | .ifThen test yes, _, p, hid, h => by
    cases h with
    | ifThen htest hyes =>
      simp only [evalWith]
      refine (evalWith_paired hh hc test hid htest).bind fun q v w hpq hv => ?_
      rw [Value.Akin.countsAsTrue_eq hv]
      cases w.countsAsTrue with
      | true => exact evalWith_paired hh hc yes (hpq.alive hid) (hpq.respelled hid hyes)
      | false => exact .pure (.bool false)
  | .ifElse test yes no, _, p, hid, h => by
    cases h with
    | ifElse htest hyes hno =>
      simp only [evalWith]
      refine (evalWith_paired hh hc test hid htest).bind fun q v w hpq hv => ?_
      rw [Value.Akin.countsAsTrue_eq hv]
      cases w.countsAsTrue with
      | true => exact evalWith_paired hh hc yes (hpq.alive hid) (hpq.respelled hid hyes)
      | false => exact evalWith_paired hh hc no (hpq.alive hid) (hpq.respelled hid hno)
  | .call callee args, _, p, hid, h => by
    cases h with
    | call hcallee hargs =>
      simp only [evalWith]
      refine (evalWith_paired hh hc callee hid hcallee).bind fun q v w hpq hv => ?_
      refine (evalAll_paired hh hc args (hpq.alive hid) (hpq.respelledAll hid hargs)).bind ?_
      exact fun r vs ws hqr hvs => applyWith_paired hh hc (hqr.values hv) hvs
  | .seq items, _, p, hid, h => by
    cases h with
    | seq hitems =>
      simp only [evalWith]
      exact evalSeq_paired hh hc items hid hitems (.bool false)

theorem evalAll_paired (hh : ∀ key, HostCall.Unspelling x y alike (host key) (host' key))
    (hc : Calls x y alike call call') {id : ScopeId} : (ns : List Node) → {ns' : List Node} →
      {p : Stage κ} → p.arena.Alive id → Node.RespelledAll x y (p.mode id) ns ns' →
        Paired x y alike (fun q => List.Forall₂ (q.Values x y)) p (evalAll host call id ns)
          (evalAll host' call' id ns')
  | [], _, p, hid, h => by
    cases h
    simp only [evalAll]
    exact .pure .nil
  | n :: ns, _, p, hid, h => by
    cases h with
    | cons hn hns =>
      simp only [evalAll]
      refine (evalWith_paired hh hc n hid hn).bind fun q v w hpq hv => ?_
      refine (evalAll_paired hh hc ns (hpq.alive hid) (hpq.respelledAll hid hns)).bind ?_
      exact fun r vs ws hqr hvs => .pure (.cons (hqr.values hv) hvs)

theorem evalSeq_paired (hh : ∀ key, HostCall.Unspelling x y alike (host key) (host' key))
    (hc : Calls x y alike call call') {id : ScopeId} : (ns : List Node) → {ns' : List Node} →
      {p : Stage κ} → p.arena.Alive id → Node.RespelledAll x y (p.mode id) ns ns' →
        {last last' : Value κ} → p.Values x y last last' →
          Paired x y alike (Values x y) p (evalSeq host call id last ns)
            (evalSeq host' call' id last' ns')
  | [], _, p, hid, h, _, _, hlast => by
    cases h
    simp only [evalSeq]
    exact .pure hlast
  | n :: ns, _, p, hid, h, _, _, _ => by
    cases h with
    | cons hn hns =>
      simp only [evalSeq]
      refine (evalWith_paired hh hc n hid hn).bind fun q v w hpq hv => ?_
      exact evalSeq_paired hh hc ns (hpq.alive hid) (hpq.respelledAll hid hns) hv

end

/-- The scope of a call spells `x` like the body of the function. What is around does not notice. -/
theorem callClosure_paired (hh : ∀ key, HostCall.Unspelling x y alike (host key) (host' key))
    (limit k : Nat) :
    Calls x y alike (callClosure host limit k) (callClosure host' limit k) := by
  induction k with
  | zero => exact fun _ _ _ _ _ _ _ => .fail rfl
  | succ k ih =>
    intro p f g vs ws hfg hvs s t hst
    obtain ⟨hnew, hsame, m, hbody, hle, halive, hopened⟩ := hst.openCall hfg hvs
    simp only [callClosure, hsame]
    have hmode : (p.opened s f vs m).mode (s.openCall f vs).1 = m := Function.update_self ..
    obtain ⟨r, hqr, hst', ho⟩ := evalWith_paired hh ih f.body halive (hmode ▸ hbody) _ _ hopened
    have later : p.Le (r.closed (s.openCall f vs).1) :=
      ⟨(hle.trans hqr).grows.release hnew, (hle.trans hqr).mode⟩
    exact ⟨_, later, hst'.closeCall _, ho.imp fun _ _ hv => hv.closed _⟩

end

end Stage

open Stage in
/-- Whole evaluations of trees that differ in how `x` is spelled. -/
theorem evaluate_respelled {x y : String} {alike : ω → ω' → Prop} {host : Host κ ω}
    {host' : Host κ ω'} (hh : ∀ key, HostCall.Unspelling x y alike (host key) (host' key))
    {p : Stage κ} {s : State κ ω} {t : State κ ω'} (hst : p.States x y alike s t) {id : ScopeId}
    (hid : p.arena.Alive id) {n n' : Node} (hn : Node.Respelled x y (p.mode id) n n')
    (calls : CallDepth) :
    ∃ q, p.Le q ∧
      q.States x y alike (evaluate host calls id n s).2 (evaluate host' calls id n' t).2 ∧
      AgreeInKind (q.Values x y) (evaluate host calls id n s).1 (evaluate host' calls id n' t).1 := by
  simp only [evaluate_eq_eval, eval]
  exact evalWith_paired hh (callClosure_paired hh calls.limit calls.remaining) n hid hn s t hst

end ScopeLang
