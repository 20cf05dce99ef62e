import ScopeLang.Proofs.Eval.Custody
import ScopeLang.Proofs.Scope.Issued
import ScopeLang.Session

/-!
# Every look-up comes to an end

The machine is followed step by step. At every step the handles in its control, in its pending work
and in what the host keeps were given out by the arena, and the arena is regular. So the chain that
a name is looked up along ends, and the bound on the look-up never shows.

## Main definitions

* `HostCall.Honest` — a function of the host that makes up no handles.
* `Machine.Regular` — the invariant of the machine.
* `Machine.Steady` — no generation starts over while the machine runs.
* `State.Reachable` — the states that a client can come to.

## Main statements

* `Machine.Regular.step`, `Machine.Regular.reaches` — steps and runs keep the invariant.
* `State.Reachable.regular` — the states that a client can come to are regular.
-/

namespace ScopeLang

variable {κ ω : Type} {host : Host κ ω} {kept : ω → ScopeId → Prop} {s : State κ ω}

/-- The function returns and keeps only handles that it was given or had kept. -/
def HostCall.Honest (kept : ω → ScopeId → Prop) (call : HostCall κ ω) : Prop :=
  ∀ args world,
    (∀ x, kept (call args world).2 x → kept world x ∨ ∃ v ∈ args, v.scope? = some x) ∧
    ∀ v x, (call args world).1 = .ok v → v.scope? = some x →
      kept world x ∨ ∃ u ∈ args, u.scope? = some x

/-- The scope that the value holds, if any, has a handle that was given out. -/
def Value.IssuedIn (v : Value κ) (a : Arena (Value κ)) : Prop :=
  ∀ x, v.scope? = some x → a.Issued x

theorem Value.IssuedIn.of_scope?_eq_none {v : Value κ} {a : Arena (Value κ)}
    (h : v.scope? = none) : v.IssuedIn a := by
  simp [IssuedIn, h]

theorem Value.rel_self_iff {P : ScopeId → Prop} {v : Value κ} :
    v.Rel (fun x _ => P x) v ↔ ∀ x, v.scope? = some x → P x := by
  constructor
  · intro h x hx
    cases h with
    | closure _ _ _ hs =>
      obtain rfl := Option.some.inj hx
      exact hs
    | _ => simp [scope?] at hx
  · intro h
    cases v with
    | closure f => exact .closure rfl rfl rfl (h _ rfl)
    | _ => constructor

/-- Operators hand on no scope but those of their operands. -/
theorem BinaryOp.scope_of_apply {P : ScopeId → Prop} (op : BinaryOp) {v w r : Value κ}
    (hv : ∀ x, v.scope? = some x → P x) (hw : ∀ x, w.scope? = some x → P x)
    (h : op.apply v w = .ok r) : ∀ x, r.scope? = some x → P x := by
  have agree := op.apply_agree (Value.rel_self_iff.2 hv) (Value.rel_self_iff.2 hw)
  rw [h] at agree
  cases agree with
  | ok hr => exact Value.rel_self_iff.1 hr

/-! ### States and actions -/

/-- The arena is regular, and the host keeps only handles that were given out. -/
structure State.Regular (kept : ω → ScopeId → Prop) (s : State κ ω) : Prop where
  arena : s.arena.Regular Value.scope?
  kept : ∀ x, kept s.world x → s.arena.Issued x

/-- The action leads to a regular state in which all handles stay given out, that of its outcome
included. -/
structure Action.Safe (kept : ω → ScopeId → Prop) (s : State κ ω) (x : Action κ ω (Value κ)) :
    Prop where
  regular : (x s).2.Regular kept
  issued : ∀ y, s.arena.Issued y → (x s).2.arena.Issued y
  result : ∀ v, (x s).1 = .ok v → v.IssuedIn (x s).2.arena

namespace State.Regular

theorem ofExcept (h : s.Regular kept) {r : Except Error (Value κ)}
    (hr : ∀ v, r = .ok v → v.IssuedIn s.arena) :
    Action.Safe kept s (.ofExcept r) :=
  ⟨h, fun _ hy => hy, hr⟩

theorem pure (h : s.Regular kept) {v : Value κ} (hv : v.IssuedIn s.arena) :
    Action.Safe kept s (Pure.pure v) :=
  h.ofExcept fun _ hr => Except.ok.inj hr ▸ hv

theorem fail (h : s.Regular kept) (e : Error) : Action.Safe kept s (.fail e) :=
  h.ofExcept fun _ hr => nomatch hr

theorem readName (h : s.Regular kept) (scope : ScopeId) (name : String) :
    Action.Safe kept s (.readName scope name) := by
  refine { regular := h, issued := fun _ hy => hy, result := ?_ }
  intro v hv y hy
  obtain ⟨target, bound, -, hs, hmem⟩ := Arena.bound_of_get hv
  exact h.arena.issued hs (Arena.mem_successors_of_bound hmem hy)

theorem define (h : s.Regular kept) (scope : ScopeId) (name : String) {v : Value κ}
    (hv : v.IssuedIn s.arena) :
    State.Regular kept { s with arena := s.arena.define scope name v } :=
  ⟨h.arena.define scope name hv, fun x hx => (h.kept x hx).update⟩

theorem assignName (h : s.Regular kept) (scope : ScopeId) (name : String) {v : Value κ}
    (hv : v.IssuedIn s.arena) :
    Action.Safe kept s (.assignName scope name v) := by
  cases hset : s.arena.set scope name v with
  | error e =>
    have same : Action.assignName scope name v s = (.error e, s) := by
      simp [Action.assignName, hset]
    refine { regular := by rwa [same], issued := ?issued, result := ?result }
    case issued =>
      intro y hy
      rwa [same]
    case result =>
      intro w hw
      simp [same] at hw
  | ok a =>
    obtain ⟨target, rfl⟩ := Arena.define_of_set hset
    have next : Action.assignName scope name v s =
        (.ok v, { s with arena := s.arena.define target name v }) := by
      simp [Action.assignName, hset]
    refine { regular := ?regular, issued := ?issued, result := ?result }
    case regular =>
      rw [next]
      exact h.define target name hv
    case issued =>
      intro y hy
      rw [next]
      exact hy.update
    case result =>
      intro w hw y hy
      obtain rfl : v = w := by simpa [next] using hw
      rw [next]
      exact (hv y hy).update

theorem makeClosure (h : s.Regular kept) {scope : ScopeId} (hs : s.arena.Issued scope)
    (params : List String) (body : Node) :
    Action.Safe kept s (.makeClosure scope params body) := by
  have captured : State.Regular kept
      { s with arena := s.arena.capture scope, fresh := s.fresh + 1 } :=
    ⟨h.arena.capture scope, fun x hx => (h.kept x hx).update⟩
  refine { regular := captured, issued := fun y hy => hy.update, result := ?_ }
  intro v hv y hy
  obtain rfl : .closure ⟨s.fresh, params, body, scope⟩ = v := Except.ok.inj hv
  obtain rfl := Option.some.inj hy
  exact hs.update

theorem callHost (h : s.Regular kept) (honest : ∀ key, HostCall.Honest kept (host key))
    (f : HostFunction κ) {args : List (Value κ)}
    (hargs : ∀ v ∈ args, v.IssuedIn s.arena) :
    Action.Safe kept s (.callHost host f args) := by
  obtain ⟨hkept, hresult⟩ := honest f.key args s.world
  refine { regular := ⟨h.arena, ?kept⟩, issued := fun y hy => hy, result := ?result }
  case kept =>
    intro x hx
    rcases hkept x hx with hx | ⟨v, hv, hx⟩
    · exact h.kept x hx
    · exact hargs v hv x hx
  case result =>
    intro v hv y hy
    rcases hresult v y hv hy with hx | ⟨u, hu, hx⟩
    · exact h.kept y hx
    · exact hargs u hu y hx

theorem bindParams {a : Arena (Value κ)} (h : a.Regular Value.scope?) (scope : ScopeId)
    (params : List String) {args : List (Value κ)}
    (hargs : ∀ v ∈ args, v.IssuedIn a) :
    (bindParams a scope params args).Regular Value.scope? ∧
      ∀ y, a.Issued y → (ScopeLang.bindParams a scope params args).Issued y := by
  refine bindParams_induction
    (P := fun b => b.Regular Value.scope? ∧ ∀ y, a.Issued y → b.Issued y) params
    ⟨h, fun _ hy => hy⟩ ?_
  rintro b name v hv ⟨hr, hi⟩
  have hissued : v.IssuedIn b := by
    rcases hv with hv | rfl
    · intro y hy
      exact hi y (hargs v hv y hy)
    · exact .of_scope?_eq_none rfl
  exact ⟨hr.define scope name hissued, fun y hy => (hi y hy).update⟩

theorem openCall (h : s.Regular kept) {f : Closure} (hf : s.arena.Issued f.scope)
    {args : List (Value κ)} (hargs : ∀ v ∈ args, v.IssuedIn s.arena) :
    (s.openCall f args).2.Regular kept ∧
      (s.openCall f args).2.arena.Issued (s.openCall f args).1 ∧
      ∀ y, s.arena.Issued y → (s.openCall f args).2.arena.Issued y := by
  have old {y} (hy : s.arena.Issued y) := h.arena.tidy.issued_extend f.scope hy
  obtain ⟨hr, hi⟩ := bindParams (h.arena.extend hf) (s.arena.extend f.scope).1 f.params
    fun v hv y hy => old (hargs v hv y hy)
  exact ⟨⟨hr, fun x hx => hi x (old (h.kept x hx))⟩, hi _ (h.arena.tidy.issued_extend_self _),
    fun y hy => hi y (old hy)⟩

theorem closeCall (h : s.Regular kept) {scope : ScopeId}
    (hle : s.arena.GenLe (s.arena.release scope)) : (s.closeCall scope).Regular kept :=
  ⟨h.arena.release hle, fun x hx => (h.kept x hx).release hle⟩

end State.Regular

/-! ### The machine -/

namespace Frame

/-- The handles in pending work. -/
def handles : Frame κ → List ScopeId
  | .assign _ scope | .right _ _ scope | .branch _ _ scope | .callee _ scope | .item _ scope
  | .leave scope => [scope]
  | .operate _ left => left.scope?.toList
  | .arg f done _ scope => scope :: (f :: done).filterMap Value.scope?

end Frame

/-- The handles in what the machine is at. -/
def Control.handles : Control κ → List ScopeId
  | .eval _ scope => [scope]
  | .give r => r.toOption.toList.filterMap Value.scope?

namespace Machine

variable {m m' : Machine κ ω}

/-- The state is regular, and the handles in the pending work were given out. -/
structure Waiting (kept : ω → ScopeId → Prop) (m : Machine κ ω) : Prop where
  state : m.state.Regular kept
  frames : ∀ f ∈ m.frames, ∀ x ∈ f.handles, m.state.arena.Issued x

/-- All handles of the machine were given out by its regular arena. -/
structure Regular (kept : ω → ScopeId → Prop) (m : Machine κ ω) : Prop extends m.Waiting kept where
  control : ∀ x ∈ m.control.handles, m.state.arena.Issued x

namespace Waiting

theorem perform (h : m.Waiting kept) {x : Action κ ω (Value κ)} (hx : Action.Safe kept m.state x) :
    (m.perform x).Regular kept := by
  refine ⟨⟨hx.regular, fun f hf y hy => hx.issued y (h.frames f hf y hy)⟩, ?_⟩
  intro y hy
  obtain ⟨v, hv, hy⟩ := List.mem_filterMap.1 hy
  refine hx.result v ?_ y hy
  cases hr : (x m.state).1 with
  | error e => simp [hr, Except.toOption] at hv
  | ok w =>
    obtain rfl : v = w := by simpa [hr, Except.toOption] using hv
    rfl

theorem visit (h : m.Waiting kept) (n : Node) {scope : ScopeId} (hs : m.state.arena.Issued scope) :
    (m.visit n scope).Regular kept :=
  ⟨⟨h.state, h.frames⟩, fun _ hx => List.mem_singleton.1 hx ▸ hs⟩

theorem push (h : m.Waiting kept) {f : Frame κ}
    (hf : ∀ x ∈ f.handles, m.state.arena.Issued x) : (m.push f).Waiting kept :=
  ⟨h.state, List.forall_mem_cons.2 ⟨hf, h.frames⟩⟩

/-- To evaluate a part of a tree while the rest waits in the same scope. -/
theorem visitUnder (h : m.Waiting kept) {f : Frame κ} {scope : ScopeId} (hf : f.handles = [scope])
    (n : Node) (hs : m.state.arena.Issued scope) : ((m.push f).visit n scope).Regular kept :=
  (h.push (by simpa [hf] using hs)).visit n hs

theorem visitItems (h : m.Waiting kept) {last : Value κ} (hlast : last.IssuedIn m.state.arena)
    (items : List Node) {scope : ScopeId} (hs : m.state.arena.Issued scope) :
    (m.visitItems last items scope).Regular kept := by
  cases items with
  | nil => exact h.perform (h.state.pure hlast)
  | cons n ns => exact h.visitUnder rfl n hs

theorem begin (h : m.Waiting kept) (n : Node) {scope : ScopeId}
    (hs : m.state.arena.Issued scope) : (m.begin n scope).Regular kept := by
  cases n with
  | number | text | bool => exact h.perform (h.state.pure (.of_scope?_eq_none rfl))
  | var x => exact h.perform (h.state.readName scope x)
  | assign target value =>
    simp only [Machine.begin]
    cases target.name? with
    | none => exact h.perform (h.state.fail _)
    | some x => exact h.visitUnder rfl value hs
  | binary op left right => exact h.visitUnder rfl left hs
  | ifThen test yes => exact h.visitUnder rfl test hs
  | ifElse test yes no => exact h.visitUnder rfl test hs
  | lambda params body => exact h.perform (h.state.makeClosure hs params body)
  | call f args => exact h.visitUnder rfl f hs
  | seq items => exact h.visitItems (.of_scope?_eq_none rfl) items hs

theorem call (h : m.Waiting kept) (honest : ∀ key, HostCall.Honest kept (host key)) {f : Value κ}
    (hf : f.IssuedIn m.state.arena) {args : List (Value κ)}
    (hargs : ∀ v ∈ args, v.IssuedIn m.state.arena) : (m.call host f args).Regular kept := by
  cases f with
  | closure c =>
    by_cases room : m.calls.depth < m.calls.limit
    · obtain ⟨hstate, hscope, hold⟩ := h.state.openCall (hf _ rfl) hargs
      simp only [Machine.call, room, if_true]
      refine ⟨⟨hstate, List.forall_mem_cons.2 ⟨by simpa [Frame.handles] using hscope, ?_⟩⟩, ?_⟩
      · exact fun f hf x hx => hold x (h.frames f hf x hx)
      · simpa [Control.handles] using hscope
    · simp only [Machine.call, room, if_false]
      exact h.perform (h.state.fail _)
  | builtin b => exact h.perform (h.state.callHost honest b hargs)
  | number | text | bool => exact h.perform (h.state.fail _)

theorem visitArgs (h : m.Waiting kept) (honest : ∀ key, HostCall.Honest kept (host key))
    {f : Value κ} (hf : f.IssuedIn m.state.arena) {done : List (Value κ)}
    (hdone : ∀ v ∈ done, v.IssuedIn m.state.arena) (args : List Node) {scope : ScopeId}
    (hs : m.state.arena.Issued scope) : (m.visitArgs host f done args scope).Regular kept := by
  cases args with
  | nil => exact h.call honest hf fun v hv => hdone v (List.mem_reverse.1 hv)
  | cons n ns =>
    refine (h.push fun x hx => ?_).visit n hs
    rcases List.mem_cons.1 hx with rfl | hx
    · exact hs
    · obtain ⟨v, hv, hvx⟩ := List.mem_filterMap.1 hx
      rcases List.mem_cons.1 hv with rfl | hv
      · exact hf x hvx
      · exact hdone v hv x hvx

end Waiting

theorem Regular.leaveCall (h : m.Regular kept) {scope : ScopeId}
    (hle : m.state.arena.GenLe (m.leaveCall scope).state.arena) :
    (m.leaveCall scope).Regular kept :=
  ⟨⟨h.state.closeCall hle, fun f hf x hx => (h.frames f hf x hx).release hle⟩,
    fun x hx => (h.control x hx).release hle⟩

/-- To use a value keeps the invariant; only the end of a call raises generations. -/
theorem Regular.useValue (h : m.Regular kept) (honest : ∀ key, HostCall.Honest kept (host key))
    {v : Value κ} (hv : v.IssuedIn m.state.arena) {f : Frame κ}
    (hf : ∀ x ∈ f.handles, m.state.arena.Issued x)
    (hle : m.state.arena.GenLe (m.useValue host v f).state.arena) :
    (m.useValue host v f).Regular kept := by
  have waiting := h.toWaiting
  cases f with
  | assign x scope => exact waiting.perform (h.state.assignName scope x hv)
  | right op right scope =>
    refine (waiting.push fun x hx => hv x ?_).visit right (hf scope (by simp [Frame.handles]))
    simpa [Frame.handles] using hx
  | operate op left =>
    refine waiting.perform (h.state.ofExcept fun r hr => op.scope_of_apply ?_ hv hr)
    exact fun x hx => hf x (by simpa [Frame.handles] using hx)
  | branch yes no scope =>
    have hs := hf scope (by simp [Frame.handles])
    simp only [Machine.useValue]
    split
    · exact waiting.visit yes hs
    · cases no with
      | some n => exact waiting.visit n hs
      | none => exact waiting.perform (h.state.pure (.of_scope?_eq_none rfl))
  | callee args scope =>
    exact waiting.visitArgs honest hv (by simp) args (hf scope (by simp [Frame.handles]))
  | arg f done rest scope =>
    have hs := hf scope (by simp [Frame.handles])
    have old : ∀ u ∈ f :: done, u.IssuedIn m.state.arena := fun u hu x hx =>
      hf x (List.mem_cons_of_mem _ (List.mem_filterMap.2 ⟨u, hu, hx⟩))
    obtain ⟨hcallee, hdone⟩ := List.forall_mem_cons.1 old
    exact waiting.visitArgs honest hcallee (List.forall_mem_cons.2 ⟨hv, hdone⟩) rest hs
  | item rest scope => exact waiting.visitItems hv rest (hf scope (by simp [Frame.handles]))
  | leave scope => exact h.leaveCall hle

/-- One step keeps the invariant unless it makes a generation start over. -/
theorem Regular.step (h : m.Regular kept) (honest : ∀ key, HostCall.Honest kept (host key))
    (hle : m.state.arena.GenLe (m.step host).state.arena) : (m.step host).Regular kept := by
  obtain ⟨control, frames, calls, s⟩ := m
  cases control with
  | eval n scope => exact h.toWaiting.begin n (h.control scope (by simp [Control.handles]))
  | give r =>
    cases frames with
    | nil => exact h
    | cons f frames =>
      obtain ⟨hf, hframes⟩ := List.forall_mem_cons.1 h.frames
      have rest : Regular kept ⟨.give r, frames, calls, s⟩ := ⟨⟨h.state, hframes⟩, h.control⟩
      cases r with
      | ok v =>
        refine rest.useValue honest (fun x hx => h.control x ?_) hf hle
        simpa [Control.handles, Except.toOption] using hx
      | error e =>
        cases f with
        | leave scope => exact rest.leaveCall hle
        | _ => exact rest

/-- No generation starts over from the machine on. -/
def Steady (host : Host κ ω) (m : Machine κ ω) : Prop :=
  ∀ m', Reaches host m m' → m'.state.arena.GenLe (m'.step host).state.arena

/-- A whole run keeps the invariant. -/
theorem Regular.reaches (h : m.Regular kept) (honest : ∀ key, HostCall.Honest kept (host key))
    (steady : m.Steady host) (hm : Reaches host m m') : m'.Regular kept := by
  induction hm with
  | refl => exact h
  | step hd _ ih =>
    exact ih (h.step honest (steady _ (.refl _))) fun m' hm' => steady m' (.step hd hm')

/-- The machine is about to look up a name as seen from a scope. -/
inductive LooksUp (m : Machine κ ω) (scope : ScopeId) (name : String) : Prop where
  | read : m.control = .eval (.var name) scope → LooksUp m scope name
  | assign {v : Value κ} {frames : List (Frame κ)} : m.control = .give (.ok v) →
    m.frames = .assign name scope :: frames → LooksUp m scope name

end Machine

/-! ### What a client can come to -/

/-- The states that a client can come to with the handles it was given: it opens scopes, binds
names, collects, evaluates and calls. The host may change its own state in between. -/
inductive State.Reachable (host : Host κ ω) (kept : ω → ScopeId → Prop) : State κ ω → Prop where
  | new {world : ω} : (∀ x, ¬ kept world x) → Reachable host kept { world }
  | extend {s : State κ ω} {parent : ScopeId} : Reachable host kept s → s.arena.Issued parent →
    Reachable host kept { s with arena := (s.arena.extend parent).2 }
  | define {s : State κ ω} {scope : ScopeId} {name : String} {v : Value κ} :
    Reachable host kept s → v.IssuedIn s.arena →
      Reachable host kept { s with arena := s.arena.define scope name v }
  | set {s : State κ ω} {scope : ScopeId} {name : String} {v : Value κ} : Reachable host kept s →
    v.IssuedIn s.arena → Reachable host kept (Action.assignName scope name v s).2
  | collect {s : State κ ω} (values : List (Value κ)) : Reachable host kept s →
    s.arena.GenLe (s.collect values).2.arena → Reachable host kept (s.collect values).2
  | evaluate {s : State κ ω} {scope : ScopeId} (calls : CallDepth) (n : Node) :
    Reachable host kept s → s.arena.Issued scope →
      ((Machine.idle calls s).visit n scope).Steady host →
        Reachable host kept (evaluate host calls scope n s).2
  | invoke {s : State κ ω} {f : Value κ} {args : List (Value κ)} (calls : CallDepth) :
    Reachable host kept s → f.IssuedIn s.arena → (∀ v ∈ args, v.IssuedIn s.arena) →
      ((Machine.idle calls s).call host f args).Steady host →
        Reachable host kept (invoke host calls f args s).2
  | host {s : State κ ω} {fresh : Nat} {world : ω} : Reachable host kept s →
    (∀ x, kept world x → s.arena.Issued x) → Reachable host kept { s with fresh, world }

namespace Machine

theorem waiting_idle (h : s.Regular kept) (calls : CallDepth) : (idle calls s).Waiting kept :=
  ⟨h, fun _ hf => (List.not_mem_nil hf).elim⟩

end Machine

theorem State.Reachable.regular (honest : ∀ key, HostCall.Honest kept (host key))
    (h : s.Reachable host kept) : s.Regular kept := by
  induction h with
  | new hworld => exact ⟨.new, fun x hx => absurd hx (hworld x)⟩
  | extend _ hparent ih =>
    exact ⟨ih.arena.extend hparent, fun x hx => ih.arena.tidy.issued_extend _ (ih.kept x hx)⟩
  | define _ hv ih => exact ih.define _ _ hv
  | set _ hv ih => exact (ih.assignName _ _ hv).regular
  | collect values _ hle ih =>
    exact ⟨ih.arena.collect hle, fun x hx => (ih.kept x hx).collect hle⟩
  | @evaluate s scope calls n _ hs steady ih =>
    have start := (Machine.waiting_idle ih calls).visit n hs
    rw [evaluate_eq_eval]
    exact (start.reaches honest steady (Machine.reaches_eval host _ n scope)).state
  | @invoke s f args calls _ hf hargs steady ih =>
    have start := (Machine.waiting_idle ih calls).call honest hf hargs
    rw [invoke_eq_apply]
    exact (start.reaches honest steady (Machine.reaches_apply host _ f args)).state
  | host _ hworld ih => exact ⟨ih.arena, hworld⟩

end ScopeLang
