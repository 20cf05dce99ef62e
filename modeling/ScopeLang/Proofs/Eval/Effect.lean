import ScopeLang.Eval.Run
import ScopeLang.Proofs.Eval.Custody
import ScopeLang.Proofs.Scope.Layout

/-!
# What a step does to the arena

A step of the machine leaves the arena alone, assigns to a name, notes that a function was created,
opens the scope of a call, or closes that of the innermost call under way. What a run does to scopes
follows from these effects; no other proof has to go through the steps.

## Main definitions

* `Machine.callScopes` — the scopes of the calls under way.
* `Arena.Effect` — what a step does to the calls under way and to the arena.
* `CallDepth.Effect` — what it does to the calls under way and to the depth.
* `Machine.trail` — the machines from one to the end of its run.

## Main statements

* `Machine.step_affects` — every step has such effects.
* `Arena.Effect.move` — a step changes the layout of the arena accordingly.
* `Machine.isChain_trail` — a run is a chain of steps.
-/

namespace ScopeLang

variable {κ ω : Type} {host : Host κ ω}

/-- What a step does to the scopes of the calls under way, the innermost first, and to the arena. -/
inductive Arena.Effect (calls : List ScopeId) (a : Arena (Value κ)) :
    List ScopeId → Arena (Value κ) → Prop where
  | rest : Effect calls a calls a
  | assign {b : Arena (Value κ)} {scope : ScopeId} {name : String} {v : Value κ} :
    a.set scope name v = .ok b → Effect calls a calls b
  | capture (scope : ScopeId) : Effect calls a calls (a.capture scope)
  | enter (parent : ScopeId) (params : List String) (args : List (Value κ)) :
    Effect calls a ((a.extend parent).1 :: calls)
      (bindParams (a.extend parent).2 (a.extend parent).1 params args)
  | leave {scope : ScopeId} {outer : List ScopeId} : calls = scope :: outer →
    Effect calls a outer (a.release scope)

/-- What a step does to the scopes of the calls under way and to the depth that is counted. -/
inductive CallDepth.Effect (calls : List ScopeId) (c : CallDepth) :
    List ScopeId → CallDepth → Prop where
  | rest : Effect calls c calls c
  | enter {scope : ScopeId} : c.depth < c.limit → Effect calls c (scope :: calls) c.enter
  | leave {scope : ScopeId} {outer : List ScopeId} : calls = scope :: outer →
    Effect calls c outer c.leave

/-- The scope of the call that ends when the frame is used. -/
def Frame.callScope? : Frame κ → Option ScopeId
  | .leave scope => some scope
  | _ => none

namespace Machine

variable {m m' : Machine κ ω} {f : Frame κ}

/-- The scopes of the calls under way, the innermost first. -/
def callScopes (m : Machine κ ω) : List ScopeId := m.frames.filterMap Frame.callScope?

/-- One machine comes from the other by an effect on its calls, its arena and its depth. -/
structure Affects (m m' : Machine κ ω) : Prop where
  arena : Arena.Effect m.callScopes m.state.arena m'.callScopes m'.state.arena
  depth : CallDepth.Effect m.callScopes m.calls m'.callScopes m'.calls

theorem Affects.refl (m : Machine κ ω) : m.Affects m := ⟨.rest, .rest⟩

theorem callScopes_push (hf : f.callScope? = none) : (m.push f).callScopes = m.callScopes := by
  simp [callScopes, push, hf]

theorem affects_perform {x : Action κ ω (Value κ)}
    (h : Arena.Effect m.callScopes m.state.arena m.callScopes (x m.state).2.arena) :
    m.Affects (m.perform x) := ⟨h, .rest⟩

/-- To perform an action that leaves the arena alone. -/
theorem affects_performQuietly {x : Action κ ω (Value κ)}
    (h : (x m.state).2.arena = m.state.arena) : m.Affects (m.perform x) :=
  affects_perform (h ▸ .rest)

theorem affects_assignName (scope : ScopeId) (name : String) (v : Value κ) :
    m.Affects (m.perform (.assignName scope name v)) := by
  refine affects_perform ?_
  simp only [Action.assignName]
  cases h : m.state.arena.set scope name v with
  | error e => exact .rest
  | ok a => exact .assign h

theorem affects_visitUnder (hf : f.callScope? = none) (n : Node) (scope : ScopeId) :
    m.Affects ((m.push f).visit n scope) := by
  have same : ((m.push f).visit n scope).callScopes = m.callScopes := callScopes_push hf
  constructor <;> rw [same]
  · exact .rest
  · exact .rest

theorem affects_visitItems (last : Value κ) (items : List Node) (scope : ScopeId) :
    m.Affects (m.visitItems last items scope) := by
  cases items with
  | nil =>
    simp only [visitItems]
    exact affects_performQuietly rfl
  | cons n ns => exact affects_visitUnder rfl n scope

theorem affects_call (f : Value κ) (args : List (Value κ)) : m.Affects (m.call host f args) := by
  cases f with
  | closure c =>
    by_cases room : m.calls.depth < m.calls.limit
    · simp only [call, room, if_true]
      exact ⟨.enter c.scope c.params args, .enter room⟩
    · simp only [call, room, if_false]
      exact affects_performQuietly rfl
  | builtin | number | text | bool =>
    simp only [call]
    exact affects_performQuietly rfl

theorem affects_visitArgs (f : Value κ) (done : List (Value κ)) (args : List Node)
    (scope : ScopeId) : m.Affects (m.visitArgs host f done args scope) := by
  cases args with
  | nil => exact affects_call f done.reverse
  | cons n ns => exact affects_visitUnder rfl n scope

theorem affects_begin (n : Node) (scope : ScopeId) : m.Affects (m.begin n scope) := by
  cases n with
  | number | text | bool | var =>
    simp only [begin]
    exact affects_performQuietly rfl
  | lambda params body =>
    simp only [begin]
    exact affects_perform (.capture scope)
  | assign target value =>
    simp only [begin]
    cases target.name? with
    | none => exact affects_performQuietly rfl
    | some x => exact affects_visitUnder rfl value scope
  | binary op left right => exact affects_visitUnder rfl left scope
  | ifThen test yes => exact affects_visitUnder rfl test scope
  | ifElse test yes no => exact affects_visitUnder rfl test scope
  | call callee args => exact affects_visitUnder rfl callee scope
  | seq items => exact affects_visitItems _ items scope

/-- To use a value in a frame other than that of a call. -/
theorem affects_useValue (hf : f.callScope? = none) (v : Value κ) :
    m.Affects (m.useValue host v f) := by
  cases f with
  | assign x scope => exact affects_assignName scope x v
  | right op right scope => exact affects_visitUnder rfl right scope
  | operate op left =>
    simp only [useValue]
    exact affects_performQuietly rfl
  | branch yes no scope =>
    simp only [useValue]
    split
    · exact ⟨.rest, .rest⟩
    · cases no with
      | some n => exact ⟨.rest, .rest⟩
      | none => exact affects_performQuietly rfl
  | callee args scope => exact affects_visitArgs v [] args scope
  | arg f done rest scope => exact affects_visitArgs f (v :: done) rest scope
  | item rest scope => exact affects_visitItems v rest scope
  | leave scope => simp [Frame.callScope?] at hf

/-- Every step has an effect on the calls under way, on the arena and on the depth. -/
theorem step_affects (host : Host κ ω) (m : Machine κ ω) : m.Affects (m.step host) := by
  obtain ⟨control, frames, calls, s⟩ := m
  cases control with
  | eval n scope => exact affects_begin n scope
  | give r =>
    cases frames with
    | nil => exact .refl _
    | cons f frames =>
      cases hf : f.callScope? with
      | none =>
        have used : Affects ⟨.give r, frames, calls, s⟩
            (step host ⟨.give r, f :: frames, calls, s⟩) := by
          cases r with
          | ok v => exact affects_useValue hf v
          | error e =>
            cases f with
            | leave scope => simp [Frame.callScope?] at hf
            | _ => exact .refl _
        have same : callScopes ⟨.give r, f :: frames, calls, s⟩ =
            callScopes ⟨.give r, frames, calls, s⟩ := by simp [callScopes, hf]
        exact ⟨same ▸ used.arena, same ▸ used.depth⟩
      | some scope =>
        -- a call ends in the same way with a value and with an error
        obtain rfl : f = .leave scope := by cases f <;> simp_all [Frame.callScope?]
        cases r <;> exact ⟨.leave rfl, .leave rfl⟩

theorem step_effect (host : Host κ ω) (m : Machine κ ω) :
    Arena.Effect m.callScopes m.state.arena (m.step host).callScopes (m.step host).state.arena :=
  (step_affects host m).arena

/-! ### Runs -/

/-- What every step keeps holds wherever steps lead. -/
theorem Reaches.keeps {P : Machine κ ω → Prop} (h : Reaches host m m') (start : P m)
    (next : ∀ m, P m → P (m.step host)) : P m' := by
  induction h with
  | refl => exact start
  | step _ _ ih => exact ih (next _ start)

/-- The machines from one to the end of its run. -/
def trail (host : Host κ ω) (m : Machine κ ω) (h : Stops host m) : List (Machine κ ω) :=
  if hd : m.isDone = true then [m] else
    m :: trail host (m.step host) (h.next (Bool.eq_false_iff.2 hd))
termination_by (⟨m, h⟩ : { m : Machine κ ω // Stops host m })
decreasing_by exact ⟨Bool.eq_false_iff.2 hd, rfl⟩

theorem head?_trail (h : Stops host m) : (m.trail host h).head? = some m := by
  rw [trail]
  split <;> rfl

theorem reaches_of_mem_trail (h : Stops host m) : ∀ m' ∈ m.trail host h, Reaches host m m' := by
  fun_induction trail host m h with
  | case1 m h hd =>
    intro m' hm'
    rw [List.mem_singleton.1 hm']
    exact .refl m
  | case2 m h hd ih =>
    refine List.forall_mem_cons.2 ⟨.refl m, fun m' hm' => ?_⟩
    exact .step (Bool.eq_false_iff.2 hd) (ih m' hm')

/-- A run takes one step after the other. -/
theorem isChain_trail (h : Stops host m) :
    List.IsChain (fun m m' => m' = m.step host) (m.trail host h) := by
  fun_induction trail host m h with
  | case1 m h hd => exact List.isChain_singleton m
  | case2 m h hd ih =>
    refine List.isChain_cons.2 ⟨fun m' hm' => ?_, ih⟩
    rw [head?_trail] at hm'
    exact (Option.some.inj hm').symm

theorem getLast?_trail (h : Stops host m) : (m.trail host h).getLast? = some (m.run host h) := by
  fun_induction trail host m h with
  | case1 m h hd => rw [run, dif_pos hd, List.getLast?_singleton]
  | case2 m h hd ih =>
    rw [run, dif_neg hd, List.getLast?_cons, ih]
    rfl

/-- The arenas of a run. -/
def arenas (host : Host κ ω) (m : Machine κ ω) (h : Stops host m) : List (Arena (Value κ)) :=
  (m.trail host h).map fun m => m.state.arena

theorem head?_arenas (h : Stops host m) : (m.arenas host h).head? = some m.state.arena := by
  rw [arenas, List.head?_map, head?_trail]
  rfl

theorem outcome_snd (m : Machine κ ω) : m.outcome.2 = m.state := by
  obtain ⟨control, frames, calls, s⟩ := m
  cases control <;> rfl

theorem getLast?_arenas (h : Stops host m) :
    (m.arenas host h).getLast? = some (m.run host h).outcome.2.arena := by
  rw [arenas, List.getLast?_map, getLast?_trail, outcome_snd]
  rfl

end Machine

/-! ### The layout -/

namespace Arena

variable {calls calls' : List ScopeId} {a b : Arena (Value κ)}

theorem sameLayout_set {scope : ScopeId} {name : String} {v : Value κ}
    (h : a.set scope name v = .ok b) : SameLayout a b := by
  obtain ⟨target, rfl⟩ := define_of_set h
  exact a.sameLayout_define target name v

theorem sameLayout_bindParams (a : Arena (Value κ)) (id : ScopeId) (params : List String)
    (args : List (Value κ)) : SameLayout a (bindParams a id params args) :=
  bindParams_induction params (.refl a) fun b name v _ h => h.trans (b.sameLayout_define id name v)

/-- The effect of a step is one of the ways in which arenas change. -/
theorem Effect.move (h : Effect calls a calls' b) : Move Value.scope? a b := by
  cases h with
  | rest => exact .fill (.refl a)
  | assign h => exact .fill (sameLayout_set h)
  | capture scope => exact .fill (a.sameLayout_capture scope)
  | enter parent params args => exact .open parent (sameLayout_bindParams _ _ params args)
  | leave => exact .of_release a _

end Arena

/-- The arena changes along a run. -/
theorem Machine.isChain_arenas {m : Machine κ ω} (h : Stops host m) :
    List.IsChain (Arena.Move Value.scope?) (m.arenas host h) := by
  refine List.isChain_map_of_isChain _ ?_ (isChain_trail h)
  rintro m _ rfl
  exact (step_effect host m).move

end ScopeLang
