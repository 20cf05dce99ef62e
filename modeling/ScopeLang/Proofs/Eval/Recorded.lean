import ScopeLang.Eval.Run
import ScopeLang.Proofs.Eval.Congruence

/-!
# The calls of host functions

To say which functions of the host an evaluation calls, each call is noted in the world of the host,
with its arguments. A host that knows more than another one and otherwise does the same is not told
apart from it by any evaluation, so taking notes changes nothing.

## Main definitions

* `Host.recorded` — the host that notes all calls of its functions.
* `hostCalls` — the calls of host functions during an evaluation.

## Main statements

* `evaluate_recorded` — an evaluation does the same when its calls are noted.
-/

namespace ScopeLang

variable {κ ω ω' α β : Type}

/-- A call of a function of the host: its key and the arguments. -/
abbrev HostCalled (κ : Type) := κ × List (Value κ)

/-- The host that notes all calls of its functions. -/
def Host.recorded (host : Host κ ω) : Host κ (ω × List (HostCalled κ)) := fun key args w =>
  match host key args w.1 with
  | (r, world) => (r, (world, w.2 ++ [(key, args)]))

/-- The state with what another host makes of its world. -/
def State.mapWorld (π : ω' → ω) (s : State κ ω') : State κ ω := { s with world := π s.world }

/-- The host does what another host does with what it makes of the world. -/
def Host.Over (π : ω' → ω) (host : Host κ ω) (host' : Host κ ω') : Prop :=
  ∀ key args w, host key args (π w) = ((host' key args w).1, π (host' key args w).2)

theorem Host.over_recorded (host : Host κ ω) : Host.Over Prod.fst host host.recorded :=
  fun _ _ _ => rfl

/-- The action does what another action does with what is made of the world. -/
def Action.Over (π : ω' → ω) (x : Action κ ω α) (x' : Action κ ω' α) : Prop :=
  ∀ s, x (s.mapWorld π) = ((x' s).1, (x' s).2.mapWorld π)

namespace Action.Over

variable {π : ω' → ω} {host : Host κ ω} {host' : Host κ ω'}

theorem bind {x : Action κ ω α} {x' : Action κ ω' α} {f : α → Action κ ω β}
    {f' : α → Action κ ω' β} (h : Over π x x') (hf : ∀ a, Over π (f a) (f' a)) :
    Over π (x >>= f) (x' >>= f') := by
  intro s
  simp only [Action.bind_apply, h s]
  cases x' s with
  | mk r s' =>
    cases r with
    | ok a => exact hf a s'
    | error e => rfl

theorem assignName (scope : ScopeId) (name : String) (v : Value κ) :
    Over π (.assignName scope name v) (.assignName scope name v) := by
  intro s
  simp only [Action.assignName, State.mapWorld]
  cases s.arena.set scope name v <;> rfl

/-- Only the functions of the host look at the world. -/
def congruence (hh : Host.Over π host host') : Congruence host host' where
  Rel := Over π
  pure _ _ := rfl
  bind h hf := h.bind hf
  read _ _ _ := rfl
  assign := assignName
  create _ _ _ _ := rfl
  operate _ _ _ _ := rfl
  invalidTarget _ _ := rfl
  notCallable _ _ := rfl
  callHost f args s := by simp only [Action.callHost, State.mapWorld, hh f.key args s.world]

theorem callClosure (hh : Host.Over π host host') (limit k : Nat) (f : Closure)
    (args : List (Value κ)) :
    Over π (callClosure host limit k f args) (callClosure host' limit k f args) := by
  induction k generalizing f args with
  | zero => exact fun _ => rfl
  | succ k ih =>
    intro s
    have body := Congruence.evalWith (C := congruence hh) ih (s.openCall f args).1 f.body
      (s.openCall f args).2
    have opened : (s.mapWorld π).openCall f args =
        ((s.openCall f args).1, (s.openCall f args).2.mapWorld π) := rfl
    simp only [ScopeLang.callClosure, opened, body]
    rfl

theorem evaluate (hh : Host.Over π host host') (calls : CallDepth) (scope : ScopeId) (n : Node) :
    Over π (evaluate host calls scope n) (evaluate host' calls scope n) := by
  rw [evaluate_eq_eval, evaluate_eq_eval]
  exact Congruence.evalWith (C := congruence hh) (callClosure hh calls.limit calls.remaining) scope n

end Action.Over

/-- The state where no calls are noted yet. -/
def State.recorded (s : State κ ω) : State κ (ω × List (HostCalled κ)) := s.mapWorld (·, [])

/-- The calls of host functions during an evaluation, one after the other. -/
def hostCalls (host : Host κ ω) (calls : CallDepth) (scope : ScopeId) (n : Node) (s : State κ ω) :
    List (HostCalled κ) :=
  (evaluate host.recorded calls scope n s.recorded).2.world.2

/-- An evaluation does the same when its calls of host functions are noted. -/
theorem evaluate_recorded (host : Host κ ω) (calls : CallDepth) (scope : ScopeId) (n : Node)
    (s : State κ ω) :
    let noted := evaluate host.recorded calls scope n s.recorded
    evaluate host calls scope n s = (noted.1, noted.2.mapWorld Prod.fst) :=
  Action.Over.evaluate host.over_recorded calls scope n s.recorded

end ScopeLang
