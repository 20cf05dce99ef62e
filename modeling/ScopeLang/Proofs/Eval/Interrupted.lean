import ScopeLang.Eval.Run
import ScopeLang.Proofs.Eval.Congruence

/-!
# Evaluations that the host cuts short

Two hosts go along with each other until one of them reports an error that the other one does not
report. Nothing in a program catches an error, so an evaluation under the first host does the same
as one under the second, or it ends right there with that error.

## Main definitions

* `Interruption` — two hosts of that kind, with what relates their worlds before and after the error.
* `State.Beside` — states that differ at most in the worlds.
* `Action.UntilCut` — one action does what another one does until it is cut short.

## Main statements

* `Interruption.evaluate` — whole evaluations under two such hosts.
-/

namespace ScopeLang

variable {κ ω ω' α β : Type}

/-- States that differ at most in the worlds of their hosts, which are alike. -/
structure State.Beside (alike : ω → ω' → Prop) (s : State κ ω) (t : State κ ω') : Prop where
  arena : s.arena = t.arena
  fresh : s.fresh = t.fresh
  world : alike s.world t.world

namespace State.Beside

variable {alike : ω → ω' → Prop} {s : State κ ω} {t : State κ ω'}

theorem openCall (h : s.Beside alike t) (f : Closure) (args : List (Value κ)) :
    (s.openCall f args).1 = (t.openCall f args).1 ∧
      (s.openCall f args).2.Beside alike (t.openCall f args).2 := by
  simp only [State.openCall, h.arena, true_and]
  exact ⟨rfl, h.fresh, h.world⟩

theorem closeCall (h : s.Beside alike t) (scope : ScopeId) :
    (s.closeCall scope).Beside alike (t.closeCall scope) :=
  ⟨congrArg (Arena.release · scope) h.arena, h.fresh, h.world⟩

end State.Beside

namespace Action

/-- From states beside each other both actions do the same. -/
def Level (alike : ω → ω' → Prop) (x : Action κ ω α) (y : Action κ ω' α) : Prop :=
  ∀ s t, s.Beside alike t → (x s).1 = (y t).1 ∧ (x s).2.Beside alike (y t).2

variable {alike : ω → ω' → Prop}

theorem level_ofExcept (r : Except Error α) :
    Level alike (ofExcept r : Action κ ω α) (ofExcept r) := fun _ _ h => ⟨rfl, h⟩

theorem level_readName (scope : ScopeId) (name : String) :
    Level alike (readName scope name : Action κ ω (Value κ)) (readName scope name) :=
  fun s t h => ⟨by simp only [readName, h.arena], h⟩

theorem level_assignName (scope : ScopeId) (name : String) (v : Value κ) :
    Level alike (assignName scope name v : Action κ ω (Value κ)) (assignName scope name v) := by
  intro s t h
  simp only [assignName, ← h.arena]
  cases s.arena.set scope name v with
  | ok a => exact ⟨rfl, rfl, h.fresh, h.world⟩
  | error e => exact ⟨rfl, h⟩

theorem level_makeClosure (scope : ScopeId) (params : List String) (body : Node) :
    Level alike (makeClosure scope params body : Action κ ω (Value κ))
      (makeClosure scope params body) :=
  fun s t h => ⟨by simp only [makeClosure, h.fresh],
    congrArg (·.capture scope) h.arena, congrArg (· + 1) h.fresh, h.world⟩

end Action

/-- A host and another one that may report an error in the middle of what both do alike. From then on
only the first one goes on. -/
structure Interruption (host : Host κ ω) (host' : Host κ ω') where
  alike : ω → ω' → Prop
  cut : Error → ω → ω' → Prop
  step : ∀ key args w w', alike w w' →
    ((host key args w).1 = (host' key args w').1 ∧
        alike (host key args w).2 (host' key args w').2) ∨
      ∃ e, (host' key args w').1 = .error e ∧ cut e (host key args w).2 (host' key args w').2
  goesOn : ∀ key args e w w', cut e w w' → cut e (host key args w).2 w'

/-! ### Actions -/

/-- From states beside each other both actions do the same, or the second one is cut short. After
that the first one leads from cut to cut. -/
structure Action.UntilCut (alike : ω → ω' → Prop) (cut : Error → ω → ω' → Prop)
    (x : Action κ ω α) (y : Action κ ω' α) : Prop where
  together : ∀ s t, s.Beside alike t →
    ((x s).1 = (y t).1 ∧ (x s).2.Beside alike (y t).2) ∨
      ∃ e, (y t).1 = .error e ∧ cut e (x s).2.world (y t).2.world
  alone : ∀ s e w', cut e s.world w' → cut e (x s).2.world w'

namespace Action.UntilCut

variable {alike : ω → ω' → Prop} {cut : Error → ω → ω' → Prop}

/-- What does the same to states beside each other and leaves the worlds alone. -/
theorem of_quiet {x : Action κ ω α} {y : Action κ ω' α} (hx : ∀ s, (x s).2.world = s.world)
    (hxy : Level alike x y) : UntilCut alike cut x y :=
  ⟨fun s t h => .inl (hxy s t h), fun s e w' h => by rwa [hx s]⟩

theorem ofExcept (r : Except Error α) : UntilCut alike cut (ofExcept r : Action κ ω α) (ofExcept r) :=
  of_quiet (fun _ => rfl) (level_ofExcept r)

/-- One action after another: after a cut the second actions only matter to the one that goes on. -/
theorem bind {x : Action κ ω α} {y : Action κ ω' α} {f : α → Action κ ω β} {g : α → Action κ ω' β}
    (h : UntilCut alike cut x y) (hfg : ∀ a, UntilCut alike cut (f a) (g a)) :
    UntilCut alike cut (x >>= f) (y >>= g) where
  together s t hst := by
    have first := h.together s t hst
    simp only [bind_apply]
    cases hx : x s with
    | mk r s' =>
      cases hy : y t with
      | mk r' t' =>
        simp only [hx, hy] at first
        rcases first with ⟨rfl, hst'⟩ | ⟨e, rfl, hcut⟩
        · cases r with
          | ok a => exact (hfg a).together s' t' hst'
          | error e => exact .inl ⟨rfl, hst'⟩
        · refine .inr ⟨e, rfl, ?_⟩
          cases r with
          | ok a => exact (hfg a).alone s' e _ hcut
          | error => exact hcut
  alone s e w' hcut := by
    have first := h.alone s e w' hcut
    simp only [bind_apply]
    cases hx : x s with
    | mk r s' =>
      rw [hx] at first
      cases r with
      | ok a => exact (hfg a).alone s' e w' first
      | error => exact first

theorem readName (scope : ScopeId) (name : String) :
    UntilCut alike cut (readName scope name : Action κ ω (Value κ)) (readName scope name) :=
  of_quiet (fun _ => rfl) (level_readName scope name)

theorem assignName (scope : ScopeId) (name : String) (v : Value κ) :
    UntilCut alike cut (assignName scope name v : Action κ ω (Value κ)) (assignName scope name v) := by
  refine of_quiet (fun s => ?_) (level_assignName scope name v)
  simp only [Action.assignName]
  cases s.arena.set scope name v <;> rfl

theorem makeClosure (scope : ScopeId) (params : List String) (body : Node) :
    UntilCut alike cut (makeClosure scope params body : Action κ ω (Value κ))
      (makeClosure scope params body) :=
  of_quiet (fun _ => rfl) (level_makeClosure scope params body)

end Action.UntilCut

/-! ### Evaluation -/

namespace Interruption

variable {host : Host κ ω} {host' : Host κ ω'} (I : Interruption host host')

theorem callHost (f : HostFunction κ) (args : List (Value κ)) :
    Action.UntilCut I.alike I.cut (.callHost host f args) (.callHost host' f args) where
  together s t h := by
    refine (I.step f.key args s.world t.world h.world).imp (fun ⟨hr, hw⟩ => ?_) id
    exact ⟨hr, h.arena, h.fresh, hw⟩
  alone s e w' := I.goesOn f.key args e s.world w'

/-- Only the functions of the host tell the two evaluations apart. -/
def congruence : Action.Congruence host host' where
  Rel := Action.UntilCut I.alike I.cut
  pure a := .ofExcept (.ok a)
  bind h hfg := h.bind hfg
  read := .readName
  assign := .assignName
  create := .makeClosure
  operate op v w := .ofExcept (op.apply v w)
  invalidTarget target := .ofExcept (.error (.invalidTarget target))
  notCallable found := .ofExcept (.error (.notCallable found))
  callHost := I.callHost

theorem callClosure (limit k : Nat) (f : Closure) (args : List (Value κ)) :
    Action.UntilCut I.alike I.cut (callClosure host limit k f args)
      (callClosure host' limit k f args) := by
  induction k generalizing f args with
  | zero => exact .ofExcept (.error (.depthExceeded limit))
  | succ k ih =>
    have body (scope : ScopeId) := Action.Congruence.evalWith (C := I.congruence) ih scope f.body
    refine ⟨fun s t h => ?_, fun s e w' hcut => ?_⟩
    · obtain ⟨hscope, hopen⟩ := h.openCall f args
      simp only [ScopeLang.callClosure, ← hscope]
      exact ((body _).together _ _ hopen).imp_left (And.imp_right fun hst => hst.closeCall _)
    · exact (body _).alone (s.openCall f args).2 e w' hcut

/-- An evaluation under the second host does what it does under the first one, or is cut short. -/
theorem evaluate (calls : CallDepth) (scope : ScopeId) (n : Node) :
    Action.UntilCut I.alike I.cut (evaluate host calls scope n) (evaluate host' calls scope n) := by
  rw [evaluate_eq_eval, evaluate_eq_eval]
  exact Action.Congruence.evalWith (C := I.congruence)
    (I.callClosure calls.limit calls.remaining) scope n

end Interruption

end ScopeLang
