import ScopeLang.Eval.Run
import ScopeLang.Proofs.Eval.Congruence

/-!
# The limit on nested calls

An evaluation shows the limit that it runs under in one way only: it fails with the error that names
the limit. Nothing catches that error, and before it nothing depends on how many calls are left. So
what an evaluation comes to without it, it comes to under every larger limit.

## Main definitions

* `Action.UpTo` — one action does what another one does unless the latter exceeds its limit.
* `Machine.finish` — the machine at the end of an evaluation.

## Main statements

* `UpTo.evalWith`, `UpTo.callClosure` — evaluation under a limit and under a larger one.
* `limit_shows_only_in_overflow` — for whole evaluations.
-/

namespace ScopeLang

variable {κ ω α β : Type}

/-- The functions of the host do not report that calls are nested too deeply. -/
def Host.NeverExceeds (host : Host κ ω) : Prop :=
  ∀ key args world limit, (host key args world).1 ≠ .error (.depthExceeded limit)

/-! ### Actions -/

namespace Action

/-- The action does not exceed any limit. -/
def NeverExceeds (x : Action κ ω α) : Prop := ∀ s limit, (x s).1 ≠ .error (.depthExceeded limit)

/-- The first action exceeds the limit, or both do the same without exceeding any. -/
def UpTo (limit : Nat) (x y : Action κ ω α) : Prop :=
  ∀ s, (x s).1 = .error (.depthExceeded limit) ∨
    y s = x s ∧ ∀ l, (x s).1 ≠ .error (.depthExceeded l)

namespace UpTo

variable {limit : Nat}

theorem of_neverExceeds {x : Action κ ω α} (h : x.NeverExceeds) : UpTo limit x x :=
  fun s => .inr ⟨rfl, h s⟩

/-- To exceed the limit goes with everything. -/
theorem exceeded (y : Action κ ω α) : UpTo limit (.fail (.depthExceeded limit)) y :=
  fun _ => .inl rfl

/-- One action after another; what comes after an exceeded limit is not looked at. -/
theorem bind {x y : Action κ ω α} {f g : α → Action κ ω β} (h : UpTo limit x y)
    (hfg : ∀ a, UpTo limit (f a) (g a)) : UpTo limit (x >>= f) (y >>= g) := by
  intro s
  simp only [Action.bind_apply]
  rcases h s with hx | ⟨hy, hx⟩
  · left
    cases hr : x s with
    | mk r s' => simp_all
  · rw [hy]
    cases hr : x s with
    | mk r s' =>
      cases r with
      | ok a => exact hfg a s'
      | error e =>
        right
        simpa [hr] using hx

end UpTo

/-! ### The basic actions -/

theorem neverExceeds_pure (a : α) : (pure a : Action κ ω α).NeverExceeds := fun _ _ => nofun

theorem neverExceeds_readName (scope : ScopeId) (name : String) :
    (readName scope name : Action κ ω (Value κ)).NeverExceeds := by
  intro s limit
  simp only [readName, Arena.get]
  split <;> simp

theorem neverExceeds_assignName (scope : ScopeId) (name : String) (v : Value κ) :
    (assignName scope name v : Action κ ω (Value κ)).NeverExceeds := by
  intro s limit
  simp only [assignName, Arena.set]
  cases s.arena.lookup scope name with
  | some target => simp
  | none => cases s.arena.isRoot scope <;> simp

theorem neverExceeds_makeClosure (scope : ScopeId) (params : List String) (body : Node) :
    (makeClosure scope params body : Action κ ω (Value κ)).NeverExceeds :=
  fun _ _ => nofun

theorem neverExceeds_callHost {host : Host κ ω} (hh : host.NeverExceeds) (f : HostFunction κ)
    (args : List (Value κ)) : (callHost host f args).NeverExceeds :=
  fun s limit => hh f.key args s.world limit

end Action

/-! ### Operators -/

/-- An error that neither of two steps ends with. -/
theorem bind_ne_error {x : Except Error α} {f : α → Except Error β} {e : Error}
    (hx : x ≠ .error e) (hf : ∀ a, f a ≠ .error e) : x >>= f ≠ .error e := by
  cases x with
  | ok a => exact hf a
  | error e' => exact fun h => hx (congrArg Except.error (Except.error.inj h))

namespace Value

variable (v : Value κ) (limit : Nat)

theorem asNumber_ne_depthExceeded : v.asNumber ≠ .error (.depthExceeded limit) := by
  cases v <;> simp [asNumber]

theorem asDivisor_ne_depthExceeded : v.asDivisor ≠ .error (.depthExceeded limit) := by
  have hn := v.asNumber_ne_depthExceeded limit
  unfold asDivisor
  cases hv : v.asNumber with
  | ok x => by_cases hx : x == 0.0 <;> simp [hx]
  | error e => simpa [hv] using hn

end Value

theorem BinaryOp.apply_ne_depthExceeded (op : BinaryOp) (v w : Value κ) (limit : Nat) :
    op.apply v w ≠ .error (.depthExceeded limit) := by
  have left := v.asNumber_ne_depthExceeded limit
  cases op with
  | or | and | equal | notEqual => simp [apply]
  | divide | modulo =>
    exact bind_ne_error left fun _ => bind_ne_error (w.asDivisor_ne_depthExceeded limit) nofun
  | _ => exact bind_ne_error left fun _ => bind_ne_error (w.asNumber_ne_depthExceeded limit) nofun

/-! ### Evaluation -/

namespace Action.UpTo

variable {host : Host κ ω} {limit : Nat} {call call' : Caller κ ω}

/-- No basic action exceeds a limit. -/
def congruence (hh : host.NeverExceeds) (limit : Nat) : Congruence host host where
  Rel := UpTo limit
  pure a := .of_neverExceeds (neverExceeds_pure a)
  bind h hfg := h.bind hfg
  read scope name := .of_neverExceeds (neverExceeds_readName scope name)
  assign scope name v := .of_neverExceeds (neverExceeds_assignName scope name v)
  create scope params body := .of_neverExceeds (neverExceeds_makeClosure scope params body)
  operate op v w := .of_neverExceeds fun _ l => op.apply_ne_depthExceeded v w l
  invalidTarget _ := .of_neverExceeds fun _ _ => nofun
  notCallable _ := .of_neverExceeds fun _ _ => nofun
  callHost f args := .of_neverExceeds (neverExceeds_callHost hh f args)

/-- If calls do the same up to the limit, so does evaluation. -/
theorem evalWith (hh : host.NeverExceeds) (hc : ∀ f args, UpTo limit (call f args) (call' f args))
    (scope : ScopeId) (n : Node) :
    UpTo limit (evalWith host call scope n) (evalWith host call' scope n) :=
  Congruence.evalWith (C := congruence hh limit) hc scope n

/-- Calls do the same when more of them may be nested. The scope of a call is opened only after the
limit was looked at, and is closed whatever the body comes to. -/
theorem callClosure (hh : host.NeverExceeds) (larger : Nat) {k k' : Nat} (hk : k ≤ k')
    (f : Closure) (args : List (Value κ)) :
    UpTo limit (callClosure host limit k f args) (callClosure host larger k' f args) := by
  induction k generalizing k' f args with
  | zero => exact exceeded _
  | succ k ih =>
    obtain ⟨k', rfl⟩ : ∃ n, k' = n + 1 := ⟨k' - 1, by omega⟩
    have body (scope : ScopeId) (n : Node) :
        UpTo limit (ScopeLang.evalWith host (ScopeLang.callClosure host limit k) scope n)
          (ScopeLang.evalWith host (ScopeLang.callClosure host larger k') scope n) :=
      evalWith hh (fun f args => ih (Nat.le_of_succ_le_succ hk) f args) scope n
    intro s
    simp only [ScopeLang.callClosure]
    rcases body (s.openCall f args).1 f.body (s.openCall f args).2 with h | ⟨h, hne⟩
    · exact .inl h
    · exact .inr ⟨by rw [h], hne⟩

end Action.UpTo

/-! ### Whole evaluations -/

variable {host : Host κ ω} {s : State κ ω} {scope : ScopeId} {n : Node}

namespace Machine

/-- The machine at the end of the evaluation of a tree. -/
def finish (host : Host κ ω) (calls : CallDepth) (scope : ScopeId) (n : Node) (s : State κ ω) :
    Machine κ ω :=
  ((idle calls s).visit n scope).run host (stops_visit calls s n scope)

/-- An evaluation ends as deep in calls as it began. -/
theorem calls_finish (calls : CallDepth) : (finish host calls scope n s).calls = calls := by
  rw [finish, run_eq_of_reaches (reaches_eval host (idle calls s) n scope) rfl]
  rfl

end Machine

/-- Evaluation under a limit and under a larger one. -/
theorem upTo_evaluate (hh : host.NeverExceeds) (depth : Nat) {d d' : Nat} (hd : d ≤ d')
    (scope : ScopeId) (n : Node) :
    Action.UpTo d (evaluate host ⟨depth, d⟩ scope n) (evaluate host ⟨depth, d'⟩ scope n) := by
  have room : d - depth ≤ d' - depth := Nat.sub_le_sub_right hd depth
  simp only [evaluate_eq_eval, eval, CallDepth.remaining]
  exact .evalWith hh (fun f args => .callClosure hh d' room f args) scope n

/-- Unless an evaluation exceeds its limit, it comes to the same result under every larger limit,
with the same scopes in the same slots, the same output and the same depth. So an evaluation that
exceeds the larger limit exceeds every smaller one. -/
theorem limit_shows_only_in_overflow (hh : host.NeverExceeds) (depth : Nat) {d d' : Nat}
    (hd : d ≤ d') (scope : ScopeId) (n : Node) (s : State κ ω) :
    ((evaluate host ⟨depth, d⟩ scope n s).1 ≠ .error (.depthExceeded d) →
      evaluate host ⟨depth, d'⟩ scope n s = evaluate host ⟨depth, d⟩ scope n s ∧
        (Machine.finish host ⟨depth, d'⟩ scope n s).calls.depth =
          (Machine.finish host ⟨depth, d⟩ scope n s).calls.depth) ∧
    ((evaluate host ⟨depth, d'⟩ scope n s).1 = .error (.depthExceeded d') →
      (evaluate host ⟨depth, d⟩ scope n s).1 = .error (.depthExceeded d)) := by
  rcases upTo_evaluate hh depth hd scope n s with exceeds | ⟨same, never⟩
  · exact ⟨fun h => absurd exceeds h, fun _ => exceeds⟩
  · refine ⟨fun _ => ⟨same, ?_⟩, fun exceeds => ?_⟩
    · simp only [Machine.calls_finish]
    · rw [same] at exceeds
      exact absurd exceeds (never d')

/-- A call inside a call stays within two nested calls, and exceeds every smaller limit. -/
theorem limit_shows_only_in_overflow_nested :
    let host : Host Unit Unit := fun _ args world => (.ok (args.headD (.bool false)), world)
    let program : Node := .call (.lambda [] (.call (.lambda [] (.bool true)) [])) []
    let s : State Unit Unit := { world := () }
    host.NeverExceeds ∧ evaluate host ⟨0, 5⟩ .root program s = evaluate host ⟨0, 2⟩ .root program s ∧
      (Machine.finish host ⟨0, 5⟩ .root program s).calls.depth =
        (Machine.finish host ⟨0, 2⟩ .root program s).calls.depth ∧
      (evaluate host ⟨0, 0⟩ .root program s).1 = .error (.depthExceeded 0) := by
  intro host program s
  have quiet : host.NeverExceeds := fun _ _ _ _ => nofun
  have within : (evaluate host ⟨0, 2⟩ .root program s).1 = .ok (.bool true) := by
    rw [evaluate_eq_eval]
    rfl
  have exceeds : (evaluate host ⟨0, 1⟩ .root program s).1 = .error (.depthExceeded 1) := by
    rw [evaluate_eq_eval]
    rfl
  obtain ⟨same, depth⟩ := (limit_shows_only_in_overflow quiet 0 (by decide : 2 ≤ 5) .root program
    s).1 (by simp [within])
  exact ⟨quiet, same, depth,
    (limit_shows_only_in_overflow quiet 0 (Nat.zero_le 1) .root program s).2 exceeds⟩

end ScopeLang
