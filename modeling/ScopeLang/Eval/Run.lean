import ScopeLang.Eval.Machine

/-!
# The machine computes the meaning of programs

From every tree the machine reaches the value that evaluation assigns to it, with the same state,
the same pending work and the same call depth as before. Hence the machine always stops, and what it
stops with is the result of `eval`.

## Main statements

* `Machine.reaches_eval` — evaluating a tree on the machine.
* `evaluate_eq_eval`, `invoke_eq_apply` — running the machine to its end is evaluation.
-/

namespace ScopeLang

variable {κ ω : Type}

namespace Machine

variable {host : Host κ ω}

theorem limit_enter (c : CallDepth) : c.enter.limit = c.limit := rfl

theorem begin_visit (m : Machine κ ω) (n : Node) (scope : ScopeId) :
    (m.visit n scope).begin n scope = m.begin n scope := by
  cases n with
  | assign target value => simp only [begin]; cases target.name? <;> rfl
  | seq items => cases items <;> rfl
  | _ => rfl

/-- To visit a tree is to begin with it. -/
theorem reaches_visit {m m' : Machine κ ω} {n : Node} {scope : ScopeId}
    (h : Reaches host (m.begin n scope) m') : Reaches host (m.visit n scope) m' :=
  .step rfl (show Reaches host ((m.visit n scope).begin n scope) m' from begin_visit m n scope ▸ h)

/-- To use the outcome of an action in a frame is to bind it: a failure passes the frame by. -/
theorem reaches_bind {m : Machine κ ω} {f : Frame κ} (hf : ∀ scope, f ≠ .leave scope)
    {x : Action κ ω (Value κ)} {g : Value κ → Action κ ω (Value κ)}
    (h : ∀ v s, Reaches host (useValue host ⟨.give (.ok v), m.frames, m.calls, s⟩ v f)
      (perform ⟨.give (.ok v), m.frames, m.calls, s⟩ (g v))) :
    Reaches host ((m.push f).perform x) (m.perform (x >>= g)) := by
  cases hx : x m.state with
  | mk r s =>
    cases r with
    | ok v =>
      refine .step (by simp [perform, push, hx, isDone]) ?_
      have := h v s
      simpa [perform, push, step, Action.bind_apply, hx] using this
    | error e =>
      refine .step (by simp [perform, push, hx, isDone]) ?_
      have : dropFrame ⟨.give (.error e), m.frames, m.calls, s⟩ f =
          ⟨.give (.error e), m.frames, m.calls, s⟩ := by
        cases f <;> simp [dropFrame]
        exact absurd rfl (hf _)
      simpa [perform, push, step, Action.bind_apply, hx, this] using Reaches.refl _

/-- What calls of closures do on the machine when `k` more calls may be nested. -/
def CallsReach (host : Host κ ω) (k : Nat) : Prop :=
  ∀ (m : Machine κ ω) (f : Closure) (args : List (Value κ)), m.calls.remaining = k →
    Reaches host (m.call host (.closure f) args)
      (m.perform (callClosure host m.calls.limit k f args))

theorem reaches_call {k : Nat} (hk : CallsReach host k) (m : Machine κ ω)
    (hm : m.calls.remaining = k) (f : Value κ) (args : List (Value κ)) :
    Reaches host (m.call host f args)
      (m.perform (applyWith host (callClosure host m.calls.limit k) f args)) := by
  cases f with
  | closure c => exact hk m c args hm
  | number | text | bool | builtin => exact .refl _

mutual

theorem reaches_evalWith {k : Nat} (hk : CallsReach host k) (scope : ScopeId) :
    (n : Node) → (m : Machine κ ω) → m.calls.remaining = k → Reaches host (m.visit n scope)
      (m.perform (evalWith host (callClosure host m.calls.limit k) scope n))
  | .number x, m, _ => reaches_visit (.refl _)
  | .text s, m, _ => reaches_visit (.refl _)
  | .bool b, m, _ => reaches_visit (.refl _)
  | .var x, m, _ => reaches_visit (.refl _)
  | .lambda params body, m, _ => reaches_visit (.refl _)
  | .assign target value, m, hm => by
    refine reaches_visit ?_
    simp only [begin, evalWith]
    cases target.name? with
    | none => exact .refl _
    | some x =>
      exact (reaches_evalWith hk scope value (m.push (.assign x scope)) hm).trans
        (reaches_bind (by simp) fun v s => .refl _)
  | .binary op left right, m, hm => by
    refine reaches_visit ?_
    simp only [begin, evalWith]
    refine (reaches_evalWith hk scope left (m.push (.right op right scope)) hm).trans
      (reaches_bind (by simp) fun a s => ?_)
    let m' : Machine κ ω := push ⟨.give (.ok a), m.frames, m.calls, s⟩ (.operate op a)
    exact (reaches_evalWith hk scope right m' hm).trans
      (reaches_bind (by simp) fun b s => .refl _)
  | .ifThen test yes, m, hm => by
    refine reaches_visit ?_
    simp only [begin, evalWith]
    refine (reaches_evalWith hk scope test (m.push (.branch yes none scope)) hm).trans
      (reaches_bind (by simp) fun t s => ?_)
    simp only [useValue]
    cases t.countsAsTrue with
    | true => exact reaches_evalWith hk scope yes ⟨_, m.frames, m.calls, s⟩ hm
    | false => exact .refl _
  | .ifElse test yes no, m, hm => by
    refine reaches_visit ?_
    simp only [begin, evalWith]
    refine (reaches_evalWith hk scope test (m.push (.branch yes (some no) scope)) hm).trans
      (reaches_bind (by simp) fun t s => ?_)
    simp only [useValue]
    cases t.countsAsTrue with
    | true => exact reaches_evalWith hk scope yes ⟨_, m.frames, m.calls, s⟩ hm
    | false => exact reaches_evalWith hk scope no ⟨_, m.frames, m.calls, s⟩ hm
  | .call callee args, m, hm => by
    refine reaches_visit ?_
    simp only [begin, evalWith]
    exact (reaches_evalWith hk scope callee (m.push (.callee args scope)) hm).trans
      (reaches_bind (by simp) fun f s =>
        reaches_evalAll hk scope f args [] ⟨_, m.frames, m.calls, s⟩ hm)
  | .seq items, m, hm => reaches_visit (reaches_evalSeq hk scope items (.bool false) m hm)

theorem reaches_evalAll {k : Nat} (hk : CallsReach host k) (scope : ScopeId) (f : Value κ) :
    (args : List Node) → (done : List (Value κ)) →
    (m : Machine κ ω) → m.calls.remaining = k → Reaches host (m.visitArgs host f done args scope)
      (m.perform (evalAll host (callClosure host m.calls.limit k) scope args >>= fun vs =>
        applyWith host (callClosure host m.calls.limit k) f (done.reverse ++ vs)))
  | [], done, m, hm => by
    simp only [visitArgs, evalAll, pure_bind, List.append_nil]
    exact reaches_call hk m hm f done.reverse
  | n :: ns, done, m, hm => by
    simp only [visitArgs, evalAll, bind_assoc, pure_bind]
    refine (reaches_evalWith hk scope n (m.push (.arg f done ns scope)) hm).trans
      (reaches_bind (by simp) fun v s => ?_)
    have rest := reaches_evalAll hk scope f ns (v :: done) ⟨.give (.ok v), m.frames, m.calls, s⟩ hm
    simp only [List.reverse_cons, List.append_assoc, List.singleton_append] at rest
    exact rest

theorem reaches_evalSeq {k : Nat} (hk : CallsReach host k) (scope : ScopeId) :
    (items : List Node) → (last : Value κ) →
    (m : Machine κ ω) → m.calls.remaining = k → Reaches host (m.visitItems last items scope)
      (m.perform (evalSeq host (callClosure host m.calls.limit k) scope last items))
  | [], last, m, _ => .refl _
  | n :: ns, last, m, hm => by
    simp only [visitItems, evalSeq]
    exact (reaches_evalWith hk scope n (m.push (.item ns scope)) hm).trans
      (reaches_bind (by simp) fun v s => reaches_evalSeq hk scope ns v ⟨_, m.frames, m.calls, s⟩ hm)

end

theorem callsReach (host : Host κ ω) (k : Nat) : CallsReach host k := by
  induction k with
  | zero =>
    intro m f args hm
    have full : ¬ m.calls.depth < m.calls.limit := by simp only [CallDepth.remaining] at hm; omega
    simp only [call, full, if_false]
    exact .refl _
  | succ k ih =>
    intro m f args hm
    have room : m.calls.depth < m.calls.limit := by simp only [CallDepth.remaining] at hm; omega
    have rest : m.calls.enter.remaining = k := by
      simp only [CallDepth.remaining, CallDepth.enter] at hm ⊢
      omega
    simp only [call, room, if_true]
    cases hs : m.state.openCall f args with
    | mk scope s =>
      have body := reaches_evalWith ih scope f.body
        ⟨.eval f.body scope, .leave scope :: m.frames, m.calls.enter, s⟩ rest
      refine body.trans (.step rfl ?_)
      simp only [perform, callClosure, hs, limit_enter]
      cases evalWith host (callClosure host m.calls.limit k) scope f.body s with
      | mk r s => cases r <;> exact .refl _

/-- From every tree the machine reaches the outcome of evaluation, with its pending work and call
depth as before. -/
theorem reaches_eval (host : Host κ ω) (m : Machine κ ω) (n : Node) (scope : ScopeId) :
    Reaches host (m.visit n scope) (m.perform (eval host m.calls scope n)) :=
  reaches_evalWith (callsReach host _) scope n m rfl

/-- The same for the call of a value. -/
theorem reaches_apply (host : Host κ ω) (m : Machine κ ω) (f : Value κ) (args : List (Value κ)) :
    Reaches host (m.call host f args) (m.perform (apply host m.calls f args)) :=
  reaches_call (callsReach host _) m rfl f args

/-! ### Running to the end -/

/-- The second machine steps to the first. -/
def Follows (host : Host κ ω) (m' m : Machine κ ω) : Prop := m.isDone = false ∧ m' = m.step host

/-- A machine from which only finitely many steps can be taken. -/
def Stops (host : Host κ ω) (m : Machine κ ω) : Prop := Acc (Follows host) m

theorem Stops.next {m : Machine κ ω} (h : Stops host m) (hd : m.isDone = false) :
    Stops host (m.step host) :=
  h.inv ⟨hd, rfl⟩

theorem stops_of_isDone {m : Machine κ ω} (h : m.isDone = true) : Stops host m :=
  ⟨_, fun _ hm => absurd h (by simp [hm.1])⟩

theorem Reaches.stops {m m' : Machine κ ω} (h : Reaches host m m') (h' : Stops host m') :
    Stops host m := by
  induction h with
  | refl => exact h'
  | step _ _ ih => exact ⟨_, fun _ ho => ho.2 ▸ ih h'⟩

/-- Machines that stop are well-founded under their steps. -/
instance stopping (host : Host κ ω) : WellFoundedRelation { m : Machine κ ω // Stops host m } where
  rel a b := Follows host a.1 b.1
  wf := ⟨fun ⟨m, hm⟩ => by
    induction hm with
    | intro m _ ih => exact ⟨_, fun ⟨m', _⟩ hs => ih m' hs⟩⟩

/-- Takes all the steps that a machine can take. -/
def run (host : Host κ ω) (m : Machine κ ω) (h : Stops host m) : Machine κ ω :=
  if hd : m.isDone = true then m else run host (m.step host) (h.next (Bool.eq_false_iff.2 hd))
termination_by (⟨m, h⟩ : { m : Machine κ ω // Stops host m })
decreasing_by exact ⟨Bool.eq_false_iff.2 hd, rfl⟩

theorem run_eq_of_reaches {m m' : Machine κ ω} (h : Reaches host m m') (hend : m'.isDone = true)
    (hm : Stops host m) : m.run host hm = m' := by
  induction h with
  | refl => rw [run, dif_pos hend]
  | step hd _ ih =>
    rw [run, dif_neg (by simp [hd])]
    exact ih hend _

/-- What a machine is at when it has stopped. -/
def outcome (m : Machine κ ω) : Except Error (Value κ) × State κ ω :=
  match m.control with
  | .give r => (r, m.state)
  | .eval _ _ => (.ok (.bool false), m.state)

/-- A machine with nothing to do. -/
def idle (calls : CallDepth) (s : State κ ω) : Machine κ ω :=
  ⟨.give (.ok (.bool false)), [], calls, s⟩

theorem stops_perform_idle (calls : CallDepth) (s : State κ ω) (x : Action κ ω (Value κ)) :
    Stops host ((idle calls s).perform x) := stops_of_isDone rfl

theorem stops_visit (calls : CallDepth) (s : State κ ω) (n : Node) (scope : ScopeId) :
    Stops host ((idle calls s).visit n scope) :=
  (reaches_eval host (idle calls s) n scope).stops (stops_perform_idle _ _ _)

theorem stops_call (calls : CallDepth) (s : State κ ω) (f : Value κ) (args : List (Value κ)) :
    Stops host ((idle calls s).call host f args) :=
  (reaches_apply host (idle calls s) f args).stops (stops_perform_idle _ _ _)

end Machine

/-- Evaluates a tree in a scope on the machine. -/
def evaluate (host : Host κ ω) (calls : CallDepth) (scope : ScopeId) (n : Node) :
    Action κ ω (Value κ) := fun s =>
  (((Machine.idle calls s).visit n scope).run host (Machine.stops_visit calls s n scope)).outcome

/-- Calls a value on the machine. -/
def invoke (host : Host κ ω) (calls : CallDepth) (f : Value κ) (args : List (Value κ)) :
    Action κ ω (Value κ) := fun s =>
  (((Machine.idle calls s).call host f args).run host (Machine.stops_call calls s f args)).outcome

/-- The machine computes evaluation. -/
theorem evaluate_eq_eval (host : Host κ ω) (calls : CallDepth) (scope : ScopeId) (n : Node) :
    evaluate host calls scope n = eval host calls scope n := by
  funext s
  have reached := Machine.reaches_eval host (Machine.idle calls s) n scope
  rw [evaluate, Machine.run_eq_of_reaches reached rfl]
  rfl

/-- The machine computes calls. -/
theorem invoke_eq_apply (host : Host κ ω) (calls : CallDepth) (f : Value κ)
    (args : List (Value κ)) : invoke host calls f args = apply host calls f args := by
  funext s
  have reached := Machine.reaches_apply host (Machine.idle calls s) f args
  rw [invoke, Machine.run_eq_of_reaches reached rfl]
  rfl

end ScopeLang
