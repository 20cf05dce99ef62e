import ScopeLang.Proofs.Eval.Activation
import ScopeLang.Proofs.Eval.Lookup

/-!
# Evaluation ends

A run of the machine ends for two reasons. The evaluations inside an evaluation decrease in a
well-founded order, although the bodies of called closures are not parts of the tree. And each step
ends, because the chain of scopes that a name is looked up along does.

## Main statements

* `evaluate_terminates` — from every state that a client can come to.
-/

namespace ScopeLang

variable {κ ω : Type} {host : Host κ ω} {kept : ω → ScopeId → Prop} {s : State κ ω}

namespace Arena

variable {ν : Type} {a b : Arena ν}

theorem genLe_iff : GenLe a b ↔ ∀ i < a.slots.size, a.generation i ≤ b.generation i := by
  refine ⟨fun h i _ => h i, fun h i => ?_⟩
  by_cases hi : i < a.slots.size
  · exact h i hi
  · have none : a.slots[i]? = none := Array.getElem?_eq_none (by omega)
    simp [generation, none]

instance : Decidable (GenLe a b) := decidable_of_iff _ genLe_iff.symm

end Arena

namespace Machine

variable {m : Machine κ ω}

/-- Has the machine its result after so many steps at most, with no generation starting over? -/
def endsSteadily (host : Host κ ω) : (steps : Nat) → Machine κ ω → Bool
  | 0, m => m.isDone
  | k + 1, m => m.isDone ||
    decide (m.state.arena.GenLe (m.step host).state.arena) && (m.step host).endsSteadily host k

theorem step_of_isDone (h : m.isDone = true) : m.step host = m := by
  obtain ⟨control, frames, calls, s⟩ := m
  cases control <;> cases frames <;> simp_all [isDone, step]

theorem steady_of_isDone (h : m.isDone = true) : m.Steady host := by
  intro m' hm i
  cases hm with
  | refl =>
    rw [step_of_isDone h]
    exact UInt32.le_refl _
  | step hd => simp [h] at hd

theorem steady_of_endsSteadily (steps : Nat) (h : m.endsSteadily host steps = true) :
    m.Steady host := by
  induction steps generalizing m with
  | zero => exact steady_of_isDone h
  | succ k ih =>
    rcases Bool.or_eq_true_iff.1 h with hd | hnext
    · exact steady_of_isDone hd
    · obtain ⟨hle, hrest⟩ := Bool.and_eq_true_iff.1 hnext
      intro m' hm
      cases hm with
      | refl => exact of_decide_eq_true hle
      | step _ hm => exact ih hrest m' hm

end Machine

/-- Evaluation comes to a value or an error, with the call depth as before. On the way every look-up
of a name comes to an end, and the evaluations inside an evaluation decrease lexicographically,
first in the number of calls that may still be nested and then in the size of the tree. -/
theorem evaluate_terminates (honest : ∀ key, HostCall.Honest kept (host key))
    (hs : s.Reachable host kept) {scope : ScopeId} (hscope : s.arena.Issued scope)
    (calls : CallDepth) (n : Node) (steady : ((Machine.idle calls s).visit n scope).Steady host) :
    (∃ r s', Machine.Reaches host ((Machine.idle calls s).visit n scope) ⟨.give r, [], calls, s'⟩ ∧
      evaluate host calls scope n s = (r, s')) ∧
    (∀ m, Machine.Reaches host ((Machine.idle calls s).visit n scope) m →
      ∀ x name, m.LooksUp x name → m.state.arena.Search name x (m.state.arena.lookup x name)) ∧
    ∀ a, Machine.Reaches host ((Machine.idle calls s).visit n scope) a →
      ∀ m, Machine.Inside host a m → ∀ n x n' x', a.control = .eval n x → m.control = .eval n' x' →
        Prod.Lex (· < ·) (· < ·) (m.calls.remaining, n'.size) (a.calls.remaining, n.size) := by
  have start := (Machine.waiting_idle (hs.regular honest) calls).visit n hscope
  refine ⟨⟨_, _, Machine.reaches_eval host _ n scope, ?_⟩, fun m hm x name _ => ?_,
    fun a _ m hm n x n' x' ha hn' => hm.lex ha hn'⟩
  · rw [evaluate_eq_eval]
    rfl
  · exact ((start.reaches honest steady hm).state.arena.grounded x).search name

/-- A function that calls itself for as long as it may. -/
theorem evaluate_terminates_recursive :
    let host : Host Unit Unit := fun _ args world => (.ok (args.headD (.bool false)), world)
    let body : Node := .call (.var "f") []
    let program : Node := .seq [.assign (.var "f") (.lambda [] body), body]
    let s : State Unit Unit := { world := () }
    (∀ key, HostCall.Honest (fun _ _ => False) (host key)) ∧
      s.Reachable host (fun _ _ => False) ∧ s.arena.Issued .root ∧
      ((Machine.idle { limit := 2 } s).visit program .root).Steady host ∧
      ∃ r s', Machine.Reaches host ((Machine.idle { limit := 2 } s).visit program .root)
        ⟨.give r, [], { limit := 2 }, s'⟩ ∧
          evaluate host { limit := 2 } .root program s = (r, s') := by
  intro host body program s
  have honest : ∀ key, HostCall.Honest (fun _ _ => False) (host key) := by
    refine fun _ args _ => ⟨fun _ => False.elim, fun v x hv hx => .inr ⟨v, ?_, hx⟩⟩
    cases args with
    | nil =>
      obtain rfl : .bool false = v := Except.ok.inj hv
      simp [Value.scope?] at hx
    | cons u us =>
      obtain rfl : u = v := Except.ok.inj hv
      simp
  have reachable : s.Reachable host (fun _ _ => False) := .new fun _ => id
  have issued : s.arena.Issued .root := .inl ⟨{}, rfl⟩
  have steady : ((Machine.idle { limit := 2 } s).visit program .root).Steady host :=
    Machine.steady_of_endsSteadily 40 (by decide)
  exact ⟨honest, reachable, issued, steady,
    (evaluate_terminates honest reachable issued { limit := 2 } program steady).1⟩

end ScopeLang
