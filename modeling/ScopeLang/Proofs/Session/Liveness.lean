import ScopeLang.Proofs.Eval.Custody
import ScopeLang.Proofs.Scope.Reach
import ScopeLang.Session

/-!
# Nothing dangles and nothing leaks

However a session goes on, every handle in its arena leads to a scope in use, and after every
evaluation exactly those scopes are in use that the root scope or the result still reaches.

## Main definitions

* `Session.Reachable` — the sessions that programs and definitions lead to.
* `Session.Evaluates` — an evaluation that got past reading its text.
-/

namespace ScopeLang

variable {ε ω : Type}

/-- Printing and logging hand out no closures, so only what a host adds matters. -/
theorem Builtin.run_returnsGiven {added : Extension ε ω}
    (h : ∀ key, HostCall.ReturnsGiven (added key)) (key : Builtin ε) :
    HostCall.ReturnsGiven (Builtin.run added key) := by
  have emitted (text : String) (w : World ω) (f : Closure) :
      (Builtin.emit text w : Except Error (Value (Builtin ε)) × World ω).1 ≠ .ok (.closure f) := by
    simp only [Builtin.emit]
    cases (w.sink.write text).1 <;> simp [Except.map]
  intro args w f hr
  cases key with
  | print => exact absurd hr (emitted _ w f)
  | println => exact absurd hr (emitted _ w f)
  | log format =>
    simp only [Builtin.run] at hr
    cases hline : Builtin.logLine w.clock format (Builtin.firstArg args).display with
    | error e => simp [hline] at hr
    | ok line =>
      rw [hline] at hr
      exact absurd hr (emitted line w f)
  | extra key => exact h key args w.extra f hr

/-- Related arguments have related first ones, also if there are none. -/
theorem Builtin.firstArg_related {κ : Type} {R : Value κ → Value κ → Prop}
    {args args' : List (Value κ)} (missing : R (.bool false) (.bool false))
    (h : List.Forall₂ R args args') : R (firstArg args) (firstArg args') := by
  cases h with
  | nil => exact missing
  | cons hv _ => exact hv

/-- The host function that gives its first argument back. -/
def Extension.echo : Extension Unit Unit := fun _ args world => (.ok (Builtin.firstArg args), world)

theorem Extension.echo_returnsGiven (key : Unit) : HostCall.ReturnsGiven (echo key) := by
  intro args _ f h
  cases args with
  | nil => simp [echo, Builtin.firstArg] at h
  | cons v vs =>
    obtain rfl : v = .closure f := by simpa [echo, Builtin.firstArg] using h
    simp

namespace Session

/-- The sessions that evaluating programs and defining functions lead to, whatever comes of them. -/
inductive Reachable (added : Extension ε ω) : Session ε ω → Prop where
  | new (settings : Settings) (world : World ω) : Reachable added (.new settings world)
  | text {s : Session ε ω} (source : String) :
    Reachable added s → Reachable added (s.evaluateText added source).2
  | node {s : Session ε ω} (n : Node) :
    Reachable added s → Reachable added (s.evaluateNode added n).2
  | define {s : Session ε ω} (name : String) (key : ε) :
    Reachable added s → Reachable added (s.define name key)

/-- An evaluation of a tree, or of a text that could be read. -/
inductive Evaluates (added : Extension ε ω) (s : Session ε ω) : Outcome ε → Session ε ω → Prop where
  | node (n : Node) : Evaluates added s (s.evaluateNode added n).1 (s.evaluateNode added n).2
  | text {source : String} {tree : Node} : parse source = .ok tree →
    Evaluates added s (s.evaluateText added source).1 (s.evaluateText added source).2

/-- Whatever comes of an evaluation, what the result does not hold is collected. -/
theorem evaluateNode_eq (added : Extension ε ω) (n : Node) (s : Session ε ω) :
    s.evaluateNode added n =
      ((eval (Builtin.run added) s.calls .root n s.state).1,
        { s with state := ((eval (Builtin.run added) s.calls .root n s.state).2.collect
          (eval (Builtin.run added) s.calls .root n s.state).1.toOption.toList).2 }) := by
  simp only [evaluateNode, evaluate_eq_eval]
  cases h : eval (Builtin.run added) s.calls .root n s.state with
  | mk r state => cases r <;> simp [Except.toOption]

theorem Evaluates.of_node {added : Extension ε ω} {s s' : Session ε ω} {r : Outcome ε}
    (h : s.Evaluates added r s') : ∃ n, s.evaluateNode added n = (r, s') := by
  cases h with
  | node n => exact ⟨n, rfl⟩
  | @text source tree hp => exact ⟨tree, by simp [evaluateText, hp]⟩

variable {added : Extension ε ω} {s s' : Session ε ω}

/-- After an evaluation the arena is sound, and exactly the reached scopes are in use. -/
theorem evaluateNode_sound (hhost : ∀ key, HostCall.ReturnsGiven (added key))
    (hs : s.state.arena.Sound Value.scope?) (n : Node) {r : Outcome ε}
    (h : s.evaluateNode added n = (r, s')) :
    s'.state.arena.Sound Value.scope? ∧ (∀ v, r = .ok v → v.HeldIn s'.state.arena) ∧
      ∀ id, s'.state.arena.Alive id ↔ Arena.Reached Value.scope? s'.state.arena
        (.root :: r.toOption.toList.filterMap Value.scope?) id := by
  obtain ⟨hsound, -, hresult⟩ :=
    eval_sound (Builtin.run_returnsGiven hhost) hs hs.held_root.alive s.calls n
  rw [evaluateNode_eq, Prod.mk.injEq] at h
  obtain ⟨rfl, rfl⟩ := h
  refine ⟨hsound.collect _, fun v hv x hx => ?_, fun id => Arena.alive_collect_iff_reached⟩
  have hheld := hresult v hv x hx
  refine hheld.collect (.start ?_ hheld.alive)
  simp [hv, Except.toOption, hx]

theorem Reachable.sound (hhost : ∀ key, HostCall.ReturnsGiven (added key)) (h : s.Reachable added) :
    s.state.arena.Sound Value.scope? := by
  induction h with
  | new settings world =>
    have plain (f : HostFunction (Builtin ε)) (a : Arena (Value (Builtin ε))) :
        (Value.builtin f).HeldIn a := .of_scope?_eq_none rfl
    exact ((Arena.Sound.new.define .root _ (plain _ _)).define .root _ (plain _ _)).define .root _
      (plain _ _)
  | @text s source _ ih =>
    simp only [evaluateText]
    cases parse source with
    | error e => exact ih
    | ok tree => exact (evaluateNode_sound hhost ih tree rfl).1
  | node n _ ih => exact (evaluateNode_sound hhost ih n rfl).1
  | define name key _ ih => exact ih.define .root name (Value.HeldIn.of_scope?_eq_none rfl)

/-- In every session that can be reached, the scope around a scope and the scopes that bound values
hold are in use. After every further evaluation so is the scope that its result holds, and no scope
is in use but those that the root scope and the result reach. -/
theorem no_dangling_no_leak (hhost : ∀ key, HostCall.ReturnsGiven (added key))
    (h : s.Reachable added) :
    (∀ id scope, s.state.arena.scope? id = some scope → id ≠ .root →
      ∃ parent, scope.parent = some parent ∧ s.state.arena.Alive parent) ∧
    (∀ id scope, s.state.arena.scope? id = some scope → ∀ b ∈ scope.bindings, ∀ x,
      b.2.scope? = some x → s.state.arena.Alive x) ∧
    ∀ r s', s.Evaluates added r s' →
      (∀ v x, r = .ok v → v.scope? = some x → s'.state.arena.Alive x) ∧
      ∀ id, s'.state.arena.Alive id ↔ Arena.Reached Value.scope? s'.state.arena
        (.root :: r.toOption.toList.filterMap Value.scope?) id := by
  have hs := h.sound hhost
  refine ⟨fun id scope hid hne => ?_, fun id scope hid b hb x hx => ?_, fun r s' he => ?_⟩
  · cases hp : scope.parent with
    | none => exact absurd (hs.outermost hid hp) hne
    | some parent => exact ⟨parent, rfl, hs.alive_parent hid hp⟩
  · exact (hs.held hid (Arena.mem_successors_of_bound hb hx)).alive
  · obtain ⟨n, hn⟩ := he.of_node
    obtain ⟨-, hresult, hreached⟩ := evaluateNode_sound hhost hs n hn
    exact ⟨fun v x hv hx => (hresult v hv x hx).alive, hreached⟩

/-- A closure over the scope of a call that passed through the host is bound, and the next
evaluation loses it again. -/
theorem no_dangling_no_leak_after_capture :
    let inner : Node := .call (.lambda ["n"] (.lambda [] (.var "n"))) [.bool true]
    let s := ((new {} { extra := () } : Session Unit Unit).define "same" ()).evaluateNode
      Extension.echo (.assign (.var "f") (.call (.var "same") [inner]))
    let s' := s.2.evaluateNode Extension.echo (.assign (.var "f") (.bool false))
    (∀ key, HostCall.ReturnsGiven (Extension.echo key)) ∧ s.2.Reachable Extension.echo ∧
      ∀ id, s'.2.state.arena.Alive id ↔ Arena.Reached Value.scope? s'.2.state.arena
        (.root :: s'.1.toOption.toList.filterMap Value.scope?) id := by
  intro inner s s'
  have reachable : s.2.Reachable Extension.echo := .node _ (.define _ _ (.new _ _))
  refine ⟨Extension.echo_returnsGiven, reachable, ?_⟩
  exact ((no_dangling_no_leak Extension.echo_returnsGiven reachable).2.2 _ _ (.node _)).2

end Session

end ScopeLang
