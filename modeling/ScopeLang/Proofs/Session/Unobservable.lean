import ScopeLang.Proofs.Eval.Keeping
import ScopeLang.Proofs.Session.Liveness

/-!
# Giving scopes back is unobservable

The reference for a session never gives a scope back: not when a call ends, not after an evaluation.
Whatever is evaluated and defined in the session and in its reference, each step comes to the same
result in both, with the same output and the same names in the root scope.

## Main definitions

* `Session.Command`, `Session.perform`, `Session.performKeeping` — what is done in a session, and
  what the reference does.
* `Session.Indistinguishable` — steps with the same result, output and root scope.

## Main statements

* `Session.reclaiming_unobservable` — a session and its reference cannot be told apart by any step.
-/

namespace ScopeLang

variable {ε ω : Type} {alike : ω → ω → Prop}

/-! ### The functions of the host -/

/-- Worlds with the same output and clock. -/
structure World.Alike (alike : ω → ω → Prop) (w w' : World ω) : Prop where
  sink : w.sink = w'.sink
  clock : w.clock = w'.clock
  extra : alike w.extra w'.extra

theorem Builtin.emit_alike {args args' : List (Value (Builtin ε))} (text : String) {w w' : World ω}
    (h : w.Alike alike w') :
    World.Alike alike (@Builtin.emit ε ω text w).2 (@Builtin.emit ε ω text w').2 ∧
      Agree (Handed args args') (Builtin.emit text w).1 (Builtin.emit text w').1 := by
  simp only [Builtin.emit, h.sink]
  refine ⟨⟨rfl, h.clock, h.extra⟩, ?_⟩
  cases (w'.sink.write text).1 with
  | ok => exact .ok (.plain rfl)
  | error e => exact .error e

/-- Printing and logging show no scopes, so only what a host adds matters. -/
theorem Builtin.run_blind {added : Extension ε ω} (h : ∀ key, HostCall.Blind alike (added key))
    (key : Builtin ε) : HostCall.Blind (World.Alike alike) (Builtin.run added key) := by
  intro args args' w w' hargs hw
  have shown := (Builtin.firstArg_related (.bool false) hargs).display_eq
  cases key with
  | print =>
    simp only [Builtin.run, shown]
    exact Builtin.emit_alike _ hw
  | println =>
    simp only [Builtin.run, shown]
    exact Builtin.emit_alike _ hw
  | log format =>
    simp only [Builtin.run, shown, hw.clock]
    cases Builtin.logLine w'.clock format (Builtin.firstArg args').display with
    | error e => exact ⟨hw, .error e⟩
    | ok line => exact Builtin.emit_alike line hw
  | extra key =>
    obtain ⟨hextra, hr⟩ := h key args args' w.extra w'.extra hargs hw.extra
    exact ⟨⟨hw.sink, hw.clock, hextra⟩, hr⟩

theorem Extension.echo_blind (key : Unit) : HostCall.Blind Eq (Extension.echo key) := by
  intro args args' w w' hargs hw
  refine ⟨hw, .ok ?_⟩
  cases hargs with
  | nil => exact .plain rfl
  | cons => exact .given 0 rfl rfl

namespace Session

/-! ### The reference -/

/-- Evaluates a tree in the root scope and gives no scope back. -/
def evaluateNodeKeeping (added : Extension ε ω) (n : Node) (s : Session ε ω) :
    Outcome ε × Session ε ω :=
  match evalKeeping (Builtin.run added) s.calls .root n s.state with
  | (r, state) => (r, { s with state })

/-- Evaluates a source text in the root scope and gives no scope back. -/
def evaluateTextKeeping (added : Extension ε ω) (source : String) (s : Session ε ω) :
    Outcome ε × Session ε ω :=
  match parse source with
  | .ok n => s.evaluateNodeKeeping added n
  | .error e => (.error e, s)

/-- What is done in a session. -/
inductive Command (ε : Type) where
  | text (source : String)
  | node (n : Node)
  | define (name : String) (key : ε)

/-- What a step leads to: a result, unless a function was defined, and the session after it. -/
abbrev Step (ε ω : Type) := Option (Outcome ε) × Session ε ω

def perform (added : Extension ε ω) (s : Session ε ω) : Command ε → Step ε ω
  | .text source => (some (s.evaluateText added source).1, (s.evaluateText added source).2)
  | .node n => (some (s.evaluateNode added n).1, (s.evaluateNode added n).2)
  | .define name key => (none, s.define name key)

def performKeeping (added : Extension ε ω) (s : Session ε ω) : Command ε → Step ε ω
  | .text source =>
    (some (s.evaluateTextKeeping added source).1, (s.evaluateTextKeeping added source).2)
  | .node n => (some (s.evaluateNodeKeeping added n).1, (s.evaluateNodeKeeping added n).2)
  | .define name key => (none, s.define name key)

/-- What commands lead to, one after the other. -/
def history (act : Session ε ω → Command ε → Step ε ω) (s : Session ε ω) :
    List (Command ε) → List (Step ε ω)
  | [] => []
  | c :: cs => act s c :: history act (act s c).2 cs

/-- Both steps have the same error, or the same value up to a one-to-one renaming of handles. They
have written the same, and their root scopes bind the same names to the same values up to that
renaming. -/
structure Indistinguishable (p q : Step ε ω) (R : ScopeId → ScopeId → Prop) : Prop where
  renamed : p.2.state.arena.Renamed R q.2.state.arena
  result : Option.Rel (Agree (Value.Rel R)) p.1 q.1
  written : p.2.state.world.sink = q.2.state.world.sink
  root : ∃ s t, p.2.state.arena.scope? .root = some s ∧ q.2.state.arena.scope? .root = some t ∧
    s.bindings.Rel R t.bindings

/-! ### Both sessions side by side -/

/-- Sessions in related states. -/
structure Alike (alike : ω → ω → Prop) (R : ScopeId → ScopeId → Prop) (s t : Session ε ω) :
    Prop where
  settings : s.settings = t.settings
  state : (keeping (Builtin ε) (World.Alike alike)).state (s.state.arena, R) s.state t.state

variable {R : ScopeId → ScopeId → Prop} {s t : Session ε ω} {added : Extension ε ω}

theorem alike_defineBuiltin (h : s.Alike alike R t) (name : String) (key : Builtin ε) :
    Session.Alike alike R { s with state := s.state.defineBuiltin name key }
      { t with state := t.state.defineBuiltin name key } := by
  obtain ⟨hsettings, -, hs, hR, hfresh, hworld⟩ := h
  refine ⟨hsettings, rfl, hs.define .root name (Value.HeldIn.of_scope?_eq_none rfl), ?_,
    congrArg (· + 1) hfresh, hworld⟩
  simp only [State.defineBuiltin, hfresh]
  exact hR.define hR.root name (.builtin _)

theorem alike_new (settings : Settings) {world : World ω} (hw : alike world.extra world.extra) :
    (new settings world : Session ε ω).Alike alike (fun x y => x = .root ∧ y = .root)
      (new settings world) := by
  have bare : Session.Alike alike (fun x y => x = .root ∧ y = .root)
      (⟨settings, { world }⟩ : Session ε ω) ⟨settings, { world }⟩ :=
    ⟨rfl, rfl, .new, Arena.renamed_new, rfl, rfl, rfl, hw⟩
  exact alike_defineBuiltin (alike_defineBuiltin (alike_defineBuiltin bare _ _) _ _) _ _

/-- What is collected was neither held by the result nor seen from the root. -/
theorem evaluateNode_alike (hhost : ∀ key, HostCall.Blind alike (added key)) (h : s.Alike alike R t)
    (n : Node) :
    ∃ R', Session.Alike alike R' (s.evaluateNode added n).2 (t.evaluateNodeKeeping added n).2 ∧
      Agree (Value.Rel R') (s.evaluateNode added n).1 (t.evaluateNodeKeeping added n).1 := by
  obtain ⟨hsettings, hstate⟩ := h
  have same : s.calls = t.calls := by simp [calls, hsettings]
  obtain ⟨⟨a, R'⟩, -, ⟨harena, hs, hR, hfresh, hworld⟩, hr⟩ := eval_evalKeeping
    (Builtin.run_blind hhost) s.calls n (p := (s.state.arena, R)) hstate.2.2.1.root _ _ hstate
  simp only [evaluateNode_eq, evaluateNodeKeeping, ← same]
  generalize eval (Builtin.run added) s.calls .root n s.state = after at *
  obtain ⟨r, state⟩ := after
  subst harena
  have hs' := hs.collect r.toOption.toList
  have hR' := hR.restrict hs' fun _ _ hx => (Arena.scope?_collect.1 hx).1
  refine ⟨_, ⟨hsettings, rfl, hs', hR', hfresh, hworld⟩, hr.imp fun v w hv hvw => ?_⟩
  refine (keeping_value_rel hvw).restrict fun x hx => Arena.alive_collect_iff.2 (.start ?_ ?_)
  · simp only at hv
    simp [hv, Except.toOption, hx]
  · exact (heldIn_of_keeping hvw x hx).alive

/-- One step in both sessions. -/
theorem perform_alike (hhost : ∀ key, HostCall.Blind alike (added key)) (h : s.Alike alike R t)
    (c : Command ε) :
    ∃ R', Session.Alike alike R' (s.perform added c).2 (t.performKeeping added c).2 ∧
      Option.Rel (Agree (Value.Rel R')) (s.perform added c).1 (t.performKeeping added c).1 := by
  cases c with
  | text source =>
    simp only [perform, performKeeping, evaluateText, evaluateTextKeeping]
    cases parse source with
    | error e => exact ⟨R, h, .some (.error e)⟩
    | ok n =>
      obtain ⟨R', h', hr⟩ := evaluateNode_alike hhost h n
      exact ⟨R', h', .some hr⟩
  | node n =>
    obtain ⟨R', h', hr⟩ := evaluateNode_alike hhost h n
    exact ⟨R', h', .some hr⟩
  | define name key => exact ⟨R, alike_defineBuiltin h name _, .none⟩

theorem Alike.indistinguishable {p q : Step ε ω} (h : p.2.Alike alike R q.2)
    (hr : Option.Rel (Agree (Value.Rel R)) p.1 q.1) : Indistinguishable p q R := by
  obtain ⟨-, -, -, hR, -, hworld⟩ := h
  obtain ⟨u, v, hu, hv, huv⟩ := hR.scope hR.root
  exact ⟨hR, hr, hworld.sink, u, v, hu, hv, huv.bindings⟩

theorem history_alike (hhost : ∀ key, HostCall.Blind alike (added key)) (h : s.Alike alike R t)
    (cs : List (Command ε)) : List.Forall₂ (fun p q => ∃ R, Indistinguishable p q R)
      (history (perform added) s cs) (history (performKeeping added) t cs) := by
  induction cs generalizing s t R with
  | nil => exact .nil
  | cons c cs ih =>
    obtain ⟨R', h', hr⟩ := perform_alike hhost h c
    exact .cons ⟨R', h'.indistinguishable hr⟩ (ih h')

/-- From the beginning of a session on, nothing that is evaluated or defined shows whether scopes
are given back. -/
theorem reclaiming_unobservable (hhost : ∀ key, HostCall.Blind alike (added key))
    (settings : Settings) {world : World ω} (hw : alike world.extra world.extra)
    (cs : List (Command ε)) :
    List.Forall₂ (fun p q => ∃ R, Indistinguishable p q R)
      (history (perform added) (.new settings world) cs)
      (history (performKeeping added) (.new settings world) cs) :=
  history_alike hhost (alike_new settings hw) cs

/-- A closure that comes back through the host is bound, called and lost again. -/
theorem reclaiming_unobservable_with_echo :
    let inner : Node := .call (.lambda ["n"] (.lambda [] (.var "n"))) [.bool true]
    let commands : List (Command Unit) := [.define "same" (),
      .node (.assign (.var "f") (.call (.var "same") [inner])), .text "print(f()); f = false"]
    (∀ key, HostCall.Blind Eq (Extension.echo key)) ∧
      List.Forall₂ (fun p q => ∃ R, Indistinguishable p q R)
        (history (perform Extension.echo) (.new {} { extra := () }) commands)
        (history (performKeeping Extension.echo) (.new {} { extra := () }) commands) := by
  intro inner commands
  exact ⟨Extension.echo_blind, reclaiming_unobservable Extension.echo_blind {} rfl commands⟩

end Session

end ScopeLang
