import ScopeLang.Proofs.Eval.Lexical
import ScopeLang.Proofs.Eval.Recorded
import ScopeLang.Proofs.Session.Liveness

/-!
# Renaming a parameter is unobservable

In a fresh session two programs that differ in the name of one parameter come to the same, call the
functions of the host in the same order with the same arguments, and leave the same number of scopes
in use. Only the names that a closure carries differ. So names mean what they mean where they are
written, and never what they happen to be bound to where a function is called.

## Main definitions

* `HostCalled.Akin` — calls of one function of the host with like arguments.
* `World.Akin` — worlds that take output alike, whatever was written.

## Main statements

* `Session.param_renaming_unobservable` — what does not depend on the name of a parameter.
-/

namespace ScopeLang

variable {κ ω ω' ε : Type} {x y : String}

/-! ### Hosts that note their calls -/

/-- Calls of the same function with arguments that differ in how `x` is spelled. -/
structure HostCalled.Akin (x y : String) (c c' : HostCalled κ) : Prop where
  key : c.1 = c'.1
  args : List.Forall₂ (Value.Akin (Closure.PartRenamed x y)) c.2 c'.2

/-- Worlds with notes about like calls. -/
structure Noted (x y : String) (alike : ω → ω' → Prop) (w : ω × List (HostCalled κ))
    (w' : ω' × List (HostCalled κ)) : Prop where
  world : alike w.1 w'.1
  calls : List.Forall₂ (HostCalled.Akin x y) w.2 w'.2

theorem Host.recorded_unspelling {alike : ω → ω' → Prop} {host : Host κ ω} {host' : Host κ ω'}
    (hh : ∀ key, HostCall.Unspelling x y alike (host key) (host' key)) (key : κ) :
    HostCall.Unspelling x y (Noted x y alike) (host.recorded key) (host'.recorded key) := by
  intro args args' w w' hargs hw
  obtain ⟨hworld, ho⟩ := hh key args args' w.1 w'.1 hargs hw.world
  exact ⟨⟨hworld, List.rel_append hw.calls (.cons ⟨rfl, hargs⟩ .nil)⟩, ho⟩

/-! ### Printing and logging -/

/-- Sinks that take and refuse text alike. What was written may differ. -/
structure Sink.Akin (s t : Sink) : Prop where
  writeRefusal : s.writeRefusal = t.writeRefusal
  flushRefusal : s.flushRefusal = t.flushRefusal

/-- Only the empty text is treated differently. -/
theorem Sink.Akin.write {s t : Sink} (h : s.Akin t) {text text' : String}
    (ht : text.isEmpty = text'.isEmpty) :
    (s.write text).2.Akin (t.write text').2 ∧ (s.write text).1 = (t.write text').1 := by
  simp only [Sink.write, Sink.flush, ht, h.writeRefusal, h.flushRefusal]
  split
  · exact ⟨h, rfl⟩
  · split
    · exact ⟨h, rfl⟩
    · exact ⟨⟨rfl, rfl⟩, rfl⟩

/-- Worlds with the same clock and sinks that take text alike. -/
structure World.Akin (alike : ω → ω' → Prop) (w : World ω) (w' : World ω') : Prop where
  sink : w.sink.Akin w'.sink
  clock : w.clock = w'.clock
  extra : alike w.extra w'.extra

theorem isEmpty_append (s t : String) : (s ++ t).isEmpty = (s.isEmpty && t.isEmpty) := by
  rw [Bool.eq_iff_iff]
  simp [String.isEmpty_iff, String.append_eq_empty_iff]

/-- Closures are not displayed alike, but never as nothing. -/
theorem Value.Akin.display_isEmpty {C : Closure → Closure → Prop} {v w : Value κ}
    (h : v.Akin C w) : v.display.isEmpty = w.display.isEmpty := by
  cases h with
  | closure =>
    have : "lambda(".isEmpty = false := by decide
    simp [Value.display, isEmpty_append, this]
  | _ => rfl

theorem Builtin.emit_akin {alike : ω → ω' → Prop} {args args' : List (Value (Builtin ε))}
    {text text' : String} (ht : text.isEmpty = text'.isEmpty) {w : World ω} {w' : World ω'}
    (h : w.Akin alike w') :
    World.Akin alike (@Builtin.emit ε ω text w).2 (@Builtin.emit ε ω' text' w').2 ∧
      AgreeInKind (Handed args args') (Builtin.emit text w).1 (Builtin.emit text' w').1 := by
  obtain ⟨hsink, hr⟩ := h.sink.write ht
  simp only [Builtin.emit, hr]
  refine ⟨⟨hsink, h.clock, h.extra⟩, ?_⟩
  cases (w'.sink.write text').1 with
  | ok => exact .ok (.plain rfl)
  | error => exact .error rfl

/-- Printing and logging succeed and fail without regard to names in closures. -/
theorem Builtin.run_unspelling {alike : ω → ω' → Prop} {added : Extension ε ω}
    {added' : Extension ε ω'}
    (h : ∀ key, HostCall.Unspelling x y alike (added key) (added' key)) (key : Builtin ε) :
    HostCall.Unspelling x y (World.Akin alike) (Builtin.run added key) (Builtin.run added' key) := by
  intro args args' w w' hargs hw
  have shown := (Builtin.firstArg_related (.bool false) hargs).display_isEmpty
  cases key with
  | print => exact Builtin.emit_akin shown hw
  | println => exact Builtin.emit_akin (by simp only [isEmpty_append, shown]) hw
  | log format =>
    simp only [Builtin.run, Builtin.logLine, hw.clock]
    cases TimeFormat.render w'.clock format with
    | none => exact ⟨hw, .error rfl⟩
    | some time => exact Builtin.emit_akin (by simp only [isEmpty_append, shown]) hw
  | extra key =>
    obtain ⟨hextra, ho⟩ := h key args args' w.extra w'.extra hargs hw.extra
    exact ⟨⟨hw.sink, hw.clock, hextra⟩, ho⟩

/-! ### Scopes in use -/

/-- Outcomes that agree hold on to the same scopes. -/
theorem AgreeInKind.filterMap_scope?_eq {C : Closure → Closure → Prop}
    {r r' : Except Error (Value κ)} (h : AgreeInKind (Value.Akin C) r r') :
    r.toOption.toList.filterMap Value.scope? = r'.toOption.toList.filterMap Value.scope? := by
  cases h with
  | ok hv => simp [Except.toOption, List.filterMap_cons, hv.scope?_eq]
  | error => rfl

namespace Arena.Respelled

variable {mode : ScopeId → Bool} {C : Closure → Closure → Prop} {a b : Arena (Value κ)}

theorem successors_eq (h : Respelled x y mode C a b) (id : ScopeId) :
    (a.scope? id).map (successors Value.scope?) = (b.scope? id).map (successors Value.scope?) := by
  rcases h.scope?_cases id with ⟨hs, ht⟩ | ⟨s, t, hs, ht, hst⟩
  · rw [hs, ht]
  · rw [hs, ht, Option.map_some, Option.map_some, hst.successors_eq]

/-- The same scopes are collected. -/
theorem liveCount_collect (h : Respelled x y mode C a b) {vs ws : List (Value κ)}
    (hvs : vs.filterMap Value.scope? = ws.filterMap Value.scope?) :
    (b.collect Value.scope? ws).2.liveCount = (a.collect Value.scope? vs).2.liveCount := by
  have same : { id | (b.collect Value.scope? ws).2.Alive id } =
      { id | (a.collect Value.scope? vs).2.Alive id } := by
    ext id
    simp only [Set.mem_ofPred_eq, alive_collect_iff, hvs]
    exact ⟨.congr fun id => (h.successors_eq id).symm, .congr h.successors_eq⟩
  rw [liveCount_eq_ncard, liveCount_eq_ncard, same]

end Arena.Respelled

namespace Session

/-! ### From the beginning of a session on -/

/-- The stage at which a session begins: `x` is not yet spelled `y` anywhere. -/
def firstStage (s : Session ε ω) : Stage (Builtin ε) := ⟨s.state.arena, fun _ => false⟩

/-- The names that are bound when a session begins. -/
def standardNames : List String := ["print", "println", "log"]

theorem respelled_new {C : Closure → Closure → Prop} (hy : y ∉ standardNames) (settings : Settings)
    (world : World ω) :
    Arena.Respelled x y (fun _ => false) C (new settings world : Session ε ω).state.arena
      (new settings world : Session ε ω).state.arena := by
  simp only [standardNames, List.mem_cons, List.not_mem_nil, or_false, not_or] at hy
  obtain ⟨hprint, hprintln, hlog⟩ := hy
  have bound {a : Arena (Value (Builtin ε))} (h : Arena.Respelled x y (fun _ => false) C a a)
      {name : String} (hn : y ≠ name) (f : HostFunction (Builtin ε)) :
      Arena.Respelled x y (fun _ => false) C (a.define .root name (.builtin f))
        (a.define .root name (.builtin f)) := by
    have := h.define (Ne.symm hn) (.builtin f) .root
    rwa [respell_false] at this
  exact bound (bound (bound .new hprint _) hprintln _) hlog _

theorem firstStage_states (hy : y ∉ standardNames) (settings : Settings) (world : World ω)
    (added : Extension Empty ω) :
    let s : Session Empty ω := new settings world
    s.firstStage.States x y (Noted x y (World.Akin Eq)) s.state.recorded s.state.recorded := by
  intro s
  have sound : s.state.arena.Sound Value.scope? :=
    (Reachable.new settings world : s.Reachable added).sound nofun
  exact ⟨rfl, sound, fun _ _ _ _ _ _ => rfl, respelled_new hy settings world, rfl,
    ⟨⟨rfl, rfl⟩, rfl, rfl⟩, .nil⟩

/-- What an evaluation in a session comes to when its calls of host functions are noted. -/
theorem evaluateNode_recorded (added : Extension ε ω) (n : Node) (s : Session ε ω) :
    let noted := evaluate (Host.recorded (Builtin.run added)) s.calls .root n s.state.recorded
    (s.evaluateNode added n).1 = noted.1 ∧ (s.evaluateNode added n).2.state.arena =
      (noted.2.arena.collect Value.scope? noted.1.toOption.toList).2 := by
  intro noted
  rw [evaluateNode_eq, ← evaluate_eq_eval, evaluate_recorded]
  exact ⟨rfl, rfl⟩

/-- In a fresh session it does not matter what a parameter is called, as long as its new name `y` is
not used yet. The program still has the same value or an error of the same kind, calls the same host
functions in turn with the same arguments, and leaves as many scopes in use. Only in closures is the
parameter called `y`. -/
theorem param_renaming_unobservable {n n' : Node} (h : n.RenamesParam x y n') (hy : y ∉ n.names)
    (hstandard : y ∉ standardNames) (settings : Settings) (world : World ω)
    (added : Extension Empty ω) :
    let s : Session Empty ω := new settings world
    AgreeInKind (Value.Akin (Closure.PartRenamed x y)) (s.evaluateNode added n).1
        (s.evaluateNode added n').1 ∧
      List.Forall₂ (HostCalled.Akin x y) (hostCalls (Builtin.run added) s.calls .root n s.state)
        (hostCalls (Builtin.run added) s.calls .root n' s.state) ∧
      (s.evaluateNode added n').2.state.arena.liveCount =
        (s.evaluateNode added n).2.state.arena.liveCount := by
  intro s
  have start := firstStage_states (x := x) hstandard settings world added
  have standard (key : Builtin Empty) : HostCall.Unspelling x y (World.Akin Eq)
      (Builtin.run added key) (Builtin.run added key) := Builtin.run_unspelling nofun key
  obtain ⟨q, -, hst, ho⟩ := evaluate_respelled (Host.recorded_unspelling standard) start
    start.sound.held_root.alive (h.respelled hy) s.calls
  obtain ⟨hr, harena⟩ := evaluateNode_recorded added n s
  obtain ⟨hr', harena'⟩ := evaluateNode_recorded added n' s
  rw [hr, hr', harena, harena', hst.arena]
  exact ⟨ho.imp fun _ _ hv => hv.akin, hst.world.calls,
    hst.respelled.liveCount_collect ho.filterMap_scope?_eq⟩

/-- The parameter is listed twice, assigned from a closure, and hidden by a parameter further in. -/
theorem param_renaming_unobservable_hidden :
    let inner : Node := .lambda ["x"] (.var "x")
    let maker (z : String) : Node :=
      .lambda [z, z] (.lambda [] (.assign (.var z) (.call inner [.var z])))
    let program (z : String) : Node := .seq [.assign (.var "f") (maker z),
      .call (.var "print") [.call (.var "f") [.bool true]]]
    let s : Session Empty Unit := new {} { extra := () }
    (program "x").RenamesParam "x" "y" (program "y") ∧ "y" ∉ (program "x").names ∧
      "y" ∉ standardNames ∧
      AgreeInKind (Value.Akin (Closure.PartRenamed "x" "y"))
        (s.evaluateNode nofun (program "x")).1 (s.evaluateNode nofun (program "y")).1 ∧
      List.Forall₂ (HostCalled.Akin "x" "y")
        (hostCalls (Builtin.run nofun) s.calls .root (program "x") s.state)
        (hostCalls (Builtin.run nofun) s.calls .root (program "y") s.state) ∧
      (s.evaluateNode nofun (program "y")).2.state.arena.liveCount =
        (s.evaluateNode nofun (program "x")).2.state.arena.liveCount := by
  intro inner maker program s
  have renamed : (maker "x").RenamesParam "x" "y" (maker "y") := .here (by decide)
  have renames : (program "x").RenamesParam "x" "y" (program "y") :=
    @Node.RenamesParam.item "x" "y" _ _ [] _ (.value renamed)
  have unused : "y" ∉ (program "x").names := by decide
  have standard : "y" ∉ standardNames := by decide
  exact ⟨renames, unused, standard,
    param_renaming_unobservable renames unused standard {} { extra := () } nofun⟩

end Session

end ScopeLang
