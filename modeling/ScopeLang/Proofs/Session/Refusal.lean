import ScopeLang.Proofs.Eval.Interrupted
import ScopeLang.Proofs.Eval.Recorded
import ScopeLang.Proofs.Session.Liveness

/-!
# A sink that refuses

A program whose output is refused does what it does with a willing sink up to the first text that the
sink refuses. There it fails with the error of the sink, and no function of the host is called any
more. What counts as refused depends on the sink: one that takes no text still takes the empty one,
while one that passes nothing on refuses every text, but only after it has taken it.

## Main definitions

* `Builtin.output?` — the text that a call of a host function hands to the sink.
* `Sink.under` — what was written to a sink, under the refusals of another one.
* `Session.callsOf` — the calls of host functions that evaluating a tree makes.

## Main statements

* `Session.evaluateNode_under` — an evaluation under any refusals beside one under none.
* `Session.refused_at_first_output` — sinks that refuse to take text, or to pass it on.
-/

namespace ScopeLang

variable {ε ω : Type}

/-! ### Sinks -/

namespace Sink

/-- What was written to a sink, under the refusals of another one. -/
def under (k s : Sink) : Sink := { k with written := s.written }

/-- The error with which the sink meets a text, if any. -/
def refusal? (k : Sink) (text : String) : Option Error :=
  match (k.write text).1 with
  | .ok _ => none
  | .error e => some e

variable {k s : Sink} {text : String} {e : Error}

/-- What the sink does with a text does not depend on what was written before. -/
theorem write_under (k s : Sink) (text : String) :
    ((k.under s).write text).1 = (k.write text).1 := by
  simp only [write, flush, under]
  split
  · rfl
  · split <;> rfl

theorem write_willing (s : Sink) (text : String) :
    (under {} s).write text = (.ok (), { written := s.written ++ text }) := by
  by_cases h : text = "" <;> simp [write, flush, under, h]

/-- A text that is not refused is written as to a willing sink. -/
theorem write_of_not_refused (h : k.refusal? text = none) :
    (k.under s).write text = (.ok (), k.under { written := s.written ++ text }) := by
  have taken : (k.write text).1 = .ok () := by
    simp only [refusal?] at h
    cases hr : (k.write text).1 with
    | ok => rfl
    | error e => simp [hr] at h
  refine Prod.ext ((write_under k s text).trans taken) ?_
  by_cases hempty : text = ""
  · simp [write, under, hempty]
  · cases hk : k.writeRefusal with
    | none => simp [write, under, hempty, hk]
    | some why => simp [write, hempty, hk] at taken

/-- A sink that takes no text takes the empty one. -/
theorem refusal?_of_writeRefusal (why text : String) :
    refusal? { writeRefusal := some why } text =
      if text = "" then none else some (.outputFailed why) := by
  by_cases h : text = "" <;> simp [refusal?, write, flush, h]

/-- A sink that passes nothing on refuses every text, after it has taken it. -/
theorem refusal?_of_flushRefusal (why text : String) :
    refusal? { flushRefusal := some why } text = some (.outputFailed why) := by
  by_cases h : text = "" <;> simp [refusal?, write, flush, h]

theorem write_of_refused (h : k.refusal? text = some e) :
    ((k.under s).write text).1 = .error e := by
  rw [write_under]
  simp only [refusal?] at h
  cases hr : (k.write text).1 with
  | ok => simp [hr] at h
  | error e' => simpa [hr] using h

end Sink

/-! ### Calls of host functions -/

namespace World

/-- The world with its sink under other refusals. -/
def under (k : Sink) (w : World ω) : World ω := { w with sink := k.under w.sink }

end World

namespace Builtin

/-- The text that a call of a host function hands to the sink. A time format that nothing can be
written in keeps `log` from handing over anything. -/
def output? (clock : TimeFormat.Clock) : HostCalled (Builtin ε) → Option String
  | (.print, args) => some (firstArg args).display
  | (.println, args) => some ((firstArg args).display ++ "\n")
  | (.log timeFormat, args) => (logLine clock timeFormat (firstArg args).display).toOption
  | (.extra _, _) => none

variable {added : Extension ε ω} {key : Builtin ε} {args : List (Value (Builtin ε))} {w : World ω}

theorem run_of_output (added : Extension ε ω) {text : String}
    (h : output? w.clock (key, args) = some text) :
    run added key args w = emit text w := by
  cases key with
  | print | println =>
    obtain rfl := Option.some.inj h
    rfl
  | log timeFormat =>
    simp only [output?] at h
    simp only [run]
    cases hline : logLine w.clock timeFormat (firstArg args).display with
    | ok line =>
      obtain rfl : line = text := by simpa [hline, Except.toOption] using h
      rfl
    | error e => simp [hline, Except.toOption] at h
  | extra key => cases h

/-- A call that hands over nothing goes the same way under all refusals. -/
theorem run_of_silent (added : Extension ε ω) (h : output? w.clock (key, args) = none) (k : Sink) :
    (run added key args w).2.sink = w.sink ∧
      run added key args (w.under k) =
        ((run added key args w).1, (run added key args w).2.under k) := by
  cases key with
  | print | println => cases h
  | log timeFormat =>
    simp only [output?] at h
    simp only [run, World.under]
    cases hline : logLine w.clock timeFormat (firstArg args).display with
    | ok line => simp [hline, Except.toOption] at h
    | error e => exact ⟨rfl, rfl⟩
  | extra key => exact ⟨rfl, rfl⟩

theorem clock_run (added : Extension ε ω) (key : Builtin ε) (args : List (Value (Builtin ε)))
    (w : World ω) : (run added key args w).2.clock = w.clock := by
  cases ho : output? w.clock (key, args) with
  | some text => rw [run_of_output added ho]; rfl
  | none =>
    cases key with
    | print | println => cases ho
    | log timeFormat =>
      simp only [run]
      cases logLine w.clock timeFormat (firstArg args).display <;> rfl
    | extra key => rfl

/-- All texts that calls hand to the sink. -/
def outputs (clock : TimeFormat.Clock) (calls : List (HostCalled (Builtin ε))) : String :=
  String.join (calls.filterMap (output? clock))

theorem outputs_append (clock : TimeFormat.Clock) (cs ds : List (HostCalled (Builtin ε))) :
    outputs clock (cs ++ ds) = outputs clock cs ++ outputs clock ds := by
  simp only [outputs, List.filterMap_append, String.join_append]

/-- Nothing is handed over but empty texts. -/
theorem outputs_eq_empty_iff {clock : TimeFormat.Clock} {calls : List (HostCalled (Builtin ε))} :
    outputs clock calls = "" ↔ ∀ c ∈ calls, ∀ text, output? clock c = some text → text = "" := by
  induction calls with
  | nil => simp [outputs]
  | cons c cs ih =>
    rw [← List.singleton_append, outputs_append, String.append_eq_empty_iff, ih]
    cases ho : output? clock c <;> simp [outputs, ho]

/-- The sink refuses none of the texts that calls hand to it. -/
def Passes (k : Sink) (clock : TimeFormat.Clock) (calls : List (HostCalled (Builtin ε))) : Prop :=
  ∀ c ∈ calls, ∀ text, output? clock c = some text → k.refusal? text = none

end Builtin

/-! ### Both hosts side by side -/

/-- A world with the calls that were made in it. -/
abbrev Ledger (ε ω : Type) := World ω × List (HostCalled (Builtin ε))

namespace Ledger

variable {k : Sink} {clock : TimeFormat.Clock} {start : String} {w w' : Ledger ε ω} {e : Error}
  {added : Extension ε ω} {key : Builtin ε} {args : List (Value (Builtin ε))}

/-- The sink is willing, and all that was written to it is what the calls handed over. -/
structure Kept (clock : TimeFormat.Clock) (start : String) (w : Ledger ε ω) : Prop where
  sink : w.1.sink = { written := start ++ Builtin.outputs clock w.2 }
  clock : w.1.clock = clock

/-- The second world is the first one under refusals that have had no effect yet. -/
structure Together (k : Sink) (clock : TimeFormat.Clock) (start : String) (w w' : Ledger ε ω) :
    Prop where
  kept : w.Kept clock start
  passes : Builtin.Passes k clock w.2
  under : w' = (w.1.under k, w.2)

/-- In the second world the last call was refused; in the first one others have followed it. -/
structure Parted (k : Sink) (clock : TimeFormat.Clock) (start : String) (e : Error)
    (w w' : Ledger ε ω) : Prop where
  kept : w.Kept clock start
  calls : ∃ before c after text, w.2 = before ++ c :: after ∧ w'.2 = before ++ [c] ∧
    Builtin.Passes k clock before ∧ Builtin.output? clock c = some text ∧
    k.refusal? text = some e ∧ w'.1.sink =
      ((k.under { written := start ++ Builtin.outputs clock before }).write text).2

theorem Kept.recorded (h : w.Kept clock start) (added : Extension ε ω) (key : Builtin ε)
    (args : List (Value (Builtin ε))) :
    Kept clock start ((Builtin.run added).recorded key args w).2 := by
  refine ⟨?_, (Builtin.clock_run added key args w.1).trans h.clock⟩
  have noted : ((Builtin.run added).recorded key args w).2.2 = w.2 ++ [(key, args)] := rfl
  have world : ((Builtin.run added).recorded key args w).2.1 = (Builtin.run added key args w.1).2 :=
    rfl
  have willing : w.1.sink = Sink.under {} { written := start ++ Builtin.outputs clock w.2 } := h.sink
  rw [noted, world, Builtin.outputs, List.filterMap_append, String.join_append]
  cases ho : Builtin.output? clock (key, args) with
  | some text =>
    rw [Builtin.run_of_output added (h.clock.symm ▸ ho)]
    simp only [Builtin.emit, willing, Sink.write_willing]
    simp [ho, Builtin.outputs, String.append_assoc]
  | none =>
    rw [(Builtin.run_of_silent added (h.clock.symm ▸ ho) {}).1, h.sink]
    simp [ho, Builtin.outputs]

/-- Both worlds go through a call together, or part there because the sink refuses its text. -/
theorem Together.recorded (h : w.Together k clock start w') (added : Extension ε ω)
    (key : Builtin ε) (args : List (Value (Builtin ε))) :
    let r := (Builtin.run added).recorded key args w
    let r' := (Builtin.run added).recorded key args w'
    (r.1 = r'.1 ∧ Together k clock start r.2 r'.2) ∨
      ∃ e, r'.1 = .error e ∧ Parted k clock start e r.2 r'.2 := by
  obtain ⟨kept, passes, rfl⟩ := h
  have kept' := kept.recorded added key args
  have sink : (w.1.under k).sink = k.under { written := start ++ Builtin.outputs clock w.2 } := by
    rw [← kept.sink]
    rfl
  have still (hnew : ∀ text, Builtin.output? clock (key, args) = some text →
      k.refusal? text = none) : Builtin.Passes k clock (w.2 ++ [(key, args)]) := by
    intro c hc
    rcases List.mem_append.1 hc with hc | hc
    · exact passes c hc
    · obtain rfl := List.mem_singleton.1 hc
      exact hnew
  simp only [Host.recorded] at kept' ⊢
  cases ho : Builtin.output? clock (key, args) with
  | none =>
    obtain ⟨-, same⟩ := Builtin.run_of_silent added (kept.clock.symm ▸ ho) k
    rw [same]
    exact .inl ⟨rfl, kept', still (by simp [ho]), rfl⟩
  | some text =>
    have willing : w.1.sink.write text =
        (.ok (), { written := start ++ Builtin.outputs clock w.2 ++ text }) := by
      rw [kept.sink]
      exact Sink.write_willing { written := start ++ Builtin.outputs clock w.2 } text
    have ran : Builtin.run added key args w.1 = Builtin.emit text w.1 :=
      Builtin.run_of_output added (kept.clock.symm ▸ ho)
    have ran' : Builtin.run added key args (w.1.under k) = Builtin.emit text (w.1.under k) :=
      Builtin.run_of_output added (kept.clock.symm ▸ ho)
    rw [ran] at kept' ⊢
    rw [ran']
    simp only [Builtin.emit, sink] at kept' ⊢
    cases hk : k.refusal? text with
    | none =>
      left
      rw [Sink.write_of_not_refused hk, willing]
      rw [willing] at kept'
      exact ⟨rfl, kept', still (by simp [ho, hk]), rfl⟩
    | some e =>
      right
      refine ⟨e, by rw [Sink.write_of_refused hk]; rfl, kept', ?_⟩
      exact ⟨w.2, (key, args), [], text, rfl, rfl, passes, ho, hk, rfl⟩

/-- A willing sink and one with refusals. -/
def interruption (added : Extension ε ω) (k : Sink) (clock : TimeFormat.Clock) (start : String) :
    Interruption (Builtin.run added).recorded (Builtin.run added).recorded where
  alike := Together k clock start
  cut := Parted k clock start
  step key args _ _ h := h.recorded added key args
  goesOn key args e w w' h := by
    refine ⟨h.kept.recorded added key args, ?_⟩
    obtain ⟨before, c, after, text, hw, rest⟩ := h.calls
    refine ⟨before, c, after ++ [(key, args)], text, ?_, rest⟩
    simp [Host.recorded, hw]

end Ledger

/-! ### Sessions -/

namespace Session

variable {s : Session ε ω} {k : Sink}

/-- The calls of host functions that evaluating a tree makes, one after the other. -/
def callsOf (added : Extension ε ω) (n : Node) (s : Session ε ω) : List (HostCalled (Builtin ε)) :=
  hostCalls (Builtin.run added) s.calls .root n s.state

/-- All that was written in the session. -/
def written (s : Session ε ω) : String := s.state.world.sink.written

/-- An evaluation in a session, read off the one that notes its calls. -/
theorem evaluateNode_noted (added : Extension ε ω) (n : Node) (s : Session ε ω) :
    let noted := evaluate (Host.recorded (Builtin.run added)) s.calls .root n s.state.recorded
    s.evaluateNode added n = (noted.1, { s with
      state := ((noted.2.mapWorld Prod.fst).collect noted.1.toOption.toList).2 }) := by
  intro noted
  rw [evaluateNode_eq, ← evaluate_eq_eval, evaluate_recorded]

/-- What a program comes to under the refusals `k`, beside what it comes to under none. Either the
sink refuses nothing that the program hands to it, and both come to the same. Or it refuses the text
of some call, and then that call is the last one, the error is that of the sink, and the sink is as
it was when it refused. -/
theorem evaluateNode_under (added : Extension ε ω) (n : Node) (s : Session ε ω) (k : Sink) :
    let willing := s.withSink (Sink.under {})
    let refusing := s.withSink k.under
    let clock := s.state.world.clock
    let made := willing.callsOf added n
    let r := willing.evaluateNode added n
    let r' := refusing.evaluateNode added n
    r.2.written = s.written ++ Builtin.outputs clock made ∧
      ((Builtin.Passes k clock made ∧ refusing.callsOf added n = made ∧
          r' = (r.1, r.2.withSink k.under)) ∨
        ∃ before c after text e, made = before ++ c :: after ∧
          refusing.callsOf added n = before ++ [c] ∧ Builtin.Passes k clock before ∧
          Builtin.output? clock c = some text ∧ k.refusal? text = some e ∧ r'.1 = .error e ∧
          r'.2.state.world.sink =
            ((k.under { written := s.written ++ Builtin.outputs clock before }).write text).2) := by
  intro willing refusing clock made r r'
  have beside : willing.state.recorded.Beside (Ledger.Together k clock s.written)
      refusing.state.recorded :=
    ⟨rfl, rfl, ⟨by simp [willing, written, withSink, State.recorded, State.mapWorld, Sink.under,
      Builtin.outputs], rfl⟩, nofun, rfl⟩
  have both := ((Ledger.interruption added k clock s.written).evaluate s.calls .root n).together
    _ _ beside
  have hcalls : willing.calls = s.calls ∧ refusing.calls = s.calls := ⟨rfl, rfl⟩
  simp only [r, r', evaluateNode_noted, hcalls]
  rcases both with ⟨hr, harena, hfresh, kept, passes, hworld⟩ | ⟨e, hr', kept, hparted⟩
  · have noted := congrArg Prod.snd hworld
    refine ⟨congrArg Sink.written kept.sink, .inl ⟨passes, noted, ?_⟩⟩
    simp only [State.collect, State.mapWorld, ← harena, ← hfresh, hworld, ← hr]
    rfl
  · refine ⟨congrArg Sink.written kept.sink, .inr ?_⟩
    obtain ⟨before, c, after, text, hmade, hmade', passes, ho, hk, hsink⟩ := hparted
    exact ⟨before, c, after, text, e, hmade, hmade', passes, ho, hk, hr', hsink⟩

/-- A sink that takes no text stops a program at the first text that is not empty. -/
theorem evaluateNode_untaking (added : Extension ε ω) (n : Node) (s : Session ε ω) (why : String) :
    let untaking : Sink := { writeRefusal := some why }
    let willing := s.withSink (Sink.under {})
    let refusing := s.withSink untaking.under
    let output? : HostCalled (Builtin ε) → Option String := Builtin.output? s.state.world.clock
    let r := willing.evaluateNode added n
    let r' := refusing.evaluateNode added n
    (r.2.written = s.written → r' = (r.1, r.2.withSink untaking.under)) ∧
      (r.2.written ≠ s.written → r'.1 = .error (.outputFailed why) ∧ r'.2.written = s.written ∧
        ∃ before c after text, willing.callsOf added n = before ++ c :: after ∧
          (∀ d ∈ before, ∀ t, output? d = some t → t = "") ∧ output? c = some text ∧ text ≠ "" ∧
          refusing.callsOf added n = before ++ [c]) := by
  intro untaking willing refusing output? r r'
  have empty {calls : List (HostCalled (Builtin ε))}
      (h : Builtin.Passes untaking s.state.world.clock calls) :
      ∀ d ∈ calls, ∀ t, output? d = some t → t = "" := by
    intro d hd t ht
    by_contra hne
    simpa [untaking, Sink.refusal?_of_writeRefusal, hne] using h d hd t ht
  obtain ⟨written, ⟨passes, -, same⟩ | ⟨before, c, after, text, e, hmade, hmade', passes, ho, hk, hr,
    hsink⟩⟩ := evaluateNode_under added n s untaking
  · -- nothing but empty texts: nothing is written
    have unwritten : r.2.written = s.written := by
      rw [Builtin.outputs_eq_empty_iff.2 (empty passes), String.append_empty] at written
      exact written
    exact ⟨fun _ => same, fun h => absurd unwritten h⟩
  · rw [Sink.refusal?_of_writeRefusal] at hk
    obtain ⟨hne, rfl⟩ : text ≠ "" ∧ .outputFailed why = e := by simpa using hk
    have wrote : r.2.written ≠ s.written := by
      intro h
      have all : Builtin.outputs s.state.world.clock (before ++ c :: after) = "" := by
        rw [← hmade]
        exact (String.append_right_inj s.written).1 (by rw [← written, String.append_empty]; exact h)
      exact hne (Builtin.outputs_eq_empty_iff.1 all c (by simp) text ho)
    have unwritten : r'.2.written = s.written := by
      have nothing := Builtin.outputs_eq_empty_iff.2 (empty passes)
      simp only [Session.written, r', refusing, hsink, nothing]
      simp [Sink.write, untaking, Sink.under, hne]
    exact ⟨fun h => absurd h wrote, fun _ => ⟨hr, unwritten, before, c, after, text, hmade,
      empty passes, ho, hne, hmade'⟩⟩

/-- A sink that passes nothing on stops a program at the first text, which it keeps. -/
theorem evaluateNode_unflushing (added : Extension ε ω) (n : Node) (s : Session ε ω)
    (why : String) :
    let unflushing : Sink := { flushRefusal := some why }
    let willing := s.withSink (Sink.under {})
    let first := (willing.callsOf added n).findSome? (Builtin.output? s.state.world.clock)
    let r := willing.evaluateNode added n
    let r' := (s.withSink unflushing.under).evaluateNode added n
    (first = none → r' = (r.1, r.2.withSink unflushing.under)) ∧
      ∀ text, first = some text →
        r'.1 = .error (.outputFailed why) ∧ r'.2.written = s.written ++ text := by
  intro unflushing willing first r r'
  have silent {calls : List (HostCalled (Builtin ε))}
      (h : Builtin.Passes unflushing s.state.world.clock calls) :
      ∀ d ∈ calls, Builtin.output? s.state.world.clock d = none := by
    intro d hd
    by_contra hne
    obtain ⟨t, ht⟩ := Option.ne_none_iff_exists'.1 hne
    simpa [unflushing, Sink.refusal?_of_flushRefusal] using h d hd t ht
  obtain ⟨-, ⟨passes, -, same⟩ | ⟨before, c, after, text, e, hmade, -, passes, ho, hk, hr, hsink⟩⟩ :=
    evaluateNode_under added n s unflushing
  · have hnone : first = none := List.findSome?_eq_none_iff.2 (silent passes)
    exact ⟨fun _ => same, fun text h => by simp [hnone] at h⟩
  · have hfirst : first = some text :=
      List.findSome?_eq_some_iff.2 ⟨before, c, after, hmade, ho, silent passes⟩
    rw [Sink.refusal?_of_flushRefusal] at hk
    obtain rfl : .outputFailed why = e := by simpa using hk
    refine ⟨fun h => by simp [hfirst] at h, fun t ht => ?_⟩
    obtain rfl : text = t := by simpa [hfirst] using ht
    have nothing : Builtin.outputs s.state.world.clock before = "" :=
      Builtin.outputs_eq_empty_iff.2 fun d hd t' h => by simp [silent passes d hd] at h
    refine ⟨hr, ?_⟩
    simp only [Session.written, r', hsink, nothing]
    by_cases hempty : text = "" <;> simp [Sink.write, unflushing, Sink.under, hempty]

/-- A program whose sink takes no text does as with a willing sink if it writes nothing there.
Otherwise it fails with the error of the sink, writes nothing, and the first call with a text to
write is its last one. A program whose sink passes nothing on does as with a willing sink if no call
reaches the sink; otherwise it fails with the error of the sink, and the text of the first such call
is all that it writes. -/
theorem refused_at_first_output (added : Extension ε ω) (n : Node) (s : Session ε ω)
    (why : String) :
    let untaking : Sink := { writeRefusal := some why }
    let unflushing : Sink := { flushRefusal := some why }
    let willing := s.withSink (Sink.under {})
    let output? : HostCalled (Builtin ε) → Option String := Builtin.output? s.state.world.clock
    let made := willing.callsOf added n
    let r := willing.evaluateNode added n
    let untaken := (s.withSink untaking.under).evaluateNode added n
    let unflushed := (s.withSink unflushing.under).evaluateNode added n
    (r.2.written = s.written → untaken = (r.1, r.2.withSink untaking.under)) ∧
      (r.2.written ≠ s.written →
        untaken.1 = .error (.outputFailed why) ∧ untaken.2.written = s.written ∧
        ∃ before c after text, made = before ++ c :: after ∧
          (∀ d ∈ before, ∀ t, output? d = some t → t = "") ∧ output? c = some text ∧ text ≠ "" ∧
          (s.withSink untaking.under).callsOf added n = before ++ [c]) ∧
      (made.findSome? output? = none → unflushed = (r.1, r.2.withSink unflushing.under)) ∧
      ∀ text, made.findSome? output? = some text →
        unflushed.1 = .error (.outputFailed why) ∧ unflushed.2.written = s.written ++ text := by
  intro untaking unflushing willing output? made r untaken unflushed
  obtain ⟨unwritten, written⟩ := evaluateNode_untaking added n s why
  obtain ⟨unreached, reached⟩ := evaluateNode_unflushing added n s why
  exact ⟨unwritten, written, unreached, reached⟩

/-- The empty text is taken by a sink that takes no text, but not passed on by one that passes
nothing on; the next text comes from within a call. -/
theorem refused_at_first_output_nested :
    let program : Node := .seq [.call (.var "print") [.text ""],
      .call (.lambda ["x"] (.call (.var "println") [.var "x"])) [.text "a"],
      .call (.var "print") [.text "b"]]
    let s : Session Empty Unit := new {} { extra := () }
    let untaking : Sink := { writeRefusal := some "closed" }
    let unflushing : Sink := { flushRefusal := some "stuck" }
    let willing := s.withSink (Sink.under {})
    let untaken := (s.withSink untaking.under).evaluateNode nofun program
    let unflushed := (s.withSink unflushing.under).evaluateNode nofun program
    (willing.evaluateNode nofun program).2.written ≠ s.written ∧
      (willing.callsOf nofun program).findSome? (Builtin.output? s.state.world.clock) = some "" ∧
      untaken.1 = .error (.outputFailed "closed") ∧ untaken.2.written = s.written ∧
      unflushed.1 = .error (.outputFailed "stuck") ∧ unflushed.2.written = s.written ++ "" := by
  intro program s untaking unflushing willing untaken unflushed
  have wrote : (willing.evaluateNode nofun program).2.written ≠ s.written := by
    rw [evaluateNode_eq]
    decide +kernel
  have reached : (willing.callsOf nofun program).findSome?
      (Builtin.output? s.state.world.clock) = some "" := by
    rw [callsOf, hostCalls, evaluate_eq_eval]
    decide +kernel
  obtain ⟨-, refused, -, -⟩ := refused_at_first_output nofun program s "closed"
  obtain ⟨-, -, -, stuck⟩ := refused_at_first_output nofun program s "stuck"
  obtain ⟨hr, hw, -⟩ := refused wrote
  exact ⟨wrote, reached, hr, hw, stuck "" reached⟩

end Session

end ScopeLang
