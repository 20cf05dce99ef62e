import ScopeLang.Proofs.Eval.Provenance
import ScopeLang.Proofs.Session.Liveness

/-!
# Sessions and the clock

The clock is asked only to log, and a session logs in one format only. So two clocks by which this
format is written alike are not told apart by any program.

## Main definitions

* `Builtin.LogsIn` — functions of the host that log in no other format.
* `World.SameTime` — worlds that differ at most in clocks by which a format is written alike.

## Main statements

* `Session.evaluateNode_clock` — a new session under two such clocks.
-/

namespace ScopeLang

variable {ε ω : Type} {format : String}

/-- The worlds differ at most in their clocks, by which the format is written alike. -/
structure World.SameTime (format : String) (w w' : World ω) : Prop where
  sink : w.sink = w'.sink
  extra : w.extra = w'.extra
  time : TimeFormat.render w.clock format = TimeFormat.render w'.clock format

/-- The function does not log in another format. -/
def Builtin.LogsIn (format : String) : Builtin ε → Prop
  | .log timeFormat => timeFormat = format
  | _ => True

/-- The added functions hand out no function that logs in another format. -/
def Extension.LogsIn (format : String) (added : Extension ε ω) : Prop :=
  ∀ key args x v, (∀ a ∈ args, a.Known (Builtin.LogsIn format)) → (added key args x).1 = .ok v →
    v.Known (Builtin.LogsIn format)

namespace Builtin

theorem logsIn_emit (text : String) (w : World ω) {v : Value (Builtin ε)}
    (h : (emit text w).1 = .ok v) : v.Known (LogsIn format) := by
  simp only [emit] at h
  cases hw : (w.sink.write text).1 with
  | ok =>
    obtain rfl : .bool false = v := by simpa [hw, Except.map] using h
    exact Value.known_bool false
  | error e => simp [hw, Except.map] at h

theorem sameTime_emit {w w' : World ω} (h : w.SameTime format w') (text : String) :
    let r : Except Error (Value (Builtin ε)) × World ω := emit text w
    let r' : Except Error (Value (Builtin ε)) × World ω := emit text w'
    r.1 = r'.1 ∧ r.2.SameTime format r'.2 := by
  simp only [emit, h.sink, true_and]
  exact ⟨rfl, h.extra, h.time⟩

/-- Both clocks serve the functions of the host alike. -/
def sameTime (added : Extension ε ω) (h : Extension.LogsIn format added) :
    Likeness (run added) (run added) where
  known := LogsIn format
  alike := World.SameTime format
  step key args w w' hkey hargs hw := by
    have emitted (text : String) := sameTime_emit (ε := ε) hw text
    cases key with
    | print | println => exact ⟨(emitted _).1, (emitted _).2, fun v => logsIn_emit _ w⟩
    | log timeFormat =>
      obtain rfl : timeFormat = format := hkey
      simp only [run, logLine, hw.time]
      cases TimeFormat.render w'.clock timeFormat with
      | some time => exact ⟨(emitted _).1, (emitted _).2, fun v => logsIn_emit _ w⟩
      | none => exact ⟨rfl, hw, nofun⟩
    | extra key =>
      simp only [run, ← hw.extra, true_and]
      exact ⟨⟨hw.sink, rfl, hw.time⟩, fun v => h key args w.extra v hargs⟩

end Builtin

namespace Session

/-- A new session logs in the format of its settings. -/
theorem allBound_new (settings : Settings) (world : World ω) :
    (new settings world : Session ε ω).state.arena.AllBound
      (Value.Known (Builtin.LogsIn settings.logTimeFormat)) := by
  have known (f : HostFunction (Builtin ε)) (h : f.key.LogsIn settings.logTimeFormat) :
      (Value.builtin f).Known (Builtin.LogsIn settings.logTimeFormat) := by
    rintro _ ⟨⟩
    exact h
  exact ((Arena.allBound_new.define .root "print" (known ⟨0, _, .print⟩ trivial)).define .root
    "println" (known ⟨1, _, .println⟩ trivial)).define .root "log" (known ⟨2, _, .log _⟩ rfl)

/-- Programs come to the same in new sessions whose clocks write the time alike. -/
theorem evaluateNode_clock {added : Extension ε ω} {settings : Settings}
    (hadded : Extension.LogsIn settings.logTimeFormat added) {world world' : World ω}
    (h : world.SameTime settings.logTimeFormat world') (n : Node) :
    ((new settings world).evaluateNode added n).1 = ((new settings world').evaluateNode added n).1 ∧
      ((new settings world).evaluateNode added n).2.drain.1 =
        ((new settings world').evaluateNode added n).2.drain.1 := by
  have beside : (new settings world : Session ε ω).state.Beside
      (World.SameTime settings.logTimeFormat) (new settings world').state := ⟨rfl, rfl, h⟩
  obtain ⟨hr, hst, -⟩ := (Builtin.sameTime added hadded).evaluate (new settings world).calls .root n
    _ _ ⟨beside, allBound_new settings world⟩
  simp only [evaluateNode_eq, ← evaluate_eq_eval]
  exact ⟨hr, congrArg Sink.written hst.beside.world.sink⟩

end Session

end ScopeLang
