import ScopeLang.Proofs.Time.Rendering
import ScopeLang.Session

/-!
# Logging and the check of the time format

Settings are checked by taking their time format apart, before anything is logged; logging writes the
format each time. Both agree on all formats but those that are well-formed and only serve to read
times: these pass the check, and yet every call of `log` fails.

## Main statements

* `Session.log_agrees_with_validate` — formats that are refused and formats that are written.
* `Session.log_fails_though_valid` — a format that is accepted and not written.
-/

namespace ScopeLang

variable {ε ω : Type}

namespace Settings

/-- When calls are allowed, only the time format is left to be refused. -/
theorem validate_eq {settings : Settings} (h : settings.maxCallDepth ≠ 0) : settings.validate =
    if TimeFormat.isValid settings.logTimeFormat then .ok ()
    else .error (.timeFormat settings.logTimeFormat) := by
  rw [validate, if_neg h]

end Settings

namespace Builtin

variable {clock : TimeFormat.Clock} {format : String}

/-- A format that is not well-formed keeps every line from being logged. -/
theorem logLine_of_not_isValid (h : TimeFormat.isValid format = false) (text : String) :
    logLine clock format text =
      .error (.outputFailed ("invalid log time format " ++ Text.quote format)) := by
  have unwritten : TimeFormat.render clock format = none := by
    rw [← Option.not_isSome_iff_eq_none, TimeFormat.isSome_render_iff]
    simp [h]
  simp only [logLine, unwritten]

/-- In a well-formed format that serves not only to read times every line is logged. -/
theorem exists_logLine (h : TimeFormat.isValid format = true)
    (hr : TimeFormat.isForReading format = false) (clock : TimeFormat.Clock) :
    ∃ time, TimeFormat.render clock format = some time ∧
      ∀ text, logLine clock format text = .ok (time ++ " " ++ text ++ "\n") := by
  obtain ⟨time, htime⟩ := Option.isSome_iff_exists.1
    ((@TimeFormat.isSome_render_iff clock format).2 ⟨h, hr⟩)
  exact ⟨time, htime, fun text => by simp only [logLine, htime]⟩

end Builtin

namespace Session

/-- The function that a new session binds to `log`. -/
def logger (settings : Settings) : HostFunction (Builtin ε) :=
  ⟨2, "log", .log settings.logTimeFormat⟩

theorem get_log (settings : Settings) (world : World ω) :
    (new settings world : Session ε ω).get "log" = .ok (.builtin (logger settings)) := rfl

/-- What a call of a host function comes to. -/
theorem invoke_builtin (host : Host (Builtin ε) ω) (calls : CallDepth)
    (f : HostFunction (Builtin ε)) (args : List (Value (Builtin ε))) (s : State (Builtin ε) ω) :
    invoke host calls (.builtin f) args s =
      ((host f.key args s.world).1, { s with world := (host f.key args s.world).2 }) := by
  rw [invoke_eq_apply]
  rfl

/-- Settings that allow calls are refused for their time format or accepted. If they are refused,
every call of `log` fails because of the format, and nothing is written. If they are accepted and
the format does not only serve to read times, every call of `log` hands its line to the sink, and
only the sink can make it fail. -/
theorem log_agrees_with_validate (settings : Settings) (hdepth : settings.maxCallDepth ≠ 0)
    (world : World ω) (added : Extension ε ω) :
    let format := settings.logTimeFormat
    ∃ log, (new settings world : Session ε ω).get "log" = .ok log ∧
      (settings.validate = .ok () ∧ (TimeFormat.isForReading format = false →
          ∀ calls args (s : State (Builtin ε) (World ω)), ∃ time,
            TimeFormat.render s.world.clock format = some time ∧
            let out := Builtin.emit (time ++ " " ++ (Builtin.firstArg args).display ++ "\n") s.world
            invoke (Builtin.run added) calls log args s = (out.1, { s with world := out.2 })) ∨
        settings.validate = .error (.timeFormat format) ∧
          ∀ calls args (s : State (Builtin ε) (World ω)),
            invoke (Builtin.run added) calls log args s =
              (.error (.outputFailed ("invalid log time format " ++ Text.quote format)), s)) := by
  intro format
  refine ⟨_, get_log settings world, ?_⟩
  simp only [Settings.validate_eq hdepth, invoke_builtin, logger, Builtin.run]
  cases hvalid : TimeFormat.isValid settings.logTimeFormat with
  | true =>
    refine .inl ⟨rfl, fun hr calls args s => ?_⟩
    obtain ⟨time, htime, line⟩ := Builtin.exists_logLine hvalid hr s.world.clock
    refine ⟨time, htime, ?_⟩
    simp only [line]
  | false =>
    refine .inr ⟨rfl, fun calls args s => ?_⟩
    simp only [Builtin.logLine_of_not_isValid hvalid, format]

/-- A format that is written, and one that is refused. -/
theorem log_agrees_with_validate_literal :
    let good : Settings := { logTimeFormat := "at 100%%" }
    let bad : Settings := { logTimeFormat := "%Q" }
    let s : State (Builtin Empty) (World Unit) := { world := { extra := () } }
    good.maxCallDepth ≠ 0 ∧ bad.maxCallDepth ≠ 0 ∧
      (∃ log, (new good s.world : Session Empty Unit).get "log" = .ok log ∧
        ∃ time, TimeFormat.render s.world.clock "at 100%%" = some time ∧
          (invoke (Builtin.run nofun) ⟨0, 1⟩ log [.text "x"] s).1 =
            (Builtin.emit (time ++ " " ++ "x" ++ "\n") s.world).1) ∧
      ∃ log, (new bad s.world : Session Empty Unit).get "log" = .ok log ∧
        (invoke (Builtin.run nofun) ⟨0, 1⟩ log [.text "x"] s).1 =
          .error (.outputFailed ("invalid log time format " ++ Text.quote "%Q")) := by
  intro good bad s
  have good_depth : good.maxCallDepth ≠ 0 := by decide
  have bad_depth : bad.maxCallDepth ≠ 0 := by decide
  have good_valid : TimeFormat.isValid good.logTimeFormat = true := by decide +kernel
  have bad_invalid : TimeFormat.isValid bad.logTimeFormat = false := by decide +kernel
  refine ⟨good_depth, bad_depth, ?_, ?_⟩
  · obtain ⟨log, hlog, ⟨-, writes⟩ | ⟨refused, -⟩⟩ :=
      log_agrees_with_validate good good_depth s.world (nofun : Extension Empty Unit)
    · obtain ⟨time, htime, hout⟩ := writes (by decide +kernel) ⟨0, 1⟩ [.text "x"] s
      exact ⟨log, hlog, time, htime, congrArg Prod.fst hout⟩
    · simp [Settings.validate_eq good_depth, good_valid] at refused
  · obtain ⟨log, hlog, ⟨accepted, -⟩ | ⟨-, fails⟩⟩ :=
      log_agrees_with_validate bad bad_depth s.world (nofun : Extension Empty Unit)
    · simp [Settings.validate_eq bad_depth, bad_invalid] at accepted
    · exact ⟨log, hlog, congrArg Prod.fst (fails ⟨0, 1⟩ [.text "x"] s)⟩

/-- A format that passes the check and only serves to read times. -/
theorem log_fails_though_valid :
    let settings : Settings := { logTimeFormat := "%#z" }
    let session : Session Empty Unit := new settings { extra := () }
    ∃ log, session.get "log" = .ok log ∧ settings.maxCallDepth ≠ 0 ∧ settings.validate = .ok () ∧
      (invoke (Builtin.run nofun) session.calls log [.bool true] session.state).1 =
        .error (.outputFailed ("invalid log time format " ++ Text.quote "%#z")) := by
  intro settings session
  have allowed : settings.maxCallDepth ≠ 0 := by decide
  have valid : TimeFormat.isValid settings.logTimeFormat = true := by decide +kernel
  have unwritten : TimeFormat.render session.state.world.clock "%#z" = none := by decide +kernel
  refine ⟨_, get_log settings _, allowed, by rw [Settings.validate_eq allowed, valid]; rfl, ?_⟩
  simp only [invoke_builtin, logger, Builtin.run, Builtin.logLine, settings, unwritten]

end Session

end ScopeLang
