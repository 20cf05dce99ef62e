import ScopeLang.Text.Quoted
import ScopeLang.Time.Format

/-!
# Settings

How deeply calls may be nested, and how the time is written in log lines.
-/

namespace ScopeLang

structure Settings where
  maxCallDepth : UInt64 := 10000
  logTimeFormat : String := "%H:%M:%S"
deriving DecidableEq

namespace Settings

/-- How a settings document fails to be one. -/
inductive Misread where
  /-- It ends too early. -/
  | early
  /-- It breaks the rules of its notation. -/
  | malformed
  /-- It does not hold what settings hold. -/
  | unfit
deriving DecidableEq

/-- Why settings cannot be used. -/
inductive Problem where
  | document (fault : Misread)
  | callDepth
  | timeFormat (format : String)
deriving DecidableEq

def Misread.message : Misread → String
  | early => "the document ends too early"
  | malformed => "the document is malformed"
  | unfit => "the document does not hold settings"

def Problem.message : Problem → String
  | document fault => "invalid config: " ++ fault.message
  | callDepth => "max_call_depth must be at least 1"
  | timeFormat format => "invalid log_time_format " ++ Text.quote format

/-- Usable settings allow at least one call and have a well-formed time format. The calls are
checked first. -/
def validate (s : Settings) : Except Problem Unit :=
  if s.maxCallDepth = 0 then .error .callDepth
  else if TimeFormat.isValid s.logTimeFormat then .ok ()
  else .error (.timeFormat s.logTimeFormat)

end Settings

end ScopeLang
