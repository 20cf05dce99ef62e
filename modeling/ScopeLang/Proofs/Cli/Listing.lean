import ScopeLang.Cli
import ScopeLang.Proofs.Session.Clock
import ScopeLang.Proofs.Settings.Reading
import ScopeLang.Proofs.Time.Rendering
import ScopeLang.Proofs.Tree.OnDemand

/-!
# Listings change nothing

Before a program runs, its tokens and its tree can be listed. A listing that fails ends the command
there, while without it the program would still be evaluated. This makes no difference, since what
cannot be listed cannot be evaluated either: a text that does not consist of tokens is not a program,
whatever its beginning looks like.

## Main definitions

* `tokenLines` — the lines of all tokens of a text.
* `Command.plain` — the command without listings.
* `Command.dump` — what a command lists.

## Main statements

* `Command.run_dump` — a command beside the one without listings.
* `Command.run_clock` — what a command comes to does not depend on a clock that is not asked.
* `listings_transparent` — both together.
-/

namespace ScopeLang.Cli

variable {read : ReadFile} {clock clock' : TimeFormat.Clock} {c : Command} {settings : Settings}
  {name source : String}

/-! ### Listings -/

/-- The lines of all tokens of a text, up to the first thing that is no token. -/
def tokenLines (source : String) : String := String.join ((tokensOf source).1.map tokenLine)

namespace Command

/-- The command without listings. -/
def plain (c : Command) : Command := { c with tokens := false, tree := false }

/-- What the command lists of a program. -/
def dump (c : Command) (source : String) : String :=
  (if c.tokens then tokenLines source else "") ++ if c.tree then (treeListing source).1 else ""

@[simp] theorem dump_plain (c : Command) (source : String) : c.plain.dump source = "" := rfl

end Command

theorem tokenListing_eq (source : String) :
    tokenListing source = (tokenLines source, (tokensOf source).2.failure?) := rfl

/-- A text that does not consist of tokens is not a program. -/
theorem exists_parse_error {e : Error} (h : (tokensOf source).2.failure? = some e) :
    ∃ e', parse source = .error e' := by
  cases hending : (tokensOf source).2 with
  | finished pos => simp [hending, Ending.failure?] at h
  | failed e =>
    rw [parse_eq_readAll, hending]
    rcases Parser.readAll_failed {} (tokensOf source).1 e with hfailed | ⟨e', hrefused, -⟩
    · exact ⟨e, hfailed⟩
    · exact ⟨e', hrefused⟩

theorem treeListing_of_error {e : Error} (h : parse source = .error e) :
    treeListing source = ("", some e) := by
  rw [treeListing, h]

/-- The listings of a command come to its dump, whether one of them fails or not. -/
theorem listings_fst (c : Command) (source : String) : (listings c source).1 = c.dump source := by
  obtain ⟨_, _, _, tokens, tree⟩ := c
  cases tokens with
  | false => cases tree <;> simp [listings, Command.dump]
  | true =>
    simp only [listings, Command.dump, if_true, tokenListing_eq]
    cases hfailure : (tokensOf source).2.failure? with
    | none => cases tree <;> rfl
    | some e =>
      -- no tree is listed behind a failure, and there is none
      obtain ⟨e', he'⟩ := exists_parse_error hfailure
      simp [treeListing_of_error he']

/-- A program can be listed. -/
theorem listings_snd_of_ok {n : Node} (h : parse source = .ok n) (c : Command) :
    (listings c source).2 = none := by
  have tokens : (tokensOf source).2.failure? = none := by
    cases hfailure : (tokensOf source).2.failure? with
    | none => rfl
    | some e =>
      obtain ⟨e', he'⟩ := exists_parse_error hfailure
      simp [h] at he'
  have tree : (treeListing source).2 = none := by rw [treeListing, h]
  obtain ⟨_, _, _, listed, shown⟩ := c
  cases listed <;> cases shown <;> simp [listings, tokenListing_eq, tokens, tree]

/-! ### Runs -/

theorem evaluateProgram_of_error {e : Error} (h : parse source = .error e) (settings : Settings)
    (clock : TimeFormat.Clock) : evaluateProgram settings clock source = ("", .error e) := by
  simp only [evaluateProgram, Session.evaluateText, h]
  rfl

theorem logsIn_noExtension (format : String) : Extension.LogsIn format noExtension :=
  fun key => nomatch key

/-- A program comes to the same by clocks that write the time alike. -/
theorem evaluateProgram_clock (h : TimeFormat.render clock settings.logTimeFormat =
    TimeFormat.render clock' settings.logTimeFormat) (source : String) :
    evaluateProgram settings clock source = evaluateProgram settings clock' source := by
  simp only [evaluateProgram, Session.evaluateText]
  cases parse source with
  | error e => rfl
  | ok n =>
    have same : World.SameTime settings.logTimeFormat { clock, extra := () }
      { clock := clock', extra := () } := ⟨rfl, rfl, h⟩
    obtain ⟨hr, hout⟩ := Session.evaluateNode_clock (logsIn_noExtension _) same n
    exact Prod.ext hout hr

namespace Command

variable (hsettings : loadSettings read c.config = .ok settings)
  (hsource : loadSource read c = .ok (name, source))

include hsettings hsource

/-- What a command comes to when its settings and its program can be loaded. -/
theorem run_eq (clock : TimeFormat.Clock) : c.run read clock =
    match (listings c source).2, evaluateProgram settings clock source with
    | some e, _ => Failure.report ⟨e.message, []⟩ (c.dump source)
    | none, (out, .error e) =>
      Failure.report ⟨"Failed to run " ++ name, [e.message]⟩ (c.dump source ++ out)
    | none, (out, .ok v) =>
      { stdout := c.dump source ++ out ++
          (if c.expression.isSome then v.quoted ++ "\n" else "") } := by
  simp only [run, hsettings, hsource, ← listings_fst]
  obtain ⟨listed, _ | e⟩ := listings c source
  · rcases evaluateProgram settings clock source with ⟨out, _ | v⟩ <;> rfl
  · rfl

theorem run_clock (h : TimeFormat.render clock settings.logTimeFormat =
    TimeFormat.render clock' settings.logTimeFormat) : c.run read clock = c.run read clock' := by
  rw [run_eq hsettings hsource, run_eq hsettings hsource, evaluateProgram_clock h]

/-- Of what is not a program nothing is printed but the listings. -/
theorem run_of_error {e : Error} (h : parse source = .error e) (clock : TimeFormat.Clock) :
    (c.run read clock).exit = 1 ∧ (c.run read clock).stdout = c.dump source := by
  rw [run_eq hsettings hsource, evaluateProgram_of_error h]
  cases (listings c source).2 with
  | some e => exact ⟨rfl, rfl⟩
  | none => exact ⟨rfl, String.append_empty⟩

/-- A program does the same behind its listings. -/
theorem run_of_ok {n : Node} (h : parse source = .ok n) (clock : TimeFormat.Clock) :
    c.run read clock = { c.plain.run read clock with
      stdout := c.dump source ++ (c.plain.run read clock).stdout } := by
  rw [run_eq hsettings hsource, run_eq (c := c.plain) hsettings hsource, listings_snd_of_ok h,
    listings_snd_of_ok h]
  rcases evaluateProgram settings clock source with ⟨out, _ | v⟩
  · simp [Failure.report]
  · simp only [dump_plain, String.empty_append, String.append_assoc]
    rfl

/-- A command ends as the one without listings, and prints the same behind the listings. -/
theorem run_dump (clock : TimeFormat.Clock) :
    (c.run read clock).exit = (c.plain.run read clock).exit ∧
      (c.run read clock).stdout = c.dump source ++ (c.plain.run read clock).stdout := by
  cases h : parse source with
  | ok n =>
    rw [run_of_ok hsettings hsource h]
    exact ⟨rfl, rfl⟩
  | error e =>
    obtain ⟨hexit, hout⟩ := run_of_error hsettings hsource h clock
    obtain ⟨hexit', hout'⟩ := run_of_error (c := c.plain) hsettings hsource h clock
    rw [hexit, hexit', hout, hout']
    exact ⟨rfl, by simp⟩

end Command

/-- Whatever a command lists before it runs a program: it ends as without the listings, and behind
the listings it prints the same. That holds also for runs at different times, if the time format does
not ask the clock. If the text does not consist of tokens or is not a program, nothing is evaluated:
a session is left as it was, nothing is printed but the listings, and the listing of tokens goes up
to the first thing that is no token. -/
theorem listings_transparent (read : ReadFile) (clock clock' : TimeFormat.Clock) (c : Command)
    {settings : Settings} {name source : String}
    (hsettings : loadSettings read c.config = .ok settings)
    (htime : TimeFormat.isClockFree settings.logTimeFormat = true)
    (hsource : loadSource read c = .ok (name, source)) :
    let listed := c.run read clock
    let plain := c.plain.run read clock'
    listed.exit = plain.exit ∧ listed.stdout = c.dump source ++ plain.stdout ∧
      ((∃ e, (tokensOf source).2 = .failed e) ∨ (∃ e, parse source = .error e) →
        plain.exit = 1 ∧ plain.stdout = "" ∧
        (∃ e, ∀ (ε ω : Type) (added : Extension ε ω) (s : Session ε ω),
          s.evaluateText added source = (.error e, s)) ∧
        (c.tokens = true → listed.stdout = String.join ((tokensOf source).1.map tokenLine))) := by
  intro listed plain
  have still : plain = c.plain.run read clock :=
    Command.run_clock hsettings hsource (TimeFormat.render_of_isClockFree htime clock' clock)
  obtain ⟨hexit, hout⟩ := Command.run_dump hsettings hsource clock
  refine ⟨by rw [still]; exact hexit, by rw [still]; exact hout, fun hbad => ?_⟩
  obtain ⟨e, he⟩ : ∃ e, parse source = .error e := by
    rcases hbad with ⟨e, hfailed⟩ | hrefused
    · exact exists_parse_error (e := e) (by rw [hfailed]; rfl)
    · exact hrefused
  obtain ⟨hexit', hout'⟩ := Command.run_of_error (c := c.plain) hsettings hsource he clock'
  refine ⟨hexit', hout', ⟨e, fun ε ω added s => ?_⟩, fun htokens => ?_⟩
  · simp only [Session.evaluateText, he]
  · rw [(Command.run_of_error hsettings hsource he clock).2, Command.dump, treeListing_of_error he]
    simp [htokens, tokenLines]

/-- A text that begins with a program and goes on with something that is no token. -/
theorem listings_transparent_unfinished :
    let settings : Settings := { logTimeFormat := "now" }
    let read : ReadFile := fun _ => .ok settings.toJson
    let c : Command :=
      { expression := some "print() $", config := some "settings", tokens := true, tree := true }
    loadSettings read c.config = .ok settings ∧
      TimeFormat.isClockFree settings.logTimeFormat = true ∧
      loadSource read c = .ok ("<expression>", "print() $") ∧
      ∀ clock clock', (c.run read clock).exit = 1 ∧ (c.plain.run read clock').stdout = "" ∧
        (c.run read clock).stdout =
          "1:0\tidentifier print\n1:5\tpunctuation (\n1:6\tpunctuation )\n" := by
  intro settings read c
  have valid : settings.validate = .ok () := by
    have written : TimeFormat.isValid "now" = true := by decide +kernel
    simp [settings, Settings.validate, written]
  have hsettings : loadSettings read c.config = .ok settings := by
    simp only [loadSettings, c, read, Settings.ofJson_toJson, valid]
    rfl
  have htime : TimeFormat.isClockFree settings.logTimeFormat = true := by decide +kernel
  have hsource : loadSource read c = .ok ("<expression>", "print() $") := rfl
  have unfinished : ∃ e, (tokensOf "print() $").2 = .failed e := by
    have failure : (tokensOf "print() $").2.failure?.isSome = true := by decide +kernel
    cases hending : (tokensOf "print() $").2 with
    | finished pos => simp [hending, Ending.failure?] at failure
    | failed e => exact ⟨e, rfl⟩
  refine ⟨hsettings, htime, hsource, fun clock clock' => ?_⟩
  obtain ⟨hexit, -, hbad⟩ := listings_transparent read clock clock' c hsettings htime hsource
  obtain ⟨hplain, hout, -, hlines⟩ := hbad (.inl unfinished)
  refine ⟨hexit.trans hplain, hout, (hlines rfl).trans ?_⟩
  decide +kernel

end ScopeLang.Cli
