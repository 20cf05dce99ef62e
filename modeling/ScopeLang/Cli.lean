import ScopeLang.Session
import ScopeLang.Settings.Document
import ScopeLang.Tree.Dump

/-!
# The command line

Runs a program from a file, a program given as an argument, or a sample program. The tokens and the
tree of the program can be listed before it runs. Everything but reading files and writing the
report is decided here.

## Main definitions

* `Request.ofArgs` — what the arguments ask for.
* `Command.run` — runs a program and reports what was printed and how it ended.
-/

namespace ScopeLang.Cli

/-- A program to run and how to run it. -/
structure Command where
  file : Option String := none
  expression : Option String := none
  config : Option String := none
  tokens : Bool := false
  tree : Bool := false
deriving DecidableEq

/-- What the arguments ask for. -/
inductive Request where
  | run (command : Command)
  | version
  | help
  | misuse
deriving DecidableEq

namespace Command

/-! Each option may be given once, and a path is never empty. -/

def addFile? (c : Command) (path : String) : Option Command :=
  if c.file.isSome || path.isEmpty then none else some { c with file := some path }

def addExpression? (c : Command) (source : String) : Option Command :=
  if c.expression.isSome then none else some { c with expression := some source }

def addConfig? (c : Command) (path : String) : Option Command :=
  if c.config.isSome || path.isEmpty then none else some { c with config := some path }

def addTokens? (c : Command) : Option Command :=
  if c.tokens then none else some { c with tokens := true }

def addTree? (c : Command) : Option Command := if c.tree then none else some { c with tree := true }

end Command

/-- The options that take a value. -/
inductive Parameter where
  | expression
  | config
deriving DecidableEq

def Parameter.add? (p : Parameter) (c : Command) (value : String) : Option Command :=
  match p with
  | expression => c.addExpression? value
  | config => c.addConfig? value

/-- One argument taken for itself. -/
inductive Argument where
  /-- From here on nothing is an option. -/
  | divider
  | plain (text : String)
  /-- An option with a value of its own. -/
  | valued (p : Parameter) (value : String)
  /-- An option whose value is the next argument. -/
  | awaiting (p : Parameter)
  | tokens
  | tree
  | version
  | help
  | unknown
deriving DecidableEq

namespace Argument

/-- An argument that begins with two dashes, without them. -/
def ofLong (text : List Char) : Argument :=
  let name := String.ofList (text.takeWhile (· != '='))
  match text.dropWhile (· != '='), name with
  | [], "expression" => .awaiting .expression
  | [], "config" => .awaiting .config
  | [], "tokens" => .tokens
  | [], "ast" => .tree
  | [], "version" => .version
  | [], "help" => .help
  | _ :: value, "expression" => .valued .expression (String.ofList value)
  | _ :: value, "config" => .valued .config (String.ofList value)
  | _, _ => .unknown

/-- An argument that begins with one dash: its letter, and what is attached to the letter. -/
def ofShort (letter : Char) (attached : List Char) : Argument :=
  match letter, attached with
  | 'e', [] => .awaiting .expression
  | 'e', '=' :: value => .valued .expression (String.ofList value)
  | 'e', value => .valued .expression (String.ofList value)
  | 'V', _ => .version
  | 'h', _ => .help
  | _, _ => .unknown

def ofString (text : String) : Argument :=
  match text.toList with
  | ['-', '-'] => .divider
  | '-' :: '-' :: name => ofLong name
  | '-' :: letter :: attached => ofShort letter attached
  | _ => .plain text

end Argument

namespace Request

/-- A complete command. A file and an expression exclude each other. -/
def ofCommand (c : Command) : Request :=
  if c.file.isSome && c.expression.isSome then .misuse else .run c

/-- Arguments that are all taken as files. -/
def ofFiles (c : Command) : List String → Request
  | [] => ofCommand c
  | path :: rest =>
    match c.addFile? path with
    | some c => ofFiles c rest
    | none => .misuse

/-- Arguments from left to right; the first one that decides the request does so. -/
def ofArgsFrom (c : Command) : List String → Request
  | [] => ofCommand c
  | arg :: rest =>
    match Argument.ofString arg with
    | .divider => ofFiles c rest
    | .plain path =>
      match c.addFile? path with
      | some c => ofArgsFrom c rest
      | none => .misuse
    | .valued p value =>
      match p.add? c value with
      | some c => ofArgsFrom c rest
      | none => .misuse
    | .awaiting p =>
      match rest with
      | [] => .misuse
      | next :: rest =>
        match Argument.ofString next with
        | .plain value =>
          match p.add? c value with
          | some c => ofArgsFrom c rest
          | none => .misuse
        | _ => .misuse
    | .tokens =>
      match c.addTokens? with
      | some c => ofArgsFrom c rest
      | none => .misuse
    | .tree =>
      match c.addTree? with
      | some c => ofArgsFrom c rest
      | none => .misuse
    | .version => .version
    | .help => .help
    | .unknown => .misuse

def ofArgs (args : List String) : Request := ofArgsFrom {} args

end Request

/-! ### Running -/

/-- What was printed and how the command ended. -/
structure Report where
  exit : UInt32 := 0
  stdout : String := ""
  stderr : String := ""
deriving DecidableEq

/-- A failure with what caused it, the nearest cause first. -/
structure Failure where
  message : String
  causes : List String := []

/-- The lines about the causes of a failure. Several causes are numbered. -/
def Failure.causeLines : List String → String
  | [] => ""
  | [cause] => "\nCaused by:\n    " ++ cause ++ "\n"
  | causes =>
    let numbered (cause : String) (i : Nat) := "    " ++ toString i ++ ": " ++ cause ++ "\n"
    "\nCaused by:\n" ++ String.join (causes.zipIdx.map fun (cause, i) => numbered cause i)

def Failure.text (f : Failure) : String := "Error: " ++ f.message ++ "\n" ++ causeLines f.causes

/-- The end of a command that failed behind the output `out`. -/
def Failure.report (f : Failure) (out : String) : Report :=
  { exit := 1, stdout := out, stderr := f.text }

/-- Reads a file: its text, or why there is none. -/
abbrev ReadFile := String → Except String String

/-- The causes of a problem with settings. -/
def problemCauses : Settings.Problem → List String
  | .document fault => [(Settings.Problem.document fault).message, fault.message]
  | problem => [problem.message]

/-- The settings of a run. -/
def loadSettings (read : ReadFile) : Option String → Except Failure Settings
  | none => .ok {}
  | some path =>
    match read path with
    | .error cause => .error ⟨"Unable to read config file " ++ path, [cause]⟩
    | .ok source =>
      match Settings.ofJson source with
      | .ok settings => .ok settings
      | .error problem => .error ⟨"Unable to load config file " ++ path, problemCauses problem⟩

/-- The program that runs when none is given. -/
def sample : String := "
print_range = lambda(a, b) if a <= b \x7b
  print(a);
  if a + 1 <= b \x7b
    print(\", \");
    print_range(a + 1, b);
  \x7d else println(\"\");
\x7d;
print_range(1, 10);
"

/-- The name and the text of the program. -/
def loadSource (read : ReadFile) (c : Command) : Except Failure (String × String) :=
  match c.expression, c.file with
  | some source, _ => .ok ("<expression>", source)
  | none, some path =>
    match read path with
    | .ok source => .ok (path, source)
    | .error cause => .error ⟨"Unable to read script file " ++ path, [cause]⟩
  | none, none => .ok ("<sample>", sample)

/-- A token in a listing. -/
def tokenLine (t : Token) : String := t.pos.text ++ "\t" ++ t.kind.describe ++ "\n"

/-- The tokens of a program; a program with other characters is listed up to them. -/
def tokenListing (source : String) : String × Option Error :=
  match (TokenStream.ofString source).drain with
  | (tokens, ending) => (String.join (tokens.map tokenLine), ending.failure?)

/-- The tree of a program. -/
def treeListing (source : String) : String × Option Error :=
  match parse source with
  | .ok n => (n.indentedListing ++ "\n", none)
  | .error e => ("", some e)

/-- The listings that a command asks for, up to the first that fails. -/
def listings (c : Command) (source : String) : String × Option Error :=
  match (if c.tokens then tokenListing source else ("", none)) with
  | (out, some e) => (out, some e)
  | (out, none) =>
    match (if c.tree then treeListing source else ("", none)) with
    | (out', failure) => (out ++ out', failure)

/-- The host adds no functions of its own. -/
def noExtension : Extension Empty Unit := fun key => nomatch key

/-- Evaluates a program: what it prints, and its value. -/
def evaluateProgram (settings : Settings) (clock : TimeFormat.Clock) (source : String) :
    String × Outcome Empty :=
  let session : Session Empty Unit := .new settings { clock, extra := () }
  match session.evaluateText noExtension source with
  | (r, session) => (session.drain.1, r)

/-- Runs a program. The value of an expression is shown; of a file only what it prints. -/
def Command.run (read : ReadFile) (clock : TimeFormat.Clock) (c : Command) : Report :=
  match loadSettings read c.config with
  | .error f => f.report ""
  | .ok settings =>
    match loadSource read c with
    | .error f => f.report ""
    | .ok (name, source) =>
      match listings c source with
      | (listed, some e) => Failure.report ⟨e.message, []⟩ listed
      | (listed, none) =>
        match evaluateProgram settings clock source with
        | (out, .error e) => Failure.report ⟨"Failed to run " ++ name, [e.message]⟩ (listed ++ out)
        | (out, .ok v) =>
          { stdout := listed ++ out ++ (if c.expression.isSome then v.quoted ++ "\n" else "") }

def versionText : String := "lamb 0.1.0\n"

def helpText : String := "Run a lamb program

Usage: lamb [OPTIONS] [FILE]

Arguments:
  [FILE]  Program to run. Without it, and without --expression, a sample program runs

Options:
  -e, --expression <EXPRESSION>  Evaluate this source and print the resulting value
      --config <CONFIG>          JSON config file
      --tokens                   Dump the token stream before evaluating
      --ast                      Dump the parsed tree before evaluating
  -h, --help                     Print help
  -V, --version                  Print version
"

def misuseText : String :=
  "error: invalid arguments\n\nFor more information, try '--help'.\n"

/-- The answer to a request. -/
def Request.answer (read : ReadFile) (clock : TimeFormat.Clock) : Request → Report
  | .run c => c.run read clock
  | .version => { stdout := versionText }
  | .help => { stdout := helpText }
  | .misuse => { exit := 2, stderr := misuseText }

end ScopeLang.Cli
