import Florin.Build.Walk
import Florin.Check
import Florin.Cli.Arguments
import Florin.Config.Load
import Florin.Document.Value
import Florin.Log.Filter

/-! # Running a command

What a command does to the file tree it is run in, what it prints, and what it tells the log.
-/
namespace Florin.Cli
open Document

abbrev Environment := List (String × String)

structure Failure where
  message : String
  cause : Option String
  deriving DecidableEq, Repr

def Failure.text (f : Failure) : String :=
  "Error: " ++ f.message ++ "\n" ++
  match f.cause with
  | some cause =>
    "\nCaused by:\n    " ++ String.intercalate "\n    " (cause.splitOn "\n") ++ "\n"
  | none => ""

def Failure.ofBuild (e : BuildError) : Failure := ⟨e.message, e.cause?.map FileError.message⟩

def Failure.ofLoad (e : LoadError) : Failure :=
  match e with
  | .read _ cause => ⟨e.message, some cause.message⟩
  | .invalid _ fault => ⟨e.message, some fault.message⟩

structure Printed where
  stdout : String
  stderr : String
  events : List Log.Event
  deriving Repr

structure Attempt where
  result : Except Failure Unit
  printed : Printed
  tree : FileTree

def readFailure (p : Path) (e : FileError) : Failure :=
  ⟨"failed to read " ++ p.toString, some e.message⟩

def keywordLabel : Keyword → String
  | .var => "Var"
  | .let_ => "Let"
  | .const => "Const"

def expandingEvent (input : Path) (k : Keyword) : Log.Event :=
  ⟨.debug, "fthis", "rewriting",
    [("input", .text input.toString), ("keyword", .text (keywordLabel k))]⟩

def runExpand (input : Path) (output : Option Path) (k : Keyword) (t : FileTree) : Attempt :=
  match t.text input with
  | .error e => ⟨.error (readFailure input e), ⟨"", "", []⟩, t⟩
  | .ok source =>
    let events := expandingEvent input k :: Build.expansionEvents source
    let out := expandText k source
    match output with
    | none => ⟨.ok (), ⟨out, "", events⟩, t⟩
    | some p =>
      match t.write p out.toUTF8 with
      | .ok t => ⟨.ok (), ⟨"", "", events⟩, t⟩
      | .error e => ⟨.error ⟨"failed to write " ++ p.toString, some e.message⟩, ⟨"", "", events⟩, t⟩

def runCheck (input : Path) (k : Keyword) (t : FileTree) : Attempt :=
  match t.text input with
  | .error e => ⟨.error (readFailure input e), ⟨"", "", []⟩, t⟩
  | .ok source =>
    let events := Build.expansionEvents source
    match Check.output (expand k source.toList) with
    | .ok _ => ⟨.ok (), ⟨"", "OK: " ++ input.toString ++ "\n", events⟩, t⟩
    | .error problem =>
      ⟨.error ⟨"check failed: " ++ problem.message input.toString, none⟩, ⟨"", "", events⟩, t⟩

def siteValue (s : Site) : Value :=
  .object [("offset", .number s.offset), ("line", .number s.line), ("column", .number s.column)]

def leftoverValue (l : Leftover) : Value :=
  .object [("path", .text l.path.text), ("site", siteValue l.site)]

def reportValue (r : Report) : Value :=
  .object [("transformed", .list (r.transformed.map fun p => .text p.text)),
    ("copied", .list (r.copied.map fun p => .text p.text)),
    ("unrewritten", .list (r.leftovers.map leftoverValue))]

def warning (l : Leftover) : String :=
  "warning: " ++ l.path.toString ++ ":" ++ toString l.site.line ++ ":" ++ toString l.site.column ++
    ": ƒ shorthand was not rewritten\n"

def summary (c : Config) (r : Report) : String :=
  "Built " ++ c.source.toString ++ " → " ++ c.distro.toString ++ ": " ++
    toString r.transformed.length ++ " rewritten, " ++ toString r.copied.length ++ " copied.\n" ++
    String.join (r.leftovers.map warning)

/-- The configuration of a build: the arguments count before the configuration file. -/
def configOf (config source distro : Option Path) (k : Option Keyword) (noClean : Bool)
    (t : FileTree) : Except LoadError Config :=
  let loaded : Except LoadError Config := match config with
    | none => .ok .default
    | some p => Config.load t p
  loaded.map fun c =>
    ⟨source.getD c.source, distro.getD c.distro, k.getD c.keyword, c.clean && !noClean⟩

def runBuild (c : Config) (json : Bool) (t : FileTree) : Attempt :=
  let r := Build.run c t
  match r.outcome with
  | .error e => ⟨.error (.ofBuild e), ⟨"", "", r.log⟩, r.tree⟩
  | .ok report =>
    if json then ⟨.ok (), ⟨(reportValue report).pretty ++ "\n", "", r.log⟩, r.tree⟩
    else ⟨.ok (), ⟨"", summary c report, r.log⟩, r.tree⟩

def usage : String :=
  "Usage: fthis rewrite INPUT [--output PATH] [--decl KEYWORD]\n" ++
  "       fthis build [--config PATH] [--source PATH] [--distro PATH] [--decl KEYWORD]\n" ++
  "                   [--no-clean] [--json]\n" ++
  "       fthis check INPUT [--decl KEYWORD]\n"

def Command.attempt (c : Command) (t : FileTree) : Attempt :=
  match c with
  | .expand input output k => runExpand input output k t
  | .check input k => runCheck input k t
  | .build config source distro k noClean json =>
    match configOf config source distro k noClean t with
    | .error e => ⟨.error (.ofLoad e), ⟨"", "", []⟩, t⟩
    | .ok c => runBuild c json t
  | .help => ⟨.ok (), ⟨usage, "", []⟩, t⟩

/-- The text of the log filter; without one nothing is logged. -/
def filterText? (env : Environment) : Option String :=
  (env.lookup "FTHIS_LOG").or (env.lookup "RUST_LOG")

inductive LogFormat where
  | text
  | document
  deriving DecidableEq, Repr

def logFormat (env : Environment) : LogFormat :=
  let format := (env.lookup "FTHIS_LOG_FORMAT").getD ""
  if format.toList.map Char.toLower = "json".toList then .document else .text

def shown (env : Environment) (events : List Log.Event) : List Log.Event :=
  match filterText? env with
  | none => []
  | some text => events.filter (Log.admits (Log.directives text))

def complaints (env : Environment) : List String :=
  match filterText? env with
  | none => []
  | some text => Log.complaints text

/-- What a run of the program comes to. The events stand before the text on standard error, and
the complaints before them. -/
structure Outcome where
  code : Nat
  stdout : String
  complaints : List String
  events : List Log.Event
  stderr : String
  deriving Repr

/-- Runs the program: code 0 for success, 1 for a failure and 2 for misused arguments. -/
def run (env : Environment) (args : List String) (t : FileTree) : Outcome × FileTree :=
  match Command.ofArguments? args with
  | none => (⟨2, "", [], [], usage⟩, t)
  | some command =>
    let a := command.attempt t
    let events := shown env a.printed.events
    match a.result with
    | .ok _ => (⟨0, a.printed.stdout, complaints env, events, a.printed.stderr⟩, a.tree)
    | .error f =>
      (⟨1, a.printed.stdout, complaints env, events, a.printed.stderr ++ f.text⟩, a.tree)

def eventValue (e : Log.Event) : Value :=
  .object [("level", .text e.level.name.toList),
    ("fields", .object (("message", .text e.message.toList) :: e.fields.map fun (name, v) =>
      (name, match v with
        | .text s => Value.text s.toList
        | .number n => Value.number n))),
    ("target", .text e.target.toList)]

def eventLine (format : LogFormat) (e : Log.Event) : String :=
  match format with
  | .document => (eventValue e).line
  | .text =>
    e.level.name ++ " " ++ e.target ++ ": " ++ e.message ++
      String.join (e.fields.map fun (name, v) =>
        " " ++ name ++ "=" ++ match v with
          | .text s => s
          | .number n => toString n)

end Florin.Cli
