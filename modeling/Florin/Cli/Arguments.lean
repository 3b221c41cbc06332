import Florin.Keyword
import Florin.Path

/-! # Command lines

The arguments of the program: a command, its options in any order, and what the command works on.
-/
namespace Florin.Cli

inductive Command where
  | expand (input : Path) (output : Option Path) (keyword : Keyword)
  | build (config source distro : Option Path) (keyword : Option Keyword) (noClean json : Bool)
  | check (input : Path) (keyword : Keyword)
  | help
  deriving DecidableEq, Repr

inductive ValueForm where
  | path
  | keyword
  deriving DecidableEq, Repr

/-- A path is not empty. -/
def ValueForm.accepts : ValueForm → List Char → Bool
  | .path, value => !value.isEmpty
  | .keyword, value => (Keyword.ofName? (String.ofList value)).isSome

/-- An option of a command; a switch takes no value. -/
structure OptionForm where
  name : String
  letter : Option Char
  value : Option ValueForm
  deriving DecidableEq, Repr

structure CommandForm where
  options : List OptionForm
  inputs : Nat
  deriving DecidableEq, Repr

structure Given where
  options : List (String × List Char)
  inputs : List (List Char)
  deriving DecidableEq, Repr

inductive Stop where
  | misuse
  | help
  deriving DecidableEq, Repr

namespace Given

def empty : Given := ⟨[], []⟩

/-- An option is given once at most, and with a value of its form. -/
def option (g : Given) (f : OptionForm) (value : List Char) : Except Stop Given :=
  if g.options.any (fun o => o.1 = f.name) || !f.value.all (·.accepts value) then .error .misuse
  else .ok { g with options := g.options ++ [(f.name, value)] }

def input (form : CommandForm) (g : Given) (value : List Char) : Except Stop Given :=
  if g.inputs.length < form.inputs && ValueForm.path.accepts value then
    .ok { g with inputs := g.inputs ++ [value] }
  else .error .misuse

def value? (g : Given) (name : String) : Option (List Char) := g.options.lookup name

def has (g : Given) (name : String) : Bool := (g.value? name).isSome

end Given

/-- An argument that can be the value of the option before it: it does not look like an option. -/
def isValue (arg : List Char) : Bool := arg.head? ≠ some '-' || arg = ['-']

def optionOf (forms : List OptionForm) (arg : List Char) :
    Except Stop (OptionForm × Option (List Char)) :=
  match arg with
  | '-' :: '-' :: rest =>
    let name := rest.takeWhile (· ≠ '=')
    let joined := if rest.contains '=' then some (rest.drop (name.length + 1)) else none
    if name = "help".toList && joined.isNone then .error .help
    else
      match forms.find? fun f => f.name.toList = name with
      | some f => if f.value.isNone && joined.isSome then .error .misuse else .ok (f, joined)
      | none => .error .misuse
  | '-' :: letter :: rest =>
    if letter = 'h' then .error .help
    else
      match forms.find? fun f => f.letter = some letter with
      | some f =>
        let joined := if rest.head? = some '=' then rest.drop 1 else rest
        .ok (f, if rest.isEmpty then none else some joined)
      | none => .error .misuse
  | _ => .error .misuse

/-- Reads the arguments from left to right; after two dashes alone none of them is an option. The
first one that does not fit, or that asks for help, ends the reading. -/
def read (form : CommandForm) : List (List Char) → Given → Except Stop Given
  | [], g => .ok g
  | arg :: args, g =>
    if arg = ['-', '-'] then args.foldlM (Given.input form) g
    else if isValue arg then (g.input form arg).bind fun g => read form args g
    else
      match optionOf form.options arg with
      | .error stop => .error stop
      | .ok (f, joined) =>
        if f.value.isNone then (g.option f []).bind fun g => read form args g
        else
          match joined, args with
          | some value, args => (g.option f value).bind fun g => read form args g
          | none, [] => .error .misuse
          | none, value :: args =>
            if isValue value then (g.option f value).bind fun g => read form args g
            else .error .misuse

def path? (g : Given) (name : String) : Option Path := (g.value? name).map fun value => ⟨value⟩

def keyword? (g : Given) : Option Keyword :=
  (g.value? "decl").bind fun value => Keyword.ofName? (String.ofList value)

def onlyInput (g : Given) : Except Stop Path :=
  match g.inputs with
  | [value] => .ok ⟨value⟩
  | _ => .error .misuse

def declForm : OptionForm := ⟨"decl", none, some .keyword⟩

def expandForm : CommandForm := ⟨[⟨"output", some 'o', some .path⟩, declForm], 1⟩

def buildForm : CommandForm := ⟨[
  ⟨"config", some 'c', some .path⟩, ⟨"source", none, some .path⟩, ⟨"distro", none, some .path⟩,
  declForm, ⟨"no-clean", none, none⟩, ⟨"json", none, none⟩], 0⟩

def checkForm : CommandForm := ⟨[declForm], 1⟩

def readExpand (args : List (List Char)) : Except Stop Command := do
  let g ← read expandForm args .empty
  return .expand (← onlyInput g) (path? g "output") ((keyword? g).getD .default)

def readBuild (args : List (List Char)) : Except Stop Command := do
  let g ← read buildForm args .empty
  return .build (path? g "config") (path? g "source") (path? g "distro") (keyword? g)
    (g.has "no-clean") (g.has "json")

def readCheck (args : List (List Char)) : Except Stop Command := do
  let g ← read checkForm args .empty
  return .check (← onlyInput g) ((keyword? g).getD .default)

def readHelp (topics : List (List Char)) : Except Stop Command :=
  match topics.map String.ofList with
  | [] | ["rewrite"] | ["build"] | ["check"] | ["help"] => .error .help
  | _ => .error .misuse

def readCommand : List (List Char) → Except Stop Command
  | [] => .error .misuse
  | name :: rest =>
    match String.ofList name with
    | "rewrite" => readExpand rest
    | "build" => readBuild rest
    | "check" => readCheck rest
    | "help" => readHelp rest
    | _ => (optionOf [] name).bind fun _ => .error .misuse

/-- The command that arguments ask for; nothing if they are misused. -/
def Command.ofArguments? (args : List String) : Option Command :=
  match readCommand (args.map String.toList) with
  | .ok command => some command
  | .error .help => some .help
  | .error .misuse => none

end Florin.Cli
