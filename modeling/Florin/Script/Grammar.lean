import Florin.Script.Module

/-! # The grammar of modules

One rule for each kind of phrase. A rule reads its own tokens and leaves the phrases inside to the
reader it is given, so that the rules do not refer to each other; `phrase` ties them together, with
fuel for the depth of nesting.
-/
namespace Florin.Script

def rule (inner : Inner) : Phrase → Reading Tree
  | .statement declares => readStatement inner declares
  | .statements => readStatements inner
  | .directives strict => readDirectives inner strict
  | .block => readBlock inner
  | .functionRest form => readFunctionRest inner form
  | .parameters soFar rest => readParameters inner soFar rest
  | .arrowBody isAsync isSimple => readArrowBody inner isAsync isSimple
  | .classRest isNamed => readClassRest inner isNamed
  | .classMembers hasConstructor => readClassMembers inner hasConstructor
  | .declarations keyword inHead soFar => readDeclarations inner keyword inHead soFar
  | .binding isLexical => readBinding inner isLexical
  | .bindingElement => readBindingElement inner
  | .arrayBindings rest => readArrayBindings inner rest
  | .objectBindings soFar => readObjectBindings inner soFar
  | .cases hasDefault => readCases inner hasDefault
  | .caseBody => readCaseBody inner
  | .expression => readExpression inner
  | .assignment => readAssignment inner
  | .conditional => readConditional inner
  | .operation => readOperation inner
  | .operationRest least left => readOperationRest inner least left
  | .unary => readUnary inner
  | .leftHand => readLeftHand inner
  | .constructed => readConstructed inner
  | .callRest callee allowCall => readCallRest inner callee allowCall
  | .primary => readPrimary inner
  | .template isTagged => readTemplate inner isTagged
  | .arguments isFirst => readArguments inner isFirst
  | .parenthesized soFar comma => readParenthesized inner soFar comma
  | .elements start soFar comma => readElements inner start soFar comma
  | .fields start soFar comma => readFields inner start soFar comma
  | .importNames => readImportNames inner
  | .exportNames faults => readExportNames inner faults

/-- Reads a phrase. The fuel bounds the depth of nesting. -/
def phrase : Nat → Phrase → Reading Tree
  | 0, _ => fail .tooDeep
  | fuel + 1, p => rule (phrase fuel) p

def readModule (depth : Nat) : Nat → Reading Unit
  | 0 => fail .tooDeep
  | fuel + 1 => do
    if (← token) = .eof then return
    readModuleItem (phrase depth)
    readModule depth fuel

/-- The text of a script after a line that tells which program it is for. -/
def withoutProgramLine : List Char → List Char
  | '#' :: '!' :: cs => lineRest cs
  | cs => cs

def State.initial (cs : List Char) : State :=
  { current := lexeme cs
    before := cs
    beforeEnd := cs
    kept := (lexeme cs).faults.head?
    arrowFits := false
    scope := {} }

/-- The first fault of a module: the one that stops the reading, or else the first one kept. -/
def firstFault? (cs : List Char) : Option Fault :=
  let text := withoutProgramLine cs
  match (readModule (32 * cs.length + 64) (cs.length + 1)).run (State.initial text) with
  | (.ok _, s) => s.kept
  | (.error f, _) => some f

end Florin.Script
