import Florin.Script.Pattern

/-! # Phrases of a script

The kinds of phrases that other phrases have inside, each with what its reader has to know of the
phrase around it. A list of parts is read part by part and carries what is read so far.
-/
namespace Florin.Script

inductive Accessor where
  | getter
  | setter
  deriving DecidableEq, Repr

/-- What kind of function it is; an accessor with the place that stands for it. -/
structure FunctionForm where
  isAsync : Bool
  isGenerator : Bool
  accessor : Option (Accessor × Place)
  deriving DecidableEq, Repr

def FunctionForm.plain : FunctionForm := ⟨false, false, none⟩

inductive Phrase where
  | statement (declares : Bool)
  | statements
  | directives (strict : Option Place)
  | block
  | functionRest (form : FunctionForm)
  | parameters (soFar : List Item) (rest : Option Place)
  | arrowBody (isAsync isSimple : Bool)
  | classRest (isNamed : Bool)
  | classMembers (hasConstructor : Bool)
  | declarations (keyword : List Char) (inHead : Bool) (soFar : List Item)
  | binding (isLexical : Bool)
  | bindingElement
  | arrayBindings (rest : Option Place)
  | objectBindings (soFar : List Field)
  | cases (hasDefault : Bool)
  | caseBody
  | expression
  | assignment
  | conditional
  | operation
  | operationRest (least : Nat) (left : Tree)
  | unary
  | leftHand
  | constructed
  | callRest (callee : Tree) (allowCall : Bool)
  | primary
  | template (isTagged : Bool)
  | arguments (isFirst : Bool)
  | parenthesized (soFar : List Item) (comma : Option Place)
  | elements (start : Place) (soFar : List Item) (comma : Option Place)
  | fields (start : Place) (soFar : List Field) (comma : Option Place)
  | importNames
  | exportNames (faults : List Fault)

abbrev Inner := Phrase → Reading Tree

def other : Reading Tree := return .leaf [] .other

def Tree.parts : Tree → List Item × Option Place
  | .list _ items comma => (items, comma)
  | _ => ([], none)

end Florin.Script
