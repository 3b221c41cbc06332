import Florin.Script.Token

/-! # Expression trees

As much of an expression as decides whether it can be assigned to, what its operators may stand
beside, and what it means when it is read again as a pattern.
-/
namespace Florin.Script

/-- An expression whose parts do not matter any more. -/
inductive Leaf where
  | literal
  | function
  | classValue
  | template
  | call
  | construct
  | constructBare
  | member (isAssignable : Bool)
  | chainMember
  | superMember
  | superBase
  | importBase
  | chain
  | arrow
  | unary
  | await
  | update
  | conditional
  | pattern
  | invalid
  | other
  deriving DecidableEq, Repr

mutual

/-- An expression with the place where it starts. A pattern that is read as such is a leaf; a name
or an initialized name is the same in a pattern. Lists and records know of a comma at their end. -/
inductive Tree where
  | name (place : Place) (text : List Char)
  | leaf (place : Place) (kind : Leaf)
  | binary (place : Place) (operator : List Char)
  | group (place : Place) (inner : Tree)
  | assignment (place : Place) (isPlain : Bool) (target : Tree)
  | list (place : Place) (items : List Item) (comma : Option Place)
  | record (place : Place) (fields : List Field) (comma : Option Place)

inductive Item where
  | hole
  | part (tree : Tree)
  | spread (place : Place) (tree : Tree)

inductive Field where
  | shorthand (place : Place) (name : List Char)
  | initialized (place : Place) (name : List Char)
  | pair (value : Tree)
  | method (place : Place)
  | spread (place : Place) (tree : Tree)

end

def strictNames : List (List Char) := ["eval", "arguments"].map String.toList

namespace Tree

def place : Tree → Place
  | .name place _ => place
  | .leaf place _ => place
  | .binary place _ => place
  | .group place _ => place
  | .assignment place _ _ => place
  | .list place _ _ => place
  | .record place _ _ => place

def leaf? : Tree → Option Leaf
  | .leaf _ kind => some kind
  | _ => none

def isArrow (t : Tree) : Bool := t.leaf? = some .arrow

def isName : Tree → Bool
  | .name _ _ => true
  | _ => false

def isAssignment : Tree → Bool
  | .assignment _ _ _ => true
  | _ => false

/-- Something that a single value can be assigned to. -/
def isAssignable : Tree → Bool
  | .name _ text => !strictNames.contains text
  | .group _ inner => inner.isAssignable
  | .leaf _ (.member isAssignable) => isAssignable
  | .leaf _ .superMember => true
  | _ => false

/-- Something that stands before an assignment operator at all. -/
def isTarget : Tree → Bool
  | .name _ _ | .group _ _ => true
  | .leaf _ kind =>
    match kind with
    | .member _ | .chainMember | .superMember | .chain | .invalid => true
    | _ => false
  | _ => false

def endsAssignment : Tree → Bool
  | .binary _ _ => true
  | .leaf _ kind => [.unary, .update, .conditional].contains kind
  | _ => false

def memberIsAssignable : Tree → Bool
  | .leaf _ (.member isAssignable) => isAssignable
  | .leaf _ .chainMember | .leaf _ .chain => false
  | _ => true

def isOperation (operators : List String) : Tree → Bool
  | .binary _ operator => operators.any fun o => o.toList = operator
  | _ => false

/-- Elements of a pattern that have to be assignable and are patterns by themselves. -/
def isSimpleElement : Tree → Bool
  | .name _ _ | .group _ _ => true
  | .leaf _ kind =>
    match kind with
    | .literal | .function | .classValue | .template => true
    | .call | .construct | .constructBare | .member _ | .chainMember | .superMember => true
    | _ => false
  | _ => false

end Tree

end Florin.Script
