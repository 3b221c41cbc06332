import Florin.Script.Reading

/-! # Expressions read again as patterns

The parameters of an arrow function and the target of an assignment are met as expressions first.
What they cannot be then is told at the place of the part that is wrong.
-/
namespace Florin.Script

/-- What a pattern is for: new variables, or targets that are there. -/
inductive PatternUse where
  | binding
  | target
  deriving DecidableEq, Repr

def refuseTree (place : Place) : Reading Unit := keep (.expression .notPattern place)

def refuseInitialized (place : Place) (t : Tree) : Reading Unit := do
  if t.isAssignment then keep (.expression .restInitializer place)

/-- A target is assignable; a call of `f()` is none. -/
def checkAssignable (t : Tree) : Reading Unit := do
  if !t.isAssignable then keep (.expression .notAssignable t.place)

def refuseComma (comma : Option Place) : Reading Unit := do
  match comma with
  | some place => keep (.expression .commaAfterRest place)
  | none => return

mutual

/-- Reads an expression again as a pattern of its own, or as an element of one. -/
def asPattern (use : PatternUse) (isElement : Bool) : Tree → Reading Unit
  | .name place text => do
    if use = .target && isElement then checkAssignable (.name place text)
  | .list _ items comma => itemsAsPatterns use comma items
  | .record _ fields comma => fieldsAsPatterns use comma fields
  | .assignment place isPlain target =>
    if !isPlain then refuseTree place
    else
      match target with
      | .name _ _ | .list _ _ _ | .record _ _ _ => return
      | _ => if use = .binding then asPattern use isElement target else return
  | .group place inner => do
    if use = .binding then refuseTree place
    else if isElement && !inner.isAssignable then keep (.expression .notAssignable place)
  | .leaf place kind => do
    if kind = .invalid then return
    if use = .binding then refuseTree place
    else if !isElement then return
    else if (Tree.leaf place kind).isSimpleElement then checkAssignable (.leaf place kind)
    else refuseTree place
  | .binary place _ => do
    if use = .binding || isElement then refuseTree place

def itemsAsPatterns (use : PatternUse) (comma : Option Place) : List Item → Reading Unit
  | [] => return
  | .hole :: items => itemsAsPatterns use comma items
  | .part t :: items => do
    asPattern use true t
    itemsAsPatterns use comma items
  | .spread place t :: items => do
    if items.isEmpty then
      refuseInitialized place t
      refuseComma comma
      asPattern use true t
    else keep (.expression .restBeforeOthers t.place)
    itemsAsPatterns use comma items

def fieldsAsPatterns (use : PatternUse) (comma : Option Place) : List Field → Reading Unit
  | [] => return
  | .shorthand _ _ :: fields | .initialized _ _ :: fields => fieldsAsPatterns use comma fields
  | .pair t :: fields => do
    asPattern use true t
    fieldsAsPatterns use comma fields
  | .method place :: _ => failFor (.expression .notPattern place)
  | .spread place t :: fields => do
    if fields.isEmpty then refuseComma comma
    else keep (.expression .restBeforeOthers place)
    if use = .binding then
      if !t.isName then keep (.expression .restName place)
    else
      asPattern use true t
      refuseInitialized place t
    fieldsAsPatterns use comma fields

end

def asTarget (t : Tree) : Reading Unit := do
  match t with
  | .list _ _ _ | .record _ _ _ | .leaf _ .invalid => asPattern .target false t
  | _ => checkAssignable t

mutual

/-- The places of the names in a pattern that strict code does not bind. -/
def strictPlaces : Tree → List Place
  | .name place text => if strictNames.contains text then [place] else []
  | .assignment _ _ target => strictPlaces target
  | .list _ items _ => strictItemPlaces items
  | .record _ fields _ => strictFieldPlaces fields
  | .leaf _ _ | .binary _ _ | .group _ _ => []

def strictItemPlaces : List Item → List Place
  | [] => []
  | .hole :: items => strictItemPlaces items
  | .part t :: items | .spread _ t :: items => strictPlaces t ++ strictItemPlaces items

def strictFieldPlaces : List Field → List Place
  | [] => []
  | .shorthand place name :: fields | .initialized place name :: fields =>
    (if strictNames.contains name then [place] else []) ++ strictFieldPlaces fields
  | .pair t :: fields | .spread _ t :: fields => strictPlaces t ++ strictFieldPlaces fields
  | .method _ :: fields => strictFieldPlaces fields

end

/-- Reads the items in parentheses again as parameters; a comma may stand at their end. -/
def parameterItems (comma : Option Place) : List Item → Reading Unit
  | [] => return
  | .hole :: items => parameterItems comma items
  | .part t :: items => do
    asPattern .binding false t
    parameterItems comma items
  | .spread place t :: items => do
    if items.isEmpty then
      refuseInitialized place t
      refuseComma comma
      asPattern .binding false t
    else keep (.expression .restParameterBeforeOthers place)
    parameterItems comma items

/-- A rest parameter that does not stand at the end is no parameter. -/
def boundItems (items : List Item) : List Item :=
  items.dropLast.filter (fun item => !item matches .spread _ _) ++ items.getLast?.toList

def asParameters (items : List Item) (comma : Option Place) : Reading Unit := do
  parameterItems comma items
  (strictItemPlaces (boundItems items)).forM fun place => keep (.name .strictBinding place)

def areSimple (items : List Item) : Bool :=
  items.all fun item =>
    match item with
    | .part t => t.isName
    | _ => false

end Florin.Script
