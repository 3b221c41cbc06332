import Florin.Text.Quoted

/-! # Syntax faults

What is wrong with a script, and at which place.
-/
namespace Florin.Script
open Text

inductive LexicalFault where
  | unterminatedString
  | unterminatedTemplate
  | unterminatedComment
  | unexpectedCharacter (c : Char)
  | identifierAfterNumber
  | digit (radix : Nat)
  | exponent
  | separator
  | leadingZero (isOctal : Bool)
  | stringEscape
  | numberedEscape (wanted : String)
  | escapeEnd
  | identifierEscape
  | markupComment
  deriving DecidableEq, Repr

inductive ExpressionFault where
  | expected
  | notAssignable
  | invalidTarget
  | notPattern
  | lateInitializer
  | emptyParentheses
  | spreadInParentheses
  | arrowPlace
  | lineBreakBeforeArrow
  | powerOfUnary
  | mixedNullish
  | deletedName
  | taggedChain
  | constructedChain
  | superChain
  | superPlace
  | superCall
  | importPlace
  | newTarget
  | spaceAfterHash
  | unknownFlags
  | repeatedFlag (c : Char)
  | restBeforeOthers
  | restParameterBeforeOthers
  | commaAfterRest
  | restInitializer
  | restName
  | optionalField
  deriving DecidableEq, Repr

inductive NameFault where
  | expected
  | reserved (word : List Char)
  | awaitName
  | strictBinding
  | shorthand
  | imported
  deriving DecidableEq, Repr

inductive FunctionFault where
  | awaitOutside
  | awaitInParameters
  | awaitStar
  | yieldInParameters
  | returnOutside
  | strictDirective
  | getterParameter
  | setterParameter
  | setterRest
  | repeatedConstructor
  | generatorConstructor
  | asyncConstructor
  | accessorConstructor
  | fieldConstructor
  | privateConstructor
  | staticConstructor
  | secondParent
  | argumentsInField
  deriving DecidableEq, Repr

inductive StatementFault where
  | incomplete
  | semicolon
  | trailingComma
  | uninitializedConst
  | uninitializedPattern
  | declaration
  | breakPlace
  | breakLabel
  | continuePlace
  | continueLabel
  | repeatedLabel (name : List Char)
  | labelledFunction
  | labelledGenerator
  | lineBreakAfterThrow
  | withStatement
  | repeatedDefault
  | loopBindings
  | loopInitializer
  | loopAwait
  | loopAsync
  | moduleStatement
  | stringImport (name : List Char)
  | stringExport
  | reservedExport (name : List Char)
  deriving DecidableEq, Repr

inductive FaultKind where
  | expected (wanted found : List Char)
  | unexpected (found : List Char) (wanted : String)
  | lexical (f : LexicalFault)
  | expression (f : ExpressionFault)
  | name (f : NameFault)
  | function (f : FunctionFault)
  | statement (f : StatementFault)
  | tooDeep
  deriving DecidableEq, Repr

def radixName (radix : Nat) : String :=
  if radix = 2 then "a binary"
  else if radix = 8 then "an octal"
  else if radix = 16 then "a hexadecimal"
  else "a decimal"

def LexicalFault.message : LexicalFault → String
  | .unterminatedString => "Unterminated string constant"
  | .unterminatedTemplate => "Unterminated template"
  | .unterminatedComment => "Unterminated block comment"
  | .unexpectedCharacter c => "Unexpected character " ++ String.ofList (Quoted.encodeChar c)
  | .identifierAfterNumber => "Identifier cannot follow number"
  | .digit radix => "Expected " ++ radixName radix ++ " digit"
  | .exponent => "Expected +, - or decimal digit after e"
  | .separator => "A numeric separator is only allowed between two digits"
  | .leadingZero true => "Legacy octal escape is not permitted in strict mode"
  | .leadingZero false => "Legacy decimal escape is not permitted in strict mode"
  | .stringEscape => "Invalid string escape"
  | .numberedEscape wanted => "Bad character escape sequence, expected " ++ wanted
  | .escapeEnd => "Invalid unicode escape"
  | .identifierEscape => "Expected unicode escape"
  | .markupComment => "Legacy comments cannot be used in module code"

def ExpressionFault.message : ExpressionFault → String
  | .expected => "Expression expected"
  | .notAssignable => "Cannot assign to this"
  | .invalidTarget => "Invalid assignment target"
  | .notPattern => "Not a pattern"
  | .lateInitializer => "assignment property is invalid syntax"
  | .emptyParentheses => "Parenthesized expression cannot be empty"
  | .spreadInParentheses => "Parenthesized expression cannot contain spread operator"
  | .arrowPlace => "An arrow function is not allowed here"
  | .lineBreakBeforeArrow => "Unexpected line break between arrow head and arrow"
  | .powerOfUnary => "\x27**\x27 cannot be applied to unary/await expression."
  | .mixedNullish =>
    "Nullish coalescing operator(??) requires parens when mixing with logical operators"
  | .deletedName => "\x27delete\x27 cannot be called on an identifier in strict mode"
  | .taggedChain => "Tagged template expression is not allowed in an optional chain"
  | .constructedChain => "Constructor in/after an optional chaining is not allowed."
  | .superChain => "Super call cannot be optional"
  | .superPlace => "Invalid access to super"
  | .superCall => "Invalid \x60super()\x60"
  | .importPlace => "Import is not allowed here"
  | .newTarget =>
    "\x27new.target\x27 is only allowed in the body of a function declaration, function " ++
    "expression, or class."
  | .spaceAfterHash => "Unexpected space between # and identifier"
  | .unknownFlags => "Unknown regular expression flags."
  | .repeatedFlag c => "Duplicated regular expression flag \x27" ++ String.singleton c ++ "\x27."
  | .restBeforeOthers => "Rest element must be final element"
  | .restParameterBeforeOthers => "A rest parameter must be last in a parameter list"
  | .commaAfterRest => "Trailing comma isn\x27t permitted after a rest element"
  | .restInitializer => "A rest parameter cannot have an initializer"
  | .restName => "\x60...\x60 must be followed by an identifier in declaration contexts"
  | .optionalField => "An object member cannot be declared optional"

def NameFault.message : NameFault → String
  | .expected => "Expected ident"
  | .reserved word =>
    "\x60" ++ String.ofList word ++ "\x60 cannot be used as an identifier in strict mode"
  | .awaitName => "\x60await\x60 cannot be used as an identifier in an async context"
  | .strictBinding =>
    "\x27eval\x27 and \x27arguments\x27 cannot be used as a binding identifier in strict mode"
  | .shorthand => "Cannot use a reserved word as a shorthand property"
  | .imported => "cannot import as reserved word"

def FunctionFault.message : FunctionFault → String
  | .awaitOutside => "await isn\x27t allowed in non-async function"
  | .awaitInParameters => "\x60await\x60 expressions cannot be used in a parameter initializer."
  | .awaitStar =>
    "await* has been removed from the async functions proposal. Use Promise.all() instead."
  | .yieldInParameters => "\x27yield\x27 cannot be used as a parameter within generator"
  | .returnOutside => "Return statement is not allowed here"
  | .strictDirective =>
    "Illegal \x27use strict\x27 directive in function with non-simple parameter list."
  | .getterParameter => "A \x60get\x60 accessor cannot have parameters"
  | .setterParameter => "A \x60set\x60 accessor must have exactly one parameter"
  | .setterRest => "Rest pattern is not allowed in setter"
  | .repeatedConstructor => "A class can only have one constructor"
  | .generatorConstructor => "A constructor cannot be generator"
  | .asyncConstructor => "A constructor cannot be async"
  | .accessorConstructor => "Class constructor can\x27t be an accessor"
  | .fieldConstructor => "Classes may not have a non-static field named \x27constructor\x27"
  | .privateConstructor => "Classes can\x27t have a private field named \x27#constructor\x27"
  | .staticConstructor => "\x27static\x27 modifier cannot appear on a constructor declaration"
  | .secondParent => "\x60extends\x60 clause already seen."
  | .argumentsInField => "\x27arguments\x27 is only allowed in functions and class methods"

def StatementFault.message : StatementFault → String
  | .incomplete => "Expected \x27;\x27, \x27\x7d\x27 or <eof>"
  | .semicolon => "Expected a semicolon"
  | .trailingComma => "Trailing comma is not allowed"
  | .uninitializedConst => "\x27const\x27 declarations must be initialized"
  | .uninitializedPattern => "Destructuring bindings require initializers"
  | .declaration => "Declaration is not allowed"
  | .breakPlace =>
    "A \x27break\x27 statement can only be used within an enclosing iteration or switch statement"
  | .breakLabel => "A \x27break\x27 statement can only jump to a label of an enclosing statement"
  | .continuePlace =>
    "A \x27continue\x27 statement can only target a label of an enclosing iteration statement"
  | .continueLabel => "Jump target cannot cross function boundary"
  | .repeatedLabel name => "Label " ++ String.ofList name ++ " is already declared"
  | .labelledFunction => "Function cannot be labelled in strict mode"
  | .labelledGenerator => "Generator or async function cannot be labelled"
  | .lineBreakAfterThrow => "LineBreak cannot follow \x27throw\x27"
  | .withStatement => "With statement are not allowed in strict mode"
  | .repeatedDefault => "A switch block cannot have multiple defaults"
  | .loopBindings => "Expected one variable binding"
  | .loopInitializer => "Unexpected initializer in for in/of loop"
  | .loopAwait => "for await syntax is valid only for for-of statement"
  | .loopAsync => "The left-hand side of a \x60for...of\x60 statement may not be \x60async\x60"
  | .moduleStatement => "\x27import\x27, and \x27export\x27 cannot be used outside of module code"
  | .stringImport name =>
    "A string literal cannot be used as an imported binding.\n" ++
    "- Did you mean \x60import \x7b \"" ++ String.ofList name ++ "\" as foo \x7d\x60?"
  | .stringExport => "A string literal cannot be used as an exported binding without \x60from\x60."
  | .reservedExport name => "\x60" ++ String.ofList name ++
    "\x60 cannot be used without \x60from\x60 clause"

def FaultKind.message : FaultKind → String
  | .expected wanted found =>
    "Expected \x27" ++ String.ofList wanted ++ "\x27, got \x27" ++ String.ofList found ++ "\x27"
  | .unexpected found wanted =>
    "Unexpected token \x60" ++ String.ofList found ++ "\x60. Expected " ++ wanted
  | .lexical f => f.message
  | .expression f => f.message
  | .name f => f.message
  | .function f => f.message
  | .statement f => f.message
  | .tooDeep => "Too deeply nested"

/-- A place in a script, as the text from there on. -/
abbrev Place := List Char

structure Fault where
  kind : FaultKind
  place : Place
  deriving DecidableEq, Repr

def Fault.lexical (f : LexicalFault) (place : Place) : Fault := ⟨.lexical f, place⟩

def Fault.expression (f : ExpressionFault) (place : Place) : Fault := ⟨.expression f, place⟩

def Fault.name (f : NameFault) (place : Place) : Fault := ⟨.name f, place⟩

def Fault.function (f : FunctionFault) (place : Place) : Fault := ⟨.function f, place⟩

def Fault.statement (f : StatementFault) (place : Place) : Fault := ⟨.statement f, place⟩

end Florin.Script
