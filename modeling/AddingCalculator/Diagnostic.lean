import AddingCalculator.Token

namespace AddingCalculator

inductive FileError where
  | notFound
  | isDirectory
  | notDirectory
  | nameTooLong
  | notText
  | other (description : String)
  deriving DecidableEq

def FileError.message : FileError → String
  | notFound => "No such file or directory (os error 2)"
  | isDirectory => "Is a directory (os error 21)"
  | notDirectory => "Not a directory (os error 20)"
  | nameTooLong => "File name too long (os error 36)"
  | notText => "stream did not contain valid UTF-8"
  | other description => description

inductive NodeRole where
  | constant
  | reference
  | typed
  | value
  deriving DecidableEq

def NodeRole.text : NodeRole → String
  | constant => "constant"
  | reference => "reference"
  | typed => "typed"
  | value => "value"

inductive Diagnostic where
  | strayCharacter (c : Char) (span : Span)
  | integerOutOfRange (digits : String) (span : Span)
  | decimalOutOfRange (digits : String) (span : Span)
  | unexpectedToken (expected : List Token.Kind) (found : Token)
  | duplicateName (name : Char)
  | undeclaredName (name : Char)
  | invalidName (name : Char)
  | illegalConversion (source target : DataType)
  | nodeExpected (role : NodeRole)
  /-- A node refers to itself through its children, or to a node that is not there. -/
  | malformedTree
  | unknownTarget (name : String)
  | file (cause : FileError)
  deriving DecidableEq

namespace Diagnostic

def place (span : Span) : String :=
  "line " ++ toString span.line ++ ", column " ++ toString span.column

def alternatives : List Token.Kind → String
  | [kind] => kind.text
  | kinds => "one of " ++ String.intercalate ", " (kinds.map Token.Kind.text)

def quoted (c : Char) : String :=
  "'" ++ String.singleton c ++ "'"

def message : Diagnostic → String
  | strayCharacter c span => "Lexical error at " ++ place span ++ ": unexpected character " ++ quoted c
  | integerOutOfRange digits span =>
    "Lexical error at " ++ place span ++ ": integer literal " ++ digits ++ " is out of range"
  | decimalOutOfRange digits span =>
    "Lexical error at " ++ place span ++ ": float literal " ++ digits ++ " is out of range"
  | unexpectedToken expected found =>
    "Syntax error at " ++ place found.span ++ ": expected " ++ alternatives expected ++ ", found " ++ found.text
  | duplicateName name => "Symbol error: duplicate declaration of symbol " ++ quoted name
  | undeclaredName name => "Symbol error: no symbol found matching " ++ quoted name
  | invalidName name => "Symbol error: " ++ quoted name ++ " is an invalid identifier"
  | illegalConversion source target =>
    "Semantic error: illegal conversion from " ++ source.text ++ " to " ++ target.text
  | nodeExpected role => "Semantic error: expected a " ++ role.text ++ " node"
  | malformedTree => "Semantic error: malformed tree"
  | unknownTarget name => "Unknown target: " ++ name
  | file cause => "IO error: " ++ cause.message

end Diagnostic

end AddingCalculator
