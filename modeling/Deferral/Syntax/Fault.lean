import Deferral.Syntax.Token

/-!
# Faults of source text

What can be wrong with a source text, and how it is reported.
-/

namespace Deferral

def nestingLimit : Nat := 200

inductive Expectation where
  | expression
  | endOfStatement
  | token (wanted : Token)
  deriving DecidableEq

def Expectation.display : Expectation → String
  | .expression => "expression"
  | .endOfStatement => Token.separator.display
  | .token wanted => wanted.display

inductive SyntaxFault where
  /-- An integer too large for a literal, with its sign. -/
  | integerOutOfRange (text : String)
  /-- A backslash in a string before a character that has no escape. -/
  | invalidEscape (c : Char)
  /-- A string that its line does not close. -/
  | unterminatedText
  /-- A character that begins no token. -/
  | unexpectedCharacter (c : Char)
  /-- A token, or the end of the text, where the grammar asks for something else. -/
  | expected (what : Expectation) (received : Option Token)
  | nestedTooDeeply
  | keywordRepeated (name : String)
  | positionalAfterKeyword
  /-- Anything but one bare expression where one is asked for. -/
  | notOneExpression
  deriving DecidableEq

def SyntaxFault.message : SyntaxFault → String
  | .integerOutOfRange text => s!"Integer literal out of range: {text}"
  | .invalidEscape c => s!"Invalid escape sequence: \\{c}"
  | .unterminatedText => "Unterminated string literal"
  | .unexpectedCharacter c => s!"Unexpected character '{c}'"
  | .expected what received =>
    let found := (received.map Token.display).getD endOfInputText
    s!"Expected {what.display}, received {found}"
  | .nestedTooDeeply => s!"Expression nested too deeply (limit {nestingLimit})"
  | .keywordRepeated name => s!"Keyword argument repeated: {name}"
  | .positionalAfterKeyword => "Positional argument follows keyword argument"
  | .notOneExpression => "Expected a single expression"

structure SyntaxFailure where
  line : Nat
  fault : SyntaxFault
  deriving DecidableEq

end Deferral
