import Deferral.Literal

/-!
# Tokens

The words of the language. A separator ends a statement; it stands for a semicolon, or for a line
break outside all brackets.
-/

namespace Deferral

inductive Token where
  /-- An integer without a sign. Whether it fits a value is not decided yet. -/
  | integer (n : Nat)
  | float (x : Double)
  | text (s : String)
  | name (s : String)
  | plus
  | minus
  | star
  | slash
  | append
  | assign
  | comma
  | colon
  | openParen
  | closeParen
  | openBracket
  | closeBracket
  | openBrace
  | closeBrace
  | separator
  deriving DecidableEq

namespace Token

def display : Token → String
  | .integer n => toString n
  | .float x => floatText x
  | .text s => quoteText s
  | .name s => s
  | .plus => "+"
  | .minus => "-"
  | .star => "*"
  | .slash => "/"
  | .append => ">>"
  | .assign => "="
  | .comma => ","
  | .colon => ":"
  | .openParen => "("
  | .closeParen => ")"
  | .openBracket => "["
  | .closeBracket => "]"
  | .openBrace => "\x7b"
  | .closeBrace => "\x7d"
  | .separator => "end of statement"

/-- How many brackets are open after a token. A closing bracket too many closes nothing. -/
def depthAfter (depth : Nat) : Token → Nat
  | .openParen | .openBracket | .openBrace => depth + 1
  | .closeParen | .closeBracket | .closeBrace => depth - 1
  | _ => depth

end Token

def endOfInputText : String := "end of input"

structure PlacedToken where
  line : Nat
  token : Token
  deriving DecidableEq

structure Tokens where
  list : List PlacedToken
  lastLine : Nat
  deriving DecidableEq

def Tokens.cons (token : PlacedToken) (following : Tokens) : Tokens :=
  ⟨token :: following.list, following.lastLine⟩

end Deferral
