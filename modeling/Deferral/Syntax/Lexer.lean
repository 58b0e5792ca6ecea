import Deferral.Decimal.Reader
import Deferral.Syntax.Fault
import Deferral.Text.Alphabetic
import Deferral.Text.Blank
import Deferral.Text.Numeric

/-!
# From source text to tokens

Between tokens stand blanks and comments, and inside brackets line breaks too. A token never holds
a line break, so a line is one more than the number of breaks before it.
-/

namespace Deferral

namespace Lexer

/-! ## Between tokens -/

def skipBlanks (cs : List Char) : List Char := cs.dropWhile fun c => c != '\n' && isBlank c

def skipComment : List Char → List Char
  | '#' :: rest => rest.dropWhile (· != '\n')
  | cs => cs

def skipGap (cs : List Char) : List Char := skipComment (skipBlanks cs)

/-! ## One token -/

def isNameStart (c : Char) : Bool := isAlphabetic c || c == '_'

def isNameChar (c : Char) : Bool := isAlphabetic c || isNumeric c || c == '_'

abbrev Read := Except SyntaxFault (Token × List Char)

def readNumber (cs : List Char) : Read :=
  let whole := cs.takeWhile isDigit
  match cs.dropWhile isDigit with
  | '.' :: rest =>
    let part := rest.takeWhile isDigit
    .ok (.float (Double.ofDigits false (whole ++ part) (-(part.length : Int))),
      rest.dropWhile isDigit)
  | rest =>
    match digitsBelow? UInt64.size 0 whole with
    | some n => .ok (.integer n, rest)
    | none => .error (.integerOutOfRange (String.ofList whole))

def escapedChar? : Char → Option Char
  | 'n' => some '\n'
  | 't' => some '\t'
  | 'r' => some '\r'
  | '0' => some '\x00'
  | '\\' => some '\\'
  | '"' => some '"'
  | '\'' => some '\''
  | _ => none

def readText (quote : Char) : List Char → Except SyntaxFault (List Char × List Char)
  | [] => .error .unterminatedText
  | c :: rest =>
    if c = '\\' then
      match rest with
      | [] => .error .unterminatedText
      | mark :: rest =>
        match escapedChar? mark with
        | none => .error (.invalidEscape mark)
        | some c => (readText quote rest).map fun (cs, rest) => (c :: cs, rest)
    else if c = '\n' then .error .unterminatedText
    else if c = quote then .ok ([], rest)
    else (readText quote rest).map fun (cs, rest) => (c :: cs, rest)

def markToken? : Char → Option Token
  | '+' => some .plus
  | '-' => some .minus
  | '*' => some .star
  | '/' => some .slash
  | '=' => some .assign
  | ',' => some .comma
  | ':' => some .colon
  | ';' => some .separator
  | '(' => some .openParen
  | ')' => some .closeParen
  | '[' => some .openBracket
  | ']' => some .closeBracket
  | '\x7b' => some .openBrace
  | '\x7d' => some .closeBrace
  | _ => none

def readMark (c : Char) (rest : List Char) : Read :=
  match c, rest with
  | '>', '>' :: rest => .ok (.append, rest)
  | c, rest =>
    match markToken? c with
    | some token => .ok (token, rest)
    | none => .error (.unexpectedCharacter c)

def readToken (c : Char) (rest : List Char) : Read :=
  if isDigit c then readNumber (c :: rest)
  else if c = '"' ∨ c = '\'' then
    (readText c rest).map fun (cs, rest) => (.text (String.ofList cs), rest)
  else if isNameStart c then
    .ok (.name (String.ofList (c :: rest.takeWhile isNameChar)), rest.dropWhile isNameChar)
  else readMark c rest

/-! ## All tokens -/

/-- Reads the tokens of a text that is no longer than `fuel`, on from a line and with some brackets
open. Every round uses up a character, so the fuel lasts to the end of the text. -/
def scan : (fuel line depth : Nat) → List Char → Except SyntaxFailure Tokens
  | 0, line, _, _ => .ok ⟨[], line⟩
  | fuel + 1, line, depth, cs =>
    match skipGap cs with
    | [] => .ok ⟨[], line⟩
    | '\n' :: rest =>
      (scan fuel (line + 1) depth rest).map fun following =>
        if depth = 0 then following.cons ⟨line, .separator⟩ else following
    | c :: rest =>
      match readToken c rest with
      | .error fault => .error ⟨line, fault⟩
      | .ok (token, rest) =>
        (scan fuel line (token.depthAfter depth) rest).map (·.cons ⟨line, token⟩)

end Lexer

def tokenize (source : String) : Except SyntaxFailure Tokens :=
  Lexer.scan source.toList.length 1 0 source.toList

end Deferral
