import Deferral.Syntax.Lexer
import Deferral.Syntax.Tree

/-!
# From tokens to statements

Loosest first, an expression is a chain of appends (grouped to the right), of sums, of products,
then a negation, then a chain of calls on a primary.

Nesting is bounded. Each parser is told how much `room` for nesting is left; an expression takes one
level, and so does every link of a chain, for as long as the chain lasts. The parsers below
`expression` are given the parser of nested expressions as a parameter.
-/

namespace Deferral

namespace Parser

structure Halt where
  fault : SyntaxFault
  rest : List PlacedToken

abbrev Parsed (α : Type) := α × List PlacedToken

def unexpected {α : Type} (what : Expectation) (tokens : List PlacedToken) : Except Halt α :=
  .error ⟨.expected what (tokens.head?.map (·.token)), tokens⟩

def tooDeep {α : Type} (tokens : List PlacedToken) : Except Halt α :=
  .error ⟨.nestedTooDeeply, tokens⟩

def expect (wanted : Token) : List PlacedToken → Except Halt (Parsed Unit)
  | placed :: rest =>
    if placed.token = wanted then .ok ((), rest) else unexpected (.token wanted) (placed :: rest)
  | [] => unexpected (.token wanted) []

/-! ## Lists between brackets -/

abbrev Subparser := List PlacedToken → Except Halt (Parsed Tree)

def separated {α : Type} (close : Token) (last : α)
    (more : List PlacedToken → Except Halt (Parsed α)) : List PlacedToken → Except Halt (Parsed α)
  | ⟨_, .comma⟩ :: rest => more rest
  | tokens => (expect close tokens).map fun (_, rest) => (last, rest)

/-- The items of a list after its opening bracket. Every item uses up a token, so a fuel above the
number of tokens lasts. -/
def items (nested : Subparser) : (fuel : Nat) → List PlacedToken → Except Halt (Parsed (List Tree))
  | 0, tokens => unexpected .expression tokens
  | _ + 1, ⟨_, .closeBracket⟩ :: rest => .ok ([], rest)
  | fuel + 1, tokens => do
    let (item, rest) ← nested tokens
    let (more, rest) ← separated .closeBracket [] (items nested fuel) rest
    return (item :: more, rest)

def entries (nested : Subparser) : (fuel : Nat) → List PlacedToken →
    Except Halt (Parsed (List (Tree × Tree)))
  | 0, tokens => unexpected .expression tokens
  | _ + 1, ⟨_, .closeBrace⟩ :: rest => .ok ([], rest)
  | fuel + 1, tokens => do
    let (key, rest) ← nested tokens
    let (_, rest) ← expect .colon rest
    let (value, rest) ← nested rest
    let (more, rest) ← separated .closeBrace [] (entries nested fuel) rest
    return ((key, value) :: more, rest)

/-- The arguments of a call after its opening parenthesis, positional ones first. The keywords
`seen` so far may not come again, and once there is one, no positional argument may follow. -/
def arguments (nested : Subparser) : (fuel : Nat) → (seen : List String) → List PlacedToken →
    Except Halt (Parsed (List Tree × List (String × Tree)))
  | 0, _, tokens => unexpected .expression tokens
  | _ + 1, _, ⟨_, .closeParen⟩ :: rest => .ok (([], []), rest)
  | fuel + 1, seen, ⟨line, .name key⟩ :: ⟨next, .assign⟩ :: rest =>
    if key ∈ seen then
      .error ⟨.keywordRepeated key, ⟨line, .name key⟩ :: ⟨next, .assign⟩ :: rest⟩
    else do
      let (value, rest) ← nested rest
      let ((args, kwargs), rest) ←
        separated .closeParen ([], []) (arguments nested fuel (key :: seen)) rest
      return ((args, (key, value) :: kwargs), rest)
  | fuel + 1, seen, tokens => do
    let (arg, rest) ← nested tokens
    if seen ≠ [] then .error ⟨.positionalAfterKeyword, tokens⟩
    else
      let ((args, kwargs), rest) ←
        separated .closeParen ([], []) (arguments nested fuel seen) rest
      return ((arg :: args, kwargs), rest)

/-! ## Expressions, tightest first -/

abbrev Nested := (room : Nat) → Subparser

def integer (negative : Bool) (n : Nat) (tokens rest : List PlacedToken) :
    Except Halt (Parsed Tree) :=
  match int64? (if negative then -(n : Int) else n) with
  | some value => .ok (.int value, rest)
  | none =>
    .error ⟨.integerOutOfRange ((if negative then "-" else "") ++ toString n), tokens⟩

def primary (nested : Nested) (room : Nat) : Subparser
  | ⟨line, .integer n⟩ :: rest => integer false n (⟨line, .integer n⟩ :: rest) rest
  | ⟨_, .float x⟩ :: rest => .ok (.float x, rest)
  | ⟨_, .text s⟩ :: rest => .ok (.text s, rest)
  | ⟨_, .name s⟩ :: rest => .ok (.name s, rest)
  | ⟨_, .openParen⟩ :: rest => do
    let (value, rest) ← nested room rest
    let (_, rest) ← expect .closeParen rest
    return (value, rest)
  | ⟨_, .openBracket⟩ :: rest =>
    (items (nested room) (rest.length + 1) rest).map fun (found, rest) => (.list found, rest)
  | ⟨_, .openBrace⟩ :: rest =>
    (entries (nested room) (rest.length + 1) rest).map fun (found, rest) => (.map found, rest)
  | tokens => unexpected .expression tokens

def calls (nested : Nested) : (room : Nat) → Tree → Subparser
  | 0, _, ⟨_, .openParen⟩ :: rest => tooDeep rest
  | room + 1, target, ⟨_, .openParen⟩ :: rest => do
    let ((args, kwargs), rest) ← arguments (nested room) (rest.length + 1) [] rest
    calls nested room (.call target args kwargs) rest
  | _, target, tokens => .ok (target, tokens)

def postfixed (nested : Nested) (room : Nat) (tokens : List PlacedToken) :
    Except Halt (Parsed Tree) := do
  let (target, rest) ← primary nested room tokens
  calls nested room target rest

/-- A negation or a call. A minus in front of an integer belongs to the literal. -/
def unary (nested : Nested) : Nested
  | _, ⟨_, .minus⟩ :: ⟨line, .integer n⟩ :: rest =>
    integer true n (⟨line, .integer n⟩ :: rest) rest
  | 0, ⟨_, .minus⟩ :: rest => tooDeep rest
  | room + 1, ⟨_, .minus⟩ :: rest =>
    (unary nested room rest).map fun (operand, rest) => (.negate operand, rest)
  | room, tokens => postfixed nested room tokens

def chain (operator? : Token → Option Operator) (operand : Nested) :
    (room : Nat) → Tree → Subparser
  | room, left, placed :: rest =>
    match operator? placed.token, room with
    | none, _ => .ok (left, placed :: rest)
    | some _, 0 => tooDeep rest
    | some operator, room + 1 => do
      let (right, rest) ← operand room rest
      chain operator? operand room (.arithmetic operator left right) rest
  | _, left, [] => .ok (left, [])

def productOperator? : Token → Option Operator
  | .star => some .multiply
  | .slash => some .divide
  | _ => none

def sumOperator? : Token → Option Operator
  | .plus => some .add
  | .minus => some .subtract
  | _ => none

def product (nested : Nested) (room : Nat) (tokens : List PlacedToken) :
    Except Halt (Parsed Tree) := do
  let (left, rest) ← unary nested room tokens
  chain productOperator? (unary nested) room left rest

def sum (nested : Nested) (room : Nat) (tokens : List PlacedToken) :
    Except Halt (Parsed Tree) := do
  let (left, rest) ← product nested room tokens
  chain sumOperator? (product nested) room left rest

/-- An expression: a sum, or a sum appended to an expression. Nested expressions have less room, so
a fuel of the room at the start is never missed. -/
def expression : (fuel : Nat) → Nested
  | 0, _, tokens => tooDeep tokens
  | _ + 1, 0, tokens => tooDeep tokens
  | fuel + 1, room + 1, tokens => do
    let (head, rest) ← sum (expression fuel) room tokens
    match rest with
    | ⟨_, .append⟩ :: rest =>
      let (tail, rest) ← expression fuel room rest
      return (.append head tail, rest)
    | rest => return (head, rest)

/-! ## Statements -/

def statement (line : Nat) : List PlacedToken → Except Halt (Parsed Statement)
  | ⟨_, .name target⟩ :: ⟨_, .assign⟩ :: rest =>
    (expression nestingLimit nestingLimit rest).map fun (value, rest) =>
      (⟨line, some target, value⟩, rest)
  | tokens =>
    (expression nestingLimit nestingLimit tokens).map fun (value, rest) =>
      (⟨line, none, value⟩, rest)

def statements : (fuel : Nat) → List PlacedToken → Except Halt (List Statement)
  | 0, _ => .ok []
  | fuel + 1, tokens =>
    match tokens.dropWhile fun placed => placed.token = .separator with
    | [] => .ok []
    | first :: rest => do
      let (found, rest) ← statement first.line (first :: rest)
      match rest with
      | [] => return [found]
      | ⟨_, .separator⟩ :: _ => return found :: (← statements fuel rest)
      | rest => unexpected .endOfStatement rest

end Parser

def parse (source : String) : Except SyntaxFailure (List Statement) := do
  let tokens ← tokenize source
  match Parser.statements tokens.list.length tokens.list with
  | .ok found => return found
  | .error halt => .error ⟨(halt.rest.head?.map (·.line)).getD tokens.lastLine, halt.fault⟩

end Deferral
