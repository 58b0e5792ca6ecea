import Deferral.Text.DefaultIgnorable
import Deferral.Text.GraphemeExtend
import Deferral.Text.Unprintable

/-!
# Text between double quotes

Quoted text shows every character of a string. The two marks of the notation and four common
controls have a short escape; a character that would not be seen, or would be drawn on its
neighbour, is written by its code point.
-/

namespace Deferral

/-- Whether a character is drawn on the one before it. The halfwidth sound marks extend a syllable,
but each has a cell of its own. -/
def joinsPrevious (c : Char) : Bool := isGraphemeExtend c && c != '\uff9e' && c != '\uff9f'

def showsItself (c : Char) : Bool :=
  !(joinsPrevious c || isUnprintable c || isDefaultIgnorable c)

def escapeChar (c : Char) : List Char :=
  match c with
  | '\x00' => ['\\', '0']
  | '\t' => ['\\', 't']
  | '\n' => ['\\', 'n']
  | '\r' => ['\\', 'r']
  | '"' => ['\\', '"']
  | '\\' => ['\\', '\\']
  | _ =>
    if showsItself c then [c]
    else '\\' :: 'u' :: '\x7b' :: Nat.toDigits 16 c.toNat ++ ['\x7d']

def quoteText (s : String) : String :=
  String.ofList ('"' :: s.toList.flatMap escapeChar ++ ['"'])

end Deferral
