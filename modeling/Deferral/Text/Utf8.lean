/-!
# Text from bytes

Output that is cut off may end inside a character. The bytes left of such a character show as one
replacement character.
-/

namespace Deferral

/-- The longest text that bytes begin with, if at most `slack` bytes are left over, and how many
are. -/
def textBeginning? (bytes : ByteArray) : (slack : Nat) → Option (String × Nat)
  | 0 => (String.fromUTF8? bytes).map (·, 0)
  | slack + 1 =>
    match textBeginning? bytes slack with
    | some found => some found
    | none =>
      (String.fromUTF8? (bytes.extract 0 (bytes.size - (slack + 1)))).map (·, slack + 1)

def textOfCut (bytes : ByteArray) : String :=
  match textBeginning? bytes 3 with
  | some (text, 0) => text
  | some (text, _) => text ++ "\uFFFD"
  | none => "\uFFFD"

end Deferral
