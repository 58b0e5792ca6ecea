import Deferral.Value.Equality

/-!
# Maps

A map is a list of entries whose keys differ. An entry under a known key takes the place of the old
one, key and value; any other goes to the end.
-/

namespace Deferral

abbrev Entries := List (Value × Value)

namespace Entries

def insert (key value : Value) : Entries → Entries
  | [] => [(key, value)]
  | (known, old) :: rest =>
    if known == key then (key, value) :: rest else (known, old) :: insert key value rest

/-- The map that arises when entries are put in one after the other. -/
def ofList (entries : List (Value × Value)) : Entries :=
  entries.foldl (fun found entry => insert entry.1 entry.2 found) []

def get? (key : Value) : Entries → Option Value
  | [] => none
  | (known, value) :: rest => if known == key then some value else get? key rest

end Entries

end Deferral
