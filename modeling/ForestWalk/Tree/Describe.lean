import ForestWalk.Text.Quoted
import ForestWalk.Tree.Shape
/-!
How slots and their rules are described in diagnostics.
-/

namespace ForestWalk

/-- The word that stands for a kind of slot in data. -/
def SlotKind.code : SlotKind → String
  | .single => "single"
  | .list => "list"
  | .value => "opaque"

/-- The name of a kind of slot in descriptions. -/
def SlotKind.name : SlotKind → String
  | .single => "Single"
  | .list => "List"
  | .value => "Opaque"

variable {ρ α τ : Type}

def Slot.describe (slot : Slot ρ α τ) : String :=
  "Slot \x7b name: " ++ Quoted.encode slot.name ++ ", kind: " ++ slot.kind.name ++ " \x7d"

def Rule.describe (rule : Rule ρ) : String :=
  "SlotRule \x7b name: " ++ Quoted.encode rule.name ++ ", restricted: " ++
    (if rule.restricted then "true" else "false") ++ " \x7d"

end ForestWalk
