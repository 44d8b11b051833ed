import ForestWalk.Visitor.Counter
import ForestWalk.Visitor.Recorder
/-!
Visitors that only look on: they keep every node, and at most remember what they saw.
-/

namespace ForestWalk

/-- The behaviour of a visitor that does nothing. -/
def Behaviour.idle {ρ α : Type} : Behaviour ρ α Unit where
  name := fun _ => "nodewalk::visitor::traits::NoopVisitor"

/-- A visitor that does nothing, a recorder or a counter. -/
abbrev Observer :=
  Unit ⊕ Recorder ⊕ Counter

def Observer.behaviour {ρ α : Type} : Behaviour ρ α Observer :=
  Behaviour.idle.sum (Recorder.behaviour.sum Counter.behaviour)

end ForestWalk
