import ForestWalk.Visitor.Behaviour
/-!
A visitor that writes down the tags of the nodes it is shown, those entered and those left apart.
Each traversal begins with empty lists.
-/

namespace ForestWalk

structure Recorder where
  /-- The tags of the nodes entered, in order. -/
  entered : List String := []
  /-- The tags of the nodes left, in order. -/
  left : List String := []
  /-- How many traversals the recorder took part in. -/
  runs : Nat := 0
deriving Repr, DecidableEq

namespace Recorder

/-- Begins the record of another traversal. -/
def restart (recorder : Recorder) : Recorder where
  runs := recorder.runs + 1

def record (hook : NodeHook) (tag : String) (recorder : Recorder) : Recorder :=
  match hook with
  | .enter => { recorder with entered := recorder.entered ++ [tag] }
  | .leave => { recorder with left := recorder.left ++ [tag] }

def behaviour {ρ α : Type} : Behaviour ρ α Recorder where
  name := fun _ => "NodeRecorder"
  node := fun hook recorder node =>
    .finish { state := recorder.record hook node.tag, node := node }
  sequence := fun hook recorder _ =>
    match hook with
    | .before => .finish { state := recorder.restart }
    | .after => .finish { state := recorder }

end Recorder

end ForestWalk
