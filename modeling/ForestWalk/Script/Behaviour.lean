import ForestWalk.Script.Basic
import ForestWalk.Visitor.Behaviour
/-!
How a visitor with a script behaves. The actions of a clause work on the name of the visitor and on
the node at hand; what they have done by the time a hook fails is kept.
-/

namespace ForestWalk

/-- What the actions of a hook work on. -/
structure Stage (ρ α : Type) where
  name : String
  /-- The node at hand; there is none while the top-level sequence is shown. -/
  here : Option (Tree ρ α)

variable {ρ α : Type}

/-- Changes the node at hand. -/
def Stage.edit (f : Tree ρ α → Tree ρ α) (stage : Stage ρ α) : Stage ρ α :=
  { stage with here := stage.here.map f }

/-- Carries out an action. The function says which traverser goes by a number. -/
def Action.run (traversers : Nat → Traverser) (stage : Stage ρ α) :
    Action ρ α → Routine ρ α (Stage ρ α × Option (Cause WalkError))
  | .setTag tag => pure (stage.edit fun node => { node with tag := tag }, none)
  | .setLabel label => pure (stage.edit fun node => { node with label := label }, none)
  | .become template => pure (stage.edit fun node => template.expandOne (some node), none)
  | .clear slot => pure (stage.edit (Tree.modifySlot slot Content.cleared), none)
  | .reverse slot => pure (stage.edit (Tree.modifySlot slot Content.reversed), none)
  | .push slot templates =>
    pure (stage.edit (Tree.modifySlot slot (Content.filled (Template.expandAll stage.here
      templates))), none)
  | .setValue slot content =>
    pure (stage.edit (Tree.modifySlot slot (Content.withValue content)), none)
  | .rename name => pure ({ stage with name := name }, none)
  | .hold visitor mode => .hold visitor mode fun _ => pure (stage, none)
  | .release visitor => .release visitor fun _ => pure (stage, none)
  | .traverse traverser templates ignoreFailure =>
    .traverse (traversers traverser) (Template.expandAll stage.here templates) fun
      | .ok _ => pure (stage, none)
      | .error error =>
        pure (stage, if ignoreFailure then none else some (.traversal error))

/-- Carries out actions in order, up to the first that fails. -/
def Action.runAll (traversers : Nat → Traverser) :
    Stage ρ α → List (Action ρ α) → Routine ρ α (Stage ρ α × Option (Cause WalkError))
  | stage, [] => pure (stage, none)
  | stage, action :: rest => do
    match ← action.run traversers stage with
    | (stage, none) => runAll traversers stage rest
    | failed => pure failed

/-- The answer for a node at hand. -/
def NodeAnswer.reply (node : Tree ρ α) :
    NodeAnswer ρ α → Except (Cause WalkError) (Directive (Tree ρ α))
  | .give .keep => .ok .keep
  | .give (.replace template) => .ok (.replace (template.expandOne (some node)))
  | .give .remove => .ok .remove
  | .give (.splice templates) => .ok (.splice (Template.expandAll (some node) templates))
  | .give .skipChildren => .ok .skipChildren
  | .give .stop => .ok .stop
  | .fail message => .error (.message message)
  | .failShape slot => .error (.shape ⟨node.tag, slot⟩)

/-- The answer for a top-level sequence. -/
def SequenceAnswer.reply (nodes : List (Tree ρ α)) :
    SequenceAnswer ρ α → Except (Cause WalkError) (Option (List (Tree ρ α)))
  | .accept => .ok none
  | .reverse => .ok (some nodes.reverse)
  | .fail message => .error (.message message)
  | .surround front middle back =>
    .ok (some (Template.expandAll none front ++
      (middle.map (Template.expandAll none)).getD nodes ++ Template.expandAll none back))

namespace Script

def nodePart (hook : NodeHook) (script : Script ρ α) : Part ρ α (NodeAnswer ρ α) :=
  match hook with
  | .enter => script.enter
  | .leave => script.leave

def setNodePart (hook : NodeHook) (part : Part ρ α (NodeAnswer ρ α)) (script : Script ρ α) :
    Script ρ α :=
  match hook with
  | .enter => { script with enter := part }
  | .leave => { script with leave := part }

def sequencePart (hook : SequenceHook) (script : Script ρ α) : Part ρ α (SequenceAnswer ρ α) :=
  match hook with
  | .before => script.before
  | .after => script.after

def setSequencePart (hook : SequenceHook) (part : Part ρ α (SequenceAnswer ρ α))
    (script : Script ρ α) : Script ρ α :=
  match hook with
  | .before => { script with before := part }
  | .after => { script with after := part }

/-- What the script does when it is shown a node. -/
def onNode (traversers : Nat → Traverser) (hook : NodeHook) (script : Script ρ α)
    (node : Tree ρ α) : Routine ρ α (NodeResult ρ α (Script ρ α)) :=
  let (clause, part) := (script.nodePart hook).call 0 (some node)
  let script := script.setNodePart hook part
  match clause with
  | none => pure { state := script, node := node }
  | some clause => do
    let (stage, failure) ←
      Action.runAll traversers { name := script.name, here := some node } clause.actions
    let node := stage.here.getD node
    pure {
      state := { script with name := stage.name }
      node := node
      answer := match failure with
        | none => clause.answer.reply node
        | some cause => .error cause }

/-- What the script does when it is shown the top-level sequence. -/
def onSequence (traversers : Nat → Traverser) (hook : SequenceHook) (script : Script ρ α)
    (nodes : List (Tree ρ α)) : Routine ρ α (SequenceResult ρ α (Script ρ α)) :=
  let (clause, part) := (script.sequencePart hook).call nodes.length none
  let script := script.setSequencePart hook part
  match clause with
  | none => pure { state := script }
  | some clause => do
    let (stage, failure) ←
      Action.runAll traversers { name := script.name, here := none } clause.actions
    pure {
      state := { script with name := stage.name }
      answer := match failure with
        | none => clause.answer.reply nodes
        | some cause => .error cause }

def behaviour (traversers : Nat → Traverser) : Behaviour ρ α (Script ρ α) where
  name := Script.name
  node := onNode traversers
  sequence := onSequence traversers

end Script

end ForestWalk
