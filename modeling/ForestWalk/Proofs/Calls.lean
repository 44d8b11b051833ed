import ForestWalk.Proofs.Acts
import ForestWalk.Proofs.Leases
import ForestWalk.Traverser.Run
/-!
How the call of a visitor goes. A visitor that is lent to somebody cannot be called, and then
nothing changes. Any other visitor is taken for the length of the call, and the routine of its hook
is carried out. What the routine ends with is the reply, be it an answer or a failure, and the
visitor is put back in the state in which the routine leaves it.
-/

namespace ForestWalk

variable {ρ α V : Type}

namespace Act

/-- The call that an act makes: the place of the visitor on the list, the hook, and the tag of the
node in hand. -/
def call? : Act ρ α → Option (Nat × Hook × Option String)
  | .event _ => none
  | .node index _ hook shown _ => some (index, .node hook, some shown.tag)
  | .sequence index _ hook _ _ => some (index, .sequence hook, none)

/-- The name that the visitor goes by. -/
def name? : Act ρ α → Option String
  | .event _ => none
  | .node _ name _ _ _ | .sequence _ name _ _ _ => some name

/-- Whether the visitor could not be called. -/
def isRefused : Act ρ α → Bool
  | .node _ _ _ _ .unavailable | .sequence _ _ _ _ .unavailable => true
  | _ => false

end Act

namespace Roster

/-- A visitor of the roster is called, and its reply is as in the act. The hook begins in the state
that the visitor is in, with the visitor taken and the call noted. -/
inductive Called (behaviour : Behaviour ρ α V) (nested : Traversal ρ α V) (visitor : Nat)
    (roster : Roster ρ α V) : Act ρ α → Roster ρ α V → Prop
  | lentForNode {index : Nat} {name : String} {hook : NodeHook} {node : Tree ρ α}
      (lent : roster.lease visitor ≠ some .free) :
      Called behaviour nested visitor roster (.node index name hook node .unavailable) roster
  | nodeAnswered {index : Nat} {name : String} {hook : NodeHook} {node left : Tree ρ α}
      {state final : V} {directive : Directive (Tree ρ α)} {last : Roster ρ α V}
      (free : roster.cells[visitor]? = some { state := state })
      (ended : (behaviour.node hook state node).perform nested visitor
          ((roster.setLease visitor .hook).note (.nodeCall visitor hook node)) =
        (some { state := final, node := left, answer := .ok directive }, last)) :
      Called behaviour nested visitor roster
        (.node index name hook node (.answered left directive)) (last.putBack visitor final)
  | nodeFailed {index : Nat} {name : String} {hook : NodeHook} {node left : Tree ρ α}
      {state final : V} {cause : Cause WalkError} {last : Roster ρ α V}
      (free : roster.cells[visitor]? = some { state := state })
      (ended : (behaviour.node hook state node).perform nested visitor
          ((roster.setLease visitor .hook).note (.nodeCall visitor hook node)) =
        (some { state := final, node := left, answer := .error cause }, last)) :
      Called behaviour nested visitor roster
        (.node index name hook node (.failed left cause)) (last.putBack visitor final)
  | nodeOverflows {index : Nat} {name : String} {hook : NodeHook} {node : Tree ρ α} {state : V}
      {last : Roster ρ α V} (free : roster.cells[visitor]? = some { state := state })
      (endless : (behaviour.node hook state node).perform nested visitor
          ((roster.setLease visitor .hook).note (.nodeCall visitor hook node)) = (none, last)) :
      Called behaviour nested visitor roster (.node index name hook node .overflowed) last
  | lentForSequence {index : Nat} {name : String} {hook : SequenceHook} {nodes : List (Tree ρ α)}
      (lent : roster.lease visitor ≠ some .free) :
      Called behaviour nested visitor roster (.sequence index name hook nodes .unavailable) roster
  | sequenceAnswered {index : Nat} {name : String} {hook : SequenceHook} {nodes : List (Tree ρ α)}
      {state final : V} {replacement : Option (List (Tree ρ α))} {last : Roster ρ α V}
      (free : roster.cells[visitor]? = some { state := state })
      (ended : (behaviour.sequence hook state nodes).perform nested visitor
          ((roster.setLease visitor .hook).note (.sequenceCall visitor hook nodes)) =
        (some { state := final, answer := .ok replacement }, last)) :
      Called behaviour nested visitor roster
        (.sequence index name hook nodes (.answered replacement)) (last.putBack visitor final)
  | sequenceFailed {index : Nat} {name : String} {hook : SequenceHook} {nodes : List (Tree ρ α)}
      {state final : V} {cause : Cause WalkError} {last : Roster ρ α V}
      (free : roster.cells[visitor]? = some { state := state })
      (ended : (behaviour.sequence hook state nodes).perform nested visitor
          ((roster.setLease visitor .hook).note (.sequenceCall visitor hook nodes)) =
        (some { state := final, answer := .error cause }, last)) :
      Called behaviour nested visitor roster
        (.sequence index name hook nodes (.failed cause)) (last.putBack visitor final)
  | sequenceOverflows {index : Nat} {name : String} {hook : SequenceHook}
      {nodes : List (Tree ρ α)} {state : V} {last : Roster ρ α V}
      (free : roster.cells[visitor]? = some { state := state })
      (endless : (behaviour.sequence hook state nodes).perform nested visitor
          ((roster.setLease visitor .hook).note (.sequenceCall visitor hook nodes)) =
        (none, last)) :
      Called behaviour nested visitor roster (.sequence index name hook nodes .overflowed) last

variable {behaviour : Behaviour ρ α V} {nested : Traversal ρ α V} {visitor index : Nat}
  {name : String} {roster final : Roster ρ α V}

/-- A visitor that is lent cannot be called with a node. -/
lemma callNode_of_lent (behaviour : Behaviour ρ α V) (nested : Traversal ρ α V)
    (lent : roster.lease visitor ≠ some .free) (hook : NodeHook) (node : Tree ρ α) :
    roster.callNode behaviour nested visitor hook node = (.unavailable, roster) := by
  simp only [callNode, takeForCall_eq_none_iff.2 lent]

/-- A visitor that is lent cannot be called with the sequence. -/
lemma callSequence_of_lent (behaviour : Behaviour ρ α V) (nested : Traversal ρ α V)
    (lent : roster.lease visitor ≠ some .free) (hook : SequenceHook) (nodes : List (Tree ρ α)) :
    roster.callSequence behaviour nested visitor hook nodes = (.unavailable, roster) := by
  simp only [callSequence, takeForCall_eq_none_iff.2 lent]

/-- The call of a visitor with a node goes in just one of these ways. -/
theorem called_node_iff {hook : NodeHook} {node : Tree ρ α} {reply : NodeReply ρ α} :
    roster.Called behaviour nested visitor (.node index name hook node reply) final ↔
      roster.callNode behaviour nested visitor hook node = (reply, final) := by
  constructor
  · intro called
    cases called with
    | lentForNode lent => exact callNode_of_lent behaviour nested lent hook node
    | nodeAnswered free ended | nodeFailed free ended =>
      simp only [callNode, takeForCall_of_free free, ended]
    | nodeOverflows free endless => simp only [callNode, takeForCall_of_free free, endless]
  · intro hcall
    rcases htake : roster.takeForCall visitor with _ | ⟨state, taken⟩
    · have lent := takeForCall_eq_none_iff.1 htake
      rw [callNode_of_lent behaviour nested lent] at hcall
      cases hcall
      exact .lentForNode lent
    · obtain ⟨free, rfl⟩ := exists_free_of_takeForCall htake
      -- What the routine ends with tells the ways apart.
      rcases hended : (behaviour.node hook state node).perform nested visitor
          ((roster.setLease visitor .hook).note (.nodeCall visitor hook node)) with
        ⟨_ | ⟨state', left, cause | directive⟩, last⟩
      all_goals
        simp only [callNode, htake, hended] at hcall
        cases hcall
      · exact .nodeOverflows free hended
      · exact .nodeFailed free hended
      · exact .nodeAnswered free hended

/-- The call of a visitor with the sequence goes in just one of these ways. -/
theorem called_sequence_iff {hook : SequenceHook} {nodes : List (Tree ρ α)}
    {reply : SequenceReply ρ α} :
    roster.Called behaviour nested visitor (.sequence index name hook nodes reply) final ↔
      roster.callSequence behaviour nested visitor hook nodes = (reply, final) := by
  constructor
  · intro called
    cases called with
    | lentForSequence lent => exact callSequence_of_lent behaviour nested lent hook nodes
    | sequenceAnswered free ended | sequenceFailed free ended =>
      simp only [callSequence, takeForCall_of_free free, ended]
    | sequenceOverflows free endless =>
      simp only [callSequence, takeForCall_of_free free, endless]
  · intro hcall
    rcases htake : roster.takeForCall visitor with _ | ⟨state, taken⟩
    · have lent := takeForCall_eq_none_iff.1 htake
      rw [callSequence_of_lent behaviour nested lent] at hcall
      cases hcall
      exact .lentForSequence lent
    · obtain ⟨free, rfl⟩ := exists_free_of_takeForCall htake
      rcases hended : (behaviour.sequence hook state nodes).perform nested visitor
          ((roster.setLease visitor .hook).note (.sequenceCall visitor hook nodes)) with
        ⟨_ | ⟨state', cause | replacement⟩, last⟩
      all_goals
        simp only [callSequence, htake, hended] at hcall
        cases hcall
      · exact .sequenceOverflows free hended
      · exact .sequenceFailed free hended
      · exact .sequenceAnswered free hended

namespace Called

variable {act : Act ρ α}

/-- A call is refused just if the visitor is not free. -/
theorem isRefused_iff (called : roster.Called behaviour nested visitor act final) :
    act.isRefused = true ↔ roster.lease visitor ≠ some .free := by
  cases called with
  | lentForNode lent | lentForSequence lent => exact iff_of_true rfl lent
  | nodeAnswered free | nodeFailed free | nodeOverflows free
  | sequenceAnswered free | sequenceFailed free | sequenceOverflows free =>
    exact iff_of_false nofun (not_not_intro (lease_eq_some_iff.2 ⟨_, free, rfl⟩))

/-- A call that is refused changes nothing. -/
lemma eq_of_refused (called : roster.Called behaviour nested visitor act final)
    (refused : act.isRefused = true) : final = roster := by
  cases called with
  | lentForNode | lentForSequence => rfl
  | nodeAnswered | nodeFailed | nodeOverflows
  | sequenceAnswered | sequenceFailed | sequenceOverflows => cases refused

end Called

end Roster

end ForestWalk
