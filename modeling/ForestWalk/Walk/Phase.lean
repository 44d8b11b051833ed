import ForestWalk.Walk.Options
import ForestWalk.Walk.Sweep
/-!
Asking the visitors of a traversal, one after the other, about one node or about the top-level
sequence. A later visitor is shown what the earlier ones left.
-/

namespace ForestWalk

/-- A traversal at work: its visitors in the order in which they are called, its options, and what
is to be done with the events. -/
structure Walker (ρ α σ : Type) where
  visitors : List (Registration ρ α σ)
  options : Options
  emit : Event → σ → σ

/-- The place a node stands in: the kind of place and the rule of the slot. -/
structure Place (ρ : Type) where
  position : Position
  rule : Rule ρ

/-- What the top-level sequence is called where a slot would have its name. -/
def topLevelName : String :=
  "<top-level>"

/-- The top-level sequence takes nodes of every shape. -/
def Place.topLevel {ρ : Type} : Place ρ where
  position := .topLevel
  rule := { name := topLevelName }

/-- What the visitors asked so far made of a node. -/
inductive Verdict (τ : Type) where
  | proceed (node : τ)
  | skipChildren (node : τ)
  | remove
  | splice (nodes : List τ)
  | halt (node : τ) (why : Halt)

namespace Verdict

variable {τ : Type}

/-- What becomes of a node about which no further visitor is asked. -/
def fate : Verdict τ → Fate τ
  | .proceed node => .keep node
  | .skipChildren node => .keep node
  | .remove => .remove
  | .splice nodes => .splice nodes
  | .halt node why => .halt node why

end Verdict

namespace Directive

/-- What a directive makes of the node that a visitor gave it for. -/
def verdict {τ : Type} (node : τ) : Directive τ → Verdict τ
  | .keep => .proceed node
  | .replace new => .proceed new
  | .remove => .remove
  | .splice nodes => .splice nodes
  | .skipChildren => .skipChildren node
  | .stop => .halt node .stopped

/-- The event that tells of the edit of a node in its place. -/
def event {ρ α : Type} (hook : NodeHook) (node : Tree ρ α) :
    Directive (Tree ρ α) → Option Event
  | .replace new => some (.nodeReplaced hook node.tag new.tag)
  | _ => none

end Directive

namespace Options

variable {ρ α : Type} [Admission ρ α] (options : Options)

/-- Follows a directive: says what becomes of the node, and the event that tells of it. An illegal
directive and a directive that brings along a node of the wrong shape fail, and nothing of them is
done. -/
def follow (hook : NodeHook) (place : Place ρ) (site : CallSite) (node : Tree ρ α)
    (directive : Directive (Tree ρ α)) : Verdict (Tree ρ α) × Option Event :=
  if directive.legal hook place.position then
    match options.firstRefused place.rule directive.carried with
    | some refused =>
      (.halt node (.failed (.visitorFailed site (some refused.tag)
        (.shape ⟨refused.tag, place.rule.name⟩))), none)
    | none => (directive.verdict node, directive.event hook node)
  else
    (.halt node (.failed (.illegalDirective site directive.name node.tag place.position)),
      some (.illegalDirective directive.name hook place.position node.tag))

/-- What the reply of a visitor makes of a node, and the event that tells of it. -/
def judge (hook : NodeHook) (place : Place ρ) (site : CallSite) (node : Tree ρ α) :
    NodeReply ρ α → Verdict (Tree ρ α) × Option Event
  | .unavailable =>
    (.halt node (.failed (.visitorFailed site (some node.tag) .unavailable)),
      some (.unavailable site.index (.node hook)))
  | .answered node directive => options.follow hook place site node directive
  | .failed node cause => (.halt node (.failed (.visitorFailed site (some node.tag) cause)), none)
  | .overflowed => (.halt node .overflowed, none)

end Options

/-- What the reply of a visitor makes of the top-level sequence, with the reason if it breaks the
traversal off, and the event that tells of it. -/
def SequenceReply.judge {ρ α : Type} (hook : SequenceHook) (site : CallSite)
    (nodes : List (Tree ρ α)) :
    SequenceReply ρ α → (List (Tree ρ α) × Option Halt) × Option Event
  | .unavailable =>
    ((nodes, some (.failed (.visitorFailed site none .unavailable))),
      some (.unavailable site.index (.sequence hook)))
  | .answered none => ((nodes, none), none)
  | .answered (some new) =>
    ((new, none), some (.sequenceReplaced hook site.index nodes.length new.length))
  | .failed cause => ((nodes, some (.failed (.visitorFailed site none cause))), none)
  | .overflowed => ((nodes, some .overflowed), none)

namespace Walker

variable {ρ α σ : Type} [Admission ρ α] (walker : Walker ρ α σ)

omit [Admission ρ α] in
/-- Makes an event known, if there is one. -/
def tell (event : Option Event) (state : σ) : σ :=
  event.elim state fun event => walker.emit event state

omit [Admission ρ α] in
@[simp] theorem tell_none (state : σ) : walker.tell none state = state :=
  rfl

omit [Admission ρ α] in
@[simp] theorem tell_some (event : Event) (state : σ) :
    walker.tell (some event) state = walker.emit event state :=
  rfl

/-- Asks one visitor about a node. -/
def consult (hook : NodeHook) (place : Place ρ) (index : Nat) (visitor : Registration ρ α σ)
    (node : Tree ρ α) (state : σ) : Verdict (Tree ρ α) × σ :=
  let (reply, state) := visitor.callNode hook node state
  let (verdict, event) :=
    walker.options.judge hook place (visitor.site (.node hook) index state) node reply
  (verdict, walker.tell event state)

/-- Asks visitors about a node until one of them settles what becomes of it. The number is the
place of the first visitor in the list of registrations. -/
def consultFrom (hook : NodeHook) (place : Place ρ) :
    Nat → List (Registration ρ α σ) → Tree ρ α → σ → Verdict (Tree ρ α) × σ
  | _, [], node, state => (.proceed node, state)
  | index, visitor :: rest, node, state =>
    match walker.consult hook place index visitor node state with
    | (.proceed node, state) => consultFrom hook place (index + 1) rest node state
    | settled => settled

/-- Asks all visitors about a node. -/
def consultAll (hook : NodeHook) (place : Place ρ) (node : Tree ρ α) (state : σ) :
    Verdict (Tree ρ α) × σ :=
  walker.consultFrom hook place 0 walker.visitors node state

omit [Admission ρ α] in
/-- Shows the top-level sequence to visitors, and puts another in its place where one asks for
it. -/
def showFrom (hook : SequenceHook) :
    Nat → List (Registration ρ α σ) → List (Tree ρ α) → σ → Sweep (Tree ρ α) σ
  | _, [], nodes, state => ⟨nodes, none, state⟩
  | index, visitor :: rest, nodes, state =>
    let (reply, state) := visitor.callSequence hook nodes state
    match reply.judge hook (visitor.site (.sequence hook) index state) nodes with
    | ((nodes, none), event) => showFrom hook (index + 1) rest nodes (walker.tell event state)
    | ((nodes, some why), event) => ⟨nodes, some why, walker.tell event state⟩

omit [Admission ρ α] in
/-- Shows the top-level sequence to all visitors. -/
def showAll (hook : SequenceHook) (nodes : List (Tree ρ α)) (state : σ) : Sweep (Tree ρ α) σ :=
  walker.showFrom hook 0 walker.visitors nodes state

end Walker

end ForestWalk
