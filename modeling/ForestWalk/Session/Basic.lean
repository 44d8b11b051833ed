import ForestWalk.Script.Behaviour
import ForestWalk.Traverser.Run
import ForestWalk.Visitor.Observer
/-!
Sessions: a roster of visitors, any number of traversers, and a buffer that holds the sequence
which is traversed. A step that fails does not end a session.
-/

namespace ForestWalk

/-- A visitor of a session: one that only looks on, or one with a script. -/
abbrev Member (ρ α : Type) :=
  Observer ⊕ Script ρ α

/-- The counter that a visitor is, if it is one. -/
def Member.counter? {ρ α : Type} : Member ρ α → Option Counter
  | .inl (.inr (.inr counter)) => some counter
  | _ => none

structure Session (ρ α : Type) where
  traversers : List Traverser
  roster : Roster ρ α (Member ρ α)
  buffer : List (Tree ρ α) := []

/-- What a traversal does with the buffer. -/
inductive Handover where
  /-- It takes the buffer, and gives back the result if it succeeds. -/
  | owned
  /-- It works on the buffer itself. -/
  | inPlace
  /-- It works on a copy. -/
  | cloned
deriving Repr, DecidableEq

inductive Step (ρ α : Type) where
  /-- Opens a traverser. -/
  | newTraverser (options : Options)
  | add (traverser visitor : Nat)
  | remove (traverser visitor : Nat)
  | options (traverser : Nat)
  | hold (visitor : Nat) (mode : Mode)
  | release (visitor : Nat)
  /-- Looks at the state of a visitor. -/
  | state (visitor : Nat)
  /-- Asks a counter about a tag; a visitor that does not count has no number to give. -/
  | count (visitor : Nat) (tag : String)
  | name (visitor : Nat)
  | callNode (visitor : Nat) (hook : NodeHook) (node : Template ρ α)
  | callSequence (visitor : Nat) (hook : SequenceHook) (nodes : List (Template ρ α))
  /-- Traverses the buffer, which is filled anew before if nodes are given. -/
  | traverse (traverser : Nat) (nodes : Option (List (Template ρ α))) (handover : Handover)

/-- What is known at the end of a traversal. -/
structure Ending (ρ α : Type) where
  /-- The result, or the buffer of a traversal in place. -/
  nodes : Option (List (Tree ρ α))
  error : Option WalkError
  /-- The buffer of a traversal that works on a copy. -/
  input : Option (List (Tree ρ α))
  /-- What the visitors with scripts did. -/
  log : List (Entry ρ α)
  events : List Event

inductive Answer (ρ α : Type) where
  | number (n : Nat)
  | flag (b : Bool)
  | removed (found : Bool) (count : Nat)
  | options (options : Options)
  /-- The visitor is lent to somebody else. -/
  | borrowed
  | state (member : Member ρ α)
  /-- The number of nodes counted, if the visitor counts at all. -/
  | count (n : Option Nat)
  | name (name : String)
  | nodeReply (node : Tree ρ α) (answer : Except (Cause WalkError) (Directive (Tree ρ α)))
  | sequenceReply (answer : Except (Cause WalkError) (Option (List (Tree ρ α))))
  | ending (ending : Ending ρ α)
  /-- The stack was too small. -/
  | overflowed

namespace Session

variable {ρ α : Type}

/-- A session with one traverser, on whose list the given visitors stand. -/
def start (members : List (Member ρ α)) (options : Options) (registered : List Nat) :
    Session ρ α where
  traversers := [{ visitors := registered, options := options }]
  roster := .ofList members

/-- The traverser that goes by a number. -/
def traverser (session : Session ρ α) (number : Nat) : Traverser :=
  session.traversers[number]?.getD default

def modifyTraverser (number : Nat) (f : Traverser → Traverser) (session : Session ρ α) :
    Session ρ α :=
  { session with traversers := session.traversers.modify number f }

def behaviour (session : Session ρ α) : Behaviour ρ α (Member ρ α) :=
  Observer.behaviour.sum (Script.behaviour session.traverser)

/-- The entries of the journal that tell of the doings of visitors with scripts. -/
def log (session : Session ρ α) : List (Entry ρ α) :=
  session.roster.journal.toList.filter fun entry =>
    entry.doneBy.any fun visitor =>
      session.roster.cells[visitor]?.any fun cell => cell.state.isRight

variable [Admission ρ α]

/-- How a traversal of the session runs. -/
def traversal (stack : Nat) (session : Session ρ α) : Traversal ρ α (Member ρ α) :=
  Traverser.traverseInPlace session.behaviour stack

/-- Traverses the buffer. -/
def traverse (stack number : Nat) (handover : Handover) (session : Session ρ α) :
    Answer ρ α × Session ρ α :=
  let sweep := session.traversal stack (session.traverser number) session.buffer
    session.roster.forget
  match sweep.result with
  | none => (.overflowed, { session with roster := sweep.state })
  | some result =>
    let buffer :=
      match handover with
      | .owned => result.toOption.getD []
      | .inPlace => sweep.items
      | .cloned => session.buffer
    let session := { session with roster := sweep.state, buffer := buffer }
    (.ending {
      nodes := if handover = .inPlace then some buffer else result.toOption
      error := match result with
        | .ok _ => none
        | .error error => some error
      input := if handover = .cloned then some buffer else none
      log := session.log
      events := session.roster.events }, session)

/-- Calls a hook that is shown a node. -/
def callNode (stack visitor : Nat) (hook : NodeHook) (node : Tree ρ α) (session : Session ρ α) :
    Answer ρ α × Session ρ α :=
  let (reply, roster) :=
    session.roster.callNode session.behaviour (session.traversal stack) visitor hook node
  (match reply with
    | .unavailable => .borrowed
    | .answered node directive => .nodeReply node (.ok directive)
    | .failed node cause => .nodeReply node (.error cause)
    | .overflowed => .overflowed,
    { session with roster := roster })

/-- Calls a hook that is shown a sequence. -/
def callSequence (stack visitor : Nat) (hook : SequenceHook) (nodes : List (Tree ρ α))
    (session : Session ρ α) : Answer ρ α × Session ρ α :=
  let (reply, roster) :=
    session.roster.callSequence session.behaviour (session.traversal stack) visitor hook nodes
  (match reply with
    | .unavailable => .borrowed
    | .answered replacement => .sequenceReply (.ok replacement)
    | .failed cause => .sequenceReply (.error cause)
    | .overflowed => .overflowed,
    { session with roster := roster })

/-- Answers what can be read off the state of a visitor. -/
def inspect (visitor : Nat) (f : Member ρ α → Answer ρ α) (session : Session ρ α) : Answer ρ α :=
  ((session.roster.read visitor).map f).getD .borrowed

/-- Takes one step. -/
def step (stack : Nat) (session : Session ρ α) : Step ρ α → Answer ρ α × Session ρ α
  | .newTraverser options =>
    (.number session.traversers.length,
      { session with traversers := session.traversers ++ [{ options := options }] })
  | .add number visitor =>
    let session := session.modifyTraverser number (.add visitor)
    (.number (session.traverser number).count, session)
  | .remove number visitor =>
    let found := (session.traverser number).visitors.contains visitor
    let session := session.modifyTraverser number (.remove visitor)
    (.removed found (session.traverser number).count, session)
  | .options number => (.options (session.traverser number).options, session)
  | .hold visitor mode =>
    let (granted, roster) := session.roster.hold visitor mode
    (.flag granted, { session with roster := roster })
  | .release visitor =>
    let (count, roster) := session.roster.release visitor
    (.number count, { session with roster := roster })
  | .state visitor => (session.inspect visitor .state, session)
  | .count visitor tag =>
    match session.roster.cells[visitor]?.bind fun cell => Member.counter? cell.state with
    | some counter =>
      (session.inspect visitor fun _ => .count (some (counter.count tag)), session)
    | none => (.count none, session)
  | .name visitor =>
    (session.inspect visitor fun member => .name (session.behaviour.name member), session)
  | .callNode visitor hook node => session.callNode stack visitor hook (node.expandOne none)
  | .callSequence visitor hook nodes =>
    session.callSequence stack visitor hook (Template.expandAll none nodes)
  | .traverse number nodes handover =>
    let buffer := (nodes.map (Template.expandAll none)).getD session.buffer
    traverse stack number handover { session with buffer := buffer }

/-- Takes steps one after the other. -/
def run (stack : Nat) : Session ρ α → List (Step ρ α) → List (Answer ρ α)
  | _, [] => []
  | session, step :: rest =>
    let (answer, session) := session.step stack step
    answer :: run stack session rest

end Session

end ForestWalk
