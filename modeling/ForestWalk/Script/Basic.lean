import ForestWalk.Directive
import ForestWalk.Roster.Lease
import ForestWalk.Script.Template
/-!
Scripts for visitors. For each hook a script has a list of clauses, and of these the first that
applies to a call is carried out: its actions in order, and then its answer.
-/

namespace ForestWalk

/-- When a clause applies. What is left out is not asked for. -/
structure Guard where
  /-- So many earlier calls of the hook. -/
  calls : Option Nat := none
  /-- Fewer than so many times that the clause was carried out before. -/
  times : Option Nat := none
  /-- The number of nodes in the sequence shown; a hook that is shown a node counts none. -/
  length : Option Nat := none
  tag : Option String := none
  /-- How the tag begins. -/
  tagStart : Option String := none
  label : Option String := none
  /-- The number of a slot in which no child stands. -/
  vacant : Option Nat := none
deriving Repr, DecidableEq

/-- One thing that a hook does. Where no node is at hand, or its slot does not fit, an action on
the node does nothing. -/
inductive Action (ρ α : Type) where
  | setTag (tag : String)
  | setLabel (label : Option String)
  | become (template : Template ρ α)
  | clear (slot : Nat)
  | reverse (slot : Nat)
  | push (slot : Nat) (templates : List (Template ρ α))
  | setValue (slot : Nat) (content : α)
  /-- Gives the visitor another name. -/
  | rename (name : String)
  | hold (visitor : Nat) (mode : Mode)
  | release (visitor : Nat)
  /-- Starts a traversal with the traverser of the given number. If it fails so does the hook,
  unless the failure is to be ignored. -/
  | traverse (traverser : Nat) (templates : List (Template ρ α)) (ignoreFailure : Bool)

/-- The answer of a hook that is shown a node. -/
inductive NodeAnswer (ρ α : Type) where
  | give (directive : Directive (Template ρ α))
  | fail (message : String)
  /-- Fails as if the node at hand did not fit the slot. -/
  | failShape (slot : String)

/-- The answer of a hook that is shown the top-level sequence. -/
inductive SequenceAnswer (ρ α : Type) where
  | accept
  | reverse
  | fail (message : String)
  /-- A sequence, or else the one shown, between two others. -/
  | surround (front : List (Template ρ α)) (middle : Option (List (Template ρ α)))
      (back : List (Template ρ α))

structure Clause (ρ α κ : Type) where
  guard : Guard := {}
  actions : List (Action ρ α) := []
  answer : κ
  /-- How often the clause was carried out. -/
  fired : Nat := 0

/-- What a script has for one hook. -/
structure Part (ρ α κ : Type) where
  clauses : List (Clause ρ α κ) := []
  /-- How often the hook was called. -/
  calls : Nat := 0

structure Script (ρ α : Type) where
  name : String := "Script"
  before : Part ρ α (SequenceAnswer ρ α) := {}
  enter : Part ρ α (NodeAnswer ρ α) := {}
  leave : Part ρ α (NodeAnswer ρ α) := {}
  after : Part ρ α (SequenceAnswer ρ α) := {}

namespace Guard

variable {ρ α : Type}

/-- Whether a guard lets a call pass: the `calls`-th of its hook, of a clause that was carried out
`fired` times, with a sequence of the given length and perhaps a node at hand. -/
def passes (guard : Guard) (calls fired length : Nat) (here : Option (Tree ρ α)) : Bool :=
  guard.calls.all (· == calls) && guard.times.all (fired < ·) && guard.length.all (· == length) &&
    here.all fun node =>
      guard.tag.all (· == node.tag) && guard.tagStart.all (node.tag.startsWith ·) &&
        guard.label.all (node.label == some ·) && guard.vacant.all node.vacantAt

end Guard

namespace Part

variable {ρ α κ : Type}

/-- The first clause that lets a call pass, and the clauses after it was counted. -/
def pick (passes : Clause ρ α κ → Bool) :
    List (Clause ρ α κ) → Option (Clause ρ α κ) × List (Clause ρ α κ)
  | [] => (none, [])
  | clause :: rest =>
    if passes clause then (some clause, { clause with fired := clause.fired + 1 } :: rest)
    else
      let (found, rest) := pick passes rest
      (found, clause :: rest)

/-- Counts a call, and finds the clause for it. -/
def call (length : Nat) (here : Option (Tree ρ α)) (part : Part ρ α κ) :
    Option (Clause ρ α κ) × Part ρ α κ :=
  let (found, clauses) := pick
    (fun clause => clause.guard.passes part.calls clause.fired length here) part.clauses
  (found, { clauses := clauses, calls := part.calls + 1 })

end Part

end ForestWalk
