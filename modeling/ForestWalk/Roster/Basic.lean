import ForestWalk.Error.Basic
import ForestWalk.Event
import ForestWalk.Roster.Lease
import ForestWalk.Tree.Basic
/-!
All visitors that there are, each with its state of type `V` and with what is lent of it, and a
journal of what happens: the events of the traversals, the calls of hooks, and what a running hook
does to other visitors.
-/

namespace ForestWalk

/-- An entry of the journal. -/
inductive Entry (ρ α : Type) where
  | event (event : Event)
  /-- A visitor is called with a node. -/
  | nodeCall (visitor : Nat) (hook : NodeHook) (node : Tree ρ α)
  /-- A visitor is called with the top-level sequence. -/
  | sequenceCall (visitor : Nat) (hook : SequenceHook) (nodes : List (Tree ρ α))
  /-- The call of a visitor has ended. -/
  | returned (visitor : Nat)
  /-- A hook of the visitor has tried to borrow another visitor. -/
  | hold (visitor target : Nat) (granted : Bool)
  /-- A hook of the visitor has given back what was borrowed of another. -/
  | release (visitor target count : Nat)
  /-- A traversal that a hook of the visitor started has ended. -/
  | nested (visitor : Nat) (result : Except WalkError (List (Tree ρ α)))

/-- The visitor whose doing an entry tells of. That a traversal makes something known, or that a
call has ended, is nobody's doing. -/
def Entry.doneBy {ρ α : Type} : Entry ρ α → Option Nat
  | .event _ => none
  | .nodeCall visitor _ _ => some visitor
  | .sequenceCall visitor _ _ => some visitor
  | .returned _ => none
  | .hold visitor _ _ => some visitor
  | .release visitor _ _ => some visitor
  | .nested visitor _ => some visitor

/-- A visitor on the roster. -/
structure Cell (V : Type) where
  state : V
  lease : Lease := .free

structure Roster (ρ α V : Type) where
  cells : List (Cell V)
  /-- What has happened, in order. -/
  journal : Array (Entry ρ α) := #[]

namespace Roster

variable {ρ α V : Type}

/-- A roster on which nobody is lent and nothing has happened. -/
def ofList (visitors : List V) : Roster ρ α V where
  cells := visitors.map fun state => { state := state }

def note (entry : Entry ρ α) (roster : Roster ρ α V) : Roster ρ α V :=
  { roster with journal := roster.journal.push entry }

/-- Begins a new journal. -/
def forget (roster : Roster ρ α V) : Roster ρ α V :=
  { roster with journal := #[] }

/-- The events of the journal, in order. -/
def events (roster : Roster ρ α V) : List Event :=
  roster.journal.toList.filterMap fun
    | .event event => some event
    | _ => none

def setLease (visitor : Nat) (lease : Lease) (roster : Roster ρ α V) : Roster ρ α V :=
  { roster with cells := roster.cells.modify visitor fun cell => { cell with lease := lease } }

/-- Tries to borrow a visitor, and says whether that worked. -/
def hold (visitor : Nat) (mode : Mode) (roster : Roster ρ α V) : Bool × Roster ρ α V :=
  match roster.cells[visitor]?.bind fun cell => cell.lease.lend mode with
  | some lease => (true, roster.setLease visitor lease)
  | none => (false, roster)

/-- Gives back all that is kept of a visitor, and says how many borrows that were. -/
def release (visitor : Nat) (roster : Roster ρ α V) : Nat × Roster ρ α V :=
  match roster.cells[visitor]? with
  | some cell => (cell.lease.kept, roster.setLease visitor cell.lease.giveBack)
  | none => (0, roster)

/-- The state of a visitor, where a reader may see it. -/
def read (visitor : Nat) (roster : Roster ρ α V) : Option V :=
  (roster.cells[visitor]?.filter (·.lease.readable)).map (·.state)

/-- Takes a visitor that is free for the length of a call. -/
def takeForCall (visitor : Nat) (roster : Roster ρ α V) : Option (V × Roster ρ α V) :=
  (roster.cells[visitor]?.filter (·.lease.isFree)).map fun cell =>
    (cell.state, roster.setLease visitor .hook)

/-- Puts a visitor back after a call, with the state the call left it in. -/
def putBack (visitor : Nat) (state : V) (roster : Roster ρ α V) : Roster ρ α V :=
  note (.returned visitor) { roster with cells := roster.cells.set visitor { state := state } }

end Roster

end ForestWalk
