/-!
To whom a visitor is lent. It can be lent to any number of readers or to one writer, and while one
of its hooks runs it belongs to that call alone. Readers and writers keep it until all that was
lent is given back.
-/

namespace ForestWalk

/-- How a visitor is borrowed. -/
inductive Mode where
  | shared
  | exclusive
deriving Repr, DecidableEq

inductive Lease where
  | readers (count : Nat)
  | writer
  /-- One of the hooks of the visitor is running. -/
  | hook
deriving Repr, DecidableEq

namespace Lease

/-- Lent to nobody. -/
def free : Lease :=
  .readers 0

def isFree : Lease → Bool
  | .readers 0 => true
  | _ => false

/-- Whether the visitor may be looked at by one more reader. -/
def readable : Lease → Bool
  | .readers _ => true
  | _ => false

/-- Lends the visitor once more, where that is possible. -/
def lend : Mode → Lease → Option Lease
  | .shared, .readers count => some (.readers (count + 1))
  | .exclusive, .readers 0 => some .writer
  | _, _ => none

/-- How many borrows are kept. The hold that a running hook has on its visitor is not one. -/
def kept : Lease → Nat
  | .readers count => count
  | .writer => 1
  | .hook => 0

/-- Gives back every borrow that is kept. -/
def giveBack : Lease → Lease
  | .hook => .hook
  | _ => free

end Lease

end ForestWalk
