import ForestWalk.Walk.Visit
/-!
A whole traversal: the visitors are shown the sequence, its nodes are walked, and the visitors are
shown what has come of it. A visitor that stops the walk does not keep the others from seeing the
result; a failure does.
-/

namespace ForestWalk

namespace Walker

variable {ρ α σ : Type} [Admission ρ α] (walker : Walker ρ α σ)

omit [Admission ρ α] in
/-- How many levels a traversal needs room for: with a depth limit, one for every legal depth and
one to find a node that is too deep. Without a limit it takes what the stack has. -/
def room (stack : Nat) : Nat :=
  match walker.options.maxDepth with
  | some limit => limit + 2
  | none => stack

omit [Admission ρ α] in
theorem room_of_limit {limit : Nat} (h : walker.options.maxDepth = some limit) (stack : Nat) :
    walker.room stack = limit + 2 := by
  simp only [room, h]

omit [Admission ρ α] in
theorem room_of_unlimited (h : walker.options.maxDepth = none) (stack : Nat) :
    walker.room stack = stack := by
  simp only [room, h]

/-- Walks the top-level sequence. -/
def walkTop (stack : Nat) (nodes : List (Tree ρ α)) (state : σ) : Sweep (Tree ρ α) σ :=
  walker.walkList (walker.visit (walker.room stack) 0 .topLevel) topLevelName nodes state

omit [Admission ρ α] in
/-- The end of a traversal that was not broken off. -/
def finish (nodes : List (Tree ρ α)) (state : σ) : Sweep (Tree ρ α) σ :=
  ⟨nodes, none, walker.emit (.finished nodes.length) state⟩

/-- Traverses a sequence. The sequence that comes back holds every change made before a failure,
and it is never reported as stopped. -/
def traverse (stack : Nat) (nodes : List (Tree ρ α)) (state : σ) : Sweep (Tree ρ α) σ :=
  let start := walker.emit (.started nodes.length walker.visitors.length) state
  (((walker.showAll .before nodes start).andThen fun nodes state =>
    (walker.walkTop stack nodes state).absorbStop (walker.emit .stopped)).andThen
      (walker.showAll .after)).andThen walker.finish

end Walker

end ForestWalk
