import ForestWalk.Walk.Phase
/-!
Visiting a node: the visitors are asked when it is entered, its slots are walked, and the visitors
are asked again when it is left. A list of nodes is walked from left to right, and the nodes that
are spliced in are not walked.
-/

namespace ForestWalk

/-- Puts any number of items in the place of the one at an index. -/
def spliceAt {τ : Type} (items : Array τ) (index : Nat) (new : List τ)
    (_inRange : index < items.size) : Array τ :=
  items.extract 0 index ++ new.toArray ++ items.extract (index + 1)

@[simp] theorem size_spliceAt {τ : Type} (items : Array τ) (index : Nat) (new : List τ)
    (inRange : index < items.size) :
    (spliceAt items index new inRange).size = items.size - 1 + new.length := by
  simp [spliceAt]
  omega

namespace Walker

variable {ρ α σ : Type} [Admission ρ α] (walker : Walker ρ α σ)

omit [Admission ρ α] in
/-- Walks a list in place from an index on, given what visiting one node does. Nodes that are
spliced in are passed over, and after a removal the next node stands at the same index. -/
def walkFrom (visit : Tree ρ α → σ → Fate (Tree ρ α) × σ) (slot : String) (index : Nat)
    (nodes : Array (Tree ρ α)) (state : σ) : Sweep (Tree ρ α) σ :=
  if inRange : index < nodes.size then
    match visit nodes[index] state with
    | (.keep node, state) => walkFrom visit slot (index + 1) (nodes.set index node) state
    | (.remove, state) =>
      walkFrom visit slot index (nodes.eraseIdx index) (walker.emit (.removed slot index) state)
    | (.splice new, state) =>
      walkFrom visit slot (index + new.length) (spliceAt nodes index new inRange)
        (walker.emit (.spliced slot index new.length) state)
    | (.halt node why, state) => ⟨(nodes.set index node).toList, some why, state⟩
  else
    ⟨nodes.toList, none, state⟩
termination_by nodes.size - index
decreasing_by all_goals (simp; omega)

omit [Admission ρ α] in
/-- Walks a list from its first node on. -/
def walkList (visit : Tree ρ α → σ → Fate (Tree ρ α) × σ) (slot : String)
    (nodes : List (Tree ρ α)) (state : σ) : Sweep (Tree ρ α) σ :=
  walker.walkFrom visit slot 0 nodes.toArray state

omit [Admission ρ α] in
/-- Walks what a slot holds, given what visiting a node in a place does. A node in a single slot
is never replaced by a splice, since that is not legal there. -/
def walkContent (visit : Place ρ → Tree ρ α → σ → Fate (Tree ρ α) × σ) (rule : Rule ρ) :
    Content α (Tree ρ α) → σ → Content α (Tree ρ α) × Option Halt × σ
  | .single none, state => (.single none, none, state)
  | .single (some child), state =>
    match visit ⟨.single, rule⟩ child state with
    | (.keep child, state) => (.single (some child), none, state)
    | (.remove, state) => (.single none, none, walker.emit (.cleared rule.name) state)
    | (.splice _, state) => (.single (some child), none, state)
    | (.halt child why, state) => (.single (some child), some why, state)
  | .list children, state =>
    let swept := walker.walkList (visit ⟨.list, rule⟩) rule.name children state
    (.list swept.items, swept.halt, swept.state)
  | .value content, state => (.value content, none, state)

omit [Admission ρ α] in
/-- Walks slots in order, given what visiting a node in a place does. -/
def walkSlots (visit : Place ρ → Tree ρ α → σ → Fate (Tree ρ α) × σ) :
    List (Slot ρ α (Tree ρ α)) → σ → Sweep (Slot ρ α (Tree ρ α)) σ
  | [], state => ⟨[], none, state⟩
  | ⟨rule, content⟩ :: rest, state =>
    match walker.walkContent visit rule content state with
    | (content, none, state) => (walkSlots visit rest state).prepend [⟨rule, content⟩]
    | (content, some why, state) => ⟨⟨rule, content⟩ :: rest, some why, state⟩

/-- Leaves a node: asks the visitors for the second time. -/
def leave (place : Place ρ) (node : Tree ρ α) (state : σ) : Fate (Tree ρ α) × σ :=
  let (verdict, state) := walker.consultAll .leave place node state
  (verdict.fate, state)

/-- Visits a node that stands at a depth in a place. The first argument is the number of levels
that the stack has room for. -/
def visit : Nat → Nat → Place ρ → Tree ρ α → σ → Fate (Tree ρ α) × σ
  | 0, _, _, node, state => (.halt node .overflowed, state)
  | room + 1, depth, place, node, state =>
    match walker.options.exceededAt depth with
    | some limit =>
      (.halt node (.failed (.tooDeep limit node.tag)),
        walker.emit (.tooDeep limit node.tag) state)
    | none =>
      match walker.consultAll .enter place node state with
      | (.proceed node, state) =>
        let swept := walker.walkSlots (visit room (depth + 1)) node.slots state
        let node := { node with slots := swept.items }
        match swept.halt with
        | none => walker.leave place node swept.state
        | some why => (.halt node why, swept.state)
      | (.skipChildren node, state) => walker.leave place node state
      | (verdict, state) => (verdict.fate, state)

end Walker

end ForestWalk
