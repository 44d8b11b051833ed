import ForestWalk.Tree.Fold
/-!
The outline of a forest: one line for every node in pre-order, with its depth and the name of the
slot it stands in.
-/

namespace ForestWalk

/-- A line of an outline. Nodes of the top level have depth 0 and an empty slot name. -/
structure OutlineLine where
  depth : Nat
  slot : String
  tag : String
  label : Option String
deriving Repr, DecidableEq

namespace Tree

variable {ρ α : Type}

/-- The outline of a tree that stands at a given depth in a slot of the given name. -/
def outlineAt : Tree ρ α → Nat → String → List OutlineLine :=
  fold fun tag label slots depth slotName =>
    ⟨depth, slotName, tag, label⟩ ::
      slots.flatMap fun slot => slot.children.flatMap fun child => child (depth + 1) slot.name

def outline (forest : List (Tree ρ α)) : List OutlineLine :=
  forest.flatMap fun node => node.outlineAt 0 ""

theorem outlineAt_eq (node : Tree ρ α) (depth : Nat) (slotName : String) :
    node.outlineAt depth slotName =
      ⟨depth, slotName, node.tag, node.label⟩ ::
        node.slots.flatMap fun slot =>
          slot.children.flatMap fun child => child.outlineAt (depth + 1) slot.name := by
  rw [outlineAt, fold_eq, List.flatMap_map]
  simp only [Slot.children_map, List.flatMap_map, Slot.name_map]

end Tree

end ForestWalk
