import ForestWalk.Tree.Basic
/-!
Nodes described in a short form. A template may refer to the node at hand, if there is one, and it
may stand for several nodes or for none where nodes are listed.
-/

namespace ForestWalk

inductive Template (ρ α : Type) where
  | node (tag : String) (label : Option String) (slots : List (Slot ρ α (Template ρ α)))
  /-- The node at hand. -/
  | current
  /-- Nodes nested in each other, labelled 0, 1, … from the outermost, with a node in the
  innermost. Each holds the next in a slot, which is a list or else single. -/
  | chain (length : Nat) (tag : String) (inList : Bool) (shape : Option ρ) (leaf : Template ρ α)
  /-- So many nodes which differ in their labels 0, 1, … only. -/
  | copies (count : Nat) (template : Template ρ α)
  /-- The children in a slot of the node at hand. -/
  | children (slot : Nat)

namespace Template

variable {ρ α : Type}

instance : Inhabited (Template ρ α) where
  default := .current

/-- Nests nodes around a node; the first of them is labelled with the given number. -/
def nestAround (leaf : Tree ρ α) (tag : String) (inList : Bool) (shape : Option ρ) :
    Nat → Nat → Tree ρ α
  | _, 0 => leaf
  | number, length + 1 =>
    let inner := nestAround leaf tag inList shape (number + 1) length
    { tag := tag
      label := some number.repr
      slots :=
        [{ rule := { name := "next", shape := shape }
           content := if inList then .list [inner] else .single (some inner) }] }

mutual

/-- The nodes a template stands for. -/
def expand (here : Option (Tree ρ α)) : Template ρ α → List (Tree ρ α)
  | .node tag label slots => [{ tag := tag, label := label, slots := expandSlots here slots }]
  | .current => here.toList
  | .chain length tag inList shape leaf =>
    [nestAround ((expand here leaf).head?.getD default) tag inList shape 0 length]
  | .copies count template =>
    let node := (expand here template).head?.getD default
    (List.range count).map fun number => { node with label := some number.repr }
  | .children slot => (here.map fun node => node.childrenAt slot).getD []

def expandSlots (here : Option (Tree ρ α)) :
    List (Slot ρ α (Template ρ α)) → List (Slot ρ α (Tree ρ α))
  | [] => []
  | ⟨rule, content⟩ :: rest => ⟨rule, expandContent here content⟩ :: expandSlots here rest

def expandContent (here : Option (Tree ρ α)) :
    Content α (Template ρ α) → Content α (Tree ρ α)
  | .single none => .single none
  | .single (some child) => .single (expand here child).head?
  | .list templates => .list (expandAll here templates)
  | .value content => .value content

/-- The nodes that templates stand for, one after the other. -/
def expandAll (here : Option (Tree ρ α)) : List (Template ρ α) → List (Tree ρ α)
  | [] => []
  | template :: rest => expand here template ++ expandAll here rest

end

/-- The node that a template stands for in a place for one node. -/
def expandOne (here : Option (Tree ρ α)) (template : Template ρ α) : Tree ρ α :=
  (template.expand here).head?.getD default

end Template

end ForestWalk
