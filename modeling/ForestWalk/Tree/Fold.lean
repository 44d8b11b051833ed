import ForestWalk.Tree.Basic
/-!
Folding a tree from its leaves up. `fold_eq` is the equation of the fold, and `Tree.induction`
proves a property of every tree from the property of its children.
-/

namespace ForestWalk

namespace Tree

variable {ρ α β : Type}

mutual

/-- Builds a value from the tag, the label and the slots of a node, after the same was done to
every child. -/
def fold (f : String → Option String → List (Slot ρ α β) → β) : Tree ρ α → β
  | ⟨tag, label, slots⟩ => f tag label (foldSlots f slots)

def foldSlots (f : String → Option String → List (Slot ρ α β) → β) :
    List (Slot ρ α (Tree ρ α)) → List (Slot ρ α β)
  | [] => []
  | ⟨rule, content⟩ :: rest => ⟨rule, foldContent f content⟩ :: foldSlots f rest

def foldContent (f : String → Option String → List (Slot ρ α β) → β) :
    Content α (Tree ρ α) → Content α β
  | .single none => .single none
  | .single (some child) => .single (some (fold f child))
  | .list children => .list (foldList f children)
  | .value content => .value content

def foldList (f : String → Option String → List (Slot ρ α β) → β) :
    List (Tree ρ α) → List β
  | [] => []
  | child :: rest => fold f child :: foldList f rest

end

variable (f : String → Option String → List (Slot ρ α β) → β)

theorem foldList_eq (forest : List (Tree ρ α)) : foldList f forest = forest.map (fold f) := by
  induction forest with
  | nil => rfl
  | cons child rest ih => rw [foldList, ih, List.map_cons]

theorem foldContent_eq (content : Content α (Tree ρ α)) :
    foldContent f content = content.map (fold f) := by
  match content with
  | .single none => rfl
  | .single (some _) => rfl
  | .list children => rw [foldContent, foldList_eq, Content.map]
  | .value _ => rfl

theorem foldSlots_eq (slots : List (Slot ρ α (Tree ρ α))) :
    foldSlots f slots = slots.map (Slot.map (fold f)) := by
  induction slots with
  | nil => rfl
  | cons slot rest ih => rw [foldSlots, foldContent_eq, ih, List.map_cons, Slot.map]

/-- The children are folded where they stand. -/
theorem fold_eq (node : Tree ρ α) :
    node.fold f = f node.tag node.label (node.slots.map (Slot.map (fold f))) := by
  cases node
  rw [fold, foldSlots_eq]

theorem sizeOf_lt_of_mem_children {child node : Tree ρ α} (h : child ∈ node.children) :
    sizeOf child < sizeOf node := by
  obtain ⟨tag, label, slots⟩ := node
  obtain ⟨slot, hslot, hchild⟩ := List.mem_flatMap.1 h
  have hs := List.sizeOf_lt_of_mem hslot
  obtain ⟨rule, content⟩ := slot
  simp only [Slot.children] at hchild
  simp only [Slot.mk.sizeOf_spec, mk.sizeOf_spec] at hs ⊢
  match content with
  | .single none => simp [Content.children] at hchild
  | .single (some occupant) =>
    obtain rfl : child = occupant := by simpa [Content.children] using hchild
    simp only [Content.single.sizeOf_spec, Option.some.sizeOf_spec] at hs
    omega
  | .list children =>
    have := List.sizeOf_lt_of_mem (show child ∈ children from hchild)
    simp only [Content.list.sizeOf_spec] at hs
    omega
  | .value _ => simp [Content.children] at hchild

/-- A property that passes from the children of a node to the node holds of every tree. -/
theorem induction {P : Tree ρ α → Prop}
    (step : ∀ node : Tree ρ α, (∀ child ∈ node.children, P child) → P node)
    (node : Tree ρ α) : P node :=
  step node fun child _ => induction step child
termination_by sizeOf node
decreasing_by exact sizeOf_lt_of_mem_children ‹_›

/-- The number of nodes of a tree. -/
def size : Tree ρ α → Nat :=
  fold fun _ _ slots => 1 + (slots.flatMap Slot.children).foldr (· + ·) 0

/-- The number of levels below the root. -/
def depth : Tree ρ α → Nat :=
  fold fun _ _ slots => (slots.flatMap Slot.children).foldr (fun d rest => max (d + 1) rest) 0

theorem flatMap_children_map (g : Tree ρ α → β) (slots : List (Slot ρ α (Tree ρ α))) :
    (slots.map (Slot.map g)).flatMap Slot.children = (slots.flatMap Slot.children).map g := by
  simp [List.flatMap_map, List.map_flatMap]

theorem size_eq (node : Tree ρ α) :
    node.size = 1 + (node.children.map size).foldr (· + ·) 0 := by
  rw [size, fold_eq, flatMap_children_map]
  rfl

theorem depth_eq (node : Tree ρ α) :
    node.depth = (node.children.map depth).foldr (fun d rest => max (d + 1) rest) 0 := by
  rw [depth, fold_eq, flatMap_children_map]
  rfl

theorem depth_lt_of_mem_children {child node : Tree ρ α} (h : child ∈ node.children) :
    child.depth < node.depth := by
  rw [depth_eq node]
  generalize node.children = children at h
  induction children with
  | nil => cases h
  | cons first rest ih =>
    rw [List.map_cons, List.foldr_cons]
    rcases List.mem_cons.1 h with rfl | hrest
    · omega
    · have := ih hrest
      omega

theorem depth_le_of_children {node : Tree ρ α} {bound : Nat}
    (h : ∀ child ∈ node.children, child.depth < bound) : node.depth ≤ bound := by
  rw [depth_eq node]
  generalize node.children = children at h
  induction children with
  | nil => exact Nat.zero_le bound
  | cons first rest ih =>
    obtain ⟨hfirst, hrest⟩ := List.forall_mem_cons.1 h
    rw [List.map_cons, List.foldr_cons]
    have := ih hrest
    omega

theorem size_pos (node : Tree ρ α) : 0 < node.size := by
  rw [size_eq node]
  omega

theorem size_lt_of_mem_children {child node : Tree ρ α} (h : child ∈ node.children) :
    child.size < node.size := by
  rw [size_eq node]
  generalize node.children = children at h
  induction children with
  | nil => cases h
  | cons first rest ih =>
    rw [List.map_cons, List.foldr_cons]
    rcases List.mem_cons.1 h with rfl | hrest
    · omega
    · have := ih hrest
      omega

end Tree

end ForestWalk
