/-!
Trees whose nodes keep their children in named slots. A slot holds at most one child, or a list of
children, or a value that is no child at all. `Tree.children` lists the children of a node in slot
order.

The type `ρ` names the shapes a slot can ask of its children, and `α` is the type of the values
that are not walked.
-/

namespace ForestWalk

/-- What a slot is called and, if it is particular about its children, the shape it asks of
them. -/
structure Rule (ρ : Type) where
  name : String
  shape : Option ρ := none
deriving Repr, DecidableEq

/-- The three kinds of slot. -/
inductive SlotKind where
  | single
  | list
  | value
deriving Repr, DecidableEq

/-- What a slot holds, with children of type `τ`. -/
inductive Content (α τ : Type) where
  | single (child : Option τ)
  | list (children : List τ)
  | value (content : α)

/-- A slot of a node: its rule and what it holds. -/
structure Slot (ρ α τ : Type) where
  rule : Rule ρ
  content : Content α τ

/-- A node with everything below it. -/
structure Tree (ρ α : Type) where
  tag : String
  label : Option String := none
  slots : List (Slot ρ α (Tree ρ α)) := []

namespace Content

variable {α τ υ : Type}

def kind : Content α τ → SlotKind
  | .single _ => .single
  | .list _ => .list
  | .value _ => .value

/-- The children held, in order; a value holds none. -/
def children : Content α τ → List τ
  | .single child => child.toList
  | .list children => children
  | .value _ => []

def map (f : τ → υ) : Content α τ → Content α υ
  | .single child => .single (child.map f)
  | .list children => .list (children.map f)
  | .value content => .value content

@[simp] theorem children_map (f : τ → υ) (content : Content α τ) :
    (content.map f).children = content.children.map f := by
  cases content with
  | single child => cases child <;> rfl
  | list children => rfl
  | value content => rfl

@[simp] theorem kind_map (f : τ → υ) (content : Content α τ) :
    (content.map f).kind = content.kind := by
  cases content <;> rfl

@[simp] theorem map_map {φ : Type} (f : τ → υ) (g : υ → φ) (content : Content α τ) :
    (content.map f).map g = content.map (g ∘ f) := by
  cases content <;> simp [map]

@[simp] theorem map_id (content : Content α τ) : content.map id = content := by
  cases content <;> simp [map]

theorem map_congr {f g : τ → υ} {content : Content α τ}
    (h : ∀ child ∈ content.children, f child = g child) : content.map f = content.map g := by
  cases content with
  | single child =>
    refine congrArg single (Option.map_congr fun child hmem => h child ?_)
    simpa [children] using hmem
  | list children => exact congrArg list (List.map_congr_left h)
  | value content => rfl

/-- Takes every child out; a value stays. -/
def cleared : Content α τ → Content α τ
  | .single _ => .single none
  | .list _ => .list []
  | .value content => .value content

/-- Turns a list of children around. -/
def reversed : Content α τ → Content α τ
  | .list children => .list children.reverse
  | content => content

/-- Puts further children into a slot: at the end of a list, while a single slot takes the first
of them in place of its occupant. -/
def filled (more : List τ) : Content α τ → Content α τ
  | .single child => .single (more.head?.or child)
  | .list children => .list (children ++ more)
  | .value content => .value content

/-- Gives children to a slot: a list has all of them added at its end, while a single slot holds
the first of them and nothing else. -/
def assigned (given : List τ) : Content α τ → Content α τ
  | .single _ => .single given.head?
  | content => content.filled given

/-- Gives a value slot another value. -/
def withValue (new : α) : Content α τ → Content α τ
  | .value _ => .value new
  | content => content

end Content

namespace Slot

variable {ρ α τ υ : Type}

def name (slot : Slot ρ α τ) : String :=
  slot.rule.name

def kind (slot : Slot ρ α τ) : SlotKind :=
  slot.content.kind

def children (slot : Slot ρ α τ) : List τ :=
  slot.content.children

def map (f : τ → υ) (slot : Slot ρ α τ) : Slot ρ α υ :=
  { rule := slot.rule, content := slot.content.map f }

@[simp] theorem name_map (f : τ → υ) (slot : Slot ρ α τ) : (slot.map f).name = slot.name :=
  rfl

@[simp] theorem children_map (f : τ → υ) (slot : Slot ρ α τ) :
    (slot.map f).children = slot.children.map f :=
  slot.content.children_map f

@[simp] theorem map_map {φ : Type} (f : τ → υ) (g : υ → φ) (slot : Slot ρ α τ) :
    (slot.map f).map g = slot.map (g ∘ f) :=
  congrArg (Slot.mk slot.rule) (slot.content.map_map f g)

@[simp] theorem map_id (slot : Slot ρ α τ) : slot.map id = slot :=
  congrArg (Slot.mk slot.rule) slot.content.map_id

theorem map_congr {f g : τ → υ} {slot : Slot ρ α τ}
    (h : ∀ child ∈ slot.children, f child = g child) : slot.map f = slot.map g :=
  congrArg (Slot.mk slot.rule) (Content.map_congr h)

end Slot

namespace Tree

variable {ρ α : Type}

instance : Inhabited (Tree ρ α) where
  default := { tag := "" }

/-- The names of the slots, in order. -/
def slotNames (node : Tree ρ α) : List String :=
  node.slots.map Slot.name

/-- The children in slot order. -/
def children (node : Tree ρ α) : List (Tree ρ α) :=
  node.slots.flatMap Slot.children

/-- Changes what slot number `i` holds; a node without such a slot stays as it is. -/
def modifySlot (i : Nat) (f : Content α (Tree ρ α) → Content α (Tree ρ α))
    (node : Tree ρ α) : Tree ρ α :=
  { node with slots := node.slots.modify i fun slot => { slot with content := f slot.content } }

@[simp] theorem modifySlot_tag (i : Nat) (f : Content α (Tree ρ α) → Content α (Tree ρ α))
    (node : Tree ρ α) : (node.modifySlot i f).tag = node.tag :=
  rfl

@[simp] theorem slotNames_modifySlot (i : Nat)
    (f : Content α (Tree ρ α) → Content α (Tree ρ α)) (node : Tree ρ α) :
    (node.modifySlot i f).slotNames = node.slotNames := by
  simp only [slotNames, modifySlot]
  induction node.slots generalizing i with
  | nil => simp
  | cons slot rest ih => cases i <;> simp [List.modify_succ_cons, ih, Slot.name]

/-- Gives the same children to every slot, whether they fit or not. -/
def assignSlots (given : List (Tree ρ α)) (node : Tree ρ α) : Tree ρ α :=
  { node with
    slots := node.slots.map fun slot => { slot with content := slot.content.assigned given } }

/-- The children in slot number `i`, none if there is no such slot. -/
def childrenAt (i : Nat) (node : Tree ρ α) : List (Tree ρ α) :=
  (node.slots[i]?.map Slot.children).getD []

/-- No child stands in slot number `i`, be it that the slot is empty, holds a value or does not
exist. -/
def vacantAt (i : Nat) (node : Tree ρ α) : Bool :=
  (node.childrenAt i).isEmpty

end Tree

end ForestWalk
