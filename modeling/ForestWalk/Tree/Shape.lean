import ForestWalk.Tree.Basic
/-!
Which nodes a slot accepts. A rule without a shape accepts every node; a rule with a shape accepts
the nodes that the shape admits. `Shape` is a stock of shapes that look at the tag of a node and at
whether it has slots.
-/

namespace ForestWalk

/-- Says which nodes a shape admits. -/
class Admission (ρ α : Type) where
  admits : ρ → Tree ρ α → Bool

namespace Rule

variable {ρ α : Type} [Admission ρ α]

def restricted (rule : Rule ρ) : Bool :=
  rule.shape.isSome

def accepts (rule : Rule ρ) (node : Tree ρ α) : Bool :=
  rule.shape.all fun shape => Admission.admits shape node

@[simp] theorem accepts_unrestricted (name : String) (node : Tree ρ α) :
    (Rule.mk name none).accepts node = true :=
  rfl

end Rule

/-- The stock of shapes. -/
inductive Shape where
  /-- Expressions and scalars, by the start of the tag. -/
  | expr
  /-- Statements, by the start of the tag. -/
  | stmt
  /-- Nodes tagged as a name. -/
  | name
  /-- Nodes without any slot. -/
  | leaf
  | never
  | any
deriving Repr, DecidableEq

/-- Decides by the tag and by whether the node has slots. -/
def Shape.fits : Shape → (tag : String) → (bare : Bool) → Bool
  | .expr, tag, _ => tag.startsWith "Expr_" || tag.startsWith "Scalar_"
  | .stmt, tag, _ => tag.startsWith "Stmt_"
  | .name, tag, _ => tag == "Name"
  | .leaf, _, bare => bare
  | .never, _, _ => false
  | .any, _, _ => true

instance (α : Type) : Admission Shape α where
  admits shape node := shape.fits node.tag node.slots.isEmpty

end ForestWalk
