import ForestWalk.Proofs.Runs
import ForestWalk.Tree.Fold
/-!
What a node is apart from its children, its husk: the tag, the label, the rules and kinds of its
slots, and the values. A walk changes what stands below a node but never the husk. So a node can be
followed through a walk by its husk, or by an identifier that is read off from it.
-/

namespace ForestWalk

variable {ρ α ι : Type}

/-- What a slot holds, without the children. -/
def Content.bare {τ υ : Type} : Content α τ → Content α υ
  | .single _ => .single none
  | .list _ => .list []
  | .value content => .value content

def Slot.bare {τ υ : Type} (slot : Slot ρ α τ) : Slot ρ α υ :=
  { rule := slot.rule, content := slot.content.bare }

@[simp] theorem Content.bare_map {τ υ β : Type} (f : τ → υ) (content : Content α τ) :
    (content.map f).bare = (content.bare : Content α β) := by
  cases content <;> rfl

@[simp] theorem Slot.bare_map {τ υ β : Type} (f : τ → υ) (slot : Slot ρ α τ) :
    (slot.map f).bare = (slot.bare : Slot ρ α β) := by
  simp [bare, map]

namespace Tree

/-- The node without its children. -/
def husk (node : Tree ρ α) : Tree ρ α :=
  { node with slots := node.slots.map Slot.bare }

/-- The husks of a node and of all nodes below it, in pre-order. -/
def husks : Tree ρ α → List (Tree ρ α) :=
  fold fun tag label slots =>
    { tag := tag, label := label, slots := slots.map Slot.bare } ::
      (slots.flatMap Slot.children).flatten

theorem husks_eq (node : Tree ρ α) :
    node.husks = node.husk :: node.children.flatMap husks := by
  rw [husks, fold_eq, flatMap_children_map, ← List.flatMap_def]
  simp only [husk, List.map_map, Function.comp_def, Slot.bare_map]
  rfl

/-- Other slots of the same rules and kinds, with the same values, leave the husk as it is. -/
lemma husk_congr {node : Tree ρ α} {slots : List (Slot ρ α (Tree ρ α))}
    (h : slots.map Slot.bare = (node.slots.map Slot.bare : List (Slot ρ α (Tree ρ α)))) :
    ({ node with slots := slots } : Tree ρ α).husk = node.husk :=
  congrArg (Tree.mk node.tag node.label) h

/-- The identifiers of the nodes of a forest, where that of a node is read off from its husk. -/
def idents (identify : Tree ρ α → ι) (forest : List (Tree ρ α)) : List ι :=
  (forest.flatMap husks).map identify

/-- How many nodes of a forest have a husk with a property. -/
def tally (p : Tree ρ α → Bool) (forest : List (Tree ρ α)) : Nat :=
  (forest.flatMap husks).countP p

variable (p : Tree ρ α → Bool)

@[simp] theorem tally_nil : tally p [] = 0 :=
  rfl

@[simp] theorem tally_append (forest more : List (Tree ρ α)) :
    tally p (forest ++ more) = tally p forest + tally p more := by
  simp [tally]

theorem tally_cons (node : Tree ρ α) (rest : List (Tree ρ α)) :
    tally p (node :: rest) = tally p [node] + tally p rest :=
  tally_append p [node] rest

/-- A node counts by itself, and then come those below it. -/
theorem tally_singleton (node : Tree ρ α) :
    tally p [node] = (if p node.husk then 1 else 0) + tally p node.children := by
  simp only [tally, List.flatMap_cons, List.flatMap_nil, List.append_nil, husks_eq node,
    List.countP_cons]
  omega

end Tree

section Walking

variable {run : Place ρ → Tree ρ α → List (Act ρ α) → Fate (Tree ρ α) → Prop}

lemma ContentRun.bare_eq {rule : Rule ρ} {content left : Content α (Tree ρ α)}
    {acts : List (Act ρ α)} {halt : Option Halt}
    (hrun : ContentRun run rule content acts left halt) :
    left.bare = (content.bare : Content α (Tree ρ α)) := by
  cases hrun <;> rfl

/-- The walk of slots leaves their rules, kinds and values. -/
lemma SlotsRun.bare_eq {slots items : List (Slot ρ α (Tree ρ α))} {acts : List (Act ρ α)}
    {halt : Option Halt} (hrun : SlotsRun run slots acts items halt) :
    items.map Slot.bare = (slots.map Slot.bare : List (Slot ρ α (Tree ρ α))) := by
  induction hrun with
  | nil => rfl
  | cons walked others ih => simp only [List.map_cons, ih, Slot.bare, walked.bare_eq]
  | halt walked => simp only [List.map_cons, Slot.bare, walked.bare_eq]

end Walking

end ForestWalk
