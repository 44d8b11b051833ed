import ForestWalk.Proofs.Husks
import ForestWalk.Proofs.Rounds
import ForestWalk.Visitor.Observer
/-!
The tour of a forest, on which every node is entered before its children and left after them. A
recorder that is taken on the tour has the tags of the nodes in pre-order and in post-order, and a
counter has counted all nodes.
-/

namespace ForestWalk

variable {ρ α : Type}

namespace Tree

/-- A tree with its tour. -/
structure Toured (ρ α : Type) where
  node : Tree ρ α
  tour : List (Showing ρ α)

/-- Puts a node together with its tour, which goes through the tours of the children. -/
def toured (tag : String) (label : Option String) (slots : List (Slot ρ α (Toured ρ α))) :
    Toured ρ α :=
  let node : Tree ρ α := { tag := tag, label := label, slots := slots.map (Slot.map Toured.node) }
  { node := node
    tour := .node .enter node :: (slots.flatMap Slot.children).flatMap Toured.tour ++
      [.node .leave node] }

/-- The tour of a tree: what is shown, in order, to a visitor that keeps all that it is shown. -/
def tour (node : Tree ρ α) : List (Showing ρ α) :=
  (node.fold toured).tour

/-- The tags of a tree, that of a node before those below it. -/
def preorder : Tree ρ α → List String :=
  fold fun tag _ slots => tag :: (slots.flatMap Slot.children).flatten

/-- The tags of a tree, that of a node after those below it. -/
def postorder : Tree ρ α → List String :=
  fold fun tag _ slots => (slots.flatMap Slot.children).flatten ++ [tag]

lemma node_fold_toured (node : Tree ρ α) : (node.fold toured).node = node := by
  induction node using Tree.induction with
  | step node ih =>
    have hslots : node.slots.map (Slot.map fun child => (child.fold toured).node) = node.slots := by
      rw [List.map_congr_left (g := id) fun slot hslot => ?_, List.map_id]
      exact (Slot.map_congr fun child hchild =>
        ih child (List.mem_flatMap.2 ⟨slot, hslot, hchild⟩)).trans slot.map_id
    rw [fold_eq, toured, List.map_map]
    simp only [Function.comp_def, Slot.map_map, hslots]
    cases node
    rfl

/-- Every node is entered, then come the tours of its children in slot order, then it is left. -/
theorem tour_eq (node : Tree ρ α) :
    node.tour = .node .enter node :: node.children.flatMap tour ++ [.node .leave node] := by
  have htour : ∀ tag label, ∀ slots : List (Slot ρ α (Toured ρ α)),
      (toured tag label slots).tour = .node .enter (toured tag label slots).node ::
        (slots.flatMap Slot.children).flatMap Toured.tour ++
          [.node .leave (toured tag label slots).node] := fun _ _ _ => rfl
  rw [tour, fold_eq, htour, ← fold_eq toured node, node_fold_toured, flatMap_children_map,
    List.flatMap_map]
  rfl

theorem preorder_eq (node : Tree ρ α) :
    node.preorder = node.tag :: node.children.flatMap preorder := by
  rw [preorder, fold_eq, flatMap_children_map, ← List.flatMap_def]
  rfl

theorem postorder_eq (node : Tree ρ α) :
    node.postorder = node.children.flatMap postorder ++ [node.tag] := by
  rw [postorder, fold_eq, flatMap_children_map, ← List.flatMap_def]
  rfl

/-- What holds of a walker through a tour holds at its end, if it passes from the children of a node
to the node and from the nodes of a forest to the forest. -/
theorem foldl_tour {S : Type} {watch : S → Showing ρ α → S} {P : List (Tree ρ α) → S → S → Prop}
    (nil : ∀ state, P [] state state)
    (cons : ∀ {node rest state mid final}, P [node] state mid → P rest mid final →
      P (node :: rest) state final)
    (around : ∀ {node state final}, P node.children (watch state (.node .enter node)) final →
      P [node] state (watch final (.node .leave node)))
    (forest : List (Tree ρ α)) (state : S) :
    P forest state ((forest.flatMap tour).foldl watch state) := by
  have hforest : ∀ forest : List (Tree ρ α),
      (∀ node ∈ forest, ∀ state, P [node] state (node.tour.foldl watch state)) →
      ∀ state, P forest state ((forest.flatMap tour).foldl watch state) := by
    intro forest hnodes
    induction forest with
    | nil => exact nil
    | cons node rest ih =>
      intro state
      obtain ⟨hnode, hrest⟩ := List.forall_mem_cons.1 hnodes
      rw [List.flatMap_cons, List.foldl_append]
      exact cons (hnode state) (ih hrest _)
  refine hforest forest (fun node hmem => ?_) state
  clear hmem
  induction node using Tree.induction with
  | step node ih =>
    intro state
    rw [tour_eq, List.cons_append, List.foldl_cons, List.foldl_append]
    exact around (hforest node.children ih _)

end Tree

section Accumulators

/-- What is shown to every visitor in a traversal in which nobody asks for anything. -/
def Showing.ofTraversal (nodes : List (Tree ρ α)) : List (Showing ρ α) :=
  .sequence .before nodes :: nodes.flatMap Tree.tour ++ [.sequence .after nodes]

/-- What a recorder becomes when it is shown something. -/
def Recorder.watch (recorder : Recorder) : Showing ρ α → Recorder
  | .node hook node => recorder.record hook node.tag
  | .sequence .before _ => recorder.restart
  | .sequence .after _ => recorder

/-- What a counter becomes when it is shown something. -/
def Counter.watch (counter : Counter) : Showing ρ α → Counter
  | .node .enter _ => counter
  | .node .leave node => counter.see node.tag
  | .sequence .before _ => {}
  | .sequence .after _ => counter

/-- On a tour a recorder writes down the tags in pre-order and in post-order. -/
theorem Recorder.foldl_tour (forest : List (Tree ρ α)) (recorder : Recorder) :
    (forest.flatMap Tree.tour).foldl watch recorder =
      { recorder with
        entered := recorder.entered ++ forest.flatMap Tree.preorder
        left := recorder.left ++ forest.flatMap Tree.postorder } := by
  refine Tree.foldl_tour (P := fun forest recorder final => final =
    { recorder with
      entered := recorder.entered ++ forest.flatMap Tree.preorder
      left := recorder.left ++ forest.flatMap Tree.postorder }) ?_ ?_ ?_ forest recorder
  · simp
  · rintro node rest recorder mid final rfl rfl
    simp
  · rintro node recorder final rfl
    simp [watch, record, Tree.preorder_eq node, Tree.postorder_eq node]

/-- In a traversal a recorder begins anew and writes down the tags. -/
lemma Recorder.foldl_ofTraversal (nodes : List (Tree ρ α)) (recorder : Recorder) :
    (Showing.ofTraversal nodes).foldl watch recorder =
      { entered := nodes.flatMap Tree.preorder
        left := nodes.flatMap Tree.postorder
        runs := recorder.runs + 1 } := by
  rw [Showing.ofTraversal, List.cons_append, List.foldl_cons, List.foldl_append, foldl_tour]
  simp [watch, restart]

/-- On a tour a counter counts every node once. -/
theorem Counter.foldl_tour (forest : List (Tree ρ α)) (counter : Counter) :
    let final := (forest.flatMap Tree.tour).foldl watch counter
    (∀ tag, final.count tag = counter.count tag + Tree.tally (fun node => node.tag = tag) forest) ∧
      final.total = counter.total + (forest.map Tree.size).foldr (· + ·) 0 := by
  refine Tree.foldl_tour (P := fun forest counter final =>
    (∀ tag, final.count tag = counter.count tag +
      Tree.tally (fun node : Tree ρ α => node.tag = tag) forest) ∧
      final.total = counter.total + (forest.map Tree.size).foldr (· + ·) 0) ?_ ?_ ?_ forest counter
  · simp
  · rintro node rest counter mid final ⟨hcount, htotal⟩ ⟨hcount', htotal'⟩
    constructor
    · intro tag
      rw [hcount', hcount, Tree.tally_cons _ node rest, Nat.add_assoc]
    · simp [htotal', htotal, Nat.add_assoc]
  · rintro node counter final ⟨hcount, htotal⟩
    constructor
    · intro tag
      have htally := Tree.tally_singleton (fun node : Tree ρ α => node.tag = tag) node
      have hhusk : node.husk.tag = node.tag := rfl
      rw [watch, Counter.count_see, hcount, htally, hhusk]
      simp only [watch, decide_eq_true_eq]
      omega
    · rw [watch, Counter.total_see, htotal, List.map_singleton, List.foldr_cons, List.foldr_nil,
        Tree.size_eq node]
      simp only [watch]
      omega

/-- In a traversal a counter begins anew and counts every node. -/
lemma Counter.foldl_ofTraversal (nodes : List (Tree ρ α)) (counter : Counter) :
    let counted := (Showing.ofTraversal nodes).foldl watch counter
    (∀ tag, counted.count tag = Tree.tally (fun node => node.tag = tag) nodes) ∧
      counted.total = (nodes.map Tree.size).foldr (· + ·) 0 := by
  intro counted
  have hcounted : counted = (nodes.flatMap Tree.tour).foldl watch {} := by
    simp only [counted, Showing.ofTraversal, List.cons_append, List.foldl_cons, List.foldl_append,
      List.foldl_nil, watch]
  obtain ⟨hcount, htotal⟩ := foldl_tour nodes {}
  rw [← hcounted] at hcount htotal
  have hnone : ∀ tag, ({} : Counter).count tag = 0 := fun _ => rfl
  have hzero : ({} : Counter).total = 0 := rfl
  exact ⟨fun tag => by rw [hcount, hnone, Nat.zero_add], by rw [htotal, hzero, Nat.zero_add]⟩

end Accumulators

end ForestWalk
