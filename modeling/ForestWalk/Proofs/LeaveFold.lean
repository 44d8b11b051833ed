import ForestWalk.Proofs.Placement
import ForestWalk.Proofs.Rounds
import ForestWalk.Tree.Fold
/-!
A visitor that acts only when nodes are left folds the forest from its leaves up. What stands in the
place of a node is what the visitor makes of the node with its children rewritten before. If one of
its answers is not in order, the traversal fails at the first such node in post-order.
-/

namespace ForestWalk

variable {ρ α V : Type}

/-- What a visitor makes of a node that is left: the node as it leaves it, and its answer. -/
abbrev Rewrite (ρ α : Type) :=
  Tree ρ α → Tree ρ α × Except (Cause WalkError) (Directive (Tree ρ α))

/-- In this state, in which it stays, a visitor keeps what it is shown, but that it does a rewrite
when a node is left. -/
structure Behaviour.Rewrites (behaviour : Behaviour ρ α V) (f : Rewrite ρ α) (state : V) :
    Prop where
  enter : ∀ node, behaviour.node .enter state node = .finish { state := state, node := node }
  leave : ∀ node, behaviour.node .leave state node =
    .finish { state := state, node := (f node).1, answer := (f node).2 }
  sequence : ∀ hook nodes, behaviour.sequence hook state nodes = .finish { state := state }

section Joined

variable {τ υ : Type}

/-- Puts together what has become of the children. A single slot holds one node at most. -/
def Content.joined : Content α (List τ) → Content α τ
  | .single child => .single (child.bind List.head?)
  | .list children => .list children.flatten
  | .value content => .value content

def Slot.joined (slot : Slot ρ α (List τ)) : Slot ρ α τ :=
  { rule := slot.rule, content := slot.content.joined }

@[simp] theorem Slot.place?_map (f : τ → υ) (slot : Slot ρ α τ) :
    (slot.map f).place? = slot.place? := by
  simp only [place?, kind, map, Content.kind_map]

end Joined

namespace Rewrite

variable (f : Rewrite ρ α)

/-- What stands in the place of a node that was rewritten, apart from what is below it. -/
def contribution (node : Tree ρ α) : List (Tree ρ α) :=
  match f node with
  | (left, .ok directive) => directive.outcome left
  | (left, .error _) => [left]

/-- What a fold with a rewrite makes of a tree. -/
structure Folded (ρ α : Type) where
  /-- What stands in the place of the tree. -/
  parts : List (Tree ρ α)
  /-- The nodes that were rewritten, in order and with their places, given the place of the tree. -/
  rewritten : Place ρ → List (Place ρ × Tree ρ α)

/-- The nodes that were rewritten in a slot. -/
def Folded.ofSlot (slot : Slot ρ α (Folded ρ α)) : List (Place ρ × Tree ρ α) :=
  slot.place?.elim [] fun place => slot.children.flatMap fun child => child.rewritten place

/-- Puts together what has become of the slots of a node, and rewrites the node that holds it. -/
def folded (tag : String) (label : Option String) (slots : List (Slot ρ α (Folded ρ α))) :
    Folded ρ α :=
  let rebuilt : Tree ρ α :=
    { tag := tag, label := label, slots := slots.map fun slot => (slot.map Folded.parts).joined }
  { parts := f.contribution rebuilt
    rewritten := fun place => slots.flatMap Folded.ofSlot ++ [(place, rebuilt)] }

/-- Rewrites a tree from its leaves up. -/
def fold : Tree ρ α → Folded ρ α :=
  Tree.fold f.folded

/-- What stands in the place of a tree, all of which was rewritten. -/
def parts (node : Tree ρ α) : List (Tree ρ α) :=
  (f.fold node).parts

/-- The node with all that is below it rewritten. -/
def rebuilt (node : Tree ρ α) : Tree ρ α :=
  { node with slots := node.slots.map fun slot => (slot.map f.parts).joined }

/-- The nodes of a tree in post-order, as they are when they are rewritten, with their places. -/
def rewritten (place : Place ρ) (node : Tree ρ α) : List (Place ρ × Tree ρ α) :=
  (f.fold node).rewritten place

/-- The nodes that are rewritten in a slot. -/
def rewrittenIn (slot : Slot ρ α (Tree ρ α)) : List (Place ρ × Tree ρ α) :=
  slot.place?.elim [] fun place => slot.children.flatMap (f.rewritten place)

lemma Folded.ofSlot_map (slot : Slot ρ α (Tree ρ α)) :
    Folded.ofSlot (slot.map f.fold) = f.rewrittenIn slot := by
  simp only [ofSlot, rewrittenIn, Slot.place?_map, Slot.children_map, List.flatMap_map]
  rfl

lemma fold_eq (node : Tree ρ α) :
    f.fold node =
      { parts := f.contribution (f.rebuilt node)
        rewritten := fun place =>
          node.slots.flatMap f.rewrittenIn ++ [(place, f.rebuilt node)] } := by
  have hslots : ∀ slot : Slot ρ α (Tree ρ α),
      (slot.map f.fold).map Folded.parts = slot.map f.parts :=
    fun slot => Slot.map_map f.fold Folded.parts slot
  have hfold : f.fold node = f.folded node.tag node.label (node.slots.map (Slot.map f.fold)) :=
    Tree.fold_eq f.folded node
  rw [hfold]
  simp only [folded, List.map_map, Function.comp_def, List.flatMap_map, Folded.ofSlot_map, hslots,
    rebuilt]

/-- The children are rewritten first, and then the node that holds what has become of them. -/
theorem parts_eq (node : Tree ρ α) : f.parts node = f.contribution (f.rebuilt node) := by
  rw [parts, fold_eq]

theorem rewritten_eq (place : Place ρ) (node : Tree ρ α) :
    f.rewritten place node =
      node.slots.flatMap f.rewrittenIn ++ [(place, f.rebuilt node)] := by
  rw [rewritten, fold_eq]

section Offence

variable [Admission ρ α] (options : Options) (name : String) (place : Place ρ) (node : Tree ρ α)

/-- The rewrite of a node is in order: it does not fail, it does not ask to skip children that have
been walked, it splices only where there is room, and it brings along what the slot accepts. -/
def InOrder : Prop :=
  ∃ left directive, f node = (left, .ok directive) ∧ directive ≠ .skipChildren ∧
    (place.position = .single → ∀ new, directive ≠ .splice new) ∧
    (options.checkShapes = true → ∀ new ∈ directive.carried, place.rule.accepts new = true)

/-- The error that tells of the first node that the slot refuses, if there is one. -/
def refusal (carried : List (Tree ρ α)) : Option WalkError :=
  (options.firstRefused place.rule carried).map fun refused =>
    .visitorFailed ⟨.node .leave, 0, name⟩ (some refused.tag)
      (.shape ⟨refused.tag, place.rule.name⟩)

/-- The error with which a traversal fails at a node, if the rewrite of the node is not in order. -/
def offence : Option WalkError :=
  match f node with
  | (left, .error cause) => some (.visitorFailed ⟨.node .leave, 0, name⟩ (some left.tag) cause)
  | (left, .ok .skipChildren) =>
    some (.illegalDirective ⟨.node .leave, 0, name⟩ "skip_children" left.tag place.position)
  | (left, .ok (.splice new)) =>
    if place.position = .single then
      some (.illegalDirective ⟨.node .leave, 0, name⟩ "splice" left.tag place.position)
    else
      refusal options name place new
  | (_, .ok (.replace new)) => refusal options name place [new]
  | (_, .ok .keep) | (_, .ok .remove) | (_, .ok .stop) => none

/-- The first offence in a list of nodes with their places. -/
def firstOffence (shown : List (Place ρ × Tree ρ α)) : Option WalkError :=
  shown.findSome? fun (place, node) => f.offence options name place node

variable {f options name place node}

@[simp] theorem firstOffence_append (shown more : List (Place ρ × Tree ρ α)) :
    f.firstOffence options name (shown ++ more) =
      (f.firstOffence options name shown).or (f.firstOffence options name more) :=
  List.findSome?_append

@[simp] theorem firstOffence_singleton :
    f.firstOffence options name [(place, node)] = f.offence options name place node := by
  simp [firstOffence]

lemma refusal_eq_none_iff {carried : List (Tree ρ α)} :
    refusal options name place carried = none ↔
      (options.checkShapes = true → ∀ new ∈ carried, place.rule.accepts new = true) := by
  rw [refusal, Option.map_eq_none_iff, Options.firstRefused]
  split
  · simp_all
  · simp_all

/-- Where a directive is legal, only what it brings along can be an offence. -/
lemma offence_of_legal {left : Tree ρ α} {directive : Directive (Tree ρ α)}
    (answers : f node = (left, .ok directive))
    (legal : directive.legal .leave place.position = true) :
    f.offence options name place node = refusal options name place directive.carried := by
  have hnil : refusal options name place ([] : List (Tree ρ α)) = none :=
    refusal_eq_none_iff.2 fun _ => nofun
  rw [offence, answers]
  cases directive with
  | keep | remove | stop => exact hnil.symm
  | replace new => rfl
  | skipChildren => cases legal
  | splice new =>
    have room : place.position ≠ .single := by
      rintro single
      rw [single] at legal
      cases legal
    exact if_neg room

/-- A directive that is not legal is an offence. -/
lemma offence_of_illegal {left : Tree ρ α} {directive : Directive (Tree ρ α)}
    (answers : f node = (left, .ok directive))
    (illegal : directive.legal .leave place.position = false) :
    f.offence options name place node =
      some (.illegalDirective ⟨.node .leave, 0, name⟩ directive.name left.tag place.position) := by
  obtain ⟨hook, -⟩ | ⟨-, rfl⟩ | ⟨-, single, new, rfl⟩ := Directive.legal_eq_false_iff.1 illegal
  · cases hook
  · simp [offence, answers, Directive.name]
  · simp [offence, answers, single, Directive.name]

lemma inOrder_iff_of_ok {left : Tree ρ α} {directive : Directive (Tree ρ α)}
    (answers : f node = (left, .ok directive)) :
    f.InOrder options place node ↔ directive ≠ .skipChildren ∧
      (place.position = .single → ∀ new, directive ≠ .splice new) ∧
      (options.checkShapes = true → ∀ new ∈ directive.carried, place.rule.accepts new = true) := by
  constructor
  · rintro ⟨left', directive', answers', inOrder⟩
    cases answers.symm.trans answers'
    exact inOrder
  · exact fun inOrder => ⟨left, directive, answers, inOrder⟩

/-- A rewrite is out of order just if the traversal fails at it. -/
theorem offence_eq_none_iff :
    f.offence options name place node = none ↔ f.InOrder options place node := by
  rcases answers : f node with ⟨left, cause | directive⟩
  · simp [offence, InOrder, answers]
  · rw [inOrder_iff_of_ok answers, offence, answers]
    cases directive with
    | keep | remove | stop | skipChildren => simp [Directive.carried]
    | replace new => simp [refusal_eq_none_iff, Directive.carried]
    | splice new =>
      by_cases single : place.position = .single
      · simp [single]
      · simp [single, refusal_eq_none_iff, Directive.carried]

lemma firstOffence_eq_none_iff {shown : List (Place ρ × Tree ρ α)} :
    f.firstOffence options name shown = none ↔
      ∀ item ∈ shown, f.InOrder options item.1 item.2 := by
  simp only [firstOffence, List.findSome?_eq_none_iff, offence_eq_none_iff]

lemma firstOffence_eq_some_iff {shown : List (Place ρ × Tree ρ α)} {error : WalkError} :
    f.firstOffence options name shown = some error ↔
      ∃ before place node after, shown = before ++ (place, node) :: after ∧
        (∀ item ∈ before, f.InOrder options item.1 item.2) ∧
        f.offence options name place node = some error := by
  simp only [firstOffence, List.findSome?_eq_some_iff, offence_eq_none_iff, Prod.exists]
  constructor
  · rintro ⟨before, place, node, after, hshown, herror, hbefore⟩
    exact ⟨before, place, node, after, hshown, hbefore, herror⟩
  · rintro ⟨before, place, node, after, hshown, hbefore, herror⟩
    exact ⟨before, place, node, after, hshown, herror, hbefore⟩

end Offence

/-- What a traversal is told when a node was rewritten. -/
def reply (node : Tree ρ α) : NodeReply ρ α :=
  match (f node).2 with
  | .ok directive => .answered (f node).1 directive
  | .error cause => .failed (f node).1 cause

end Rewrite

/-- The visitor that the act calls, if it calls one, keeps what it is shown, but that it rewrites
the nodes that are left. -/
def Act.Rewrites (f : Rewrite ρ α) (name : String) : Act ρ α → Prop
  | .node _ called .leave shown reply => called = name ∧ reply = f.reply shown
  | act => act.Keeps

/-- A walk ends with what was found first, or it goes through and comes to a result. -/
structure Concludes (found : Option WalkError) (halt : Option Halt) (result : Prop) : Prop where
  halt_eq : halt = found.map .failed
  result : found = none → result

lemma Concludes.failed {error : WalkError} {halt : Option Halt} {result : Prop}
    (h : halt = some (.failed error)) : Concludes (some error) halt result where
  halt_eq := h
  result := fun hnone => absurd hnone (Option.some_ne_none error)

lemma Concludes.of_none {found : Option WalkError} {result : Prop}
    (h : Concludes found none result) : found = none ∧ result := by
  have hfound : found = none := Option.map_eq_none_iff.1 h.halt_eq.symm
  exact ⟨hfound, h.result hfound⟩

lemma Concludes.of_some {found : Option WalkError} {why : Halt} {result : Prop}
    (h : Concludes found (some why) result) :
    ∃ error, found = some error ∧ why = .failed error := by
  obtain ⟨error, hfound, hwhy⟩ := Option.map_eq_some_iff.1 h.halt_eq.symm
  exact ⟨error, hfound, hwhy.symm⟩

section Runs

variable [Admission ρ α] {options : Options} {f : Rewrite ρ α} {name : String}

/-- What is not in order about a rewrite is judged to be a failure, and the rest is done. -/
lemma Rewrite.judge (options : Options) (name : String)
    (proceeds : ∀ node, (f node).2 ≠ .ok .stop) (place : Place ρ) (node : Tree ρ α) :
    let verdict := (options.judge .leave place ⟨.node .leave, 0, name⟩ node (f.reply node)).1
    Concludes (f.offence options name place node) verdict.why?
      (verdict.fate.contribution = some (f.contribution node)) := by
  intro verdict
  rcases answers : f node with ⟨left, cause | directive⟩
  · constructor
    · simp [verdict, offence, reply, answers, Options.judge, Verdict.why?, Verdict.fate, Fate.why?]
    · simp [offence, answers]
  · have hreply : f.reply node = .answered left directive := by simp [reply, answers]
    simp only [verdict, hreply]
    rcases legal : directive.legal .leave place.position with _ | _
    · rw [offence_of_illegal answers legal]
      exact .failed (Options.why_judge_of_illegal legal)
    · rw [offence_of_legal answers legal, refusal]
      rcases refused : options.firstRefused place.rule directive.carried with _ | new
      · have unstopped : directive ≠ .stop := by
          rintro rfl
          exact proceeds node (by rw [answers])
        have hjudge : (options.judge .leave place ⟨.node .leave, 0, name⟩ node
            (.answered left directive)).1 = directive.verdict left := by
          simp [Options.judge, Options.follow, legal, refused]
        rw [hjudge]
        simp only [contribution, answers]
        cases directive with
        | stop => exact absurd rfl unstopped
        | skipChildren => cases legal
        | keep | replace new | remove | splice new => exact ⟨rfl, fun _ => rfl⟩
      · exact .failed (Options.why_judge_of_refused legal refused)

lemma ConsultRun.of_rewrites {place : Place ρ} {node : Tree ρ α} {acts : List (Act ρ α)}
    {verdict : Verdict (Tree ρ α)} (proceeds : ∀ node, (f node).2 ≠ .ok .stop)
    (hrun : ConsultRun options 1 .leave place 0 node acts verdict)
    (hacts : ∀ act ∈ acts, act.Rewrites f name) :
    Concludes (f.offence options name place node) verdict.why?
      (verdict.fate.contribution = some (f.contribution node)) := by
  have hjudge := Rewrite.judge options name proceeds place node
  cases hrun with
  | pass inRange judged others =>
    obtain ⟨rfl, rfl⟩ := hacts _ List.mem_cons_self
    rw [judged] at hjudge
    cases others with
    | done => exact hjudge
    | pass inRange' | settle inRange' => omega
  | settle inRange judged settled =>
    obtain ⟨rfl, rfl⟩ := hacts _ List.mem_cons_self
    rw [judged] at hjudge
    exact hjudge

/-- To visit a node with so many levels below it at most is to fold the tree. -/
structure Folds (options : Options) (f : Rewrite ρ α) (name : String) (room : Nat)
    (place : Place ρ) (run : Tree ρ α → List (Act ρ α) → Fate (Tree ρ α) → Prop) : Prop where
  concludes : ∀ {node acts fate}, run node acts fate → (∀ act ∈ acts, act.Rewrites f name) →
    node.depth < room →
    Concludes (f.firstOffence options name (f.rewritten place node)) fate.why?
      (fate.contribution = some (f.parts node))
  unspliced : ∀ {node acts fate}, run node acts fate → place.position = .single →
    ∀ new, fate ≠ .splice new

variable {room : Nat}

lemma ListRun.folds {place : Place ρ}
    {run : Tree ρ α → List (Act ρ α) → Fate (Tree ρ α) → Prop}
    (h : Folds options f name room place run) {slot : String} {emitted : Nat}
    {nodes items : List (Tree ρ α)} {acts : List (Act ρ α)} {halt : Option Halt}
    (hrun : ListRun run slot emitted nodes acts items halt)
    (hacts : ∀ act ∈ acts, act.Rewrites f name) (shallow : ∀ node ∈ nodes, node.depth < room) :
    Concludes (f.firstOffence options name (nodes.flatMap (f.rewritten place))) halt
      (items = nodes.flatMap f.parts) := by
  induction hrun with
  | nil emitted => exact ⟨rfl, fun _ => rfl⟩
  | cons visited part others ih =>
    obtain ⟨hfirst, hmore⟩ := List.forall_mem_append.1 hacts
    obtain ⟨hnode, hrest⟩ := List.forall_mem_cons.1 shallow
    have hvisited := h.concludes visited (List.forall_mem_append.1 hfirst).1 hnode
    rw [Fate.why?_of_contribution part, part] at hvisited
    obtain ⟨hnone, hgiven⟩ := hvisited.of_none
    obtain rfl := Option.some.inj hgiven
    have hothers := ih hmore hrest
    rw [List.flatMap_cons, Rewrite.firstOffence_append, hnone, Option.none_or]
    exact ⟨hothers.halt_eq, fun hfound => by rw [hothers.result hfound, List.flatMap_cons]⟩
  | halt visited =>
    have hvisited := h.concludes visited hacts (List.forall_mem_cons.1 shallow).1
    obtain ⟨error, hfound, rfl⟩ := hvisited.of_some
    rw [List.flatMap_cons, Rewrite.firstOffence_append, hfound, Option.some_or]
    exact .failed rfl

section Slots

variable {run : Place ρ → Tree ρ α → List (Act ρ α) → Fate (Tree ρ α) → Prop}

lemma ContentRun.folds (h : ∀ place, Folds options f name room place (run place)) {rule : Rule ρ}
    {content left : Content α (Tree ρ α)} {acts : List (Act ρ α)} {halt : Option Halt}
    (hrun : ContentRun run rule content acts left halt)
    (hacts : ∀ act ∈ acts, act.Rewrites f name)
    (shallow : ∀ child ∈ content.children, child.depth < room) :
    Concludes (f.firstOffence options name (f.rewrittenIn ⟨rule, content⟩)) halt
      (left = (content.map f.parts).joined) := by
  -- A slot with one child is in order just if the child is.
  have hsingle : ∀ child : Tree ρ α, f.rewrittenIn ⟨rule, .single (some child)⟩ =
      f.rewritten ⟨.single, rule⟩ child := fun child => List.append_nil _
  cases hrun with
  | vacant | value => exact ⟨rfl, fun _ => rfl⟩
  | @kept child left acts visited =>
    have hvisited := (h _).concludes visited hacts (shallow child (List.mem_singleton_self _))
    rw [hsingle]
    refine ⟨hvisited.halt_eq, fun hfound => ?_⟩
    have hparts : some [left] = some (f.parts child) := hvisited.result hfound
    simp [Content.map, Content.joined, ← Option.some.inj hparts]
  | @cleared child acts visited =>
    have hvisited := (h _).concludes visited (List.forall_mem_append.1 hacts).1
      (shallow child (List.mem_singleton_self _))
    rw [hsingle]
    refine ⟨hvisited.halt_eq, fun hfound => ?_⟩
    have hparts : some [] = some (f.parts child) := hvisited.result hfound
    simp [Content.map, Content.joined, ← Option.some.inj hparts]
  | spliced visited => exact absurd rfl ((h _).unspliced visited rfl _)
  | @halt child left acts why visited =>
    have hvisited := (h _).concludes visited hacts (shallow child (List.mem_singleton_self _))
    obtain ⟨error, hfound, rfl⟩ := hvisited.of_some
    rw [hsingle, hfound]
    exact .failed rfl
  | list walked =>
    have hwalked := walked.folds (h ⟨.list, rule⟩) hacts shallow
    refine ⟨hwalked.halt_eq, fun hfound => ?_⟩
    rw [hwalked.result hfound, List.flatMap_def]
    rfl

lemma SlotsRun.folds (h : ∀ place, Folds options f name room place (run place))
    {slots items : List (Slot ρ α (Tree ρ α))} {acts : List (Act ρ α)} {halt : Option Halt}
    (hrun : SlotsRun run slots acts items halt) (hacts : ∀ act ∈ acts, act.Rewrites f name)
    (shallow : ∀ child ∈ slots.flatMap Slot.children, child.depth < room) :
    Concludes (f.firstOffence options name (slots.flatMap f.rewrittenIn)) halt
      (items = slots.map fun slot => (slot.map f.parts).joined) := by
  induction hrun with
  | nil => exact ⟨rfl, fun _ => rfl⟩
  | cons walked others ih =>
    obtain ⟨hfirst, hmore⟩ := List.forall_mem_append.1 hacts
    obtain ⟨hslot, hrest⟩ := List.forall_mem_append.1 shallow
    obtain ⟨hnone, rfl⟩ := (walked.folds h hfirst hslot).of_none
    have hothers := ih hmore hrest
    rw [List.flatMap_cons, Rewrite.firstOffence_append, hnone, Option.none_or]
    refine ⟨hothers.halt_eq, fun hfound => ?_⟩
    rw [hothers.result hfound, List.map_cons]
    rfl
  | halt walked =>
    have hwalked := walked.folds h hacts (List.forall_mem_append.1 shallow).1
    obtain ⟨error, hfound, rfl⟩ := hwalked.of_some
    rw [List.flatMap_cons, Rewrite.firstOffence_append, hfound, Option.some_or]
    exact .failed rfl

end Slots

lemma VisitRun.concludes {below : Place ρ → Tree ρ α → List (Act ρ α) → Fate (Tree ρ α) → Prop}
    (h : ∀ place, Folds options f name room place (below place))
    (proceeds : ∀ node, (f node).2 ≠ .ok .stop) (unlimited : options.maxDepth = none) {depth : Nat}
    {place : Place ρ} {node : Tree ρ α} {acts : List (Act ρ α)} {fate : Fate (Tree ρ α)}
    (hrun : VisitRun options 1 below depth place node acts fate)
    (hacts : ∀ act ∈ acts, act.Rewrites f name) (shallow : node.depth < room + 1) :
    Concludes (f.firstOffence options name (f.rewritten place node)) fate.why?
      (fate.contribution = some (f.parts node)) := by
  have hallowed : options.exceededAt depth = none := by simp [Options.exceededAt, unlimited]
  have hchildren : ∀ child ∈ node.children, child.depth < room := by
    intro child hmem
    have hlt := Tree.depth_lt_of_mem_children hmem
    omega
  have hentered : ∀ {acts : List (Act ρ α)} {verdict : Verdict (Tree ρ α)},
      (∀ act ∈ acts, act.Rewrites f name) →
      ConsultRun options 1 .enter place 0 node acts verdict → verdict = .proceed node :=
    fun hacts entered => (entered.of_keeps fun _ _ _ _ hmem => hacts _ hmem).1
  rw [Rewrite.rewritten_eq, Rewrite.firstOffence_append, Rewrite.firstOffence_singleton]
  cases hrun with
  | tooDeep exceeded => cases hallowed.symm.trans exceeded
  | walked allowed entered descended left =>
    obtain ⟨hfirst, hlast⟩ := List.forall_mem_append.1 hacts
    obtain ⟨henter, hbelow⟩ := List.forall_mem_append.1 hfirst
    obtain rfl := Verdict.proceed.inj (hentered henter entered)
    obtain ⟨hnone, rfl⟩ := (descended.folds h hbelow hchildren).of_none
    rw [hnone, Option.none_or, Rewrite.parts_eq]
    exact left.of_rewrites proceeds hlast
  | broken allowed entered descended =>
    obtain ⟨henter, hbelow⟩ := List.forall_mem_append.1 hacts
    obtain rfl := Verdict.proceed.inj (hentered henter entered)
    obtain ⟨error, hfound, rfl⟩ := (descended.folds h hbelow hchildren).of_some
    rw [hfound, Option.some_or]
    exact .failed rfl
  | skipped allowed entered left =>
    cases hentered (List.forall_mem_append.1 hacts).1 entered
  | settled allowed entered proceeds => exact absurd (hentered hacts entered) (proceeds _)

theorem NodeRun.folds (proceeds : ∀ node, (f node).2 ≠ .ok .stop)
    (unlimited : options.maxDepth = none) (room depth : Nat) (place : Place ρ) :
    Folds options f name room place (NodeRun options 1 room depth place) := by
  have unspliced : ∀ {room depth : Nat} {place : Place ρ} {node : Tree ρ α} {acts fate},
      NodeRun options 1 room depth place node acts fate → place.position = .single →
      ∀ new, fate ≠ .splice new := by
    intro room depth place node acts fate hrun
    obtain ⟨moments, htrail, -⟩ := (NodeRun.trodden room depth place).exists_trail hrun 0
    exact (NodeTrail.redone room depth place).unspliced htrail
  induction room generalizing depth place with
  | zero =>
    refine ⟨?_, unspliced⟩
    rintro node acts fate - - shallow
    exact absurd shallow (Nat.not_lt_zero _)
  | succ room ih =>
    refine ⟨fun hrun => ?_, unspliced⟩
    exact VisitRun.concludes (ih (depth + 1)) proceeds unlimited hrun

theorem TraversalRun.folds (proceeds : ∀ node, (f node).2 ≠ .ok .stop)
    (unlimited : options.maxDepth = none) {nodes items : List (Tree ρ α)} {acts : List (Act ρ α)}
    {halt : Option Halt} (hrun : TraversalRun options 1 room nodes acts items halt)
    (hacts : ∀ act ∈ acts, act.Rewrites f name) (shallow : ∀ node ∈ nodes, node.depth < room) :
    Concludes (f.firstOffence options name (nodes.flatMap (f.rewritten .topLevel))) halt
      (items = nodes.flatMap f.parts) := by
  have hshown : ∀ {hook : SequenceHook} {nodes items : List (Tree ρ α)} {acts halt},
      (∀ act ∈ acts, act.Rewrites f name) → ShowRun 1 hook 0 nodes acts items halt →
      items = nodes ∧ halt = none := fun hacts shown =>
    have ⟨hitems, hhalt, _⟩ := shown.of_keeps fun _ _ _ _ hmem => hacts _ hmem
    ⟨hitems, hhalt⟩
  have hwalked : ∀ {items : List (Tree ρ α)} {acts halt}, (∀ act ∈ acts, act.Rewrites f name) →
      TopRun options 1 room nodes acts items halt →
      Concludes (f.firstOffence options name (nodes.flatMap (f.rewritten .topLevel))) halt
        (items = nodes.flatMap f.parts) := fun hacts walked =>
    ListRun.folds (NodeRun.folds proceeds unlimited room 0 .topLevel) walked hacts shallow
  replace hacts : ∀ act ∈ acts.tail, act.Rewrites f name :=
    fun act hmem => hacts act (List.mem_of_mem_tail hmem)
  cases hrun with
  | unready shown => cases (hshown hacts shown).2
  | broken shown walked unstopped =>
    obtain ⟨hfirst, hmore⟩ := List.forall_mem_append.1 hacts
    obtain ⟨rfl, -⟩ := hshown hfirst shown
    exact hwalked hmore walked
  | unfinished shown walked shownAgain =>
    cases (hshown (List.forall_mem_append.1 hacts).2 shownAgain).2
  | finished shown walked shownAgain =>
    obtain ⟨hacts, -⟩ := List.forall_mem_append.1 hacts
    obtain ⟨hacts, hlast⟩ := List.forall_mem_append.1 hacts
    obtain ⟨hfirst, hmore⟩ := List.forall_mem_append.1 hacts
    obtain ⟨rfl, -⟩ := hshown hfirst shown
    obtain ⟨rfl, -⟩ := hshown hlast shownAgain
    cases walked with
    | through walked => exact hwalked hmore walked
    | stopped walked =>
      obtain ⟨error, -, hstopped⟩ := (hwalked (List.forall_mem_append.1 hmore).1 walked).of_some
      cases hstopped

end Runs

section Visitor

variable {behaviour : Behaviour ρ α V} {f : Rewrite ρ α} {state : V} {nested : Traversal ρ α V}
  {visitor : Nat} {options : Options} {roster final : Roster ρ α V}

lemma Behaviour.Rewrites.does (h : behaviour.Rewrites f state)
    (free : roster.cells[visitor]? = some { state := state }) {act : Act ρ α}
    (hdoes : (Traverser.walker behaviour nested { visitors := [visitor], options := options }).Does
      act roster final) :
    act.Rewrites f (behaviour.name state) ∧ final.cells[visitor]? = some { state := state } := by
  cases act with
  | event event =>
    obtain rfl : roster.note (.event event) = final := hdoes
    exact ⟨trivial, free⟩
  | node index called hook shown reply =>
    obtain ⟨number, hnumber, hcalled, rfl⟩ := Traverser.does_node_iff.1 hdoes
    obtain rfl : number = visitor := List.mem_singleton.1 (List.mem_of_getElem? hnumber)
    cases hook with
    | enter =>
      obtain ⟨rfl, hcells⟩ := Roster.callNode_finished free (h.enter shown) hcalled
      exact ⟨rfl, Roster.getElem?_of_called free hcells⟩
    | leave =>
      obtain ⟨rfl, hcells⟩ := Roster.callNode_finished free (h.leave shown) hcalled
      have hfree := Roster.getElem?_of_called free hcells
      exact ⟨⟨by rw [Roster.name_eq behaviour hfree]; rfl, rfl⟩, hfree⟩
  | sequence index called hook shown reply =>
    obtain ⟨number, hnumber, hcalled, rfl⟩ := Traverser.does_sequence_iff.1 hdoes
    obtain rfl : number = visitor := List.mem_singleton.1 (List.mem_of_getElem? hnumber)
    obtain ⟨rfl, hcells⟩ := Roster.callSequence_finished free (h.sequence hook shown) hcalled
    exact ⟨rfl, Roster.getElem?_of_called free hcells⟩

lemma Behaviour.Rewrites.doesAll (h : behaviour.Rewrites f state)
    (free : roster.cells[visitor]? = some { state := state }) {acts : List (Act ρ α)}
    (hdoes : (Traverser.walker behaviour nested
      { visitors := [visitor], options := options }).DoesAll acts roster final) :
    ∀ act ∈ acts, act.Rewrites f (behaviour.name state) :=
  (hdoes.invariant (I := fun roster => roster.cells[visitor]? = some { state := state })
    (fun free hact => h.does free hact) free).1

end Visitor

namespace Traverser

variable [Admission ρ α]

/-- A traversal with one visitor that acts only when nodes are left, and never stops the walk, is a
fold. It succeeds just if all rewrites are in order, and then with the forest that the fold makes.
Otherwise it fails at the first node in post-order whose rewrite is not in order. -/
theorem traverse_fold {behaviour : Behaviour ρ α V} {f : Rewrite ρ α} {state : V}
    (rewrites : behaviour.Rewrites f state) (proceeds : ∀ node, (f node).2 ≠ .ok .stop)
    {visitor : Nat} {roster : Roster ρ α V}
    (free : roster.cells[visitor]? = some { state := state }) {options : Options}
    (unlimited : options.maxDepth = none) {stack : Nat} {nodes : List (Tree ρ α)}
    (shallow : ∀ node ∈ nodes, node.depth < stack) :
    let result :=
      (traverse behaviour stack { visitors := [visitor], options := options } nodes roster).1
    let rewritten := nodes.flatMap (f.rewritten .topLevel)
    result ≠ none ∧
    (∀ forest, result = some (.ok forest) ↔
      forest = nodes.flatMap f.parts ∧
        ∀ shown ∈ rewritten, f.InOrder options shown.1 shown.2) ∧
    ∀ error, result = some (.error error) ↔
      ∃ before place node after, rewritten = before ++ (place, node) :: after ∧
        (∀ shown ∈ before, f.InOrder options shown.1 shown.2) ∧
        f.offence options (behaviour.name state) place node = some error := by
  intro result rewritten
  let walker := walker behaviour (nest behaviour stack roster.cells.length)
    { visitors := [visitor], options := options }
  obtain ⟨-, hrun, hdoes⟩ := walker.recorded_traverse stack nodes roster
  rw [walker.room_of_unlimited unlimited] at hrun
  have hfold := TraversalRun.folds proceeds unlimited hrun (rewrites.doesAll free hdoes) shallow
  have hresult : result = (walker.traverse stack nodes roster).result := rfl
  rcases hfound : f.firstOffence options (behaviour.name state) rewritten with _ | first
  · have hok : result = some (.ok (nodes.flatMap f.parts)) := by
      rw [hresult, Sweep.result, hfold.halt_eq, hfound, ← hfold.result hfound]
      rfl
    refine ⟨by simp [hok], fun forest => ?_, fun error => ?_⟩
    · rw [hok]
      constructor
      · rintro ⟨⟩
        exact ⟨rfl, Rewrite.firstOffence_eq_none_iff.1 hfound⟩
      · rintro ⟨rfl, -⟩
        rfl
    · rw [hok, ← Rewrite.firstOffence_eq_some_iff, hfound]
      simp
  · have hfailed : result = some (.error first) := by
      rw [hresult, Sweep.result, hfold.halt_eq, hfound]
      rfl
    refine ⟨by simp [hfailed], fun forest => ?_, fun error => ?_⟩
    · rw [hfailed]
      constructor
      · rintro ⟨⟩
      · rintro ⟨-, inOrder⟩
        cases (Rewrite.firstOffence_eq_none_iff.2 inOrder).symm.trans hfound
    · rw [hfailed, ← Rewrite.firstOffence_eq_some_iff, hfound]
      simp

/-- Takes out statements that do nothing, puts the statements of a group in its place, and labels
any other node with the number of its children. -/
def tidy : Rewrite Shape Unit := fun node =>
  if node.tag = "Stmt_Nop" then (node, .ok .remove)
  else if node.tag = "Stmt_Group" then (node, .ok (.splice node.children))
  else ({ node with label := some node.children.length.repr }, .ok .keep)

/-- Tidies the nodes that are left. -/
def tidying : Behaviour Shape Unit Unit where
  name := fun _ => "tidying"
  node := fun hook state node =>
    match hook with
    | .enter => .finish { state := state, node := node }
    | .leave => .finish { state := state, node := (tidy node).1, answer := (tidy node).2 }

lemma tidying_rewrites : tidying.Rewrites tidy () :=
  ⟨fun _ => rfl, fun _ => rfl, fun _ _ => rfl⟩

lemma tidy_proceeds (node : Tree Shape Unit) : (tidy node).2 ≠ .ok .stop := by
  simp only [tidy]
  split
  · simp
  · split <;> simp

/-- Groups in groups are taken apart from the inside. A group that is an only child cannot be. -/
theorem tidying_fold :
    let tidied (node : Tree Shape Unit) :=
      (traverse tidying 4 { visitors := [0] } [node] (.ofList [()])).1
    let nop : Tree Shape Unit := { tag := "Stmt_Nop" }
    let echo (label : Option String) : Tree Shape Unit := { tag := "Stmt_Echo", label := label }
    let group (nodes : List (Tree Shape Unit)) : Tree Shape Unit :=
      { tag := "Stmt_Group", slots := [⟨{ name := "stmts" }, .list nodes⟩] }
    let loop (body : Tree Shape Unit) : Tree Shape Unit :=
      { tag := "Stmt_While", slots := [⟨{ name := "body" }, .single (some body)⟩] }
    tidied (group [echo none, nop, group [echo none]]) =
        some (.ok [echo (some "0"), echo (some "0")]) ∧
      tidied (group [nop, loop (group [echo none])]) =
        some (.error (.illegalDirective ⟨.node .leave, 0, "tidying"⟩ "splice" "Stmt_Group"
          .single)) := by
  intro tidied nop echo group loop
  have free : (Roster.ofList [()] : Roster Shape Unit Unit).cells[0]? = some { state := () } := rfl
  have unlimited : ({} : Options).maxDepth = none := rfl
  constructor
  · let nodes := [group [echo none, nop, group [echo none]]]
    have shallow : ∀ node ∈ nodes, node.depth < 4 := List.forall_mem_singleton.2 (by decide)
    obtain ⟨-, hok, -⟩ := traverse_fold tidying_rewrites tidy_proceeds free unlimited shallow
    have inOrder :
        tidy.firstOffence {} "tidying" (nodes.flatMap (tidy.rewritten .topLevel)) = none := rfl
    exact (hok _).2 ⟨rfl, Rewrite.firstOffence_eq_none_iff.1 inOrder⟩
  · let nodes := [group [nop, loop (group [echo none])]]
    have shallow : ∀ node ∈ nodes, node.depth < 4 := List.forall_mem_singleton.2 (by decide)
    obtain ⟨-, -, hfailed⟩ := traverse_fold tidying_rewrites tidy_proceeds free unlimited shallow
    exact (hfailed _).2 (Rewrite.firstOffence_eq_some_iff.1 rfl)

end Traverser

end ForestWalk
