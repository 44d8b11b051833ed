import ForestWalk.Proofs.Sifting
/-!
Visitors that look at nothing but the tag and the label of a node when it is left, and take the node
out or change just these. Several of them in one traversal do what they do in as many traversals,
one after the other: what a later one would do below a node that an earlier one takes out is lost
with the node in one case, and is not done at all in the other.
-/

namespace ForestWalk

variable {ρ α V : Type}

/-- What becomes of the tag and the label of a node, or that the node is taken out. -/
abbrev Relabelling :=
  String → Option String → Option (String × Option String)

namespace Relabelling

/-- The node with its tag and its label changed, if it is not taken out. -/
def apply (f : Relabelling) (node : Tree ρ α) : Option (Tree ρ α) :=
  (f node.tag node.label).map fun (tag, label) => { node with tag := tag, label := label }

/-- Leaves tag and label as they are. -/
def same : Relabelling :=
  fun tag label => some (tag, label)

/-- One relabelling after the other. -/
def andThen (f g : Relabelling) : Relabelling :=
  fun tag label => (f tag label).bind fun (tag, label) => g tag label

/-- One relabelling after the other, for all of a list. -/
def all (fs : List Relabelling) : Relabelling :=
  fs.foldr andThen same

@[simp] theorem apply_same (node : Tree ρ α) : same.apply node = some node := by
  cases node
  rfl

@[simp] theorem andThen_same (f : Relabelling) : f.andThen same = f := by
  funext tag label
  rw [andThen]
  cases f tag label <;> rfl

@[simp] theorem all_nil : all [] = same :=
  rfl

@[simp] theorem all_cons (f : Relabelling) (fs : List Relabelling) :
    all (f :: fs) = f.andThen (all fs) :=
  rfl

theorem apply_andThen (f g : Relabelling) (node : Tree ρ α) :
    (f.andThen g).apply node = (f.apply node).bind g.apply := by
  simp only [apply, andThen]
  cases f node.tag node.label <;> rfl

/-- The children play no part when a node is relabelled. -/
lemma apply_sifted (f : Relabelling) (part : Tree ρ α → Option (Tree ρ α)) (node : Tree ρ α) :
    f.apply (node.sifted part) = (f.apply node).map (Tree.sifted part) := by
  simp only [apply, Tree.sifted, Option.map_map]
  rfl

end Relabelling

namespace Tree

/-- What stands in the place of a tree, all of which was relabelled. -/
def relabelled (f : Relabelling) : Tree ρ α → Option (Tree ρ α) :=
  fold fun tag label slots => (f tag label).map fun (tag, label) =>
    { tag := tag, label := label, slots := slots.map Slot.sifted }

/-- The children are relabelled where they stand, and then the node. -/
theorem relabelled_eq (f : Relabelling) (node : Tree ρ α) :
    node.relabelled f = f.apply (node.sifted (relabelled f)) := by
  rw [relabelled, fold_eq, List.map_map]
  rfl

/-- To relabel a tree twice is to relabel it once. -/
theorem relabelled_bind (f g : Relabelling) (node : Tree ρ α) :
    (node.relabelled f).bind (relabelled g) = node.relabelled (f.andThen g) := by
  induction node using Tree.induction with
  | step node ih =>
    have hslots : (node.sifted (relabelled f)).sifted (relabelled g) =
        node.sifted (relabelled (f.andThen g)) := by
      simp only [sifted, List.map_map]
      congr 1
      refine List.map_congr_left fun slot hslot => ?_
      rw [Function.comp_apply, Slot.sifted_map_sifted]
      refine congrArg Slot.sifted (Slot.map_congr fun child hchild => ?_)
      exact ih child (List.mem_flatMap.2 ⟨slot, hslot, hchild⟩)
    calc (node.relabelled f).bind (relabelled g)
        = (f.apply (node.sifted (relabelled f))).bind fun new =>
            g.apply (new.sifted (relabelled g)) := by
          rw [relabelled_eq f]
          exact congrArg _ (funext (relabelled_eq g))
      _ = (f.apply (node.sifted (relabelled (f.andThen g)))).bind g.apply := by
          rw [← hslots, Relabelling.apply_sifted f _ (node.sifted (relabelled f)),
            Option.bind_map]
          rfl
      _ = node.relabelled (f.andThen g) := by
          rw [relabelled_eq (f.andThen g), Relabelling.apply_andThen]

/-- No level is added to a tree that is relabelled. -/
lemma depth_le_of_relabelled {f : Relabelling} {node new : Tree ρ α}
    (h : node.relabelled f = some new) : new.depth ≤ node.depth := by
  induction node using Tree.induction generalizing new with
  | step node ih =>
    rw [relabelled_eq, Relabelling.apply, Option.map_eq_some_iff] at h
    obtain ⟨⟨tag, label⟩, -, rfl⟩ := h
    refine depth_le_of_children fun child hchild => ?_
    have hmem : child ∈ (node.sifted (relabelled f)).children := hchild
    rw [children_sifted, List.mem_filterMap] at hmem
    obtain ⟨original, horiginal, hnew⟩ := hmem
    exact Nat.lt_of_le_of_lt (ih original horiginal hnew) (depth_lt_of_mem_children horiginal)

end Tree

section Runs

/-- A visitor that is shown a node which is left has it relabelled: it asks to have it removed, or
it changes the node in place, or it gives a changed node to take its place. -/
def NodeReply.Enacts (f : Relabelling) (shown : Tree ρ α) (reply : NodeReply ρ α) : Prop :=
  match f.apply shown with
  | none => ∃ left, reply = .answered left .remove
  | some new => reply = .answered new .keep ∨ ∃ left, reply = .answered left (.replace new)

/-- The visitor that the act calls keeps what it is shown, but that the one with a number has the
nodes that are left relabelled. -/
def Act.Relabels (fs : List Relabelling) : Act ρ α → Prop
  | .node index _ .leave shown reply => ∀ f, fs[index]? = some f → reply.Enacts f shown
  | act => act.Keeps

variable [Admission ρ α] {options : Options} {fs : List Relabelling}

/-- Where shapes are not checked a replacement is followed. -/
lemma Options.judge_replace (unchecked : options.checkShapes = false) (hook : NodeHook)
    (place : Place ρ) (site : CallSite) (node left new : Tree ρ α) :
    options.judge hook place site node (.answered left (.replace new)) =
      (.proceed new, some (.nodeReplaced hook left.tag new.tag)) := by
  simp [judge, follow, firstRefused, Directive.legal, Directive.verdict, Directive.event,
    unchecked]

/-- What becomes of a node when a visitor has it relabelled. -/
lemma NodeReply.Enacts.judge (unchecked : options.checkShapes = false) {f : Relabelling}
    {shown : Tree ρ α} {reply : NodeReply ρ α} (h : reply.Enacts f shown) (hook : NodeHook)
    (place : Place ρ) (site : CallSite) :
    (options.judge hook place site shown reply).1 = (f.apply shown).elim .remove .proceed := by
  rw [Enacts] at h
  rcases happly : f.apply shown with _ | new <;> rw [happly] at h
  · obtain ⟨left, rfl⟩ := h
    rw [Options.judge_remove]
    rfl
  · obtain rfl | ⟨left, rfl⟩ := h
    · rw [Options.judge_keep]
      rfl
    · rw [Options.judge_replace unchecked]
      rfl

/-- The visitors from a number on have a node relabelled one after the other, until one of them has
it taken out. -/
lemma ConsultRun.relabels (unchecked : options.checkShapes = false) {place : Place ρ}
    {index : Nat} {node : Tree ρ α} {acts : List (Act ρ α)} {verdict : Verdict (Tree ρ α)}
    (hrun : ConsultRun options fs.length .leave place index node acts verdict)
    (hacts : ∀ act ∈ acts, act.Relabels fs) :
    verdict = ((Relabelling.all (fs.drop index)).apply node).elim .remove .proceed := by
  induction hrun with
  | done node => simp
  | @pass index name node next reply event acts verdict inRange judged others ih =>
    obtain ⟨hact, hrest⟩ := List.forall_mem_cons.1 hacts
    have henacts : reply.Enacts fs[index] node := hact _ (List.getElem?_eq_getElem inRange)
    have hverdict := henacts.judge unchecked .leave place ⟨.node .leave, index, name⟩
    rw [judged] at hverdict
    rw [ih (List.forall_mem_append.1 hrest).2, List.drop_eq_getElem_cons inRange,
      Relabelling.all_cons, Relabelling.apply_andThen]
    cases happly : fs[index].apply node with
    | none => rw [happly] at hverdict; cases hverdict
    | some new =>
      rw [happly] at hverdict
      obtain rfl := Verdict.proceed.inj hverdict
      rfl
  | @settle index name node reply event verdict inRange judged settled =>
    obtain ⟨hact, -⟩ := List.forall_mem_cons.1 hacts
    have henacts : reply.Enacts fs[index] node := hact _ (List.getElem?_eq_getElem inRange)
    have hverdict := henacts.judge unchecked .leave place ⟨.node .leave, index, name⟩
    rw [judged] at hverdict
    rw [List.drop_eq_getElem_cons inRange, Relabelling.all_cons, Relabelling.apply_andThen]
    cases happly : fs[index].apply node with
    | none => rw [happly] at hverdict; exact hverdict
    | some new =>
      rw [happly] at hverdict
      exact absurd hverdict (settled new)

/-- Visitors that have nodes relabelled sift the forest. -/
lemma sieve_of_relabels (unchecked : options.checkShapes = false) :
    Sieve options fs.length (Act.Relabels fs : Act ρ α → Prop)
      (Tree.relabelled (Relabelling.all fs)) (fun _ => (none : Option Unit)) fun _ => [] where
  event := fun _ => rfl
  sequence := id
  enter := fun entered hacts =>
    .inl (entered.of_keeps fun _ _ _ _ hmem => hacts _ hmem).1
  leave := by
    intro place node first last verdict entered hfirst left hlast
    have hverdict := left.relabels unchecked hlast
    rw [List.drop_zero, ← Tree.relabelled_eq] at hverdict
    subst hverdict
    refine ⟨?_, by simp⟩
    cases node.relabelled (Relabelling.all fs) <;> rfl

end Runs

/-- In this state, in which it stays, a visitor keeps what it is shown, but that it has the nodes
that are left relabelled. -/
structure Behaviour.Relabels (behaviour : Behaviour ρ α V) (f : Relabelling) (state : V) :
    Prop where
  enter : ∀ node, behaviour.node .enter state node = .finish { state := state, node := node }
  leave : ∀ node, ∃ result, behaviour.node .leave state node = .finish result ∧
    result.state = state ∧ result.reply.Enacts f node
  sequence : ∀ hook nodes, behaviour.sequence hook state nodes = .finish { state := state }

/-- Visitors with their relabellings, each of them free and in a state in which it does its own. -/
def Behaviour.Staffs (behaviour : Behaviour ρ α V) (cells : List (Cell V))
    (staff : List (Nat × Relabelling)) : Prop :=
  ∀ member ∈ staff, ∃ state, cells[member.1]? = some { state := state } ∧
    behaviour.Relabels member.2 state

section Visitors

variable {behaviour : Behaviour ρ α V} {nested : Traversal ρ α V}
  {staff : List (Nat × Relabelling)} {options : Options} {roster final : Roster ρ α V}

lemma Behaviour.Staffs.does (h : behaviour.Staffs roster.cells staff) {act : Act ρ α}
    (hdoes : (Traverser.walker behaviour nested
      { visitors := staff.map Prod.fst, options := options }).Does act roster final) :
    act.Relabels (staff.map Prod.snd) ∧ final.cells = roster.cells := by
  -- The visitor at a place on the list, with its state.
  have hmember : ∀ {index visitor : Nat}, (staff.map Prod.fst)[index]? = some visitor →
      ∃ f state, (staff.map Prod.snd)[index]? = some f ∧
        roster.cells[visitor]? = some { state := state } ∧ behaviour.Relabels f state := by
    intro index visitor hvisitor
    rw [List.getElem?_map, Option.map_eq_some_iff] at hvisitor
    obtain ⟨⟨visitor, f⟩, hstaff, rfl⟩ := hvisitor
    obtain ⟨state, free, relabels⟩ := h _ (List.mem_of_getElem? hstaff)
    exact ⟨f, state, by simp [hstaff], free, relabels⟩
  cases act with
  | event event =>
    obtain rfl : roster.note (.event event) = final := hdoes
    exact ⟨trivial, rfl⟩
  | node index called hook shown reply =>
    obtain ⟨visitor, hvisitor, hcalled, rfl⟩ := Traverser.does_node_iff.1 hdoes
    obtain ⟨f, state, hf, free, relabels⟩ := hmember hvisitor
    cases hook with
    | enter =>
      obtain ⟨rfl, hcells⟩ := Roster.callNode_finished free (relabels.enter shown) hcalled
      exact ⟨rfl, Roster.cells_eq_of_called free hcells⟩
    | leave =>
      obtain ⟨result, hfinish, rfl, henacts⟩ := relabels.leave shown
      obtain ⟨rfl, hcells⟩ := Roster.callNode_finished free hfinish hcalled
      refine ⟨fun f' hf' => ?_, Roster.cells_eq_of_called free hcells⟩
      obtain rfl := Option.some.inj (hf.symm.trans hf')
      exact henacts
  | sequence index called hook shown reply =>
    obtain ⟨visitor, hvisitor, hcalled, rfl⟩ := Traverser.does_sequence_iff.1 hdoes
    obtain ⟨f, state, hf, free, relabels⟩ := hmember hvisitor
    obtain ⟨rfl, hcells⟩ := Roster.callSequence_finished free (relabels.sequence hook shown) hcalled
    exact ⟨rfl, Roster.cells_eq_of_called free hcells⟩

lemma Behaviour.Staffs.doesAll (h : behaviour.Staffs roster.cells staff) {acts : List (Act ρ α)}
    (hdoes : (Traverser.walker behaviour nested
      { visitors := staff.map Prod.fst, options := options }).DoesAll acts roster final) :
    (∀ act ∈ acts, act.Relabels (staff.map Prod.snd)) ∧ final.cells = roster.cells := by
  refine hdoes.invariant (I := fun mid => mid.cells = roster.cells) (fun hmid hact => ?_) rfl
  obtain ⟨hrelabels, hfinal⟩ := Staffs.does (hmid ▸ h) hact
  exact ⟨hrelabels, hfinal.trans hmid⟩

end Visitors

namespace Traverser

variable [Admission ρ α] {behaviour : Behaviour ρ α V} {options : Options} {stack : Nat}
  {nodes : List (Tree ρ α)}

/-- A traversal with visitors that have nodes relabelled leaves what is left when all relabellings
were done, and the visitors as they were. -/
theorem traverse_relabels {staff : List (Nat × Relabelling)} {roster : Roster ρ α V}
    (staffed : behaviour.Staffs roster.cells staff) (unlimited : options.maxDepth = none)
    (unchecked : options.checkShapes = false) (shallow : ∀ node ∈ nodes, node.depth < stack) :
    let traversed := traverse behaviour stack
      { visitors := staff.map Prod.fst, options := options } nodes roster
    traversed.1 = some (.ok (nodes.filterMap
        (Tree.relabelled (Relabelling.all (staff.map Prod.snd))))) ∧
      traversed.2.cells = roster.cells := by
  intro traversed
  let walker := walker behaviour (nest behaviour stack roster.cells.length)
    { visitors := staff.map Prod.fst, options := options }
  obtain ⟨-, -, hdoes⟩ := walker.recorded_traverse stack nodes roster
  obtain ⟨hacts, hcells⟩ := staffed.doesAll hdoes
  have hcount : (staff.map Prod.snd).length = walker.visitors.length := by simp [walker, count]
  obtain ⟨hresult, -⟩ :=
    walker.traverse_sifts (hcount ▸ sieve_of_relabels unchecked) unlimited shallow hacts
  exact ⟨hresult, hcells⟩

/-- Two local rewrites in one traversal do what they do in two. -/
theorem traverse_fused {f g : Relabelling} {first second : Nat} {state state' : V}
    (relabels : behaviour.Relabels f state) (relabels' : behaviour.Relabels g state')
    {roster : Roster ρ α V} (free : roster.cells[first]? = some { state := state })
    (free' : roster.cells[second]? = some { state := state' })
    (unlimited : options.maxDepth = none) (unchecked : options.checkShapes = false)
    (shallow : ∀ node ∈ nodes, node.depth < stack) :
    let both := traverse behaviour stack { visitors := [first, second], options := options } nodes
      roster
    let once := traverse behaviour stack { visitors := [first], options := options } nodes roster
    ∃ between forest, once.1 = some (.ok between) ∧ both.1 = some (.ok forest) ∧
      (traverse behaviour stack { visitors := [second], options := options } between once.2).1 =
        some (.ok forest) := by
  intro both once
  have hfirst : ∃ state, roster.cells[first]? = some { state := state } ∧
      behaviour.Relabels f state := ⟨state, free, relabels⟩
  have hsecond : ∃ state, roster.cells[second]? = some { state := state } ∧
      behaviour.Relabels g state := ⟨state', free', relabels'⟩
  have staffed : behaviour.Staffs roster.cells [(first, f), (second, g)] :=
    List.forall_mem_cons.2 ⟨hfirst, List.forall_mem_singleton.2 hsecond⟩
  have staffed' : behaviour.Staffs roster.cells [(first, f)] :=
    List.forall_mem_singleton.2 hfirst
  obtain ⟨hboth, -⟩ := traverse_relabels staffed unlimited unchecked shallow
  obtain ⟨honce, hcells⟩ := traverse_relabels staffed' unlimited unchecked shallow
  have staffed'' : behaviour.Staffs once.2.cells [(second, g)] :=
    hcells ▸ List.forall_mem_singleton.2 hsecond
  have shallow' : ∀ node ∈ nodes.filterMap (Tree.relabelled (Relabelling.all [f])),
      node.depth < stack := by
    intro new hnew
    obtain ⟨node, hnode, hnew⟩ := List.mem_filterMap.1 hnew
    exact Nat.lt_of_le_of_lt (Tree.depth_le_of_relabelled hnew) (shallow node hnode)
  obtain ⟨htwice, -⟩ := traverse_relabels staffed'' unlimited unchecked shallow'
  have hforest : (nodes.filterMap (Tree.relabelled (Relabelling.all [f]))).filterMap
      (Tree.relabelled (Relabelling.all [g])) =
        nodes.filterMap (Tree.relabelled (Relabelling.all [f, g])) := by
    simp only [List.filterMap_filterMap, Tree.relabelled_bind, Relabelling.all_cons,
      Relabelling.all_nil, Relabelling.andThen_same]
  exact ⟨_, _, honce, hboth, htwice.trans (congrArg _ (congrArg _ hforest))⟩

/-- Has the nodes that are left relabelled as its state says, which says too whether they are
changed in place. -/
def relabeller : Behaviour Shape Unit (Relabelling × Bool) where
  name := fun _ => "relabeller"
  node := fun hook state node =>
    match hook, state.1.apply node with
    | .enter, _ => .finish { state := state, node := node }
    | .leave, none => .finish { state := state, node := node, answer := .ok .remove }
    | .leave, some new =>
      match state.2 with
      | true => .finish { state := state, node := new }
      | false => .finish { state := state, node := node, answer := .ok (.replace new) }

lemma relabeller_relabels (f : Relabelling) (inPlace : Bool) :
    relabeller.Relabels f (f, inPlace) where
  enter := fun _ => rfl
  leave := by
    intro node
    simp only [NodeReply.Enacts, relabeller]
    cases f.apply node with
    | none => exact ⟨_, rfl, rfl, node, rfl⟩
    | some new =>
      cases inPlace with
      | true => exact ⟨_, rfl, rfl, .inl rfl⟩
      | false => exact ⟨_, rfl, rfl, .inr ⟨node, rfl⟩⟩
  sequence := fun _ _ => rfl

/-- Statements that do nothing are taken out, and echoes become prints. -/
def sweeping : Relabelling := fun tag label =>
  match tag with
  | "Stmt_Nop" => none
  | "Stmt_Echo" => some ("Stmt_Print", label)
  | _ => some (tag, label)

/-- What has the label `a` is taken out, and prints become calls. -/
def lowering : Relabelling := fun tag label =>
  match tag, label with
  | _, some "a" => none
  | "Stmt_Print", _ => some ("Expr_Call", some "print")
  | _, _ => some (tag, label)

/-- Nodes below one that the second visitor takes out, and in the single slot of one that stays. -/
theorem relabeller_fused :
    let roster : Roster Shape Unit (Relabelling × Bool) :=
      .ofList [(sweeping, true), (lowering, false)]
    let options : Options := { checkShapes := false }
    let nop : Tree Shape Unit := { tag := "Stmt_Nop" }
    let echo : Tree Shape Unit := { tag := "Stmt_Echo" }
    let loop (body : Option (Tree Shape Unit)) : Tree Shape Unit :=
      { tag := "Stmt_While", slots := [⟨{ name := "body" }, .single body⟩] }
    let block (label : String) (stmts : List (Tree Shape Unit)) : Tree Shape Unit :=
      { tag := "Stmt_Block", label := some label, slots := [⟨{ name := "stmts" }, .list stmts⟩] }
    let nodes := [block "a" [echo, nop], block "b" [nop, loop (some nop), loop (some echo)]]
    let call : Tree Shape Unit := { tag := "Expr_Call", label := some "print" }
    let both := traverse relabeller 3 { visitors := [0, 1], options := options } nodes roster
    let once := traverse relabeller 3 { visitors := [0], options := options } nodes roster
    both.1 = some (.ok [block "b" [loop none, loop (some call)]]) ∧
      ∃ between, once.1 = some (.ok between) ∧
        (traverse relabeller 3 { visitors := [1], options := options } between once.2).1 =
          both.1 := by
  intro roster options nop echo loop block nodes call both once
  have free : roster.cells[0]? = some { state := (sweeping, true) } := rfl
  have free' : roster.cells[1]? = some { state := (lowering, false) } := rfl
  have unchecked : options.checkShapes = false := rfl
  have shallow : ∀ node ∈ nodes, node.depth < 3 := by decide
  have hsweeping := relabeller_relabels sweeping true
  have hlowering := relabeller_relabels lowering false
  obtain ⟨between, forest, honce, hboth, htwice⟩ :=
    traverse_fused hsweeping hlowering free free' rfl unchecked shallow
  have staffed : relabeller.Staffs roster.cells [(0, sweeping), (1, lowering)] :=
    List.forall_mem_cons.2 ⟨⟨_, free, hsweeping⟩, List.forall_mem_singleton.2 ⟨_, free', hlowering⟩⟩
  have hforest : both.1 = some (.ok [block "b" [loop none, loop (some call)]]) :=
    (traverse_relabels staffed rfl unchecked shallow).1
  exact ⟨hforest, between, honce, htwice.trans hboth.symm⟩

end Traverser

end ForestWalk
