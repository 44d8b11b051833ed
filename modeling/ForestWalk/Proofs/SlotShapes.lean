import ForestWalk.Proofs.Adequacy
/-!
Well-shaped forests, in which each child at any depth is accepted by the slot that it stands in.
With shapes checked, a traversal keeps a forest well-shaped however it ends, provided that the
visitors bring along well-shaped nodes and do not spoil the nodes that they are shown.
-/

namespace ForestWalk

variable {ρ α σ : Type} [Admission ρ α]

/-- Shapes look at nothing but the tag of a node and whether it has slots. -/
class ShallowAdmission (ρ α : Type) [Admission ρ α] : Prop where
  admits_congr : ∀ (shape : ρ) {node other : Tree ρ α}, node.tag = other.tag →
    node.slots.isEmpty = other.slots.isEmpty →
      Admission.admits shape node = Admission.admits shape other

instance : ShallowAdmission Shape α where
  admits_congr shape node other htag hbare := by
    change shape.fits node.tag node.slots.isEmpty = shape.fits other.tag other.slots.isEmpty
    rw [htag, hbare]

lemma Rule.accepts_congr [ShallowAdmission ρ α] (rule : Rule ρ) {node other : Tree ρ α}
    (htag : node.tag = other.tag) (hbare : node.slots.isEmpty = other.slots.isEmpty) :
    rule.accepts node = rule.accepts other := by
  unfold Rule.accepts
  congr 1
  funext shape
  exact ShallowAdmission.admits_congr shape htag hbare

/-- Each child at any depth is accepted by the rule of its slot. -/
inductive Tree.WellShaped : Tree ρ α → Prop
  | intro (node : Tree ρ α)
      (accepted : ∀ slot ∈ node.slots, ∀ child ∈ slot.children, slot.rule.accepts child = true)
      (below : ∀ slot ∈ node.slots, ∀ child ∈ slot.children, child.WellShaped) :
      node.WellShaped

/-- The node may stand in a slot with the rule, in a well-shaped forest. -/
structure Rule.Fits (rule : Rule ρ) (node : Tree ρ α) : Prop where
  accepted : rule.accepts node = true
  shaped : node.WellShaped

theorem Tree.wellShaped_iff {node : Tree ρ α} :
    node.WellShaped ↔ ∀ slot ∈ node.slots, ∀ child ∈ slot.children, slot.rule.Fits child := by
  constructor
  · rintro ⟨_, accepted, below⟩ slot hslot child hchild
    exact ⟨accepted slot hslot child hchild, below slot hslot child hchild⟩
  · intro h
    exact ⟨node, fun slot hslot child hchild => (h slot hslot child hchild).accepted,
      fun slot hslot child hchild => (h slot hslot child hchild).shaped⟩

/-- A change of a node in place that neither spoils what is below it nor touches what shapes look
at. -/
structure Tree.Retouched (node left : Tree ρ α) : Prop where
  shaped : node.WellShaped → left.WellShaped
  tag : left.tag = node.tag
  bare : left.slots.isEmpty = node.slots.isEmpty

lemma Tree.Retouched.refl (node : Tree ρ α) : node.Retouched node :=
  ⟨id, rfl, rfl⟩

lemma Rule.Fits.retouched [ShallowAdmission ρ α] {rule : Rule ρ} {node left : Tree ρ α}
    (hfits : rule.Fits node) (h : node.Retouched left) : rule.Fits left :=
  ⟨(rule.accepts_congr h.tag h.bare).trans hfits.accepted, h.shaped hfits.shaped⟩

/-- The visitor retouches the node that it is shown, and brings along well-shaped nodes only. -/
def NodeReply.KeepsShapes (node : Tree ρ α) : NodeReply ρ α → Prop
  | .answered left directive =>
    node.Retouched left ∧ ∀ new ∈ directive.carried, new.WellShaped
  | .failed left _ => node.Retouched left
  | .unavailable | .overflowed => True

lemma NodeReply.KeepsShapes.retouched {node : Tree ρ α} {reply : NodeReply ρ α}
    (h : reply.KeepsShapes node) : node.Retouched (reply.left node) := by
  cases reply with
  | answered left directive => exact h.1
  | failed left cause => exact h
  | unavailable | overflowed => exact .refl node

/-- The visitor wants well-shaped nodes only to take the place of the sequence. -/
def SequenceReply.KeepsShapes : SequenceReply ρ α → Prop
  | .answered (some new) => ∀ node ∈ new, node.WellShaped
  | .answered none | .failed _ | .unavailable | .overflowed => True

def Act.KeepsShapes : Act ρ α → Prop
  | .event _ => True
  | .node _ _ _ shown reply => reply.KeepsShapes shown
  | .sequence _ _ _ _ reply => reply.KeepsShapes

/-- The visitor keeps shapes in every call. -/
structure Registration.KeepsShapes (visitor : Registration ρ α σ) : Prop where
  node : ∀ hook node state, (visitor.callNode hook node state).1.KeepsShapes node
  sequence : ∀ hook nodes state, (visitor.callSequence hook nodes state).1.KeepsShapes

lemma Walker.acts_keepShapes (walker : Walker ρ α σ)
    (h : ∀ visitor ∈ walker.visitors, visitor.KeepsShapes) (stack : Nat) (nodes : List (Tree ρ α))
    (state : σ) : ∀ act ∈ walker.acts stack nodes state, act.KeepsShapes := by
  intro act hact
  obtain ⟨-, -, hdoes⟩ := walker.recorded_traverse stack nodes state
  obtain ⟨before, after, hact⟩ := hdoes.exists_does hact
  cases act with
  | event event => trivial
  | node index name hook node reply =>
    obtain ⟨visitor, hv, hc, -⟩ := hact
    have hkeeps := (h visitor (List.mem_of_getElem? hv)).node hook node before
    rwa [hc] at hkeeps
  | sequence index name hook nodes reply =>
    obtain ⟨visitor, hv, hc, -⟩ := hact
    have hkeeps := (h visitor (List.mem_of_getElem? hv)).sequence hook nodes before
    rwa [hc] at hkeeps

/-- The nodes that stand where a node was visited. -/
def Fate.nodes {τ : Type} : Fate τ → List τ
  | .keep node => [node]
  | .remove => []
  | .splice nodes => nodes
  | .halt node _ => [node]

lemma Fate.nodes_of_contribution {τ : Type} {fate : Fate τ} {given : List τ}
    (h : fate.contribution = some given) : fate.nodes = given := by
  cases fate <;> simp_all [contribution, nodes]

/-- Nothing is refused only if all nodes are accepted. -/
lemma Options.accepts_of_firstRefused {options : Options} (hcheck : options.checkShapes = true)
    {rule : Rule ρ} {nodes : List (Tree ρ α)} (h : options.firstRefused rule nodes = none) :
    ∀ node ∈ nodes, rule.accepts node = true := by
  simpa [firstRefused, hcheck] using h

/-- A run that keeps a node fit for its slot: whatever stands in its place fits. -/
def KeepsFit (rule : Rule ρ) (run : Tree ρ α → List (Act ρ α) → Fate (Tree ρ α) → Prop) : Prop :=
  ∀ {node acts fate}, run node acts fate → (∀ act ∈ acts, act.KeepsShapes) → rule.Fits node →
    ∀ left ∈ fate.nodes, rule.Fits left

section Consult

variable [ShallowAdmission ρ α] {options : Options} {count : Nat} {hook : NodeHook}
  {place : Place ρ} {site : CallSite}

lemma judge_fits (hcheck : options.checkShapes = true) (hsite : site.hook = .node hook)
    {node : Tree ρ α} {reply : NodeReply ρ α} {verdict : Verdict (Tree ρ α)} {event : Option Event}
    (judged : options.judge hook place site node reply = (verdict, event))
    (hreply : reply.KeepsShapes node) (hfits : place.rule.Fits node) :
    ∀ next ∈ verdict.fate.nodes, place.rule.Fits next := by
  have hleft : place.rule.Fits (reply.left node) := hfits.retouched hreply.retouched
  obtain ⟨left, directive, rfl, -, hr, rfl, -⟩ | ⟨-, rfl, -⟩ | ⟨error, rfl, -, -, -⟩ :=
    Options.judge_cases hsite judged
  · have hnew : ∀ new ∈ directive.carried, place.rule.Fits new := fun new h =>
      ⟨Options.accepts_of_firstRefused hcheck hr new h, hreply.2 new h⟩
    cases directive with
    | keep | skipChildren | stop =>
      simpa [Directive.verdict, Verdict.fate, Fate.nodes, NodeReply.left] using hleft
    | remove => simp [Directive.verdict, Verdict.fate, Fate.nodes]
    | replace new | splice new =>
      simpa [Directive.verdict, Verdict.fate, Fate.nodes, Directive.carried] using hnew
  · simpa [Verdict.fate, Fate.nodes] using hfits
  · simpa [Verdict.fate, Fate.nodes] using hleft

lemma consultRun_fits (hcheck : options.checkShapes = true) {index : Nat} {node : Tree ρ α}
    {acts : List (Act ρ α)} {verdict : Verdict (Tree ρ α)}
    (hrun : ConsultRun options count hook place index node acts verdict)
    (hacts : ∀ act ∈ acts, act.KeepsShapes) (hfits : place.rule.Fits node) :
    ∀ left ∈ verdict.fate.nodes, place.rule.Fits left := by
  induction hrun with
  | done node => simpa [Verdict.fate, Fate.nodes] using hfits
  | pass inRange judged others ih =>
    simp only [List.forall_mem_cons, List.forall_mem_append] at hacts
    obtain ⟨hreply, -, hothers⟩ := hacts
    have hnext := judge_fits hcheck rfl judged hreply hfits
    exact ih hothers (hnext _ (by simp [Verdict.fate, Fate.nodes]))
  | settle inRange judged settled =>
    exact judge_fits hcheck rfl judged (hacts _ List.mem_cons_self) hfits

end Consult

section Slots

variable {run : Place ρ → Tree ρ α → List (Act ρ α) → Fate (Tree ρ α) → Prop}

lemma listRun_fits {rule : Rule ρ}
    {run : Tree ρ α → List (Act ρ α) → Fate (Tree ρ α) → Prop} (h : KeepsFit rule run)
    {slot : String} {emitted : Nat} {nodes items : List (Tree ρ α)} {acts : List (Act ρ α)}
    {halt : Option Halt} (hrun : ListRun run slot emitted nodes acts items halt)
    (hacts : ∀ act ∈ acts, act.KeepsShapes) (hfits : ∀ node ∈ nodes, rule.Fits node) :
    ∀ item ∈ items, rule.Fits item := by
  induction hrun with
  | nil emitted => exact hfits
  | cons visited part others ih =>
    simp only [List.forall_mem_append] at hacts
    obtain ⟨⟨hvisit, -⟩, hothers⟩ := hacts
    obtain ⟨hnode, hrest⟩ := List.forall_mem_cons.1 hfits
    have hgiven := h visited hvisit hnode
    rw [Fate.nodes_of_contribution part] at hgiven
    exact List.forall_mem_append.2 ⟨hgiven, ih hothers hrest⟩
  | halt visited =>
    obtain ⟨hnode, hrest⟩ := List.forall_mem_cons.1 hfits
    have hleft := h visited hacts hnode
    exact List.forall_mem_cons.2 ⟨hleft _ (by simp [Fate.nodes]), hrest⟩

lemma contentRun_fits (h : ∀ place, KeepsFit place.rule (run place)) {rule : Rule ρ}
    {content left : Content α (Tree ρ α)} {acts : List (Act ρ α)} {halt : Option Halt}
    (hrun : ContentRun run rule content acts left halt) (hacts : ∀ act ∈ acts, act.KeepsShapes)
    (hfits : ∀ child ∈ content.children, rule.Fits child) :
    ∀ child ∈ left.children, rule.Fits child := by
  cases hrun with
  | vacant | spliced | value => exact hfits
  | kept visited | halt visited =>
    have hleft := h _ visited hacts (hfits _ (by simp [Content.children]))
    simpa [Content.children, Fate.nodes] using hleft
  | cleared visited => simp [Content.children]
  | list walked => exact listRun_fits (h ⟨.list, rule⟩) walked hacts hfits

lemma slotsRun_fits (h : ∀ place, KeepsFit place.rule (run place))
    {slots items : List (Slot ρ α (Tree ρ α))} {acts : List (Act ρ α)} {halt : Option Halt}
    (hrun : SlotsRun run slots acts items halt) (hacts : ∀ act ∈ acts, act.KeepsShapes)
    (hfits : ∀ slot ∈ slots, ∀ child ∈ slot.children, slot.rule.Fits child) :
    ∀ slot ∈ items, ∀ child ∈ slot.children, slot.rule.Fits child := by
  induction hrun with
  | nil => exact hfits
  | cons walked others ih =>
    obtain ⟨hwalk, hothers⟩ := List.forall_mem_append.1 hacts
    obtain ⟨hslot, hrest⟩ := List.forall_mem_cons.1 hfits
    exact List.forall_mem_cons.2 ⟨contentRun_fits h walked hwalk hslot, ih hothers hrest⟩
  | halt walked =>
    obtain ⟨hslot, hrest⟩ := List.forall_mem_cons.1 hfits
    exact List.forall_mem_cons.2 ⟨contentRun_fits h walked hacts hslot, hrest⟩

omit [Admission ρ α] in
lemma slotsRun_isEmpty {slots items : List (Slot ρ α (Tree ρ α))} {acts : List (Act ρ α)}
    {halt : Option Halt} (hrun : SlotsRun run slots acts items halt) :
    items.isEmpty = slots.isEmpty := by
  cases hrun <;> rfl

end Slots

section Traversal

variable [ShallowAdmission ρ α] {options : Options} {count : Nat}

lemma visitRun_fits (hcheck : options.checkShapes = true)
    {below : Place ρ → Tree ρ α → List (Act ρ α) → Fate (Tree ρ α) → Prop}
    (h : ∀ place, KeepsFit place.rule (below place)) (depth : Nat) (place : Place ρ) :
    KeepsFit place.rule (VisitRun options count below depth place) := by
  intro node acts fate hrun hacts hfits
  -- After the descent the node has the same tag and no fewer slots, so its own slot still takes it.
  have hdescend : ∀ {mid : Tree ρ α} {slots more halt}, place.rule.Fits mid →
      SlotsRun below mid.slots more slots halt → (∀ act ∈ more, act.KeepsShapes) →
      place.rule.Fits { mid with slots := slots } := by
    intro mid slots more halt hmid hslots hmore
    have hbelow := slotsRun_fits h hslots hmore (Tree.wellShaped_iff.1 hmid.shaped)
    exact hmid.retouched ⟨fun _ => Tree.wellShaped_iff.2 hbelow, rfl, slotsRun_isEmpty hslots⟩
  cases hrun with
  | tooDeep exceeded => simpa [Fate.nodes] using hfits
  | walked allowed entered descended left =>
    simp only [List.forall_mem_append] at hacts
    obtain ⟨⟨henter, hbelow⟩, hleave⟩ := hacts
    have hmid := consultRun_fits hcheck entered henter hfits _ List.mem_cons_self
    exact consultRun_fits hcheck left hleave (hdescend hmid descended hbelow)
  | broken allowed entered descended =>
    obtain ⟨henter, hbelow⟩ := List.forall_mem_append.1 hacts
    have hmid := consultRun_fits hcheck entered henter hfits _ List.mem_cons_self
    simpa [Fate.nodes] using hdescend hmid descended hbelow
  | skipped allowed entered left =>
    obtain ⟨henter, hleave⟩ := List.forall_mem_append.1 hacts
    have hmid := consultRun_fits hcheck entered henter hfits _ List.mem_cons_self
    exact consultRun_fits hcheck left hleave hmid
  | settled allowed entered proceeds skips => exact consultRun_fits hcheck entered hacts hfits

lemma nodeRun_fits (hcheck : options.checkShapes = true) (room depth : Nat) (place : Place ρ) :
    KeepsFit (α := α) place.rule (NodeRun options count room depth place) := by
  induction room generalizing depth place with
  | zero =>
    rintro node acts fate ⟨rfl, rfl⟩ - hfits
    simpa [Fate.nodes] using hfits
  | succ room ih => exact visitRun_fits hcheck (fun place => ih (depth + 1) place) depth place

/-- The top-level sequence has no shape, so there it is enough that a node is well-shaped. -/
lemma topRun_wellShaped (hcheck : options.checkShapes = true) {room : Nat}
    {nodes items : List (Tree ρ α)} {acts : List (Act ρ α)} {halt : Option Halt}
    (hrun : TopRun options count room nodes acts items halt)
    (hacts : ∀ act ∈ acts, act.KeepsShapes) (hnodes : ∀ node ∈ nodes, node.WellShaped) :
    ∀ item ∈ items, item.WellShaped := by
  have hfits := listRun_fits (nodeRun_fits hcheck room 0 .topLevel) hrun hacts fun node hn =>
    ⟨Rule.accepts_unrestricted topLevelName node, hnodes node hn⟩
  exact fun item hi => (hfits item hi).shaped

omit [ShallowAdmission ρ α] in
lemma showRun_wellShaped {hook : SequenceHook} {index : Nat} {nodes items : List (Tree ρ α)}
    {acts : List (Act ρ α)} {halt : Option Halt}
    (hrun : ShowRun count hook index nodes acts items halt)
    (hacts : ∀ act ∈ acts, act.KeepsShapes) (hnodes : ∀ node ∈ nodes, node.WellShaped) :
    ∀ item ∈ items, item.WellShaped := by
  have hjudge : ∀ {nodes next : List (Tree ρ α)} {reply : SequenceReply ρ α} {site halt event},
      reply.judge hook site nodes = ((next, halt), event) → reply.KeepsShapes →
      (∀ node ∈ nodes, node.WellShaped) → ∀ node ∈ next, node.WellShaped := by
    intro nodes next reply site halt event judged hreply hnodes
    match reply with
    | .answered (some new) =>
      obtain ⟨⟨rfl, -⟩, -⟩ : (_ ∧ _) ∧ _ := by simpa [SequenceReply.judge] using judged
      exact hreply
    | .answered none | .unavailable | .failed _ | .overflowed =>
      obtain ⟨⟨rfl, -⟩, -⟩ : (_ ∧ _) ∧ _ := by simpa [SequenceReply.judge] using judged
      exact hnodes
  induction hrun with
  | done nodes => exact hnodes
  | pass inRange judged others ih =>
    simp only [List.forall_mem_cons, List.forall_mem_append] at hacts
    obtain ⟨hreply, -, hothers⟩ := hacts
    exact ih hothers (hjudge judged hreply hnodes)
  | halt inRange judged => exact hjudge judged (hacts _ List.mem_cons_self) hnodes

lemma walkRun_wellShaped (hcheck : options.checkShapes = true) {room : Nat}
    {nodes items : List (Tree ρ α)} {acts : List (Act ρ α)}
    (hrun : WalkRun options count room nodes acts items)
    (hacts : ∀ act ∈ acts, act.KeepsShapes) (hnodes : ∀ node ∈ nodes, node.WellShaped) :
    ∀ item ∈ items, item.WellShaped := by
  cases hrun with
  | through walked => exact topRun_wellShaped hcheck walked hacts hnodes
  | stopped walked =>
    exact topRun_wellShaped hcheck walked (List.forall_mem_append.1 hacts).1 hnodes

theorem traversalRun_wellShaped (hcheck : options.checkShapes = true) {room : Nat}
    {nodes items : List (Tree ρ α)} {acts : List (Act ρ α)} {halt : Option Halt}
    (hrun : TraversalRun options count room nodes acts items halt)
    (hacts : ∀ act ∈ acts, act.KeepsShapes) (hnodes : ∀ node ∈ nodes, node.WellShaped) :
    ∀ item ∈ items, item.WellShaped := by
  cases hrun with
  | unready shown => exact showRun_wellShaped shown (List.forall_mem_cons.1 hacts).2 hnodes
  | broken shown walked unstopped =>
    simp only [List.forall_mem_cons, List.forall_mem_append] at hacts
    obtain ⟨-, hfirst, hwalk⟩ := hacts
    have hstart := showRun_wellShaped shown hfirst hnodes
    exact topRun_wellShaped hcheck walked hwalk hstart
  | unfinished shown walked shownAgain =>
    simp only [List.forall_mem_cons, List.forall_mem_append] at hacts
    obtain ⟨-, ⟨hfirst, hwalk⟩, hlast⟩ := hacts
    have hstart := showRun_wellShaped shown hfirst hnodes
    have hmid := walkRun_wellShaped hcheck walked hwalk hstart
    exact showRun_wellShaped shownAgain hlast hmid
  | finished shown walked shownAgain =>
    simp only [List.forall_mem_cons, List.forall_mem_append] at hacts
    obtain ⟨-, ⟨⟨hfirst, hwalk⟩, hlast⟩, -⟩ := hacts
    have hstart := showRun_wellShaped shown hfirst hnodes
    have hmid := walkRun_wellShaped hcheck walked hwalk hstart
    exact showRun_wellShaped shownAgain hlast hmid

end Traversal

namespace Walker

variable (walker : Walker ρ α σ)

/-- Whatever the visitors are, if in all their calls they retouch nodes at most and bring along
well-shaped nodes only, then what a traversal leaves is well-shaped, also where it was stopped or
has failed. -/
theorem traverse_wellShaped [ShallowAdmission ρ α] (hcheck : walker.options.checkShapes = true)
    (stack : Nat) (nodes : List (Tree ρ α)) (state : σ)
    (hnodes : ∀ node ∈ nodes, node.WellShaped)
    (hacts : ∀ act ∈ walker.acts stack nodes state, act.KeepsShapes) :
    ∀ node ∈ (walker.traverse stack nodes state).items, node.WellShaped := by
  obtain ⟨-, hrun, -⟩ := walker.recorded_traverse stack nodes state
  exact traversalRun_wellShaped hcheck hrun hacts hnodes

/-- Puts two statements in the place of one that is left, and tries to do the same to an echo with
an expression among them. -/
def unroll : NodeHook → Tree Shape Unit → NodeReply Shape Unit
  | .enter, node => .answered node .keep
  | .leave, node =>
    if node.tag = "Stmt_Loop" then
      .answered node (.splice [{ tag := "Stmt_Body" }, { tag := "Stmt_Body" }])
    else if node.tag = "Stmt_Echo" then
      .answered node (.splice [{ tag := "Stmt_Body" }, { tag := "Expr_Text" }])
    else .answered node .keep

/-- A block with room for statements only. -/
def unrollBlock : Tree Shape Unit where
  tag := "Stmt_Block"
  slots := [⟨⟨"body", some .stmt⟩, .list [{ tag := "Stmt_Loop" }, { tag := "Stmt_Echo" }]⟩]

/-- The expression is refused, and the loop that was unrolled before is well-shaped. -/
theorem unroll_wellShaped :
    (∀ node ∈ [unrollBlock], node.WellShaped) ∧
      (∀ act ∈ (Walker.stateless {} "unroll" unroll).acts 3 [unrollBlock] (), act.KeepsShapes) ∧
      ∀ node ∈ ((Walker.stateless {} "unroll" unroll).traverse 3 [unrollBlock] ()).items,
        node.WellShaped := by
  have hleaf : ∀ tag : String, ({ tag := tag } : Tree Shape Unit).WellShaped := fun tag =>
    Tree.wellShaped_iff.2 (by simp)
  have hblock : ∀ node ∈ [unrollBlock], node.WellShaped := by
    intro node hnode
    obtain rfl := List.mem_singleton.1 hnode
    refine Tree.wellShaped_iff.2 fun slot hslot child hchild => ?_
    obtain rfl := List.mem_singleton.1 hslot
    obtain rfl | rfl : child = { tag := "Stmt_Loop" } ∨ child = { tag := "Stmt_Echo" } := by
      simpa [Slot.children, Content.children] using hchild
    · exact ⟨by decide +kernel, hleaf _⟩
    · exact ⟨by decide +kernel, hleaf _⟩
  have hkeeps : (Registration.stateless "unroll" unroll).KeepsShapes := by
    refine ⟨fun hook node state => ?_, fun _ _ _ => trivial⟩
    cases hook with
    | enter => exact ⟨.refl node, by simp [Directive.carried]⟩
    | leave =>
      simp only [Registration.stateless, unroll]
      split
      · exact ⟨.refl node, by simp [Directive.carried, hleaf]⟩
      · split
        · exact ⟨.refl node, by simp [Directive.carried, hleaf]⟩
        · exact ⟨.refl node, by simp [Directive.carried]⟩
  have hacts := (Walker.stateless {} "unroll" unroll).acts_keepShapes
    (fun visitor hv => List.mem_singleton.1 hv ▸ hkeeps) 3 [unrollBlock] ()
  exact ⟨hblock, hacts, traverse_wellShaped _ rfl 3 [unrollBlock] () hblock hacts⟩

end Walker

end ForestWalk
