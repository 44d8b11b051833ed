import ForestWalk.Proofs.Replay
/-!
Where the nodes stand that visitors are shown. A traversal goes by spots, each with an address and
the place that goes with it. At every moment the address leads to the node in hand in the forest as
it is then, and the place is that of the slot which holds the node.
-/

namespace ForestWalk

variable {ρ α σ : Type}

/-- The place that the children in a slot have. A value holds none. -/
def Slot.place? {τ : Type} (slot : Slot ρ α τ) : Option (Place ρ) :=
  match slot.kind with
  | .single => some ⟨.single, slot.rule⟩
  | .list => some ⟨.list, slot.rule⟩
  | .value => none

/-- The node with an address and the place where it stands, below what is held in an outer place. -/
def Address.find? : Address → Place ρ → Content α (Tree ρ α) → Option (Place ρ × Tree ρ α)
  | .here number, outer, content => content.children[number]?.map fun node => (outer, node)
  | .inside number slot rest, _, content =>
    content.children[number]?.bind fun node => node.slots[slot]?.bind fun slot =>
      slot.place?.bind fun place => rest.find? place slot.content

section Kinds

variable {τ : Type}

@[simp] theorem Content.kind_put (number : Nat) (new : List τ) (content : Content α τ) :
    (content.put number new).kind = content.kind := by
  cases content <;> rfl

@[simp] theorem Content.kind_modifyAt (number : Nat) (f : τ → τ) (content : Content α τ) :
    (content.modifyAt number f).kind = content.kind := by
  cases content <;> rfl

lemma Address.kind_graft (new : List (Tree ρ α)) (address : Address)
    (content : Content α (Tree ρ α)) : (address.graft new content).kind = content.kind := by
  cases address with
  | here number => exact content.kind_put number new
  | inside number slot rest => exact content.kind_modifyAt number _

lemma Slot.place?_congr {slot other : Slot ρ α τ} (hrule : slot.rule = other.rule)
    (hkind : slot.content.kind = other.content.kind) : slot.place? = other.place? := by
  simp only [place?, kind, hrule, hkind]

@[simp] theorem Gap.getElem?_fill (gap : Gap τ) (node : τ) :
    (gap.fill [node] : Content α τ).children[gap.number]? = some node := by
  cases gap with
  | list front back => simp [fill, Content.children, number]
  | single => rfl

end Kinds

namespace Moment

section Placed

/-- The node in hand is the one that stands at its address, and the place is the one it stands
in. -/
def Placed (outer : Place ρ) (content : Content α (Tree ρ α)) : Moment ρ α → Prop
  | .reached spot node | .acted (some spot) (.node _ _ _ node _) =>
    spot.address.find? outer content = some (spot.place, node)
  | _ => True

variable [Admission ρ α] (options : Options)

/-- The nodes in hand stand at their addresses, each at its own moment. -/
def AllPlaced (outer : Place ρ) : List (Moment ρ α) → Content α (Tree ρ α) → Prop
  | [], _ => True
  | moment :: rest, content =>
    moment.Placed outer content ∧ AllPlaced outer rest (moment.redo options content)

variable {options} {outer inner : Place ρ}

theorem allPlaced_append {moments more : List (Moment ρ α)} {content : Content α (Tree ρ α)} :
    AllPlaced options outer (moments ++ more) content ↔
      AllPlaced options outer moments content ∧
        AllPlaced options outer more (replay options moments content) := by
  induction moments generalizing content with
  | nil => simp only [List.nil_append, AllPlaced, true_and]; rfl
  | cons moment rest ih => simp only [List.cons_append, AllPlaced, ih, replay_cons, and_assoc]

/-- Where nobody is shown a node there is nothing to place. -/
lemma allPlaced_of_quiet {moments : List (Moment ρ α)}
    (h : ∀ moment ∈ moments, ∀ content, moment.Placed outer content)
    (content : Content α (Tree ρ α)) : AllPlaced options outer moments content := by
  induction moments generalizing content with
  | nil => exact trivial
  | cons moment rest ih =>
    obtain ⟨hmoment, hrest⟩ := List.forall_mem_cons.1 h
    exact ⟨hmoment content, ih hrest _⟩

/-- Nobody is shown a node that is not in hand. -/
lemma allPlaced_ofActs_none (acts : List (Act ρ α)) (content : Content α (Tree ρ α)) :
    AllPlaced options outer (ofActs none acts) content := by
  refine allPlaced_of_quiet ?_ content
  intro moment hmem content
  obtain ⟨act, -, rfl⟩ := List.mem_map.1 hmem
  exact trivial

lemma allPlaced_ofActs_telling (spot : Option (Spot ρ)) (event : Option Event)
    (content : Content α (Tree ρ α)) :
    AllPlaced options outer (ofActs spot (Act.telling event)) content := by
  refine allPlaced_of_quiet ?_ content
  intro moment hmem content
  obtain ⟨act, hact, rfl⟩ := List.mem_map.1 hmem
  obtain ⟨event, -, rfl⟩ := List.mem_map.1 hact
  cases spot <;> exact trivial

/-- A walk does not turn one kind of slot into another. -/
lemma kind_redo {moment : Moment ρ α} (h : moment.inWalk = true)
    (content : Content α (Tree ρ α)) : (moment.redo options content).kind = content.kind := by
  match moment with
  | .reached _ _ | .acted none (.event _) | .acted (some _) (.event _) => rfl
  | .acted (some spot) (.node _ _ hook shown reply) => exact spot.address.kind_graft _ content
  | .acted none (.node ..) | .acted _ (.sequence ..) => cases h

omit [Admission ρ α] in
/-- What is placed in a slot is placed in the sequence that holds the node. -/
lemma Placed.below {gap : Gap (Tree ρ α)} {number : Nat} {node : Tree ρ α}
    {slot : Slot ρ α (Tree ρ α)} (hslot : node.slots[number]? = some slot)
    (hplace : slot.place? = some inner) {moment : Moment ρ α}
    (h : moment.Placed inner slot.content) :
    (moment.below gap.number number).Placed outer (gap.fill [node]) := by
  have hfind : ∀ spot : Spot ρ, (spot.below gap.number number).address.find? outer
      (gap.fill [node]) = spot.address.find? inner slot.content := by
    intro spot
    simp [Spot.below, Address.find?, hslot, hplace]
  match moment with
  | .reached spot node | .acted (some spot) (.node _ _ _ node _) => exact (hfind spot).trans h
  | .acted none _ | .acted (some _) (.event _) | .acted (some _) (.sequence ..) => exact trivial

lemma AllPlaced.map_below {moments : List (Moment ρ α)}
    (hwalk : ∀ moment ∈ moments, moment.inWalk = true) {gap : Gap (Tree ρ α)} {number : Nat}
    {node : Tree ρ α} {slot : Slot ρ α (Tree ρ α)} (hslot : node.slots[number]? = some slot)
    (hplace : slot.place? = some inner) (h : AllPlaced options inner moments slot.content) :
    AllPlaced options outer (moments.map (below gap.number number)) (gap.fill [node]) := by
  induction moments generalizing node slot with
  | nil => exact trivial
  | cons moment rest ih =>
    obtain ⟨hmoment, hrest⟩ := List.forall_mem_cons.1 hwalk
    refine ⟨h.1.below hslot hplace, ?_⟩
    rw [redo_below hmoment]
    let redone : Slot ρ α (Tree ρ α) := { slot with content := moment.redo options slot.content }
    have hredone : (node.modifySlot number (moment.redo options)).slots[number]? = some redone := by
      simp [Tree.modifySlot, hslot, redone]
    have hkept : redone.place? = some inner := by
      rw [← hplace]
      exact Slot.place?_congr rfl (kind_redo hmoment _)
    exact ih hrest hredone hkept h.2

end Placed

end Moment

section Trails

open Moment

variable [Admission ρ α] {options : Options} {count : Nat}

/-- In every trail of a node the nodes in hand stand at their addresses. -/
def Seated (options : Options) (place : Place ρ)
    (trail : Nat → Tree ρ α → List (Moment ρ α) → Fate (Tree ρ α) → Prop) : Prop :=
  ∀ {node moments fate} (gap : Gap (Tree ρ α)), trail gap.number node moments fate →
    AllPlaced options place moments (gap.fill [node])

/-- The nodes in front are those that the walk has passed. -/
lemma ListTrail.placed {place : Place ρ}
    {trail : Nat → Tree ρ α → List (Moment ρ α) → Fate (Tree ρ α) → Prop}
    (hredone : Redone options place trail) (h : Seated options place trail) {slot : String}
    {emitted : Nat} {nodes items : List (Tree ρ α)} {moments : List (Moment ρ α)}
    {halt : Option Halt} (htrail : ListTrail trail slot emitted nodes moments items halt)
    {front : List (Tree ρ α)} (hfront : front.length = emitted) :
    AllPlaced options place moments (.list (front ++ nodes)) := by
  induction htrail generalizing front with
  | nil emitted => exact trivial
  | @cons emitted node rest given items fate moments more halt visited part others ih =>
    subst hfront
    have hnode := h (.list front rest) visited
    have hreplay := hredone.replay_eq (.list front rest) visited
    rw [Fate.nodes_of_contribution part] at hreplay
    have hlength : (front ++ given).length = front.length + given.length := List.length_append
    have hrest := ih hlength
    simp only [Gap.fill, List.append_assoc, List.singleton_append] at hnode hreplay hrest
    rw [allPlaced_append, allPlaced_append, replay_append, hreplay, replay_telling]
    exact ⟨⟨hnode, allPlaced_ofActs_none _ _⟩, hrest⟩
  | @halt emitted node left rest moments why visited =>
    subst hfront
    simpa [Gap.fill] using h (.list front rest) visited

section Slots

variable {trail : Place ρ → Nat → Tree ρ α → List (Moment ρ α) → Fate (Tree ρ α) → Prop}

lemma ContentTrail.placed (hredone : ∀ place, Redone options place (trail place))
    (h : ∀ place, Seated options place (trail place)) {rule : Rule ρ}
    {content left : Content α (Tree ρ α)} {moments : List (Moment ρ α)} {halt : Option Halt}
    (htrail : ContentTrail trail rule content moments left halt) {place : Place ρ}
    (hplace : (Slot.mk rule content).place? = some place) :
    AllPlaced options place moments content := by
  cases htrail with
  | vacant | value => exact trivial
  | kept visited | spliced visited | halt visited =>
    cases hplace
    exact h _ .single visited
  | cleared visited =>
    cases hplace
    exact allPlaced_append.2 ⟨h _ .single visited, allPlaced_ofActs_none _ _⟩
  | list walked =>
    cases hplace
    have hnone : ([] : List (Tree ρ α)).length = 0 := rfl
    exact ListTrail.placed (hredone _) (h _) walked hnone

omit [Admission ρ α] in
/-- Nobody is called while a value is passed over. -/
lemma ContentTrail.eq_nil {rule : Rule ρ} {content left : Content α (Tree ρ α)}
    {moments : List (Moment ρ α)} {halt : Option Halt}
    (htrail : ContentTrail trail rule content moments left halt)
    (hplace : (Slot.mk rule content).place? = none) : moments = [] := by
  cases htrail with
  | vacant | value => rfl
  | kept | spliced | halt | cleared | list => cases hplace

/-- The slots in front are those that the walk has passed. -/
lemma SlotsTrail.placed (hredone : ∀ place, Redone options place (trail place))
    (h : ∀ place, Seated options place (trail place)) {outer : Place ρ} (gap : Gap (Tree ρ α))
    {slot : Nat} {slots items : List (Slot ρ α (Tree ρ α))} {moments : List (Moment ρ α)}
    {halt : Option Halt} (htrail : SlotsTrail trail gap.number slot slots moments items halt)
    {node : Tree ρ α} {front : List (Slot ρ α (Tree ρ α))} (hfront : front.length = slot)
    (hslots : node.slots = front ++ slots) :
    AllPlaced options outer moments (gap.fill [node]) := by
  -- What is passed over in one slot, be it a value or not.
  have hslot : ∀ {rule : Rule ρ} {content left : Content α (Tree ρ α)}
      {moments : List (Moment ρ α)} {halt : Option Halt} {node : Tree ρ α}
      {front rest : List (Slot ρ α (Tree ρ α))},
      ContentTrail trail rule content moments left halt →
      node.slots = front ++ ⟨rule, content⟩ :: rest →
      AllPlaced options outer (moments.map (Moment.below gap.number front.length))
        (gap.fill [node]) := by
    intro rule content left moments halt node front rest walked hslots
    have hnumber : node.slots[front.length]? = some ⟨rule, content⟩ := by simp [hslots]
    rcases hplace : (Slot.mk rule content).place? with _ | place
    · obtain rfl := walked.eq_nil hplace
      exact trivial
    · exact AllPlaced.map_below (walked.inWalk hredone) hnumber hplace
        (walked.placed hredone h hplace)
  induction htrail generalizing node front with
  | nil slot => exact trivial
  | @cons slot rule content left rest items moments more halt walked others ih =>
    subst hfront
    rw [allPlaced_append, replay_map_below (walked.inWalk hredone),
      Tree.modifySlot_append hslots, walked.replay hredone]
    let passed : List (Slot ρ α (Tree ρ α)) := front ++ [⟨rule, left⟩]
    let after : Tree ρ α := { node with slots := front ++ ⟨rule, left⟩ :: rest }
    have hpassed : passed.length = front.length + 1 := List.length_append
    have hafter : after.slots = passed ++ rest := List.append_cons front _ rest
    exact ⟨hslot walked hslots, ih hpassed hafter⟩
  | halt walked =>
    subst hfront
    exact hslot walked hslots

end Slots

lemma ConsultRun.placed {hook : NodeHook} {place : Place ρ} {index : Nat} (gap : Gap (Tree ρ α))
    {node : Tree ρ α} {acts : List (Act ρ α)} {verdict : Verdict (Tree ρ α)}
    (hrun : ConsultRun options count hook place index node acts verdict) :
    AllPlaced options place (ofActs (some (.here place gap.number)) acts) (gap.fill [node]) := by
  have hcall : ∀ {index name} {node : Tree ρ α} {reply},
      (Moment.acted (some (.here place gap.number)) (.node index name hook node reply)).Placed
        place (gap.fill [node]) := by
    intro index name node reply
    simp [Placed, Spot.here, Address.find?]
  induction hrun with
  | done node => exact trivial
  | @pass index name node next reply event acts verdict inRange judged others ih =>
    have hnext : (Moment.acted (some (.here place gap.number))
        (.node index name hook node reply)).redo options (gap.fill [node]) =
          gap.fill [next] := by
      have houtcome : reply.outcome options hook place node = [next] :=
        NodeReply.outcome_eq judged
      exact (gap.put_fill node _).trans (congrArg (gap.fill ·) houtcome)
    simp only [ofActs, List.map_cons, List.map_append] at ih ⊢
    refine ⟨hcall, allPlaced_append.2 ⟨allPlaced_ofActs_telling _ _ _, ?_⟩⟩
    rw [hnext]
    have htold : Moment.replay options (ofActs (some (.here place gap.number)) (Act.telling event))
        (gap.fill [next]) = gap.fill [next] := replay_ofActs_telling _ _ _
    exact htold.symm ▸ ih
  | settle inRange judged settled => exact ⟨hcall, allPlaced_ofActs_telling _ _ _⟩

lemma VisitTrail.placed {depth : Nat}
    {below : Place ρ → Nat → Tree ρ α → List (Moment ρ α) → Fate (Tree ρ α) → Prop}
    (hredone : ∀ place, Redone options place (below place))
    (h : ∀ place, Seated options place (below place)) (place : Place ρ) :
    Seated options place (VisitTrail options count below depth place) := by
  intro node moments fate gap htrail
  have hreached : (Moment.reached (.here place gap.number) node).Placed place
      (gap.fill [node]) := by
    simp [Placed, Spot.here, Address.find?]
  cases htrail with
  | tooDeep exceeded => exact ⟨hreached, allPlaced_ofActs_telling (some _) (some _) _⟩
  | @walked mid slots acts last moments verdict allowed entered descended left =>
    have hslots : AllPlaced options place moments (gap.fill [mid]) :=
      descended.placed hredone h gap rfl (List.nil_append _).symm
    have hreplay := descended.replay hredone gap rfl (List.nil_append _).symm
    refine ⟨hreached, allPlaced_append.2 ⟨allPlaced_append.2 ⟨entered.placed gap, ?_⟩, ?_⟩⟩
    · rw [redo_reached, entered.replay gap]
      exact hslots
    · rw [replay_append, redo_reached, entered.replay gap]
      exact hreplay.symm ▸ left.placed gap
  | @broken mid slots acts moments why allowed entered descended =>
    have hslots : AllPlaced options place moments (gap.fill [mid]) :=
      descended.placed hredone h gap rfl (List.nil_append _).symm
    refine ⟨hreached, allPlaced_append.2 ⟨entered.placed gap, ?_⟩⟩
    rw [redo_reached, entered.replay gap]
    exact hslots
  | skipped allowed entered left =>
    refine ⟨hreached, allPlaced_append.2 ⟨entered.placed gap, ?_⟩⟩
    rw [redo_reached, entered.replay gap]
    exact left.placed gap
  | settled allowed entered proceeds skips => exact ⟨hreached, entered.placed gap⟩

theorem NodeTrail.placed (room depth : Nat) (place : Place ρ) :
    Seated (α := α) options place (NodeTrail options count room depth place) := by
  induction room generalizing depth place with
  | zero =>
    rintro node moments fate gap ⟨rfl, -⟩
    exact trivial
  | succ room ih =>
    exact VisitTrail.placed (NodeTrail.redone room (depth + 1)) (ih (depth + 1)) place

lemma TopTrail.placed {room : Nat} {nodes items : List (Tree ρ α)} {moments : List (Moment ρ α)}
    {halt : Option Halt} (htrail : TopTrail options count room nodes moments items halt) :
    AllPlaced options .topLevel moments (.list nodes) := by
  have hnone : ([] : List (Tree ρ α)).length = 0 := rfl
  exact ListTrail.placed (NodeTrail.redone room 0 .topLevel) (NodeTrail.placed room 0 .topLevel)
    htrail hnone

lemma WalkTrail.placed {room : Nat} {nodes items : List (Tree ρ α)} {moments : List (Moment ρ α)}
    (htrail : WalkTrail options count room nodes moments items) :
    AllPlaced options .topLevel moments (.list nodes) := by
  cases htrail with
  | through walked => exact TopTrail.placed walked
  | stopped walked =>
    exact allPlaced_append.2 ⟨TopTrail.placed walked, allPlaced_ofActs_none _ _⟩

/-- In the trail of a traversal the nodes in hand stand at their addresses. -/
theorem TraversalTrail.placed {room : Nat} {nodes items : List (Tree ρ α)}
    {trail : List (Moment ρ α)} {halt : Option Halt}
    (htrail : TraversalTrail options count room nodes trail items halt) :
    AllPlaced options .topLevel trail (.list nodes) := by
  have hshown : ∀ acts : List (Act ρ α), AllPlaced options .topLevel
      (telling (some (.started nodes.length count)) ++ ofActs none acts) (.list nodes) :=
    fun acts => allPlaced_append.2 ⟨allPlaced_ofActs_none _ _, allPlaced_ofActs_none _ _⟩
  cases htrail with
  | unready shown => exact hshown _
  | broken shown walked unstopped =>
    refine allPlaced_append.2 ⟨hshown _, ?_⟩
    rw [replay_append, replay_telling, shown.replay]
    exact TopTrail.placed walked
  | unfinished shown walked shownAgain =>
    refine allPlaced_append.2 ⟨allPlaced_append.2 ⟨hshown _, ?_⟩, allPlaced_ofActs_none _ _⟩
    rw [replay_append, replay_telling, shown.replay]
    exact walked.placed
  | finished shown walked shownAgain =>
    refine allPlaced_append.2 ⟨allPlaced_append.2 ⟨allPlaced_append.2 ⟨hshown _, ?_⟩,
      allPlaced_ofActs_none _ _⟩, allPlaced_ofActs_none _ _⟩
    rw [replay_append, replay_telling, shown.replay]
    exact walked.placed

end Trails

/-- Whenever a visitor is called with a node, the node stands at its address in the forest as it is
at that moment, and its place is that of the slot which holds it. -/
theorem Walker.Leaves.placed [Admission ρ α] {walker : Walker ρ α σ} {stack : Nat}
    {nodes : List (Tree ρ α)} {state : σ} {before after : List (Moment ρ α)} {moment : Moment ρ α}
    (h : walker.Leaves stack nodes state (before ++ moment :: after)) :
    moment.Placed .topLevel (Moment.replay walker.options before (.list nodes)) :=
  (Moment.allPlaced_append.1 h.trodden.placed).2.1

end ForestWalk
