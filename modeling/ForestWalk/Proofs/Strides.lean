import ForestWalk.Proofs.Placement
/-!
How many steps the walk of a list makes. At every arrival at a node, the walk comes to that node and
to as many nodes of the same list after it as there are, at that moment, from the node on: whatever
visitors put into a list or take out of it, and whatever is walked below, the walk of the list never
becomes longer.
-/

namespace ForestWalk

variable {ρ α σ : Type}

namespace Address

/-- Whether two nodes stand in the same list. -/
def beside : Address → Address → Bool
  | .here _, .here _ => true
  | .inside number slot rest, .inside number' slot' rest' =>
    number == number' && slot == slot' && rest.beside rest'
  | .here _, .inside .. | .inside .., .here _ => false

/-- The nodes of the list that holds the node with an address. What stands in a single slot counts
as a list. -/
def siblings : Address → Content α (Tree ρ α) → List (Tree ρ α)
  | .here _, content => content.children
  | .inside number slot rest, content =>
    (content.children[number]?.bind fun node => node.slots[slot]?).elim [] fun slot =>
      rest.siblings slot.content

/-- How often the walk comes to a node of the list that holds an address, until it is back at a node
further up. -/
def strides (address : Address) (arrivals : List Address) : Nat :=
  (arrivals.takeWhile fun other => address.depth ≤ other.depth).countP address.beside

/-- The walk goes on further up, if it comes to any more nodes at all. -/
def Surfaces (arrivals : List Address) : Prop :=
  ∀ first ∈ arrivals.head?, first.depth = 0

/-- The walk comes to the node with a number first, and then only to nodes below it. -/
def Descends (number : Nat) (arrivals : List Address) : Prop :=
  arrivals = [] ∨ ∃ lower : List Address, arrivals = .here number :: lower ∧
    ∀ other ∈ lower, ∃ slot rest, other = .inside number slot rest

@[simp] theorem strides_nil (address : Address) : address.strides [] = 0 :=
  rfl

lemma strides_append_le (address : Address) (arrivals more : List Address) :
    address.strides (arrivals ++ more) ≤ address.strides arrivals + address.strides more := by
  simp only [strides, List.takeWhile_append]
  split
  · rename_i hall
    have hwhole := (List.takeWhile_sublist _).eq_of_length hall
    exact Nat.le_of_eq (by rw [List.countP_append, hwhole])
  · exact Nat.le_add_right _ _

/-- Nodes of other lists make no step. -/
lemma strides_eq_zero {address : Address} {arrivals : List Address}
    (h : ∀ other ∈ arrivals, address.beside other = false) : address.strides arrivals = 0 := by
  refine List.countP_eq_zero.2 fun other hmem => ?_
  simp [h other ((List.takeWhile_sublist _).subset hmem)]

/-- A walk that is back further up makes no more steps in a list below. -/
lemma Surfaces.strides_inside {arrivals : List Address} (h : Surfaces arrivals)
    (number slot : Nat) (rest : Address) : (inside number slot rest).strides arrivals = 0 := by
  cases arrivals with
  | nil => rfl
  | cons first later =>
    have hfirst : first.depth = 0 := h first rfl
    simp [strides, depth, hfirst]

lemma Surfaces.append {arrivals more : List Address} (h : Surfaces arrivals)
    (hmore : Surfaces more) : Surfaces (arrivals ++ more) := by
  cases arrivals with
  | nil => exact hmore
  | cons first later => exact h

lemma Descends.surfaces {number : Nat} {arrivals : List Address} (h : Descends number arrivals) :
    Surfaces arrivals := by
  obtain rfl | ⟨lower, rfl, -⟩ := h
  · simp [Surfaces]
  · simp [Surfaces, depth]

/-- What is walked below a node makes no step in the list that holds the node. -/
lemma strides_here_of_inside {number : Nat} {lower : List Address}
    (h : ∀ other ∈ lower, ∃ slot rest, other = .inside number slot rest) (outer : Nat) :
    (here outer).strides lower = 0 := by
  refine strides_eq_zero fun other hmem => ?_
  obtain ⟨slot, rest, rfl⟩ := h other hmem
  rfl

lemma strides_here_cons (outer number : Nat) (arrivals : List Address) :
    (here outer).strides (here number :: arrivals) = (here outer).strides arrivals + 1 := by
  have hbeside : (here outer).beside (here number) = true := rfl
  simp [strides, depth, List.countP_cons_of_pos hbeside]

lemma Descends.strides_le {number : Nat} {arrivals : List Address} (h : Descends number arrivals)
    (outer : Nat) : (here outer).strides arrivals ≤ 1 := by
  obtain rfl | ⟨lower, rfl, hlower⟩ := h
  · simp
  · have hone := strides_here_cons outer number lower
    rw [strides_here_of_inside hlower] at hone
    exact Nat.le_of_eq hone

/-- The steps in a list are the same, seen from further above. -/
lemma strides_map_inside (number slot : Nat) (address : Address) (arrivals : List Address) :
    (inside number slot address).strides (arrivals.map (inside number slot)) =
      address.strides arrivals := by
  simp [strides, List.takeWhile_map, List.countP_map, Function.comp_def, depth, beside]

/-- In the slots that follow, no step is made in a list of this slot. -/
lemma strides_eq_zero_of_later {number slot : Nat} {arrivals : List Address}
    (h : ∀ other ∈ arrivals, ∃ later rest, slot < later ∧ other = .inside number later rest)
    (address : Address) : (inside number slot address).strides arrivals = 0 := by
  refine strides_eq_zero fun other hmem => ?_
  obtain ⟨later, rest, hlater, rfl⟩ := h other hmem
  simp [beside, Nat.ne_of_lt hlater]

end Address

namespace Moment

/-- The address of the node that the walk comes to. -/
def arrival? : Moment ρ α → Option Address
  | .reached spot _ => some spot.address
  | .acted _ _ => none

/-- The addresses of the nodes that the walk comes to, in order. -/
def arrivals (moments : List (Moment ρ α)) : List Address :=
  moments.filterMap arrival?

@[simp] theorem arrivals_nil : arrivals ([] : List (Moment ρ α)) = [] :=
  rfl

@[simp] theorem arrivals_reached (spot : Spot ρ) (node : Tree ρ α) (moments : List (Moment ρ α)) :
    arrivals (.reached spot node :: moments) = spot.address :: arrivals moments :=
  rfl

@[simp] theorem arrivals_append (moments more : List (Moment ρ α)) :
    arrivals (moments ++ more) = arrivals moments ++ arrivals more :=
  List.filterMap_append

@[simp] theorem arrivals_ofActs (spot : Option (Spot ρ)) (acts : List (Act ρ α)) :
    arrivals (ofActs spot acts) = [] := by
  simp [arrivals, ofActs, List.filterMap_map, Function.comp_def, arrival?]

@[simp] theorem arrivals_telling (event : Option Event) :
    arrivals (telling event : List (Moment ρ α)) = [] :=
  arrivals_ofActs none _

@[simp] theorem arrivals_map_below (number slot : Nat) (moments : List (Moment ρ α)) :
    arrivals (moments.map (below number slot)) = (arrivals moments).map (.inside number slot) := by
  simp only [arrivals, List.filterMap_map, List.map_filterMap]
  congr 1
  funext moment
  cases moment <;> rfl

section Paced

variable [Admission ρ α] (options : Options)

/-- From every arrival on, the walk of the list makes at most as many steps as there are nodes, at
that moment, from this one on. The arrivals after the last moment are given. -/
def Paced (later : List Address) : List (Moment ρ α) → Content α (Tree ρ α) → Prop
  | [], _ => True
  | moment :: rest, content =>
    (∀ address ∈ moment.arrival?,
      address.number + address.strides (arrivals (moment :: rest) ++ later) ≤
        (address.siblings content).length) ∧
      Paced later rest (moment.redo options content)

variable {options} {later : List Address}

theorem paced_append {moments more : List (Moment ρ α)} {content : Content α (Tree ρ α)} :
    Paced options later (moments ++ more) content ↔
      Paced options (arrivals more ++ later) moments content ∧
        Paced options later more (replay options moments content) := by
  induction moments generalizing content with
  | nil => simp only [List.nil_append, Paced, true_and]; rfl
  | cons moment rest ih =>
    have harrivals : arrivals (moment :: rest ++ more) ++ later =
        arrivals (moment :: rest) ++ (arrivals more ++ later) := by
      rw [arrivals_append, List.append_assoc]
    rw [List.cons_append, Paced, Paced, ih, replay_cons, ← harrivals, and_assoc, List.cons_append]

lemma paced_of_quiet {moments : List (Moment ρ α)} (h : arrivals moments = [])
    (content : Content α (Tree ρ α)) : Paced options later moments content := by
  induction moments generalizing content with
  | nil => exact trivial
  | cons moment rest ih =>
    cases moment with
    | reached spot node => cases h
    | acted spot act => exact ⟨nofun, ih h _⟩

lemma paced_ofActs (spot : Option (Spot ρ)) (acts : List (Act ρ α))
    (content : Content α (Tree ρ α)) : Paced options later (ofActs spot acts) content :=
  paced_of_quiet (arrivals_ofActs spot acts) content

/-- Steps in the lists of a slot are made in the sequence that holds the node, until the walk
leaves the slot. -/
lemma Paced.map_below {moments : List (Moment ρ α)}
    (hwalk : ∀ moment ∈ moments, moment.inWalk = true) {gap : Gap (Tree ρ α)} {number : Nat}
    {node : Tree ρ α} {slot : Slot ρ α (Tree ρ α)} (hslot : node.slots[number]? = some slot)
    (hleft : ∀ address, (Address.inside gap.number number address).strides later = 0)
    (h : Paced options [] moments slot.content) :
    Paced options later (moments.map (below gap.number number)) (gap.fill [node]) := by
  induction moments generalizing node slot with
  | nil => exact trivial
  | cons moment rest ih =>
    obtain ⟨hmoment, hrest⟩ := List.forall_mem_cons.1 hwalk
    constructor
    · cases moment with
      | acted => nofun
      | reached spot shown =>
        rintro address ⟨⟩
        have hspot := h.1 spot.address rfl
        have hsteps := (Address.inside gap.number number spot.address).strides_append_le
          ((arrivals (.reached spot shown :: rest)).map (.inside gap.number number)) later
        rw [Address.strides_map_inside, hleft] at hsteps
        rw [List.append_nil] at hspot
        rw [← List.map_cons, arrivals_map_below]
        have hsiblings : (spot.below gap.number number).address.siblings
            (gap.fill [node] : Content α (Tree ρ α)) = spot.address.siblings slot.content := by
          simp [Spot.below, Address.siblings, hslot]
        rw [hsiblings]
        exact Nat.le_trans (Nat.add_le_add_left hsteps _) hspot
    · rw [redo_below hmoment]
      let redone : Slot ρ α (Tree ρ α) := { slot with content := moment.redo options slot.content }
      have hredone :
          (node.modifySlot number (moment.redo options)).slots[number]? = some redone := by
        simp [Tree.modifySlot, hslot, redone]
      exact ih hrest hredone h.2

end Paced

end Moment

section Trails

open Moment Address

variable [Admission ρ α] {options : Options} {count : Nat}

/-- The trails of a node come to the node first. Where the walk goes on further up, with no more
steps in the list of the node than there are nodes left, it makes no step too many. -/
structure Strided (options : Options)
    (trail : Nat → Tree ρ α → List (Moment ρ α) → Fate (Tree ρ α) → Prop) : Prop where
  descends : ∀ {number node moments fate}, trail number node moments fate →
    Descends number (arrivals moments)
  paced : ∀ {node moments fate} (gap : Gap (Tree ρ α)) {later : List Address},
    trail gap.number node moments fate → Surfaces later →
    gap.number + (here gap.number).strides later + 1 ≤
      (gap.fill [node] : Content α (Tree ρ α)).children.length →
    Paced options later moments (gap.fill [node])

section Lists

variable {place : Place ρ} {trail : Nat → Tree ρ α → List (Moment ρ α) → Fate (Tree ρ α) → Prop}
  {slot : String} {emitted : Nat} {nodes items : List (Tree ρ α)} {moments : List (Moment ρ α)}
  {halt : Option Halt}

lemma ListTrail.surfaces (h : Strided options trail)
    (htrail : ListTrail trail slot emitted nodes moments items halt) :
    Surfaces (arrivals moments) := by
  induction htrail with
  | nil emitted => simp [Surfaces]
  | cons visited part others ih =>
    rw [arrivals_append, arrivals_append, arrivals_telling, List.append_nil]
    exact (h.descends visited).surfaces.append ih
  | halt visited => exact (h.descends visited).surfaces

/-- Every step of the walk of a list comes to a node that was there when the walk began. -/
lemma ListTrail.strides_le (h : Strided options trail)
    (htrail : ListTrail trail slot emitted nodes moments items halt) (outer : Nat) :
    (here outer).strides (arrivals moments) ≤ nodes.length := by
  induction htrail with
  | nil emitted => simp
  | @cons emitted node rest given items fate moments more halt visited part others ih =>
    rw [arrivals_append, arrivals_append, arrivals_telling, List.append_nil]
    have hsteps := (here outer).strides_append_le (arrivals moments) (arrivals more)
    have hnode := (h.descends visited).strides_le outer
    simp only [List.length_cons]
    omega
  | halt visited =>
    have hnode := (h.descends visited).strides_le outer
    simp only [List.length_cons]
    omega

/-- The nodes in front are those that the walk has passed. -/
lemma ListTrail.paced (hredone : Redone options place trail) (h : Strided options trail)
    (htrail : ListTrail trail slot emitted nodes moments items halt) {front : List (Tree ρ α)}
    (hfront : front.length = emitted) :
    Paced options [] moments (.list (front ++ nodes)) := by
  induction htrail generalizing front with
  | nil emitted => exact trivial
  | @cons emitted node rest given items fate moments more halt visited part others ih =>
    subst hfront
    have hreplay := hredone.replay_eq (.list front rest) visited
    rw [Fate.nodes_of_contribution part] at hreplay
    have hlength : (front ++ given).length = front.length + given.length := List.length_append
    have hrest := ih hlength
    have hnode := h.paced (.list front rest) visited (others.surfaces h) (by
      have hsteps := others.strides_le h front.length
      simp only [Gap.number, Gap.fill, Content.children, List.length_append, List.length_singleton]
      omega)
    simp only [Gap.fill, List.append_assoc, List.singleton_append] at hnode hreplay hrest
    rw [paced_append, paced_append, replay_append, hreplay, replay_telling, List.append_nil,
      arrivals_telling, List.nil_append]
    exact ⟨⟨hnode, paced_ofActs _ _ _⟩, hrest⟩
  | @halt emitted node left rest moments why visited =>
    subst hfront
    have hlast : Surfaces [] := by simp [Surfaces]
    have hnode := h.paced (.list front rest) visited hlast (by
      simp [Gap.number, Gap.fill, Content.children])
    simpa [Gap.fill] using hnode

end Lists

section Slots

variable {trail : Place ρ → Nat → Tree ρ α → List (Moment ρ α) → Fate (Tree ρ α) → Prop}

lemma ContentTrail.paced (hredone : ∀ place, Redone options place (trail place))
    (h : ∀ place, Strided options (trail place)) {rule : Rule ρ}
    {content left : Content α (Tree ρ α)} {moments : List (Moment ρ α)} {halt : Option Halt}
    (htrail : ContentTrail trail rule content moments left halt) :
    Paced options [] moments content := by
  have hsingle : ∀ {child moments fate}, trail ⟨.single, rule⟩ 0 child moments fate →
      Paced options [] moments (.single (some child)) := by
    intro child moments fate visited
    exact (h ⟨.single, rule⟩).paced .single visited (by simp [Surfaces]) Nat.le.refl
  cases htrail with
  | vacant | value => exact trivial
  | kept visited | spliced visited | halt visited => exact hsingle visited
  | cleared visited =>
    rw [paced_append, arrivals_telling]
    exact ⟨hsingle visited, paced_ofActs _ _ _⟩
  | list walked =>
    have hnone : ([] : List (Tree ρ α)).length = 0 := rfl
    exact ListTrail.paced (hredone _) (h _) walked hnone

omit [Admission ρ α] in
/-- In the slots from one on the walk comes to nodes in these slots. -/
lemma SlotsTrail.exists_inside {number slot : Nat} {slots items : List (Slot ρ α (Tree ρ α))}
    {moments : List (Moment ρ α)} {halt : Option Halt}
    (htrail : SlotsTrail trail number slot slots moments items halt) :
    ∀ address ∈ arrivals moments, ∃ later rest, slot ≤ later ∧
      address = .inside number later rest := by
  induction htrail with
  | nil slot => simp
  | cons walked others ih =>
    rw [arrivals_append, arrivals_map_below, List.forall_mem_append, List.forall_mem_map]
    refine ⟨fun rest _ => ⟨_, rest, Nat.le_refl _, rfl⟩, fun address hmem => ?_⟩
    obtain ⟨later, rest, hlater, rfl⟩ := ih address hmem
    exact ⟨later, rest, Nat.le_of_succ_le hlater, rfl⟩
  | halt walked =>
    rw [arrivals_map_below, List.forall_mem_map]
    exact fun rest _ => ⟨_, rest, Nat.le_refl _, rfl⟩

/-- The slots in front are those that the walk has passed. -/
lemma SlotsTrail.paced (hredone : ∀ place, Redone options place (trail place))
    (h : ∀ place, Strided options (trail place)) (gap : Gap (Tree ρ α)) {slot : Nat}
    {slots items : List (Slot ρ α (Tree ρ α))} {moments : List (Moment ρ α)} {halt : Option Halt}
    (htrail : SlotsTrail trail gap.number slot slots moments items halt) {later : List Address}
    (surfaces : Surfaces later) {node : Tree ρ α} {front : List (Slot ρ α (Tree ρ α))}
    (hfront : front.length = slot) (hslots : node.slots = front ++ slots) :
    Paced options later moments (gap.fill [node]) := by
  induction htrail generalizing node front with
  | nil slot => exact trivial
  | @cons slot rule content left rest items moments more halt walked others ih =>
    subst hfront
    have hnumber : node.slots[front.length]? = some ⟨rule, content⟩ := by simp [hslots]
    -- the walk leaves the slot for one that comes after it, and then it goes on further up
    have hleft : ∀ address, (inside gap.number front.length address).strides
        (arrivals more ++ later) = 0 := by
      intro address
      have hinside := others.exists_inside
      have hmore := strides_eq_zero_of_later hinside address
      have hlater := surfaces.strides_inside gap.number front.length address
      have hsteps := (inside gap.number front.length address).strides_append_le
        (arrivals more) later
      omega
    rw [paced_append, replay_map_below (walked.inWalk hredone), Tree.modifySlot_append hslots,
      walked.replay hredone]
    let passed : List (Slot ρ α (Tree ρ α)) := front ++ [⟨rule, left⟩]
    let after : Tree ρ α := { node with slots := front ++ ⟨rule, left⟩ :: rest }
    have hpassed : passed.length = front.length + 1 := List.length_append
    have hafter : after.slots = passed ++ rest := List.append_cons front _ rest
    exact ⟨(walked.paced hredone h).map_below (walked.inWalk hredone) hnumber hleft,
      ih hpassed hafter⟩
  | @halt slot rule content left rest moments why walked =>
    subst hfront
    have hnumber : node.slots[front.length]? = some ⟨rule, content⟩ := by simp [hslots]
    exact (walked.paced hredone h).map_below (walked.inWalk hredone) hnumber
      (surfaces.strides_inside gap.number front.length)

end Slots

/-- The walk comes to a node, and then to nodes below it. -/
lemma paced_reached {place : Place ρ} {node : Tree ρ α} {inner : List (Moment ρ α)}
    {gap : Gap (Tree ρ α)} {later : List Address}
    (hinner : ∀ other ∈ arrivals inner, ∃ slot rest, other = .inside gap.number slot rest)
    (hlater : gap.number + (here gap.number).strides later + 1 ≤
      (gap.fill [node] : Content α (Tree ρ α)).children.length)
    (h : Paced options later inner (gap.fill [node])) :
    Paced options later (.reached (.here place gap.number) node :: inner) (gap.fill [node]) := by
  refine ⟨?_, h⟩
  rintro address ⟨⟩
  have hbelow := strides_here_of_inside hinner gap.number
  have hsteps := (here gap.number).strides_append_le (arrivals inner) later
  rw [arrivals_reached, List.cons_append]
  simp only [Spot.here, number, siblings, strides_here_cons]
  omega

lemma VisitTrail.strided {depth : Nat}
    {below : Place ρ → Nat → Tree ρ α → List (Moment ρ α) → Fate (Tree ρ α) → Prop}
    (hredone : ∀ place, Redone options place (below place))
    (h : ∀ place, Strided options (below place)) (place : Place ρ) :
    Strided options (VisitTrail options count below depth place) := by
  -- Below the node the walk comes to what stands in its slots.
  have hslots : ∀ {number : Nat} {slots items : List (Slot ρ α (Tree ρ α))}
      {moments : List (Moment ρ α)} {halt : Option Halt},
      SlotsTrail below number 0 slots moments items halt →
      ∀ other ∈ arrivals moments, ∃ slot rest, other = .inside number slot rest := by
    intro number slots items moments halt descended other hmem
    obtain ⟨slot, rest, -, rfl⟩ := descended.exists_inside other hmem
    exact ⟨slot, rest, rfl⟩
  constructor
  · intro number node moments fate htrail
    cases htrail with
    | tooDeep exceeded => exact .inr ⟨[], by simp [Spot.here], by simp⟩
    | walked allowed entered descended left =>
      exact .inr ⟨_, by simp [Spot.here], hslots descended⟩
    | broken allowed entered descended =>
      exact .inr ⟨_, by simp [Spot.here], hslots descended⟩
    | skipped allowed entered left => exact .inr ⟨[], by simp [Spot.here], by simp⟩
    | settled allowed entered proceeds skips => exact .inr ⟨[], by simp [Spot.here], by simp⟩
  · intro node moments fate gap later htrail surfaces hlater
    cases htrail with
    | tooDeep exceeded =>
      exact paced_reached (by simp) hlater (paced_ofActs _ _ _)
    | @walked mid slots acts last moments verdict allowed entered descended left =>
      have hdescended : Paced options later moments (gap.fill [mid]) :=
        descended.paced hredone h gap surfaces rfl (List.nil_append _).symm
      refine paced_reached (by simpa using hslots descended) hlater ?_
      rw [paced_append, paced_append, arrivals_ofActs, entered.replay gap]
      exact ⟨⟨paced_ofActs _ _ _, hdescended⟩, paced_ofActs _ _ _⟩
    | @broken mid slots acts moments why allowed entered descended =>
      have hdescended : Paced options later moments (gap.fill [mid]) :=
        descended.paced hredone h gap surfaces rfl (List.nil_append _).symm
      refine paced_reached (by simpa using hslots descended) hlater ?_
      rw [paced_append, entered.replay gap]
      exact ⟨paced_ofActs _ _ _, hdescended⟩
    | skipped allowed entered left =>
      exact paced_reached (by simp) hlater (paced_of_quiet (by simp) _)
    | settled allowed entered proceeds skips =>
      exact paced_reached (by simp) hlater (paced_ofActs _ _ _)

theorem NodeTrail.strided (room depth : Nat) (place : Place ρ) :
    Strided (α := α) options (NodeTrail options count room depth place) := by
  induction room generalizing depth place with
  | zero =>
    constructor
    · rintro number node moments fate ⟨rfl, -⟩
      exact .inl rfl
    · rintro node moments fate gap later ⟨rfl, -⟩ - -
      exact trivial
  | succ room ih =>
    exact VisitTrail.strided (NodeTrail.redone room (depth + 1)) (ih (depth + 1)) place

lemma TopTrail.paced {room : Nat} {nodes items : List (Tree ρ α)} {moments : List (Moment ρ α)}
    {halt : Option Halt} (htrail : TopTrail options count room nodes moments items halt) :
    Paced options [] moments (.list nodes) := by
  have hnone : ([] : List (Tree ρ α)).length = 0 := rfl
  exact ListTrail.paced (NodeTrail.redone room 0 .topLevel) (NodeTrail.strided room 0 .topLevel)
    htrail hnone

lemma WalkTrail.paced {room : Nat} {nodes items : List (Tree ρ α)} {moments : List (Moment ρ α)}
    (htrail : WalkTrail options count room nodes moments items) :
    Paced options [] moments (.list nodes) := by
  cases htrail with
  | through walked => exact TopTrail.paced walked
  | stopped walked =>
    rw [paced_append, arrivals_telling]
    exact ⟨TopTrail.paced walked, paced_ofActs _ _ _⟩

/-- In a traversal no walk of a list makes more steps than there are nodes. -/
theorem TraversalTrail.paced {room : Nat} {nodes items : List (Tree ρ α)}
    {trail : List (Moment ρ α)} {halt : Option Halt}
    (htrail : TraversalTrail options count room nodes trail items halt) :
    Paced options [] trail (.list nodes) := by
  have hshown : ∀ (later : List Address) (acts : List (Act ρ α)), Paced options later
      (telling (some (.started nodes.length count)) ++ ofActs none acts) (.list nodes) :=
    fun later acts => paced_of_quiet (by simp) _
  cases htrail with
  | unready shown => exact hshown _ _
  | broken shown walked unstopped =>
    refine paced_append.2 ⟨hshown _ _, ?_⟩
    rw [replay_append, replay_telling, shown.replay]
    exact TopTrail.paced walked
  | unfinished shown walked shownAgain =>
    rw [paced_append, paced_append, arrivals_ofActs, replay_append, replay_telling, shown.replay]
    exact ⟨⟨hshown _ _, walked.paced⟩, paced_ofActs _ _ _⟩
  | finished shown walked shownAgain =>
    rw [paced_append, paced_append, paced_append, arrivals_ofActs, arrivals_telling,
      replay_append, replay_telling, shown.replay]
    exact ⟨⟨⟨hshown _ _, walked.paced⟩, paced_ofActs _ _ _⟩, paced_ofActs _ _ _⟩

end Trails

/-- From every arrival at a node on, the walk of the list that holds the node makes at most as many
steps as there are nodes in the list, at that moment, from this one on. -/
theorem Walker.Leaves.strides_le [Admission ρ α] {walker : Walker ρ α σ} {stack : Nat}
    {nodes : List (Tree ρ α)} {state : σ} {before after : List (Moment ρ α)} {spot : Spot ρ}
    {node : Tree ρ α}
    (h : walker.Leaves stack nodes state (before ++ .reached spot node :: after)) :
    spot.address.number +
        spot.address.strides (Moment.arrivals (.reached spot node :: after)) ≤
      (spot.address.siblings (Moment.replay walker.options before (.list nodes))).length := by
  have hpaced := (Moment.paced_append.1 h.trodden.paced).2.1 spot.address rfl
  rwa [List.append_nil] at hpaced

end ForestWalk
