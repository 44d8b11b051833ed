import ForestWalk.Proofs.Outcome
import ForestWalk.Proofs.Rounds
import ForestWalk.Tree.Fold
/-!
Traversals that sift a forest. In place of each node at most one stands in the end, and nothing
breaks the walk off. If it is known what becomes of a node in the rounds in which visitors are asked
about it, given what has become of its children, then it is known what becomes of the forest. With
it goes what is noted of the calls, in order.
-/

namespace ForestWalk

variable {ρ α β : Type}

section Sifted

variable {τ υ φ : Type}

/-- Puts together what is left of the children. -/
def Content.sifted : Content α (Option τ) → Content α τ
  | .single child => .single child.join
  | .list children => .list (children.filterMap id)
  | .value content => .value content

def Slot.sifted (slot : Slot ρ α (Option τ)) : Slot ρ α τ :=
  { rule := slot.rule, content := slot.content.sifted }

@[simp] theorem Content.children_sifted (content : Content α (Option τ)) :
    content.sifted.children = content.children.filterMap id := by
  match content with
  | .single none | .single (some none) | .single (some (some _)) | .list _ | .value _ => rfl

/-- Sifting twice is sifting once with what both leave. -/
lemma Content.sifted_map_sifted (f : τ → Option υ) (g : υ → Option φ) (content : Content α τ) :
    ((content.map f).sifted.map g).sifted = (content.map fun child => (f child).bind g).sifted := by
  cases content with
  | single child =>
    cases child with
    | none => rfl
    | some child => cases h : f child <;> simp [map, sifted, h]
  | list children =>
    simp only [map, sifted, List.filterMap_map, Function.id_comp, List.filterMap_filterMap]
  | value content => rfl

lemma Slot.sifted_map_sifted (f : τ → Option υ) (g : υ → Option φ) (slot : Slot ρ α τ) :
    ((slot.map f).sifted.map g).sifted = (slot.map fun child => (f child).bind g).sifted :=
  congrArg (Slot.mk slot.rule) (slot.content.sifted_map_sifted f g)

/-- Where every child stays the content is as before. -/
lemma Content.sifted_map_some (content : Content α τ) : (content.map some).sifted = content := by
  cases content with
  | single child => cases child <;> rfl
  | list children => simp [map, sifted, List.filterMap_map]
  | value content => rfl

lemma Slot.sifted_map_some (slot : Slot ρ α τ) : (slot.map some).sifted = slot :=
  congrArg (Slot.mk slot.rule) slot.content.sifted_map_some

/-- The node with its children sifted. -/
def Tree.sifted (part : Tree ρ α → Option (Tree ρ α)) (node : Tree ρ α) : Tree ρ α :=
  { node with slots := node.slots.map fun slot => (slot.map part).sifted }

@[simp] theorem Tree.children_sifted (part : Tree ρ α → Option (Tree ρ α)) (node : Tree ρ α) :
    (node.sifted part).children = node.children.filterMap part := by
  simp only [sifted, children, Slot.sifted, Slot.children, Slot.map, List.flatMap_map,
    Content.children_sifted, Content.children_map, List.filterMap_flatMap, List.filterMap_map,
    Function.id_comp]

@[simp] theorem Tree.sifted_some (node : Tree ρ α) : node.sifted some = node := by
  have hslots : (node.slots.map fun slot => (slot.map some).sifted) = node.slots :=
    (List.map_congr_left fun slot _ => slot.sifted_map_some).trans node.slots.map_id
  cases node
  simp only [sifted, hslots]

end Sifted

/-- What becomes of a node in place of which at most one stands in the end. -/
def Fate.settled {τ : Type} : Option τ → Fate τ
  | some node => .keep node
  | none => .remove

@[simp] theorem Fate.contribution_settled {τ : Type} (part : Option τ) :
    (settled part).contribution = some part.toList := by
  cases part <;> rfl

section Runs

variable {P : Act ρ α → Prop} {fits : Tree ρ α → Prop} {part : Tree ρ α → Option (Tree ρ α)}
  {note : Act ρ α → Option β} {notes : Tree ρ α → List β}

/-- What becomes of a node is known, and what is noted of the calls. -/
structure Sifts (P : Act ρ α → Prop) (fits : Tree ρ α → Prop)
    (part : Tree ρ α → Option (Tree ρ α)) (note : Act ρ α → Option β) (notes : Tree ρ α → List β)
    (run : Tree ρ α → List (Act ρ α) → Fate (Tree ρ α) → Prop) : Prop where
  settles : ∀ {node acts fate}, run node acts fate → (∀ act ∈ acts, P act) → fits node →
    fate = .settled (part node) ∧ acts.filterMap note = notes node

lemma filterMap_telling (quiet : ∀ event, note (.event event) = none) (event : Option Event) :
    (Act.telling event).filterMap note = [] := by
  cases event <;> simp [Act.telling, quiet]

lemma ListRun.sifts (quiet : ∀ event, note (.event event) = none)
    {run : Tree ρ α → List (Act ρ α) → Fate (Tree ρ α) → Prop}
    (h : Sifts P fits part note notes run) {slot : String} {emitted : Nat}
    {nodes items : List (Tree ρ α)} {acts : List (Act ρ α)} {halt : Option Halt}
    (hrun : ListRun run slot emitted nodes acts items halt) (hacts : ∀ act ∈ acts, P act)
    (hfits : ∀ node ∈ nodes, fits node) :
    items = nodes.filterMap part ∧ halt = none ∧
      acts.filterMap note = nodes.flatMap notes := by
  induction hrun with
  | nil emitted => exact ⟨rfl, rfl, rfl⟩
  | @cons emitted node rest given items fate acts more halt visited contributes others ih =>
    simp only [List.forall_mem_append] at hacts
    obtain ⟨hnode, hrest⟩ := List.forall_mem_cons.1 hfits
    obtain ⟨rfl, hnoted⟩ := h.settles visited hacts.1.1 hnode
    obtain ⟨rfl, rfl, hlater⟩ := ih hacts.2 hrest
    rw [Fate.contribution_settled] at contributes
    obtain rfl := Option.some.inj contributes
    refine ⟨?_, rfl, ?_⟩
    · cases hpart : part node <;> simp [hpart]
    · rw [List.filterMap_append, List.filterMap_append, hnoted, filterMap_telling quiet, hlater,
        List.append_nil, List.flatMap_cons]
  | @halt emitted node left rest acts why visited =>
    obtain ⟨hfate, -⟩ := h.settles visited hacts (List.forall_mem_cons.1 hfits).1
    cases hpart : part node <;> rw [hpart] at hfate <;> cases hfate

section Slots

variable {run : Place ρ → Tree ρ α → List (Act ρ α) → Fate (Tree ρ α) → Prop}

lemma ContentRun.sifts (quiet : ∀ event, note (.event event) = none)
    (h : ∀ place, Sifts P fits part note notes (run place)) {rule : Rule ρ}
    {content left : Content α (Tree ρ α)} {acts : List (Act ρ α)} {halt : Option Halt}
    (hrun : ContentRun run rule content acts left halt) (hacts : ∀ act ∈ acts, P act)
    (hfits : ∀ child ∈ content.children, fits child) :
    left = (content.map part).sifted ∧ halt = none ∧
      acts.filterMap note = content.children.flatMap notes := by
  -- What becomes of an only child, and what is noted of it.
  have hsingle : ∀ {child acts fate}, content = .single (some child) →
      run ⟨.single, rule⟩ child acts fate → (∀ act ∈ acts, P act) →
      fate = .settled (part child) ∧ acts.filterMap note = content.children.flatMap notes := by
    rintro child acts fate rfl visited hacts
    obtain ⟨hfate, hnoted⟩ := (h _).settles visited hacts (hfits child List.mem_cons_self)
    exact ⟨hfate, by simp [hnoted, Content.children]⟩
  cases hrun with
  | vacant | value => exact ⟨rfl, rfl, rfl⟩
  | @kept child left acts visited =>
    obtain ⟨hfate, hnoted⟩ := hsingle rfl visited hacts
    cases hpart : part child with
    | none => rw [hpart] at hfate; cases hfate
    | some new =>
      rw [hpart] at hfate
      cases hfate
      exact ⟨by simp [Content.map, Content.sifted, hpart], rfl, hnoted⟩
  | @cleared child acts visited =>
    obtain ⟨hfirst, -⟩ := List.forall_mem_append.1 hacts
    obtain ⟨hfate, hnoted⟩ := hsingle rfl visited hfirst
    cases hpart : part child with
    | some new => rw [hpart] at hfate; cases hfate
    | none =>
      refine ⟨by simp [Content.map, Content.sifted, hpart], rfl, ?_⟩
      rw [List.filterMap_append, hnoted, List.filterMap_cons_none (quiet _), List.filterMap_nil,
        List.append_nil]
  | @spliced child new acts visited | @halt child left acts why visited =>
    obtain ⟨hfate, -⟩ := hsingle rfl visited hacts
    cases hpart : part child <;> rw [hpart] at hfate <;> cases hfate
  | list walked =>
    obtain ⟨rfl, rfl, hnoted⟩ := ListRun.sifts quiet (h ⟨.list, rule⟩) walked hacts hfits
    exact ⟨by simp [Content.map, Content.sifted, List.filterMap_map], rfl, hnoted⟩

lemma SlotsRun.sifts (quiet : ∀ event, note (.event event) = none)
    (h : ∀ place, Sifts P fits part note notes (run place))
    {slots items : List (Slot ρ α (Tree ρ α))} {acts : List (Act ρ α)} {halt : Option Halt}
    (hrun : SlotsRun run slots acts items halt) (hacts : ∀ act ∈ acts, P act)
    (hfits : ∀ child ∈ slots.flatMap Slot.children, fits child) :
    items = (slots.map fun slot => (slot.map part).sifted) ∧ halt = none ∧
      acts.filterMap note = (slots.flatMap Slot.children).flatMap notes := by
  induction hrun with
  | nil => exact ⟨rfl, rfl, rfl⟩
  | cons walked others ih =>
    obtain ⟨hfirst, hmore⟩ := List.forall_mem_append.1 hacts
    obtain ⟨hslot, hrest⟩ := List.forall_mem_append.1 hfits
    obtain ⟨rfl, -, hnoted⟩ := walked.sifts quiet h hfirst hslot
    obtain ⟨rfl, rfl, hlater⟩ := ih hmore hrest
    refine ⟨rfl, rfl, ?_⟩
    rw [List.filterMap_append, hnoted, hlater, List.flatMap_cons, List.flatMap_append]
    rfl
  | halt walked =>
    cases (walked.sifts quiet h hacts (List.forall_mem_append.1 hfits).1).2.1

end Slots

/-- All levels of a tree that stands at a depth are allowed, and there is room for them. -/
def Options.Allows (options : Options) (room depth : Nat) (node : Tree ρ α) : Prop :=
  node.depth < room ∧ ∀ limit ∈ options.maxDepth, depth + node.depth ≤ limit

lemma Options.Allows.child {options : Options} {room depth : Nat} {node child : Tree ρ α}
    (h : options.Allows (room + 1) depth node) (hmem : child ∈ node.children) :
    options.Allows room (depth + 1) child := by
  obtain ⟨hroom, hlimit⟩ := h
  have hlt := Tree.depth_lt_of_mem_children hmem
  refine ⟨by omega, fun limit hl => ?_⟩
  have hle := hlimit limit hl
  omega

variable [Admission ρ α] {options : Options} {count : Nat}

/-- What becomes of a node in the rounds in which visitors are asked about it. When it is entered it
is taken out, or else it stays as it is. When it is left its children are sifted already. -/
structure Sieve (options : Options) (count : Nat) (P : Act ρ α → Prop)
    (part : Tree ρ α → Option (Tree ρ α)) (note : Act ρ α → Option β)
    (notes : Tree ρ α → List β) : Prop where
  event : ∀ event, note (.event event) = none
  sequence : ∀ {index name hook nodes reply}, P (.sequence index name hook nodes reply) →
    reply = .answered none
  enter : ∀ {place node acts verdict},
    ConsultRun options count .enter place 0 node acts verdict → (∀ act ∈ acts, P act) →
    verdict = .proceed node ∨
      verdict = .remove ∧ part node = none ∧ acts.filterMap note = notes node
  leave : ∀ {place node first last verdict},
    ConsultRun options count .enter place 0 node first (.proceed node) →
    (∀ act ∈ first, P act) →
    ConsultRun options count .leave place 0 (node.sifted part) last verdict →
    (∀ act ∈ last, P act) →
    verdict.fate = .settled (part node) ∧
      first.filterMap note ++ node.children.flatMap notes ++ last.filterMap note = notes node

lemma VisitRun.sifts (sieve : Sieve options count P part note notes)
    {below : Place ρ → Tree ρ α → List (Act ρ α) → Fate (Tree ρ α) → Prop} {room depth : Nat}
    (h : ∀ place, Sifts P (options.Allows room (depth + 1)) part note notes (below place))
    (place : Place ρ) :
    Sifts P (options.Allows (room + 1) depth) part note notes
      (VisitRun options count below depth place) := by
  constructor
  intro node acts fate hrun hacts hallows
  have hslots : ∀ {slots : List (Slot ρ α (Tree ρ α))} {acts halt},
      SlotsRun below node.slots acts slots halt → (∀ act ∈ acts, P act) →
      slots = (node.slots.map fun slot => (slot.map part).sifted) ∧ halt = none ∧
        acts.filterMap note = node.children.flatMap notes :=
    fun descended hacts => descended.sifts sieve.event h hacts fun child hmem => hallows.child hmem
  cases hrun with
  | tooDeep exceeded =>
    obtain ⟨hlimit, hlt⟩ := Options.exceededAt_eq_some_iff.1 exceeded
    have hle := hallows.2 _ hlimit
    omega
  | @walked mid slots first more last verdict allowed entered descended left =>
    simp only [List.forall_mem_append] at hacts
    obtain hmid | ⟨hmid, -⟩ := sieve.enter entered hacts.1.1
    · obtain rfl := Verdict.proceed.inj hmid
      obtain ⟨rfl, -, hbelow⟩ := hslots descended hacts.1.2
      obtain ⟨hfate, hnoted⟩ := sieve.leave entered hacts.1.1 left hacts.2
      refine ⟨hfate, ?_⟩
      rw [List.filterMap_append, List.filterMap_append, hbelow, hnoted]
    · cases hmid
  | @broken mid slots first more why allowed entered descended =>
    obtain ⟨hfirst, hmore⟩ := List.forall_mem_append.1 hacts
    obtain hmid | ⟨hmid, -⟩ := sieve.enter entered hfirst
    · obtain rfl := Verdict.proceed.inj hmid
      cases (hslots descended hmore).2.1
    · cases hmid
  | skipped allowed entered left =>
    obtain hmid | ⟨hmid, -⟩ := sieve.enter entered (List.forall_mem_append.1 hacts).1
    · cases hmid
    · cases hmid
  | settled allowed entered proceeds =>
    obtain rfl | ⟨rfl, hpart, hnoted⟩ := sieve.enter entered hacts
    · exact absurd rfl (proceeds node)
    · exact ⟨by rw [hpart]; rfl, hnoted⟩

/-- A node whose levels are all allowed is sifted. -/
theorem NodeRun.sifts (sieve : Sieve options count P part note notes) (room depth : Nat)
    (place : Place ρ) :
    Sifts P (options.Allows room depth) part note notes
      (NodeRun options count room depth place) := by
  induction room generalizing depth place with
  | zero =>
    constructor
    rintro node acts fate - - ⟨hroom, -⟩
    exact absurd hroom (Nat.not_lt_zero _)
  | succ room ih => exact VisitRun.sifts sieve (fun place => ih (depth + 1) place) place

/-- A traversal whose visitors sift the nodes goes through, and leaves what is left of them. -/
theorem TraversalRun.sifts (sieve : Sieve options count P part note notes) {room : Nat}
    {nodes items : List (Tree ρ α)} {acts : List (Act ρ α)} {halt : Option Halt}
    (hrun : TraversalRun options count room nodes acts items halt) (hacts : ∀ act ∈ acts, P act)
    (hallows : ∀ node ∈ nodes, options.Allows room 0 node) :
    items = nodes.filterMap part ∧ halt = none ∧
      ∃ first last, ShowRun count .before 0 nodes first nodes none ∧
        ShowRun count .after 0 items last items none ∧
        (∀ act ∈ first ++ last, P act) ∧
        acts.filterMap note =
          first.filterMap note ++ nodes.flatMap notes ++ last.filterMap note := by
  have hshown : ∀ {hook : SequenceHook} {nodes items : List (Tree ρ α)} {acts halt},
      ShowRun count hook 0 nodes acts items halt → (∀ act ∈ acts, P act) →
      items = nodes ∧ halt = none := fun shown hacts =>
    have ⟨hitems, hhalt, _⟩ := shown.of_keeps fun _ _ _ _ hmem => sieve.sequence (hacts _ hmem)
    ⟨hitems, hhalt⟩
  have hwalked : ∀ {items : List (Tree ρ α)} {acts halt},
      TopRun options count room nodes acts items halt → (∀ act ∈ acts, P act) →
      items = nodes.filterMap part ∧ halt = none ∧ acts.filterMap note = nodes.flatMap notes :=
    fun walked hacts =>
      ListRun.sifts sieve.event (NodeRun.sifts sieve room 0 .topLevel) walked hacts hallows
  replace hacts : ∀ act ∈ acts.tail, P act := fun act hmem => hacts act (List.mem_of_mem_tail hmem)
  cases hrun with
  | unready shown => cases (hshown shown hacts).2
  | broken shown walked unstopped =>
    obtain ⟨hfirst, hmore⟩ := List.forall_mem_append.1 hacts
    obtain ⟨rfl, -⟩ := hshown shown hfirst
    cases (hwalked walked hmore).2.1
  | unfinished shown walked shownAgain =>
    cases (hshown shownAgain (List.forall_mem_append.1 hacts).2).2
  | @finished start mid _ first more last shown walked shownAgain =>
    simp only [List.tail_cons, List.forall_mem_append] at hacts
    obtain ⟨⟨⟨hfirst, hmore⟩, hlast⟩, -⟩ := hacts
    obtain ⟨rfl, -⟩ := hshown shown hfirst
    obtain ⟨rfl, -⟩ := hshown shownAgain hlast
    cases walked with
    | through walked =>
      obtain ⟨rfl, -, hnoted⟩ := hwalked walked hmore
      refine ⟨rfl, rfl, first, last, shown, shownAgain,
        List.forall_mem_append.2 ⟨hfirst, hlast⟩, ?_⟩
      rw [List.filterMap_cons_none (sieve.event _)]
      simp [hnoted, sieve.event]
    | stopped walked => cases (hwalked walked (List.forall_mem_append.1 hmore).1).2.1

/-- Without a depth limit a traversal whose visitors sift the nodes succeeds with what is left of
them. -/
theorem Walker.traverse_sifts {σ : Type} (walker : Walker ρ α σ) {stack : Nat}
    {nodes : List (Tree ρ α)} {state : σ}
    (sieve : Sieve walker.options walker.visitors.length P part note notes)
    (unlimited : walker.options.maxDepth = none) (shallow : ∀ node ∈ nodes, node.depth < stack)
    (hacts : ∀ act ∈ walker.acts stack nodes state, P act) :
    (walker.traverse stack nodes state).result = some (.ok (nodes.filterMap part)) ∧
      ∃ first last, ShowRun walker.visitors.length .before 0 nodes first nodes none ∧
        ShowRun walker.visitors.length .after 0 (nodes.filterMap part) last (nodes.filterMap part)
          none ∧
        (∀ act ∈ first ++ last, P act) ∧
        (walker.acts stack nodes state).filterMap note =
          first.filterMap note ++ nodes.flatMap notes ++ last.filterMap note := by
  obtain ⟨-, hrun, -⟩ := walker.recorded_traverse stack nodes state
  rw [walker.room_of_unlimited unlimited] at hrun
  obtain ⟨hitems, hhalt, hnoted⟩ :=
    hrun.sifts sieve hacts fun node hmem => ⟨shallow node hmem, by simp [unlimited]⟩
  rw [hitems] at hnoted
  exact ⟨by simp only [Sweep.result, hhalt, hitems], hnoted⟩

end Runs

end ForestWalk
