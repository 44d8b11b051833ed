import ForestWalk.Proofs.SlotShapes
import ForestWalk.Proofs.Trails
/-!
The forest at each moment of a traversal. To replay a trail is to change the forest that the
traversal was given in place, at the address of each call in turn and by what the reply asks for.
What a traversal leaves is what the replay of its trail ends with.
-/

namespace ForestWalk

variable {ρ α σ : Type}

namespace Content

variable {τ : Type}

/-- Puts any number of nodes in the place of the one with a number. A single slot keeps the first of
them. -/
def put (number : Nat) (new : List τ) : Content α τ → Content α τ
  | .single _ => .single new.head?
  | .list children => .list (children.take number ++ new ++ children.drop (number + 1))
  | .value content => .value content

/-- Changes the node with a number. -/
def modifyAt (number : Nat) (f : τ → τ) : Content α τ → Content α τ
  | .single child => .single (child.map f)
  | .list children => .list (children.modify number f)
  | .value content => .value content

end Content

/-- What a slot holds, but for one node: it is missing in a list, or from a single slot. -/
inductive Gap (τ : Type) where
  | list (front back : List τ)
  | single

namespace Gap

variable {τ : Type}

/-- The number of the missing node. -/
def number : Gap τ → Nat
  | .list front _ => front.length
  | .single => 0

/-- Puts any number of nodes in the place of the missing one. A single slot takes the first. -/
def fill (new : List τ) : Gap τ → Content α τ
  | .list front back => .list (front ++ new ++ back)
  | .single => .single new.head?

@[simp] theorem put_fill (gap : Gap τ) (node : τ) (new : List τ) :
    (gap.fill [node] : Content α τ).put gap.number new = gap.fill new := by
  cases gap with
  | list front back => simp [fill, Content.put, number, List.drop_append]
  | single => rfl

@[simp] theorem modifyAt_fill (gap : Gap τ) (node : τ) (f : τ → τ) :
    (gap.fill [node] : Content α τ).modifyAt gap.number f = gap.fill [f node] := by
  cases gap with
  | list front back =>
    simp only [fill, Content.modifyAt, number, List.append_assoc, List.singleton_append]
    congr 1
    induction front with
    | nil => rfl
    | cons first front ih => simpa [List.modify_succ_cons] using ih
  | single => rfl

end Gap

/-- Puts nodes in the place of the one with an address. -/
def Address.graft (new : List (Tree ρ α)) : Address → Content α (Tree ρ α) → Content α (Tree ρ α)
  | .here number => Content.put number new
  | .inside number slot rest => Content.modifyAt number (Tree.modifySlot slot (rest.graft new))

/-- The nodes that stand in the place of a node after a directive was followed. -/
def Directive.outcome {τ : Type} (node : τ) : Directive τ → List τ
  | .keep | .skipChildren | .stop => [node]
  | .replace new => [new]
  | .remove => []
  | .splice new => new

section Outcome

variable [Admission ρ α]

/-- The nodes that stand in the place of a node after a visitor has replied. A directive is followed
if it is legal and the slot takes what it brings along. -/
def NodeReply.outcome (options : Options) (hook : NodeHook) (place : Place ρ) (node : Tree ρ α) :
    NodeReply ρ α → List (Tree ρ α)
  | .answered left directive =>
    if directive.legal hook place.position ∧
        (options.firstRefused place.rule directive.carried).isNone then
      directive.outcome left
    else [left]
  | .failed left _ => [left]
  | .unavailable | .overflowed => [node]

/-- What a judgement makes of a node is what stands in its place. -/
lemma NodeReply.outcome_eq {options : Options} {hook : NodeHook} {place : Place ρ} {site : CallSite}
    {node : Tree ρ α} {reply : NodeReply ρ α} {verdict : Verdict (Tree ρ α)} {event : Option Event}
    (judged : options.judge hook place site node reply = (verdict, event)) :
    reply.outcome options hook place node = verdict.fate.nodes := by
  cases reply with
  | unavailable | overflowed | failed =>
    cases judged
    rfl
  | answered left directive =>
    simp only [Options.judge, Options.follow] at judged
    simp only [outcome]
    rcases hlegal : directive.legal hook place.position with _ | _
    · rw [if_neg (by simp [hlegal])] at judged
      rw [if_neg (by simp)]
      cases judged
      rfl
    · rw [if_pos hlegal] at judged
      rcases hr : options.firstRefused place.rule directive.carried with _ | refused
      · rw [hr] at judged
        rw [if_pos (by simp)]
        cases judged
        cases directive <;> rfl
      · rw [hr] at judged
        rw [if_neg (by simp)]
        cases judged
        rfl

end Outcome

namespace Moment

section Replay

variable [Admission ρ α] (options : Options)

/-- What a moment makes of what is walked. -/
def redo : Moment ρ α → Content α (Tree ρ α) → Content α (Tree ρ α)
  | .acted (some spot) (.node _ _ hook node reply) =>
    spot.address.graft (reply.outcome options hook spot.place node)
  | .acted _ (.sequence _ _ _ _ (.answered (some new))) => fun _ => .list new
  | _ => id

/-- Does again what was done in a part of a trail. -/
def replay (moments : List (Moment ρ α)) (content : Content α (Tree ρ α)) :
    Content α (Tree ρ α) :=
  moments.foldl (fun content moment => moment.redo options content) content

variable {options}

@[simp] theorem replay_cons (moment : Moment ρ α) (moments : List (Moment ρ α))
    (content : Content α (Tree ρ α)) :
    replay options (moment :: moments) content =
      replay options moments (moment.redo options content) :=
  rfl

@[simp] theorem replay_append (moments more : List (Moment ρ α)) (content : Content α (Tree ρ α)) :
    replay options (moments ++ more) content =
      replay options more (replay options moments content) :=
  List.foldl_append

@[simp] theorem redo_reached (spot : Spot ρ) (node : Tree ρ α) (content : Content α (Tree ρ α)) :
    (Moment.reached spot node).redo options content = content :=
  rfl

@[simp] theorem redo_event (spot : Option (Spot ρ)) (event : Event)
    (content : Content α (Tree ρ α)) :
    (Moment.acted spot (.event event)).redo options content = content := by
  cases spot <;> rfl

@[simp] theorem replay_ofActs_telling (spot : Option (Spot ρ)) (event : Option Event)
    (content : Content α (Tree ρ α)) :
    replay options (ofActs spot (Act.telling event)) content = content := by
  cases event with
  | none => rfl
  | some event => exact redo_event spot event content

@[simp] theorem replay_telling (event : Option Event) (content : Content α (Tree ρ α)) :
    replay options (telling event) content = content :=
  replay_ofActs_telling none event content

end Replay

/-- Whether the moment can come about while nodes are walked: a call is one with a node that is in
hand. -/
def inWalk : Moment ρ α → Bool
  | .reached _ _ | .acted _ (.event _) => true
  | .acted spot (.node ..) => spot.isSome
  | .acted _ (.sequence ..) => false

@[simp] theorem inWalk_below (number slot : Nat) (moment : Moment ρ α) :
    (moment.below number slot).inWalk = moment.inWalk := by
  match moment with
  | .reached _ _ | .acted _ (.event _) | .acted _ (.sequence ..) => rfl
  | .acted none (.node ..) | .acted (some _) (.node ..) => rfl

variable [Admission ρ α] {options : Options}

omit [Admission ρ α] in
lemma modifySlot_id (slot : Nat) (node : Tree ρ α) :
    node.modifySlot slot (fun content => content) = node := by
  obtain ⟨tag, label, slots⟩ := node
  exact congrArg (Tree.mk tag label) (List.modify_id slot slots)

omit [Admission ρ α] in
lemma modifySlot_modifySlot (slot : Nat) (f g : Content α (Tree ρ α) → Content α (Tree ρ α))
    (node : Tree ρ α) :
    (node.modifySlot slot f).modifySlot slot g =
      node.modifySlot slot fun content => g (f content) := by
  simp [Tree.modifySlot, List.modify_modify_eq, Function.comp_def]

/-- What happens below a slot changes what the slot holds. -/
lemma redo_below {moment : Moment ρ α} (h : moment.inWalk = true) (gap : Gap (Tree ρ α))
    (slot : Nat) (node : Tree ρ α) :
    (moment.below gap.number slot).redo options (gap.fill [node]) =
      gap.fill [node.modifySlot slot (moment.redo options)] := by
  match moment with
  | .reached _ _ | .acted none (.event _) | .acted (some _) (.event _) =>
    exact congrArg (fun left => gap.fill [left]) (modifySlot_id slot node).symm
  | .acted (some spot) (.node _ _ hook shown reply) => exact gap.modifyAt_fill node _
  | .acted none (.node ..) | .acted _ (.sequence ..) => cases h

lemma replay_map_below {moments : List (Moment ρ α)} (h : ∀ moment ∈ moments, moment.inWalk = true)
    (gap : Gap (Tree ρ α)) (slot : Nat) (node : Tree ρ α) :
    replay options (moments.map (below gap.number slot)) (gap.fill [node]) =
      gap.fill [node.modifySlot slot (replay options moments)] := by
  induction moments generalizing node with
  | nil => exact congrArg (fun left => gap.fill [left]) (modifySlot_id slot node).symm
  | cons moment rest ih =>
    obtain ⟨hmoment, hrest⟩ := List.forall_mem_cons.1 h
    rw [List.map_cons, replay_cons, redo_below hmoment, ih hrest, modifySlot_modifySlot]
    rfl

end Moment

section Redone

open Moment

variable [Admission ρ α] {options : Options} {count : Nat}

/-- To replay a trail of a node puts what becomes of it in its place. Where there is no room for
several nodes, none are spliced in. -/
structure Redone (options : Options) (place : Place ρ)
    (trail : Nat → Tree ρ α → List (Moment ρ α) → Fate (Tree ρ α) → Prop) : Prop where
  inWalk : ∀ {number node moments fate}, trail number node moments fate →
    ∀ moment ∈ moments, moment.inWalk = true
  replay_eq : ∀ {node moments fate} (gap : Gap (Tree ρ α)), trail gap.number node moments fate →
    replay options moments (gap.fill [node]) = gap.fill fate.nodes
  unspliced : ∀ {number node moments fate}, trail number node moments fate →
    place.position = .single → ∀ new, fate ≠ .splice new

omit [Admission ρ α] in
lemma inWalk_ofActs_telling (spot : Option (Spot ρ)) (event : Option Event) :
    ∀ moment ∈ (ofActs spot (Act.telling event) : List (Moment ρ α)), moment.inWalk = true := by
  intro moment hmem
  obtain ⟨act, hact, rfl⟩ := List.mem_map.1 hmem
  obtain ⟨event, -, rfl⟩ := List.mem_map.1 hact
  rfl

section Lists

variable {place : Place ρ} {trail : Nat → Tree ρ α → List (Moment ρ α) → Fate (Tree ρ α) → Prop}
  {slot : String} {emitted : Nat} {nodes items : List (Tree ρ α)} {moments : List (Moment ρ α)}
  {halt : Option Halt}

lemma ListTrail.inWalk (h : Redone options place trail)
    (htrail : ListTrail trail slot emitted nodes moments items halt) :
    ∀ moment ∈ moments, moment.inWalk = true := by
  induction htrail with
  | nil emitted => simp
  | cons visited part others ih =>
    simp only [List.forall_mem_append]
    exact ⟨⟨h.inWalk visited, inWalk_ofActs_telling none _⟩, ih⟩
  | halt visited => exact h.inWalk visited

/-- The nodes in front are those that the walk has passed. -/
lemma ListTrail.replay (h : Redone options place trail)
    (htrail : ListTrail trail slot emitted nodes moments items halt) {front : List (Tree ρ α)}
    (hfront : front.length = emitted) :
    Moment.replay options moments (.list (front ++ nodes)) = .list (front ++ items) := by
  induction htrail generalizing front with
  | nil emitted => rfl
  | @cons emitted node rest given items fate moments more halt visited part others ih =>
    subst hfront
    have hnode := h.replay_eq (.list front rest) visited
    rw [Fate.nodes_of_contribution part] at hnode
    have hlength : (front ++ given).length = front.length + given.length := List.length_append
    have hrest := ih hlength
    simp only [Gap.fill, List.append_assoc, List.singleton_append] at hnode hrest
    rw [replay_append, replay_append, hnode, replay_telling, hrest]
  | @halt emitted node left rest moments why visited =>
    subst hfront
    simpa [Gap.fill, Fate.nodes] using h.replay_eq (.list front rest) visited

end Lists

section Slots

variable {trail : Place ρ → Nat → Tree ρ α → List (Moment ρ α) → Fate (Tree ρ α) → Prop}

lemma ContentTrail.inWalk (h : ∀ place, Redone options place (trail place)) {rule : Rule ρ}
    {content left : Content α (Tree ρ α)} {moments : List (Moment ρ α)} {halt : Option Halt}
    (htrail : ContentTrail trail rule content moments left halt) :
    ∀ moment ∈ moments, moment.inWalk = true := by
  cases htrail with
  | vacant | value => simp
  | kept visited | spliced visited | halt visited => exact (h _).inWalk visited
  | cleared visited =>
    exact List.forall_mem_append.2 ⟨(h _).inWalk visited, inWalk_ofActs_telling none _⟩
  | list walked => exact ListTrail.inWalk (h ⟨.list, rule⟩) walked

lemma ContentTrail.replay (h : ∀ place, Redone options place (trail place)) {rule : Rule ρ}
    {content left : Content α (Tree ρ α)} {moments : List (Moment ρ α)} {halt : Option Halt}
    (htrail : ContentTrail trail rule content moments left halt) :
    Moment.replay options moments content = left := by
  cases htrail with
  | vacant | value => rfl
  | kept visited | halt visited => exact (h ⟨.single, rule⟩).replay_eq .single visited
  | cleared visited =>
    rw [replay_append, replay_telling]
    exact (h ⟨.single, rule⟩).replay_eq .single visited
  | spliced visited => exact absurd rfl ((h ⟨.single, rule⟩).unspliced visited rfl _)
  | list walked =>
    have hnone : ([] : List (Tree ρ α)).length = 0 := rfl
    exact ListTrail.replay (h ⟨.list, rule⟩) walked hnone

lemma SlotsTrail.inWalk (h : ∀ place, Redone options place (trail place)) {number slot : Nat}
    {slots items : List (Slot ρ α (Tree ρ α))} {moments : List (Moment ρ α)} {halt : Option Halt}
    (htrail : SlotsTrail trail number slot slots moments items halt) :
    ∀ moment ∈ moments, moment.inWalk = true := by
  have hbelow : ∀ {slot : Nat} {moments : List (Moment ρ α)},
      (∀ moment ∈ moments, moment.inWalk = true) →
      ∀ moment ∈ moments.map (Moment.below number slot), moment.inWalk = true := by
    intro slot moments hmoments
    simpa using hmoments
  induction htrail with
  | nil slot => simp
  | cons walked others ih =>
    exact List.forall_mem_append.2 ⟨hbelow (walked.inWalk h), ih⟩
  | halt walked => exact hbelow (walked.inWalk h)

omit [Admission ρ α] in
lemma Tree.modifySlot_append {node : Tree ρ α} {front back : List (Slot ρ α (Tree ρ α))}
    {rule : Rule ρ} {content : Content α (Tree ρ α)}
    (hslots : node.slots = front ++ ⟨rule, content⟩ :: back)
    (f : Content α (Tree ρ α) → Content α (Tree ρ α)) :
    node.modifySlot front.length f = { node with slots := front ++ ⟨rule, f content⟩ :: back } := by
  simp only [modifySlot, hslots]
  congr 1
  clear hslots
  induction front with
  | nil => rfl
  | cons first front ih => simpa [List.modify_succ_cons] using ih

/-- The slots in front are those that the walk has passed. -/
lemma SlotsTrail.replay (h : ∀ place, Redone options place (trail place)) (gap : Gap (Tree ρ α))
    {slot : Nat} {slots items : List (Slot ρ α (Tree ρ α))} {moments : List (Moment ρ α)}
    {halt : Option Halt} (htrail : SlotsTrail trail gap.number slot slots moments items halt)
    {node : Tree ρ α} {front : List (Slot ρ α (Tree ρ α))} (hfront : front.length = slot)
    (hslots : node.slots = front ++ slots) :
    Moment.replay options moments (gap.fill [node]) =
      gap.fill [{ node with slots := front ++ items }] := by
  induction htrail generalizing node front with
  | nil slot =>
    obtain ⟨tag, label, slots⟩ := node
    obtain rfl : slots = front ++ [] := hslots
    rfl
  | @cons slot rule content left rest items moments more halt walked others ih =>
    subst hfront
    rw [replay_append, replay_map_below (walked.inWalk h), Tree.modifySlot_append hslots,
      walked.replay h]
    let passed : List (Slot ρ α (Tree ρ α)) := front ++ [⟨rule, left⟩]
    let after : Tree ρ α := { node with slots := front ++ ⟨rule, left⟩ :: rest }
    have hpassed : passed.length = front.length + 1 := List.length_append
    have hafter : after.slots = passed ++ rest := List.append_cons front _ rest
    simpa [passed, after] using ih hpassed hafter
  | @halt slot rule content left rest moments why walked =>
    subst hfront
    rw [replay_map_below (walked.inWalk h), Tree.modifySlot_append hslots, walked.replay h]

end Slots

section Consult

variable {hook : NodeHook} {place : Place ρ} {index : Nat} {node : Tree ρ α} {acts : List (Act ρ α)}
  {verdict : Verdict (Tree ρ α)}

lemma ConsultRun.inWalk (spot : Spot ρ)
    (hrun : ConsultRun options count hook place index node acts verdict) :
    ∀ moment ∈ (ofActs (some spot) acts : List (Moment ρ α)), moment.inWalk = true := by
  refine List.forall_mem_map.2 ?_
  exact hrun.forall_walking (fun _ _ => rfl) fun _ => rfl

lemma ConsultRun.replay (gap : Gap (Tree ρ α))
    (hrun : ConsultRun options count hook place index node acts verdict) :
    Moment.replay options (ofActs (some (.here place gap.number)) acts) (gap.fill [node]) =
      gap.fill verdict.fate.nodes := by
  have hcall : ∀ {index name} {node : Tree ρ α} {reply verdict event},
      options.judge hook place ⟨.node hook, index, name⟩ node reply = (verdict, event) →
      (Moment.acted (some (.here place gap.number)) (.node index name hook node reply)).redo options
        (gap.fill [node]) = gap.fill verdict.fate.nodes := by
    intro index name node reply verdict event judged
    rw [← NodeReply.outcome_eq judged]
    exact gap.put_fill node _
  induction hrun with
  | done node => rfl
  | pass inRange judged others ih =>
    simp only [ofActs, List.map_cons, List.map_append] at ih ⊢
    rw [replay_cons, replay_append, hcall judged]
    exact (congrArg _ (replay_ofActs_telling _ _ _)).trans ih
  | settle inRange judged settled =>
    simp only [ofActs, List.map_cons]
    rw [replay_cons, hcall judged]
    exact replay_ofActs_telling _ _ _

/-- In a single slot a splice is not legal. -/
lemma ConsultRun.unspliced (hrun : ConsultRun options count hook place index node acts verdict)
    (single : place.position = .single) (new : List (Tree ρ α)) : verdict.fate ≠ .splice new := by
  induction hrun with
  | done node => nofun
  | pass inRange judged others ih => exact ih
  | @settle index name node reply event verdict inRange judged settled =>
    obtain ⟨left, directive, -, hlegal, -, rfl, -⟩ | ⟨-, rfl, -⟩ | ⟨error, rfl, -, -, -⟩ :=
      Options.judge_cases rfl judged
    · rw [single] at hlegal
      cases directive with
      | splice new' => cases hook <;> cases hlegal
      | _ => nofun
    · nofun
    · nofun

end Consult

lemma VisitTrail.redone {depth : Nat}
    {below : Place ρ → Nat → Tree ρ α → List (Moment ρ α) → Fate (Tree ρ α) → Prop}
    (h : ∀ place, Redone options place (below place)) (place : Place ρ) :
    Redone options place (VisitTrail options count below depth place) := by
  constructor
  · intro number node moments fate htrail
    cases htrail with
    | tooDeep exceeded => exact List.forall_mem_cons.2 ⟨rfl, List.forall_mem_singleton.2 rfl⟩
    | walked allowed entered descended left =>
      simp only [List.forall_mem_cons, List.forall_mem_append]
      exact ⟨rfl, ⟨entered.inWalk _, descended.inWalk h⟩, left.inWalk _⟩
    | broken allowed entered descended =>
      simp only [List.forall_mem_cons, List.forall_mem_append]
      exact ⟨rfl, entered.inWalk _, descended.inWalk h⟩
    | skipped allowed entered left =>
      simp only [List.forall_mem_cons, List.forall_mem_append]
      exact ⟨rfl, entered.inWalk _, left.inWalk _⟩
    | settled allowed entered proceeds skips =>
      exact List.forall_mem_cons.2 ⟨rfl, entered.inWalk _⟩
  · intro node moments fate gap htrail
    cases htrail with
    | tooDeep exceeded => rfl
    | @walked mid slots acts last moments verdict allowed entered descended left =>
      have hslots := descended.replay h gap rfl (List.nil_append _).symm
      rw [replay_cons, redo_reached, replay_append, replay_append, entered.replay gap]
      exact (congrArg _ hslots).trans (left.replay gap)
    | @broken mid slots acts moments why allowed entered descended =>
      have hslots := descended.replay h gap rfl (List.nil_append _).symm
      rw [replay_cons, redo_reached, replay_append, entered.replay gap]
      exact hslots
    | skipped allowed entered left =>
      rw [replay_cons, redo_reached, replay_append, entered.replay gap]
      exact left.replay gap
    | settled allowed entered proceeds skips =>
      rw [replay_cons, redo_reached, entered.replay gap]
  · intro number node moments fate htrail single
    cases htrail with
    | tooDeep | broken => nofun
    | walked allowed entered descended left => exact left.unspliced single
    | skipped allowed entered left => exact left.unspliced single
    | settled allowed entered proceeds skips => exact entered.unspliced single

theorem NodeTrail.redone (room depth : Nat) (place : Place ρ) :
    Redone (α := α) options place (NodeTrail options count room depth place) := by
  induction room generalizing depth place with
  | zero =>
    refine ⟨?_, ?_, ?_⟩
    · rintro number node moments fate ⟨rfl, -⟩
      simp
    · rintro node moments fate gap ⟨rfl, rfl⟩
      rfl
    · rintro number node moments fate ⟨-, rfl⟩
      nofun
  | succ room ih => exact VisitTrail.redone (fun place => ih (depth + 1) place) place

lemma TopTrail.replay {room : Nat} {nodes items : List (Tree ρ α)} {moments : List (Moment ρ α)}
    {halt : Option Halt} (htrail : TopTrail options count room nodes moments items halt) :
    Moment.replay options moments (.list nodes) = .list items := by
  have hnone : ([] : List (Tree ρ α)).length = 0 := rfl
  exact ListTrail.replay (NodeTrail.redone room 0 .topLevel) htrail hnone

lemma WalkTrail.replay {room : Nat} {nodes items : List (Tree ρ α)} {moments : List (Moment ρ α)}
    (htrail : WalkTrail options count room nodes moments items) :
    Moment.replay options moments (.list nodes) = .list items := by
  cases htrail with
  | through walked => exact TopTrail.replay walked
  | stopped walked => rw [replay_append, TopTrail.replay walked, replay_telling]

lemma ShowRun.replay {hook : SequenceHook} {index : Nat} {nodes items : List (Tree ρ α)}
    {acts : List (Act ρ α)} {halt : Option Halt}
    (hrun : ShowRun count hook index nodes acts items halt) :
    Moment.replay options (ofActs none acts) (.list nodes) = .list items := by
  have hcall : ∀ {index name nodes reply next why event},
      SequenceReply.judge (ρ := ρ) (α := α) hook ⟨.sequence hook, index, name⟩ nodes reply =
        ((next, why), event) →
      (Moment.acted none (.sequence index name hook nodes reply)).redo options (.list nodes) =
        .list next := by
    intro index name nodes reply next why event judged
    match reply with
    | .unavailable | .answered none | .answered (some _) | .failed _ | .overflowed =>
      cases judged
      rfl
  induction hrun with
  | done nodes => rfl
  | pass inRange judged others ih =>
    simp only [ofActs, List.map_cons, List.map_append] at ih ⊢
    rw [replay_cons, replay_append, hcall judged]
    exact (congrArg _ (replay_ofActs_telling _ _ _)).trans ih
  | halt inRange judged =>
    simp only [ofActs, List.map_cons]
    rw [replay_cons, hcall judged]
    exact replay_ofActs_telling _ _ _

/-- What a traversal leaves is what the replay of its trail ends with. -/
theorem TraversalTrail.replay {room : Nat} {nodes items : List (Tree ρ α)}
    {trail : List (Moment ρ α)} {halt : Option Halt}
    (htrail : TraversalTrail options count room nodes trail items halt) :
    Moment.replay options trail (.list nodes) = .list items := by
  cases htrail with
  | unready shown => rw [replay_append, replay_telling, shown.replay]
  | broken shown walked unstopped =>
    rw [replay_append, replay_append, replay_telling, shown.replay, TopTrail.replay walked]
  | unfinished shown walked shownAgain =>
    rw [replay_append, replay_append, replay_append, replay_telling, shown.replay, walked.replay,
      shownAgain.replay]
  | finished shown walked shownAgain =>
    simp only [replay_append, replay_telling, shown.replay, walked.replay, shownAgain.replay]

end Redone

theorem Walker.Leaves.replay [Admission ρ α] {walker : Walker ρ α σ} {stack : Nat}
    {nodes : List (Tree ρ α)} {state : σ} {trail : List (Moment ρ α)}
    (h : walker.Leaves stack nodes state trail) :
    Moment.replay walker.options trail (.list nodes) =
      .list (walker.traverse stack nodes state).items :=
  h.trodden.replay

end ForestWalk
