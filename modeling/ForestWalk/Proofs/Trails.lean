import ForestWalk.Proofs.Adequacy
/-!
The trail of a traversal: its moments in order, each with the spot where the walk is. A trail has
all the acts of the traversal, and besides it tells of every node that the walk comes to. The rules
are those of runs; here they also number the nodes and slots.
-/

namespace ForestWalk

/-- Where a node stands below a sequence: it has a number there, or it stands in a slot of the node
with this number. -/
inductive Address where
  | here (number : Nat)
  | inside (number slot : Nat) (rest : Address)
deriving Repr, DecidableEq

/-- The number of ancestors. -/
def Address.depth : Address → Nat
  | .here _ => 0
  | .inside _ _ rest => rest.depth + 1

/-- The number of the node in the list that holds it. -/
def Address.number : Address → Nat
  | .here number => number
  | .inside _ _ rest => rest.number

/-- The address of a node, and the place it stands in. -/
structure Spot (ρ : Type) where
  address : Address
  place : Place ρ

variable {ρ α σ : Type}

/-- The spot of a node with a number. -/
def Spot.here (place : Place ρ) (number : Nat) : Spot ρ where
  address := .here number
  place := place

/-- The same spot, seen from further above. -/
def Spot.below (number slot : Nat) (spot : Spot ρ) : Spot ρ :=
  { spot with address := .inside number slot spot.address }

inductive Moment (ρ α : Type) where
  /-- The walk comes to a node. -/
  | reached (spot : Spot ρ) (node : Tree ρ α)
  /-- The traversal acts. Where the act concerns a node in hand, the spot is that of the node. -/
  | acted (spot : Option (Spot ρ)) (act : Act ρ α)

namespace Moment

/-- The moments of acts that all concern the node at a spot. -/
def ofActs (spot : Option (Spot ρ)) (acts : List (Act ρ α)) : List (Moment ρ α) :=
  acts.map (.acted spot)

/-- The moments at which something is made known. -/
def telling (event : Option Event) : List (Moment ρ α) :=
  ofActs none (Act.telling event)

/-- The same moment, seen from further above. -/
def below (number slot : Nat) : Moment ρ α → Moment ρ α
  | .reached spot node => .reached (spot.below number slot) node
  | .acted spot act => .acted (spot.map (Spot.below number slot)) act

def act? : Moment ρ α → Option (Act ρ α)
  | .reached _ _ => none
  | .acted _ act => some act

/-- The acts of a trail. -/
def acts (moments : List (Moment ρ α)) : List (Act ρ α) :=
  moments.filterMap act?

@[simp] theorem act?_below (number slot : Nat) (moment : Moment ρ α) :
    (moment.below number slot).act? = moment.act? := by
  cases moment <;> rfl

@[simp] theorem acts_nil : acts ([] : List (Moment ρ α)) = [] :=
  rfl

@[simp] theorem acts_reached (spot : Spot ρ) (node : Tree ρ α) (moments : List (Moment ρ α)) :
    acts (.reached spot node :: moments) = acts moments :=
  rfl

@[simp] theorem acts_acted (spot : Option (Spot ρ)) (act : Act ρ α) (moments : List (Moment ρ α)) :
    acts (.acted spot act :: moments) = act :: acts moments :=
  rfl

@[simp] theorem acts_append (moments more : List (Moment ρ α)) :
    acts (moments ++ more) = acts moments ++ acts more :=
  List.filterMap_append

@[simp] theorem acts_ofActs (spot : Option (Spot ρ)) (acts : List (Act ρ α)) :
    Moment.acts (ofActs spot acts) = acts := by
  induction acts with
  | nil => rfl
  | cons act rest ih => exact congrArg (act :: ·) ih

@[simp] theorem acts_telling (event : Option Event) :
    acts (telling event : List (Moment ρ α)) = Act.telling event :=
  acts_ofActs none _

@[simp] theorem acts_map_below (number slot : Nat) (moments : List (Moment ρ α)) :
    acts (moments.map (below number slot)) = acts moments := by
  rw [acts, acts, List.filterMap_map]
  congr 1
  funext moment
  exact act?_below number slot moment

lemma mem_acts {moments : List (Moment ρ α)} {act : Act ρ α} :
    act ∈ acts moments ↔ ∃ spot, .acted spot act ∈ moments := by
  simp only [acts, List.mem_filterMap]
  constructor
  · rintro ⟨moment, hmem, hact⟩
    cases moment with
    | reached spot node => cases hact
    | acted spot act =>
      cases hact
      exact ⟨spot, hmem⟩
  · rintro ⟨spot, hmem⟩
    exact ⟨_, hmem, rfl⟩

/-- The moments of a trail in which a given act is done. -/
lemma exists_of_acts_eq {trail : List (Moment ρ α)} {before after : List (Act ρ α)} {act : Act ρ α}
    (h : acts trail = before ++ act :: after) :
    ∃ front spot back, trail = front ++ .acted spot act :: back ∧ acts front = before ∧
      acts back = after := by
  obtain ⟨front, last, rfl, hfront, hlast⟩ := List.filterMap_eq_append_iff.1 h
  obtain ⟨quiet, moment, back, rfl, hquiet, hmoment, hback⟩ := List.filterMap_eq_cons_iff.1 hlast
  cases moment with
  | reached spot node => cases hmoment
  | acted spot done =>
    cases hmoment
    refine ⟨front ++ quiet, spot, back, by simp, ?_, hback⟩
    have hnone : acts quiet = [] := List.filterMap_eq_nil_iff.2 hquiet
    rw [acts_append, hnone, List.append_nil]
    exact hfront

end Moment

/-- The trail over the nodes of a list, where `trail` is the trail of the node with a number. -/
inductive ListTrail (trail : Nat → Tree ρ α → List (Moment ρ α) → Fate (Tree ρ α) → Prop)
    (slot : String) :
    Nat → List (Tree ρ α) → List (Moment ρ α) → List (Tree ρ α) → Option Halt → Prop
  | nil (emitted : Nat) : ListTrail trail slot emitted [] [] [] none
  | cons {emitted : Nat} {node : Tree ρ α} {rest given items : List (Tree ρ α)}
      {fate : Fate (Tree ρ α)} {moments more : List (Moment ρ α)} {halt : Option Halt}
      (visited : trail emitted node moments fate) (part : fate.contribution = some given)
      (others : ListTrail trail slot (emitted + given.length) rest more items halt) :
      ListTrail trail slot emitted (node :: rest)
        (moments ++ Moment.telling (fate.event slot emitted) ++ more) (given ++ items) halt
  | halt {emitted : Nat} {node left : Tree ρ α} {rest : List (Tree ρ α)}
      {moments : List (Moment ρ α)} {why : Halt}
      (visited : trail emitted node moments (.halt left why)) :
      ListTrail trail slot emitted (node :: rest) moments (left :: rest) (some why)

/-- The trail through what a slot holds. -/
inductive ContentTrail
    (trail : Place ρ → Nat → Tree ρ α → List (Moment ρ α) → Fate (Tree ρ α) → Prop)
    (rule : Rule ρ) :
    Content α (Tree ρ α) → List (Moment ρ α) → Content α (Tree ρ α) → Option Halt → Prop
  | vacant : ContentTrail trail rule (.single none) [] (.single none) none
  | kept {child left : Tree ρ α} {moments : List (Moment ρ α)}
      (visited : trail ⟨.single, rule⟩ 0 child moments (.keep left)) :
      ContentTrail trail rule (.single (some child)) moments (.single (some left)) none
  | cleared {child : Tree ρ α} {moments : List (Moment ρ α)}
      (visited : trail ⟨.single, rule⟩ 0 child moments .remove) :
      ContentTrail trail rule (.single (some child))
        (moments ++ Moment.telling (some (.cleared rule.name))) (.single none) none
  | spliced {child : Tree ρ α} {new : List (Tree ρ α)} {moments : List (Moment ρ α)}
      (visited : trail ⟨.single, rule⟩ 0 child moments (.splice new)) :
      ContentTrail trail rule (.single (some child)) moments (.single (some child)) none
  | halt {child left : Tree ρ α} {moments : List (Moment ρ α)} {why : Halt}
      (visited : trail ⟨.single, rule⟩ 0 child moments (.halt left why)) :
      ContentTrail trail rule (.single (some child)) moments (.single (some left)) (some why)
  | list {children items : List (Tree ρ α)} {moments : List (Moment ρ α)} {halt : Option Halt}
      (walked : ListTrail (trail ⟨.list, rule⟩) rule.name 0 children moments items halt) :
      ContentTrail trail rule (.list children) moments (.list items) halt
  | value (content : α) : ContentTrail trail rule (.value content) [] (.value content) none

/-- The trail through the slots, from a slot on, of the node with a number. -/
inductive SlotsTrail
    (trail : Place ρ → Nat → Tree ρ α → List (Moment ρ α) → Fate (Tree ρ α) → Prop) (number : Nat) :
    Nat → List (Slot ρ α (Tree ρ α)) → List (Moment ρ α) → List (Slot ρ α (Tree ρ α)) →
      Option Halt → Prop
  | nil (slot : Nat) : SlotsTrail trail number slot [] [] [] none
  | cons {slot : Nat} {rule : Rule ρ} {content left : Content α (Tree ρ α)}
      {rest items : List (Slot ρ α (Tree ρ α))} {moments more : List (Moment ρ α)}
      {halt : Option Halt} (walked : ContentTrail trail rule content moments left none)
      (others : SlotsTrail trail number (slot + 1) rest more items halt) :
      SlotsTrail trail number slot (⟨rule, content⟩ :: rest)
        (moments.map (Moment.below number slot) ++ more) (⟨rule, left⟩ :: items) halt
  | halt {slot : Nat} {rule : Rule ρ} {content left : Content α (Tree ρ α)}
      {rest : List (Slot ρ α (Tree ρ α))} {moments : List (Moment ρ α)} {why : Halt}
      (walked : ContentTrail trail rule content moments left (some why)) :
      SlotsTrail trail number slot (⟨rule, content⟩ :: rest)
        (moments.map (Moment.below number slot)) (⟨rule, left⟩ :: rest) (some why)

section NodeTrail

variable [Admission ρ α] (options : Options) (count : Nat)

/-- The trail of a visit to the node with a number, where `below` is the trail of a node that is one
level deeper. -/
inductive VisitTrail
    (below : Place ρ → Nat → Tree ρ α → List (Moment ρ α) → Fate (Tree ρ α) → Prop)
    (depth : Nat) (place : Place ρ) (number : Nat) :
    Tree ρ α → List (Moment ρ α) → Fate (Tree ρ α) → Prop
  | tooDeep {node : Tree ρ α} {limit : Nat} (exceeded : options.exceededAt depth = some limit) :
      VisitTrail below depth place number node
        (.reached (.here place number) node ::
          Moment.ofActs (some (.here place number)) [.event (.tooDeep limit node.tag)])
        (.halt node (.failed (.tooDeep limit node.tag)))
  | walked {node mid : Tree ρ α} {slots : List (Slot ρ α (Tree ρ α))} {acts last : List (Act ρ α)}
      {moments : List (Moment ρ α)} {verdict : Verdict (Tree ρ α)}
      (allowed : options.exceededAt depth = none)
      (entered : ConsultRun options count .enter place 0 node acts (.proceed mid))
      (descended : SlotsTrail below number 0 mid.slots moments slots none)
      (left : ConsultRun options count .leave place 0 { mid with slots := slots } last verdict) :
      VisitTrail below depth place number node
        (.reached (.here place number) node ::
          (Moment.ofActs (some (.here place number)) acts ++ moments ++
            Moment.ofActs (some (.here place number)) last)) verdict.fate
  | broken {node mid : Tree ρ α} {slots : List (Slot ρ α (Tree ρ α))} {acts : List (Act ρ α)}
      {moments : List (Moment ρ α)} {why : Halt} (allowed : options.exceededAt depth = none)
      (entered : ConsultRun options count .enter place 0 node acts (.proceed mid))
      (descended : SlotsTrail below number 0 mid.slots moments slots (some why)) :
      VisitTrail below depth place number node
        (.reached (.here place number) node ::
          (Moment.ofActs (some (.here place number)) acts ++ moments))
        (.halt { mid with slots := slots } why)
  | skipped {node mid : Tree ρ α} {acts last : List (Act ρ α)} {verdict : Verdict (Tree ρ α)}
      (allowed : options.exceededAt depth = none)
      (entered : ConsultRun options count .enter place 0 node acts (.skipChildren mid))
      (left : ConsultRun options count .leave place 0 mid last verdict) :
      VisitTrail below depth place number node
        (.reached (.here place number) node ::
          (Moment.ofActs (some (.here place number)) acts ++
            Moment.ofActs (some (.here place number)) last)) verdict.fate
  | settled {node : Tree ρ α} {acts : List (Act ρ α)} {verdict : Verdict (Tree ρ α)}
      (allowed : options.exceededAt depth = none)
      (entered : ConsultRun options count .enter place 0 node acts verdict)
      (proceeds : ∀ mid, verdict ≠ .proceed mid) (skips : ∀ mid, verdict ≠ .skipChildren mid) :
      VisitTrail below depth place number node
        (.reached (.here place number) node :: Moment.ofActs (some (.here place number)) acts)
        verdict.fate

/-- The trail of a node at a depth, with so many levels of room. -/
def NodeTrail :
    Nat → Nat → Place ρ → Nat → Tree ρ α → List (Moment ρ α) → Fate (Tree ρ α) → Prop
  | 0, _, _, _, node, moments, fate => moments = [] ∧ fate = .halt node .overflowed
  | room + 1, depth, place, number, node, moments, fate =>
    VisitTrail options count (NodeTrail room (depth + 1)) depth place number node moments fate

/-- The trail of the walk of the top-level sequence. -/
def TopTrail (room : Nat) :
    List (Tree ρ α) → List (Moment ρ α) → List (Tree ρ α) → Option Halt → Prop :=
  ListTrail (NodeTrail options count room 0 .topLevel) topLevelName 0

/-- The trail of a walk after which the visitors are shown what is left. -/
inductive WalkTrail (room : Nat) :
    List (Tree ρ α) → List (Moment ρ α) → List (Tree ρ α) → Prop
  | through {nodes items : List (Tree ρ α)} {moments : List (Moment ρ α)}
      (walked : TopTrail options count room nodes moments items none) :
      WalkTrail room nodes moments items
  | stopped {nodes items : List (Tree ρ α)} {moments : List (Moment ρ α)}
      (walked : TopTrail options count room nodes moments items (some .stopped)) :
      WalkTrail room nodes (moments ++ Moment.telling (some .stopped)) items

/-- The trail of a traversal from start to end. -/
inductive TraversalTrail (room : Nat) :
    List (Tree ρ α) → List (Moment ρ α) → List (Tree ρ α) → Option Halt → Prop
  | unready {nodes items : List (Tree ρ α)} {acts : List (Act ρ α)} {why : Halt}
      (shown : ShowRun count .before 0 nodes acts items (some why)) :
      TraversalTrail room nodes
        (Moment.telling (some (.started nodes.length count)) ++ Moment.ofActs none acts) items
        (some why)
  | broken {nodes start items : List (Tree ρ α)} {acts : List (Act ρ α)}
      {moments : List (Moment ρ α)} {why : Halt}
      (shown : ShowRun count .before 0 nodes acts start none)
      (walked : TopTrail options count room start moments items (some why))
      (unstopped : why ≠ .stopped) :
      TraversalTrail room nodes
        (Moment.telling (some (.started nodes.length count)) ++ Moment.ofActs none acts ++ moments)
        items (some why)
  | unfinished {nodes start mid items : List (Tree ρ α)} {acts last : List (Act ρ α)}
      {moments : List (Moment ρ α)} {why : Halt}
      (shown : ShowRun count .before 0 nodes acts start none)
      (walked : WalkTrail options count room start moments mid)
      (shownAgain : ShowRun count .after 0 mid last items (some why)) :
      TraversalTrail room nodes
        (Moment.telling (some (.started nodes.length count)) ++ Moment.ofActs none acts ++
          moments ++ Moment.ofActs none last) items (some why)
  | finished {nodes start mid items : List (Tree ρ α)} {acts last : List (Act ρ α)}
      {moments : List (Moment ρ α)}
      (shown : ShowRun count .before 0 nodes acts start none)
      (walked : WalkTrail options count room start moments mid)
      (shownAgain : ShowRun count .after 0 mid last items none) :
      TraversalTrail room nodes
        (Moment.telling (some (.started nodes.length count)) ++ Moment.ofActs none acts ++
          moments ++ Moment.ofActs none last ++ Moment.telling (some (.finished items.length)))
        items none

end NodeTrail

section Runs

/-- The trails of a node are its runs with the spots added: every run has one, whatever the number
of the node. -/
structure Trodden (run : Tree ρ α → List (Act ρ α) → Fate (Tree ρ α) → Prop)
    (trail : Nat → Tree ρ α → List (Moment ρ α) → Fate (Tree ρ α) → Prop) : Prop where
  exists_trail : ∀ {node acts fate}, run node acts fate → ∀ number,
    ∃ moments, trail number node moments fate ∧ Moment.acts moments = acts
  run_acts : ∀ {number node moments fate}, trail number node moments fate →
    run node (Moment.acts moments) fate

section Lists

variable {run : Tree ρ α → List (Act ρ α) → Fate (Tree ρ α) → Prop}
  {trail : Nat → Tree ρ α → List (Moment ρ α) → Fate (Tree ρ α) → Prop} {slot : String}

lemma ListRun.exists_trail (h : Trodden run trail) {emitted : Nat} {nodes items : List (Tree ρ α)}
    {acts : List (Act ρ α)} {halt : Option Halt}
    (hrun : ListRun run slot emitted nodes acts items halt) :
    ∃ moments, ListTrail trail slot emitted nodes moments items halt ∧
      Moment.acts moments = acts := by
  induction hrun with
  | nil emitted => exact ⟨[], .nil emitted, rfl⟩
  | @cons emitted node rest given items fate acts more halt visited part others ih =>
    obtain ⟨moments, htrail, rfl⟩ := h.exists_trail visited emitted
    obtain ⟨later, hlater, rfl⟩ := ih
    exact ⟨_, .cons htrail part hlater, by simp⟩
  | @halt emitted node left rest acts why visited =>
    obtain ⟨moments, htrail, rfl⟩ := h.exists_trail visited emitted
    exact ⟨moments, .halt htrail, rfl⟩

lemma ListTrail.run_acts (h : Trodden run trail) {emitted : Nat} {nodes items : List (Tree ρ α)}
    {moments : List (Moment ρ α)} {halt : Option Halt}
    (htrail : ListTrail trail slot emitted nodes moments items halt) :
    ListRun run slot emitted nodes (Moment.acts moments) items halt := by
  induction htrail with
  | nil emitted => exact .nil emitted
  | cons visited part others ih => simpa using ListRun.cons (h.run_acts visited) part ih
  | halt visited => exact .halt (h.run_acts visited)

end Lists

section Slots

variable {run : Place ρ → Tree ρ α → List (Act ρ α) → Fate (Tree ρ α) → Prop}
  {trail : Place ρ → Nat → Tree ρ α → List (Moment ρ α) → Fate (Tree ρ α) → Prop}

lemma ContentRun.exists_trail (h : ∀ place, Trodden (run place) (trail place)) {rule : Rule ρ}
    {content left : Content α (Tree ρ α)} {acts : List (Act ρ α)} {halt : Option Halt}
    (hrun : ContentRun run rule content acts left halt) :
    ∃ moments, ContentTrail trail rule content moments left halt ∧ Moment.acts moments = acts := by
  cases hrun with
  | vacant => exact ⟨[], .vacant, rfl⟩
  | kept visited =>
    obtain ⟨moments, htrail, hacts⟩ := (h _).exists_trail visited 0
    exact ⟨moments, .kept htrail, hacts⟩
  | cleared visited =>
    obtain ⟨moments, htrail, rfl⟩ := (h _).exists_trail visited 0
    exact ⟨_, .cleared htrail, by simp [Act.telling]⟩
  | spliced visited =>
    obtain ⟨moments, htrail, hacts⟩ := (h _).exists_trail visited 0
    exact ⟨moments, .spliced htrail, hacts⟩
  | halt visited =>
    obtain ⟨moments, htrail, hacts⟩ := (h _).exists_trail visited 0
    exact ⟨moments, .halt htrail, hacts⟩
  | list walked =>
    obtain ⟨moments, htrail, hacts⟩ := ListRun.exists_trail (h ⟨.list, rule⟩) walked
    exact ⟨moments, .list htrail, hacts⟩
  | value content => exact ⟨[], .value content, rfl⟩

lemma ContentTrail.run_acts (h : ∀ place, Trodden (run place) (trail place)) {rule : Rule ρ}
    {content left : Content α (Tree ρ α)} {moments : List (Moment ρ α)} {halt : Option Halt}
    (htrail : ContentTrail trail rule content moments left halt) :
    ContentRun run rule content (Moment.acts moments) left halt := by
  cases htrail with
  | vacant => exact .vacant
  | kept visited => exact .kept ((h _).run_acts visited)
  | cleared visited => simpa [Act.telling] using ContentRun.cleared ((h _).run_acts visited)
  | spliced visited => exact .spliced ((h _).run_acts visited)
  | halt visited => exact .halt ((h _).run_acts visited)
  | list walked => exact .list (ListTrail.run_acts (h ⟨.list, rule⟩) walked)
  | value content => exact .value content

lemma SlotsRun.exists_trail (h : ∀ place, Trodden (run place) (trail place)) (number slot : Nat)
    {slots items : List (Slot ρ α (Tree ρ α))} {acts : List (Act ρ α)} {halt : Option Halt}
    (hrun : SlotsRun run slots acts items halt) :
    ∃ moments, SlotsTrail trail number slot slots moments items halt ∧
      Moment.acts moments = acts := by
  induction hrun generalizing slot with
  | nil => exact ⟨[], .nil slot, rfl⟩
  | cons walked others ih =>
    obtain ⟨moments, htrail, rfl⟩ := walked.exists_trail h
    obtain ⟨later, hlater, rfl⟩ := ih (slot + 1)
    exact ⟨_, .cons htrail hlater, by simp⟩
  | halt walked =>
    obtain ⟨moments, htrail, rfl⟩ := walked.exists_trail h
    exact ⟨_, .halt htrail, by simp⟩

lemma SlotsTrail.run_acts (h : ∀ place, Trodden (run place) (trail place)) {number slot : Nat}
    {slots items : List (Slot ρ α (Tree ρ α))} {moments : List (Moment ρ α)} {halt : Option Halt}
    (htrail : SlotsTrail trail number slot slots moments items halt) :
    SlotsRun run slots (Moment.acts moments) items halt := by
  induction htrail with
  | nil slot => exact .nil
  | cons walked others ih => simpa using SlotsRun.cons (walked.run_acts h) ih
  | halt walked => simpa using SlotsRun.halt (walked.run_acts h)

end Slots

variable [Admission ρ α] {options : Options} {count : Nat}

lemma VisitRun.trodden {run : Place ρ → Tree ρ α → List (Act ρ α) → Fate (Tree ρ α) → Prop}
    {trail : Place ρ → Nat → Tree ρ α → List (Moment ρ α) → Fate (Tree ρ α) → Prop}
    (h : ∀ place, Trodden (run place) (trail place)) (depth : Nat) (place : Place ρ) :
    Trodden (VisitRun options count run depth place)
      (VisitTrail options count trail depth place) := by
  constructor
  · intro node acts fate hrun number
    cases hrun with
    | tooDeep exceeded => exact ⟨_, .tooDeep exceeded, by simp⟩
    | walked allowed entered descended left =>
      obtain ⟨moments, htrail, rfl⟩ := descended.exists_trail h number 0
      exact ⟨_, .walked allowed entered htrail left, by simp⟩
    | broken allowed entered descended =>
      obtain ⟨moments, htrail, rfl⟩ := descended.exists_trail h number 0
      exact ⟨_, .broken allowed entered htrail, by simp⟩
    | skipped allowed entered left => exact ⟨_, .skipped allowed entered left, by simp⟩
    | settled allowed entered proceeds skips =>
      exact ⟨_, .settled allowed entered proceeds skips, by simp⟩
  · intro number node moments fate htrail
    cases htrail with
    | tooDeep exceeded => simpa using VisitRun.tooDeep exceeded
    | walked allowed entered descended left =>
      simpa using VisitRun.walked allowed entered (descended.run_acts h) left
    | broken allowed entered descended =>
      simpa using VisitRun.broken allowed entered (descended.run_acts h)
    | skipped allowed entered left => simpa using VisitRun.skipped allowed entered left
    | settled allowed entered proceeds skips =>
      simpa using VisitRun.settled allowed entered proceeds skips

theorem NodeRun.trodden (room depth : Nat) (place : Place ρ) :
    Trodden (α := α) (NodeRun options count room depth place)
      (NodeTrail options count room depth place) := by
  induction room generalizing depth place with
  | zero =>
    constructor
    · rintro node acts fate ⟨rfl, rfl⟩ number
      exact ⟨[], ⟨rfl, rfl⟩, rfl⟩
    · rintro number node moments fate ⟨rfl, rfl⟩
      exact ⟨rfl, rfl⟩
  | succ room ih => exact VisitRun.trodden (fun place => ih (depth + 1) place) depth place

lemma WalkRun.exists_trail {room : Nat} {nodes items : List (Tree ρ α)} {acts : List (Act ρ α)}
    (hrun : WalkRun options count room nodes acts items) :
    ∃ moments, WalkTrail options count room nodes moments items ∧ Moment.acts moments = acts := by
  cases hrun with
  | through walked =>
    obtain ⟨moments, htrail, hacts⟩ :=
      ListRun.exists_trail (NodeRun.trodden room 0 .topLevel) walked
    exact ⟨moments, .through htrail, hacts⟩
  | stopped walked =>
    obtain ⟨moments, htrail, rfl⟩ :=
      ListRun.exists_trail (NodeRun.trodden room 0 .topLevel) walked
    exact ⟨_, .stopped htrail, by simp [Act.telling]⟩

theorem TraversalRun.exists_trail {room : Nat} {nodes items : List (Tree ρ α)}
    {acts : List (Act ρ α)} {halt : Option Halt}
    (hrun : TraversalRun options count room nodes acts items halt) :
    ∃ moments, TraversalTrail options count room nodes moments items halt ∧
      Moment.acts moments = acts := by
  cases hrun with
  | unready shown => exact ⟨_, .unready shown, by simp [Act.telling]⟩
  | broken shown walked unstopped =>
    obtain ⟨moments, htrail, rfl⟩ :=
      ListRun.exists_trail (NodeRun.trodden room 0 .topLevel) walked
    exact ⟨_, .broken shown htrail unstopped, by simp [Act.telling]⟩
  | unfinished shown walked shownAgain =>
    obtain ⟨moments, htrail, rfl⟩ := walked.exists_trail
    exact ⟨_, .unfinished shown htrail shownAgain, by simp [Act.telling]⟩
  | finished shown walked shownAgain =>
    obtain ⟨moments, htrail, rfl⟩ := walked.exists_trail
    exact ⟨_, .finished shown htrail shownAgain, by simp [Act.telling]⟩

end Runs

namespace Walker

variable [Admission ρ α] (walker : Walker ρ α σ)

/-- The traversal leaves a trail: it has the acts of the traversal, and obeys the rules. -/
structure Leaves (stack : Nat) (nodes : List (Tree ρ α)) (state : σ)
    (trail : List (Moment ρ α)) : Prop where
  trodden : TraversalTrail walker.options walker.visitors.length (walker.room stack) nodes trail
    (walker.traverse stack nodes state).items (walker.traverse stack nodes state).halt
  acts_eq : Moment.acts trail = walker.acts stack nodes state

theorem exists_leaves (stack : Nat) (nodes : List (Tree ρ α)) (state : σ) :
    ∃ trail, walker.Leaves stack nodes state trail := by
  obtain ⟨-, hrun, -⟩ := walker.recorded_traverse stack nodes state
  obtain ⟨trail, htrail, hacts⟩ := hrun.exists_trail
  exact ⟨trail, htrail, hacts⟩

end Walker

end ForestWalk
