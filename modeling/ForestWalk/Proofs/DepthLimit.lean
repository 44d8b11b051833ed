import ForestWalk.Proofs.Exchange
import ForestWalk.Proofs.FailingCall
import ForestWalk.Proofs.Outcome
import ForestWalk.Proofs.Replay
import ForestWalk.Proofs.Tandem
/-!
What a depth limit does. Under a tighter limit a traversal does the same, or it does the same up to
the moment when it comes to the first node beyond the limit, and then it fails.
-/

namespace ForestWalk

variable {ρ α σ τ : Type}

namespace Moment

/-- Where the walk is at the moment, if it is at a node. -/
def spot? : Moment ρ α → Option (Spot ρ)
  | .reached spot _ => some spot
  | .acted spot _ => spot

/-- The walk is not at a node beyond the limit. The depth of nodes is counted from a base. -/
def Within (limit base : Nat) (moment : Moment ρ α) : Prop :=
  ∀ spot ∈ moment.spot?, base + spot.address.depth ≤ limit

/-- A part of a walk does not get beyond the limit, or it ends at the first node that is beyond. -/
inductive Truncated (limit base : Nat) : List (Moment ρ α) → Option Halt → Prop
  | within {moments : List (Moment ρ α)} {halt : Option Halt}
      (shallow : ∀ moment ∈ moments, moment.Within limit base) : Truncated limit base moments halt
  | tooDeep {before : List (Moment ρ α)} {spot : Spot ρ} {node : Tree ρ α}
      (shallow : ∀ moment ∈ before, moment.Within limit base)
      (depth : base + spot.address.depth = limit + 1) :
      Truncated limit base
        (before ++ [.reached spot node, .acted (some spot) (.event (.tooDeep limit node.tag))])
        (some (.failed (.tooDeep limit node.tag)))

variable {limit base : Nat}

lemma within_below_iff {number slot : Nat} {moment : Moment ρ α} :
    (moment.below number slot).Within limit base ↔ moment.Within limit (base + 1) := by
  have hdepth : ∀ spot : Spot ρ, base + (spot.address.depth + 1) = base + 1 + spot.address.depth :=
    fun spot => by omega
  match moment with
  | .reached spot node | .acted (some spot) act => simp [Within, below, spot?, hdepth]
  | .acted none act => simp [Within, below, spot?]

lemma within_ofActs {spot : Option (Spot ρ)}
    (h : ∀ found ∈ spot, base + found.address.depth ≤ limit) (acts : List (Act ρ α)) :
    ∀ moment ∈ ofActs spot acts, moment.Within limit base := by
  intro moment hmem
  obtain ⟨act, -, rfl⟩ := List.mem_map.1 hmem
  exact h

lemma within_telling (event : Option Event) :
    ∀ moment ∈ (telling event : List (Moment ρ α)), moment.Within limit base :=
  within_ofActs (by simp) _

lemma Truncated.shallow {moments : List (Moment ρ α)} {halt : Option Halt}
    (h : Truncated limit base moments halt)
    (unbroken : ∀ tag, halt ≠ some (.failed (.tooDeep limit tag))) :
    ∀ moment ∈ moments, moment.Within limit base := by
  cases h with
  | within shallow => exact shallow
  | tooDeep shallow depth => exact absurd rfl (unbroken _)

lemma Truncated.prepend {before moments : List (Moment ρ α)} {halt : Option Halt}
    (hbefore : ∀ moment ∈ before, moment.Within limit base)
    (h : Truncated limit base moments halt) :
    Truncated limit base (before ++ moments) halt := by
  cases h with
  | within shallow => exact .within (List.forall_mem_append.2 ⟨hbefore, shallow⟩)
  | tooDeep shallow depth =>
    rw [← List.append_assoc]
    exact .tooDeep (List.forall_mem_append.2 ⟨hbefore, shallow⟩) depth

lemma Truncated.map_below (number slot : Nat) {moments : List (Moment ρ α)} {halt : Option Halt}
    (h : Truncated limit (base + 1) moments halt) :
    Truncated limit base (moments.map (Moment.below number slot)) halt := by
  have hbelow : ∀ {moments : List (Moment ρ α)},
      (∀ moment ∈ moments, moment.Within limit (base + 1)) →
      ∀ moment ∈ moments.map (Moment.below number slot), moment.Within limit base := by
    intro moments hmoments
    simpa only [List.forall_mem_map, within_below_iff] using hmoments
  cases h with
  | within shallow => exact .within (hbelow shallow)
  | @tooDeep before spot node shallow depth =>
    rw [List.map_append]
    refine .tooDeep (hbelow shallow) ?_
    rw [depth_below]
    omega

end Moment

section Truncated

open Moment

variable {limit : Nat}

/-- The trails of a node end where they get beyond the limit. -/
structure Limited (limit base : Nat)
    (trail : Nat → Tree ρ α → List (Moment ρ α) → Fate (Tree ρ α) → Prop) : Prop where
  truncated : ∀ {number node moments fate}, trail number node moments fate →
    Truncated limit base moments fate.why?

lemma ListTrail.truncated {base : Nat}
    {trail : Nat → Tree ρ α → List (Moment ρ α) → Fate (Tree ρ α) → Prop}
    (h : Limited limit base trail) {slot : String} {emitted : Nat}
    {nodes items : List (Tree ρ α)} {moments : List (Moment ρ α)} {halt : Option Halt}
    (htrail : ListTrail trail slot emitted nodes moments items halt) :
    Truncated limit base moments halt := by
  induction htrail with
  | nil emitted => exact .within (by simp)
  | cons visited part others ih =>
    have hvisited := h.truncated visited
    rw [Fate.why?_of_contribution part] at hvisited
    exact ih.prepend (List.forall_mem_append.2 ⟨hvisited.shallow nofun, within_telling _⟩)
  | halt visited => exact h.truncated visited

section Slots

variable {base : Nat}
  {trail : Place ρ → Nat → Tree ρ α → List (Moment ρ α) → Fate (Tree ρ α) → Prop}

lemma ContentTrail.truncated (h : ∀ place, Limited limit base (trail place)) {rule : Rule ρ}
    {content left : Content α (Tree ρ α)} {moments : List (Moment ρ α)} {halt : Option Halt}
    (htrail : ContentTrail trail rule content moments left halt) :
    Truncated limit base moments halt := by
  cases htrail with
  | vacant | value => exact .within (by simp)
  | kept visited | spliced visited | halt visited => exact (h _).truncated visited
  | cleared visited =>
    have hvisited := (h _).truncated visited
    exact .within (List.forall_mem_append.2 ⟨hvisited.shallow nofun, within_telling _⟩)
  | list walked => exact ListTrail.truncated (h ⟨.list, rule⟩) walked

lemma SlotsTrail.truncated (h : ∀ place, Limited limit (base + 1) (trail place))
    {number slot : Nat} {slots items : List (Slot ρ α (Tree ρ α))} {moments : List (Moment ρ α)}
    {halt : Option Halt} (htrail : SlotsTrail trail number slot slots moments items halt) :
    Truncated limit base moments halt := by
  induction htrail with
  | nil slot => exact .within (by simp)
  | @cons slot rule content left rest items moments more halt walked others ih =>
    have hwalked := (walked.truncated h).map_below number slot
    exact ih.prepend (hwalked.shallow nofun)
  | halt walked => exact (walked.truncated h).map_below _ _

end Slots

variable [Admission ρ α] {options : Options} {count : Nat}

omit [Admission ρ α] in
/-- A node that is not beyond the limit is within it. -/
lemma Options.le_of_exceededAt_eq_none (limited : options.maxDepth = some limit) {depth : Nat}
    (allowed : options.exceededAt depth = none) : depth ≤ limit :=
  Nat.le_of_not_lt fun beyond =>
    nomatch allowed.symm.trans (exceededAt_eq_some_iff.2 ⟨limited, beyond⟩)

lemma VisitTrail.truncated (limited : options.maxDepth = some limit) {depth : Nat}
    (hdepth : depth ≤ limit + 1)
    {below : Place ρ → Nat → Tree ρ α → List (Moment ρ α) → Fate (Tree ρ α) → Prop}
    (h : depth ≤ limit → ∀ place, Limited limit (depth + 1) (below place)) (place : Place ρ) :
    Limited limit depth (VisitTrail options count below depth place) := by
  constructor
  intro number node moments fate htrail
  -- Below the limit the node in hand is within it.
  have hallowed : options.exceededAt depth = none → depth ≤ limit :=
    Options.le_of_exceededAt_eq_none limited
  have hreached : depth ≤ limit →
      (Moment.reached (.here place number) node).Within limit depth := by
    rintro hle spot ⟨⟩
    exact hle
  have hacts : depth ≤ limit → ∀ acts : List (Act ρ α),
      ∀ moment ∈ ofActs (some (.here place number)) acts, moment.Within limit depth := by
    intro hle
    exact within_ofActs fun spot hspot => by
      obtain rfl := Option.mem_some.1 hspot
      exact hle
  cases htrail with
  | @tooDeep limit' exceeded =>
    obtain ⟨limited', beyond⟩ := Options.exceededAt_eq_some_iff.1 exceeded
    obtain rfl : limit = limit' := Option.some.inj (limited.symm.trans limited')
    have hnone : ∀ moment ∈ ([] : List (Moment ρ α)), moment.Within limit depth := by simp
    exact .tooDeep hnone (Nat.le_antisymm hdepth beyond)
  | walked allowed entered descended left =>
    have hle := hallowed allowed
    have hslots := (descended.truncated (h hle)).shallow nofun
    refine .within (List.forall_mem_cons.2 ⟨hreached hle, ?_⟩)
    exact List.forall_mem_append.2 ⟨List.forall_mem_append.2 ⟨hacts hle _, hslots⟩, hacts hle _⟩
  | @broken mid slots acts moments why allowed entered descended =>
    have hle := hallowed allowed
    have hbefore := List.forall_mem_cons.2 ⟨hreached hle, hacts hle acts⟩
    exact (descended.truncated (h hle)).prepend hbefore
  | skipped allowed entered left =>
    have hle := hallowed allowed
    refine .within (List.forall_mem_cons.2 ⟨hreached hle, ?_⟩)
    exact List.forall_mem_append.2 ⟨hacts hle _, hacts hle _⟩
  | settled allowed entered proceeds skips =>
    have hle := hallowed allowed
    exact .within (List.forall_mem_cons.2 ⟨hreached hle, hacts hle _⟩)

/-- A node that is at most one level too deep is visited. -/
theorem NodeTrail.truncated (limited : options.maxDepth = some limit) (room : Nat) {depth : Nat}
    (hdepth : depth ≤ limit + 1) (place : Place ρ) :
    Limited (α := α) limit depth (NodeTrail options count room depth place) := by
  induction room generalizing depth place with
  | zero =>
    constructor
    rintro number node moments fate ⟨rfl, rfl⟩
    exact .within (by simp)
  | succ room ih =>
    exact VisitTrail.truncated limited hdepth (fun hle place => ih (by omega) place) place

/-- A traversal that fails because a node is too deep. It ends when it comes to the first such node,
before the visitors are shown the sequence again. -/
theorem TraversalTrail.of_tooDeep (limited : options.maxDepth = some limit) {room reported : Nat}
    {tag : String} {nodes items : List (Tree ρ α)} {trail : List (Moment ρ α)}
    (htrail : TraversalTrail options count room nodes trail items
      (some (.failed (.tooDeep reported tag)))) :
    reported = limit ∧
      (∀ index name final reply, .sequence index name .after final reply ∉ acts trail) ∧
      ∃ before spot node,
        trail = before ++
          [.reached spot node, .acted (some spot) (.event (.tooDeep limit node.tag))] ∧
        node.tag = tag ∧ spot.address.depth = limit + 1 ∧
        (∀ moment ∈ before, moment.Within limit 0) ∧
        Moment.replay options before (.list nodes) = .list items := by
  obtain ⟨-, hfailed, -⟩ := htrail.outcome
  obtain ⟨fault, hlast⟩ := hfailed _ rfl
  have hreplay := htrail.replay
  cases htrail with
  | unready shown => cases shown.hook_error
  | unfinished shown walked shownAgain => cases shownAgain.hook_error
  | @broken start _ acts moments _ shown walked unstopped =>
    have hfront : ∀ moment ∈ (telling (some (.started nodes.length count)) ++ ofActs none acts :
        List (Moment ρ α)), moment.Within limit 0 :=
      List.forall_mem_append.2 ⟨within_telling _, within_ofActs (by simp) acts⟩
    have hquiet : ∀ index name final reply, .sequence index name .after final reply ∉
        Moment.acts (telling (some (.started nodes.length count)) ++ ofActs none acts ++
          moments) := by
      intro index name final reply
      have hshown : ∀ act ∈ acts, act ≠ .sequence index name .after final reply :=
        shown.forall_showing (by simp) (by simp)
      have hrun := ListTrail.run_acts (NodeRun.trodden room 0 .topLevel) walked
      have hwalked : ∀ act ∈ Moment.acts moments, act ≠ .sequence index name .after final reply :=
        TopRun.forall_walking (by simp) (by simp) hrun
      simp only [acts_append, acts_telling, acts_ofActs, List.mem_append, not_or]
      exact ⟨⟨by simp [Act.telling], fun hmem => hshown _ hmem rfl⟩, fun hmem => hwalked _ hmem rfl⟩
    have htruncated :=
      ListTrail.truncated (NodeTrail.truncated limited room (Nat.zero_le _) .topLevel) walked
    cases htruncated with
    | within shallow =>
      obtain ⟨before, moment, told, htrail, -, fails, -⟩ := hlast
      cases fails with
      | @tooDeep spot node _ limited' beyond =>
        obtain rfl : limit = reported := Option.some.inj (limited.symm.trans limited')
        have hmem : .reached spot node ∈ telling (some (.started nodes.length count)) ++
            ofActs none acts ++ moments := htrail ▸ List.mem_append_right _ List.mem_cons_self
        have hwithin := List.forall_mem_append.2 ⟨hfront, shallow⟩ _ hmem spot rfl
        omega
    | @tooDeep before spot node shallow depth =>
      refine ⟨rfl, hquiet, _ ++ before, spot, node, (List.append_assoc _ _ _).symm, rfl, by omega,
        List.forall_mem_append.2 ⟨hfront, shallow⟩, ?_⟩
      rw [← List.append_assoc, replay_append] at hreplay
      exact hreplay

end Truncated

namespace Walker

/-- The walker with another depth limit, or with none. -/
def limited (limit : Option Nat) (walker : Walker ρ α σ) : Walker ρ α σ :=
  { walker with options := { walker.options with maxDepth := limit } }

variable (walker : Walker ρ α σ)

/-- The limit plays no part in what the visitors do. -/
lemma doesAll_limited {limit : Option Nat} {acts : List (Act ρ α)} {state final : σ} :
    (walker.limited limit).DoesAll acts state final ↔ walker.DoesAll acts state final :=
  walker.doesAll_withOptions _

variable [Admission ρ α]

/-- The limit plays no part when visitors are asked. -/
lemma consultFrom_limited (limit : Option Nat) (hook : NodeHook) (place : Place ρ) (index : Nat)
    (visitors : List (Registration ρ α σ)) (node : Tree ρ α) (state : σ) :
    (walker.limited limit).consultFrom hook place index visitors node state =
      walker.consultFrom hook place index visitors node state := by
  induction visitors generalizing index node state with
  | nil => rfl
  | cons visitor rest ih =>
    have hconsult : (walker.limited limit).consult hook place index visitor node state =
        walker.consult hook place index visitor node state := rfl
    simp only [consultFrom, hconsult, ih]

lemma consultAll_limited (limit : Option Nat) (hook : NodeHook) (place : Place ρ)
    (node : Tree ρ α) (state : σ) :
    (walker.limited limit).consultAll hook place node state =
      walker.consultAll hook place node state :=
  walker.consultFrom_limited limit hook place 0 walker.visitors node state

omit [Admission ρ α] in
lemma showAll_limited (limit : Option Nat) (hook : SequenceHook) (nodes : List (Tree ρ α))
    (state : σ) :
    (walker.limited limit).showAll hook nodes state = walker.showAll hook nodes state :=
  walker.showAll_withOptions _ hook nodes state

omit [Admission ρ α] in
lemma recorded_limited (limit : Option Nat) :
    (walker.limited limit).recorded = walker.recorded.limited limit :=
  rfl

/-- The walkers that write down their acts, under two limits. Once the first one has met with a node
that is too deep, all that it did before is done by the other one, too. -/
def truncation {limit : Nat} {limit' : Option Nat} (looser : ∀ other ∈ limit', limit ≤ other) :
    Tandem (walker.limited (some limit)).recorded (walker.limited limit').recorded where
  toTies := .same fun why state state' => ∃ tag front, why = .failed (.tooDeep limit tag) ∧
    state.2 = front ++ [.event (.tooDeep limit tag)] ∧ front <+: state'.2
  rooms := fun room room' depth => depth + room = limit + 2 ∧ 0 < room ∧ room ≤ room'
  starts := by
    rintro nodes state _ rfl
    exact Eq.refl _
  tells := by
    rintro event state _ - rfl
    rfl
  shows := by
    rintro hook nodes state _ rfl
    rw [recorded_limited, recorded_limited, showAll_limited, showAll_limited]
    exact Ties.Sweeps.self _
  asks := by
    rintro hook place node state _ rfl
    rw [recorded_limited, recorded_limited, consultAll_limited, consultAll_limited]
    exact Ties.Asks.self _
  stops := Ties.same_stops
  unstopped := by
    rintro state state' ⟨_, _, hwhy, -⟩
    cases hwhy
  stays := by
    rintro why act state ⟨state', acts⟩ ⟨final, acts'⟩ ⟨tag, front, hwhy, hacts, hprefix⟩ hdoes
    obtain ⟨rfl, -⟩ := (does_recorded_iff _).1 hdoes
    exact ⟨tag, front, hwhy, hacts, hprefix.trans (List.prefix_append acts [act])⟩
  tooDeep := by
    rintro depth limit' tag state _ exceeded rfl
    obtain ⟨limited, -⟩ := Options.exceededAt_eq_some_iff.1 exceeded
    obtain rfl : limit = limit' := Option.some.inj limited
    exact .inr ⟨tag, state.2, rfl, rfl, List.prefix_refl _⟩
  descends := by
    rintro room room' depth ⟨hdepth, -, hroom⟩ allowed
    have hle : depth ≤ limit := Nat.le_of_not_lt fun hlt => by
      have hexceeded : (walker.limited (some limit)).options.exceededAt depth = some limit :=
        Options.exceededAt_eq_some_iff.2 ⟨rfl, hlt⟩
      exact nomatch allowed.symm.trans hexceeded
    refine ⟨Option.eq_none_iff_forall_ne_some.2 fun other exceeded => ?_, by omega⟩
    obtain ⟨limited, beyond⟩ := Options.exceededAt_eq_some_iff.1 exceeded
    have hlimit := looser other limited
    omega
  noRoom := by
    rintro room' depth state state' ⟨-, hpos, -⟩
    exact absurd hpos (Nat.lt_irrefl 0)
  someRoom := by
    rintro room depth ⟨-, -, hle⟩
    exact absurd hle (Nat.not_succ_le_zero room)

/-- The walker beside itself, with more room for levels. -/
def widening : Tandem walker walker where
  toTies := .same fun why _ _ => why = .overflowed
  rooms := fun room room' _ => room ≤ room'
  starts := by
    rintro nodes state _ rfl
    exact Eq.refl _
  tells := by
    rintro event state _ - rfl
    exact Eq.refl _
  shows := by
    rintro hook nodes state _ rfl
    exact Ties.Sweeps.self _
  asks := by
    rintro hook place node state _ rfl
    exact Ties.Asks.self _
  stops := Ties.same_stops
  unstopped := nofun
  stays := by
    rintro why act state state' final hwhy -
    exact hwhy
  tooDeep := by
    rintro depth limit tag state _ exceeded rfl
    exact .inl ⟨exceeded, rfl, rfl⟩
  descends := fun hrooms allowed => ⟨allowed, Nat.le_of_succ_le_succ hrooms⟩
  noRoom := fun _ _ => .inr rfl
  someRoom := fun hrooms => absurd hrooms (Nat.not_succ_le_zero _)

/-- More room for levels makes no difference to a traversal that does not run out of it. -/
theorem traverse_of_room {stack stack' : Nat} (hroom : walker.room stack ≤ walker.room stack')
    (nodes : List (Tree ρ α)) (state : σ)
    (returned : (walker.traverse stack nodes state).halt ≠ some .overflowed) :
    walker.traverse stack' nodes state = walker.traverse stack nodes state := by
  rcases (walker.widening.traverse hroom nodes rfl).eq_or_parted with heq | ⟨why, hwhy, hparted⟩
  · exact heq
  · obtain rfl : why = .overflowed := hparted
    exact absurd hwhy returned

section Limits

variable {limit : Nat} {limit' : Option Nat} {stack : Nat} {nodes : List (Tree ρ α)} {state : σ}

/-- Under the tighter limit the traversal is the same, or it has come to a node that is too deep and
all that it did before is done under the looser limit, too. -/
lemma traverse_truncated (looser : ∀ other ∈ limit', limit ≤ other)
    (enough : limit' = none → limit + 2 ≤ stack ∨
      ((walker.limited limit').traverse stack nodes state).halt ≠ some .overflowed) :
    let short := walker.limited (some limit)
    let long := walker.limited limit'
    (long.traverse stack nodes state = short.traverse stack nodes state ∧
        long.acts stack nodes state = short.acts stack nodes state) ∨
      ∃ tag front, (short.traverse stack nodes state).halt = some (.failed (.tooDeep limit tag)) ∧
        short.acts stack nodes state = front ++ [.event (.tooDeep limit tag)] ∧
        front <+: long.acts stack nodes state := by
  intro short long
  -- A stack that has the room, on which the traversal under the looser limit is the same.
  obtain ⟨stack', hroom, hlong⟩ : ∃ stack', limit + 2 ≤ long.room stack' ∧
      long.recorded.traverse stack' nodes (state, []) =
        long.recorded.traverse stack nodes (state, []) := by
    cases hlimit : limit' with
    | some other =>
      subst hlimit
      exact ⟨stack, Nat.add_le_add_right (looser other rfl) 2, rfl⟩
    | none =>
      subst hlimit
      rcases enough rfl with hle | returned
      · exact ⟨stack, hle, rfl⟩
      · rcases Nat.le_total (limit + 2) stack with hle | hle
        · exact ⟨stack, hle, rfl⟩
        · rw [traverse_eq_recorded] at returned
          have hroom : (walker.limited none).recorded.room stack ≤
              (walker.limited none).recorded.room (limit + 2) := hle
          exact ⟨limit + 2, Nat.le_refl _, traverse_of_room _ hroom nodes (state, []) returned⟩
  have hrooms : (walker.truncation looser).rooms (short.room stack) (long.room stack') 0 :=
    ⟨Nat.zero_add _, Nat.succ_pos _, hroom⟩
  rcases ((walker.truncation looser).traverse hrooms nodes rfl).eq_or_parted with
    heq | ⟨why, hwhy, tag, front, rfl, hacts, hprefix⟩
  · exact .inl (eq_of_recorded_eq (hlong.symm.trans heq))
  · rw [hlong] at hprefix
    refine .inr ⟨tag, front, ?_, hacts, hprefix⟩
    rw [traverse_eq_recorded]
    exact hwhy

end Limits

end Walker

/-- The traverser with another depth limit, or with none. -/
def Traverser.limited (limit : Option Nat) (traverser : Traverser) : Traverser :=
  { traverser with options := { traverser.options with maxDepth := limit } }

namespace Traverser

variable {V : Type} [Admission ρ α]

/-- The depth limit of a traverser only truncates. The visitors may themselves start traversals of
this traverser, which then has the same limit. If a traversal does not come to a node that is too
deep, it is the same under a looser limit or under none, provided that the stack has room. If it
does, it ends with an error that tells of the first such node, just beyond the limit. Until then no
visitor is called with a node beyond the limit, all is done that is done under the looser limit, and
what is left is the forest as it was at that moment. -/
theorem nest_limited {limit : Nat} {limit' : Option Nat}
    (looser : ∀ other ∈ limit', limit ≤ other) (traverser : Traverser)
    {behaviour other : Behaviour ρ α V}
    (exchanges : behaviour.Exchanges (traverser.limited (some limit)) (traverser.limited limit')
      other) {stack nesting : Nat} {nodes : List (Tree ρ α)} {roster : Roster ρ α V}
    (enough : limit' = none → limit + 2 ≤ stack ∨
      (nest other stack (nesting + 1) (traverser.limited limit') nodes roster).halt ≠
        some .overflowed) :
    let short := (traverser.limited (some limit)).walker behaviour (nest behaviour stack nesting)
    let long := (traverser.limited limit').walker other (nest other stack nesting)
    let sweep := nest behaviour stack (nesting + 1) (traverser.limited (some limit)) nodes roster
    let sweep' := nest other stack (nesting + 1) (traverser.limited limit') nodes roster
    ((∀ reported tag, sweep.halt ≠ some (.failed (.tooDeep reported tag))) →
      sweep' = sweep ∧ long.acts stack nodes roster = short.acts stack nodes roster) ∧
    ∀ reported tag, sweep.halt = some (.failed (.tooDeep reported tag)) →
      reported = limit ∧
      (∀ index name final reply,
        .sequence index name .after final reply ∉ short.acts stack nodes roster) ∧
      (∃ front rest mid,
        short.acts stack nodes roster = front ++ [.event (.tooDeep limit tag)] ∧
        long.acts stack nodes roster = front ++ rest ∧ long.DoesAll front roster mid ∧
        sweep.state = mid.note (.event (.tooDeep limit tag)) ∧
        mid.journal.toList <+: sweep'.state.journal.toList) ∧
      ∀ trail, short.Leaves stack nodes roster trail → ∃ before spot node,
        trail = before ++
          [.reached spot node, .acted (some spot) (.event (.tooDeep limit node.tag))] ∧
        node.tag = tag ∧ spot.address.depth = limit + 1 ∧
        (∀ moment ∈ before, moment.Within limit 0) ∧
        Moment.replay short.options before (.list nodes) = .list sweep.items := by
  intro short long sweep sweep'
  have hvisitors : (traverser.limited limit').visitors =
      (traverser.limited (some limit)).visitors := rfl
  have hlong : long = short.limited limit' :=
    walker_exchange hvisitors exchanges stack nesting
  have hcases : (sweep' = sweep ∧ long.acts stack nodes roster = short.acts stack nodes roster) ∨
      ∃ tag front, sweep.halt = some (.failed (.tooDeep limit tag)) ∧
        short.acts stack nodes roster = front ++ [.event (.tooDeep limit tag)] ∧
        front <+: long.acts stack nodes roster := by
    rw [show sweep' = (short.limited limit').traverse stack nodes roster from hlong ▸ rfl, hlong]
    exact short.traverse_truncated looser (hlong ▸ enough)
  refine ⟨fun shallow => ?_, fun reported tag failed => ?_⟩
  · obtain hsame | ⟨tag, front, failed, -, -⟩ := hcases
    · exact hsame
    · exact absurd failed (shallow limit tag)
  · have hends : ∀ {trail}, short.Leaves stack nodes roster trail →
        TraversalTrail short.options short.visitors.length (short.room stack) nodes trail
          sweep.items (some (.failed (.tooDeep reported tag))) :=
      fun hleaves => failed ▸ hleaves.trodden
    obtain ⟨trail, hleaves⟩ := short.exists_leaves stack nodes roster
    obtain ⟨hreported, hquiet, before, spot, node, htrail, rfl, -⟩ := (hends hleaves).of_tooDeep rfl
    rw [hleaves.acts_eq] at hquiet
    refine ⟨hreported, hquiet, ?_, fun trail hleaves => ((hends hleaves).of_tooDeep rfl).2.2⟩
    obtain ⟨front, hacts, rest, hrest⟩ :
        ∃ front, short.acts stack nodes roster = front ++ [.event (.tooDeep limit node.tag)] ∧
          front <+: long.acts stack nodes roster := by
      obtain ⟨-, hsame⟩ | ⟨tag, front, failed', hacts, hprefix⟩ := hcases
      · have hacts : short.acts stack nodes roster =
            Moment.acts before ++ [.event (.tooDeep limit node.tag)] := by
          rw [← hleaves.acts_eq, htrail, Moment.acts_append]
          rfl
        refine ⟨Moment.acts before, hacts, ?_⟩
        rw [hsame, hacts]
        exact List.prefix_append _ _
      · rw [failed] at failed'
        cases failed'
        exact ⟨front, hacts, hprefix⟩
    obtain ⟨-, -, hshort⟩ := short.recorded_traverse stack nodes roster
    obtain ⟨-, -, hdoes⟩ := long.recorded_traverse stack nodes roster
    rw [hacts] at hshort
    rw [← hrest] at hdoes
    obtain ⟨mid, hfront, _, rfl, hstate⟩ := short.doesAll_append.1 hshort
    obtain ⟨mid', hfront', hlater⟩ := long.doesAll_append.1 hdoes
    have hmid : long.DoesAll front roster mid := hlong ▸ short.doesAll_limited.2 hfront
    obtain rfl := hmid.unique hfront'
    exact ⟨front, rest, mid, hacts, hrest.symm, hmid, hstate.symm,
      (nest_steps other stack nesting).doesAll_journal hlater⟩

/-- The limit and the tag, if a node was too deep. -/
def tooDeep? : Halt → Option (Nat × String)
  | .failed (.tooDeep limit tag) => some (limit, tag)
  | _ => none

/-- Whenever it is shown a node it starts a traversal of the node with a traverser of its own. -/
def nag (traverser : Traverser) : Behaviour Shape Unit Unit where
  name := fun _ => "nag"
  node := fun _ state node =>
    .traverse traverser [node] fun _ => .finish { state := state, node := node }

/-- Three nested blocks. -/
def nestedBlocks : Tree Shape Unit where
  tag := "Stmt_Block"
  slots := [⟨⟨"body", some .stmt⟩, .list [
    { tag := "Stmt_Block"
      slots := [⟨⟨"body", some .stmt⟩, .list [{ tag := "Stmt_Nop" }]⟩] }]⟩]

/-- Under a limit of one the traversal of three nested blocks ends when it comes to the innermost,
whatever the visitor starts from inside its hooks. -/
theorem nag_limited :
    let tight : Traverser := limited (some 1) { visitors := [0] }
    let loose : Traverser := limited none { visitors := [0] }
    let roster : Roster Shape Unit Unit := .ofList [()]
    let short := tight.walker (nag tight) (nest (nag tight) 4 1)
    let long := loose.walker (nag loose) (nest (nag loose) 4 1)
    ∃ front rest, short.acts 4 [nestedBlocks] roster = front ++ [.event (.tooDeep 1 "Stmt_Nop")] ∧
      long.acts 4 [nestedBlocks] roster = front ++ rest := by
  intro tight loose roster short long
  have exchanges : (nag tight).Exchanges tight loose (nag loose) :=
    ⟨fun _ => rfl, fun _ _ _ => .traverse (.inr ⟨rfl, rfl⟩) fun _ => .finish rfl,
      fun _ _ _ => .finish rfl⟩
  have enough : (none : Option Nat) = none → 1 + 2 ≤ 4 ∨
      (nest (nag loose) 4 2 loose [nestedBlocks] roster).halt ≠ some .overflowed :=
    fun _ => .inl (by decide)
  have looser : ∀ other ∈ (none : Option Nat), 1 ≤ other := by simp
  obtain ⟨-, hfails⟩ := nest_limited looser { visitors := [0] } exchanges enough
  have hhalt : (nest (nag tight) 4 2 tight [nestedBlocks] roster).halt.bind tooDeep? =
      some (1, "Stmt_Nop") := by
    decide +kernel
  obtain ⟨why, failed, hwhy⟩ := Option.bind_eq_some_iff.1 hhalt
  match why with
  | .failed (.tooDeep limit tag) =>
    cases hwhy
    obtain ⟨-, -, ⟨front, rest, -, hshort, hlong, -⟩, -⟩ := hfails 1 "Stmt_Nop" failed
    exact ⟨front, rest, hshort, hlong⟩
  | .stopped | .overflowed | .failed (.illegalDirective ..) | .failed (.visitorFailed ..) =>
    cases hwhy

end Traverser

end ForestWalk
