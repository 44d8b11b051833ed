import ForestWalk.Proofs.DepthLimit
import ForestWalk.Proofs.Nesting
import ForestWalk.Proofs.Strides
import ForestWalk.Proofs.Visits
import Mathlib.Algebra.GroupWithZero.Nat
/-!
When a traversal comes to an end. With a depth limit it does whatever its visitors do, as long as
each call of a visitor does. Without a limit it does if no call in which a node is entered makes
what is to be walked larger, and then as many nodes are visited at most as there are at the
beginning.

Two things are shown of runs. A run overflows only where a call does, if there is room for a node
and enough room below for what the node has once it was entered. And what is counted in a trail is
bounded by what is allowed for the nodes, if the allowance of a node covers its own share and what
is allowed for the children that it has once it was entered.
-/

namespace ForestWalk

variable {ρ α σ : Type}

section Overflow

variable {P : Act ρ α → Prop}

/-- In a run with enough room for the node the walk does not overflow. -/
structure Returning (P : Act ρ α → Prop) (enough : Tree ρ α → Prop)
    (run : Tree ρ α → List (Act ρ α) → Fate (Tree ρ α) → Prop) : Prop where
  ne_overflowed : ∀ {node acts fate}, run node acts fate → enough node → (∀ act ∈ acts, P act) →
    fate.why? ≠ some .overflowed

lemma ListRun.returning {enough : Tree ρ α → Prop}
    {run : Tree ρ α → List (Act ρ α) → Fate (Tree ρ α) → Prop} (h : Returning P enough run)
    {slot : String} {emitted : Nat} {nodes items : List (Tree ρ α)} {acts : List (Act ρ α)}
    {halt : Option Halt} (hrun : ListRun run slot emitted nodes acts items halt)
    (roomy : ∀ node ∈ nodes, enough node) (hacts : ∀ act ∈ acts, P act) :
    halt ≠ some .overflowed := by
  induction hrun with
  | nil emitted => nofun
  | cons visited part others ih =>
    exact ih (List.forall_mem_cons.1 roomy).2 (List.forall_mem_append.1 hacts).2
  | halt visited => exact h.ne_overflowed visited (List.forall_mem_cons.1 roomy).1 hacts

section Slots

variable {enough : Tree ρ α → Prop}
  {run : Place ρ → Tree ρ α → List (Act ρ α) → Fate (Tree ρ α) → Prop}

lemma ContentRun.returning (h : ∀ place, Returning P enough (run place)) {rule : Rule ρ}
    {content left : Content α (Tree ρ α)} {acts : List (Act ρ α)} {halt : Option Halt}
    (hrun : ContentRun run rule content acts left halt)
    (roomy : ∀ child ∈ content.children, enough child) (hacts : ∀ act ∈ acts, P act) :
    halt ≠ some .overflowed := by
  cases hrun with
  | vacant | value | kept | cleared | spliced => nofun
  | halt visited => exact (h _).ne_overflowed visited (roomy _ (List.mem_singleton_self _)) hacts
  | list walked => exact ListRun.returning (h _) walked roomy hacts

lemma SlotsRun.returning (h : ∀ place, Returning P enough (run place))
    {slots items : List (Slot ρ α (Tree ρ α))} {acts : List (Act ρ α)} {halt : Option Halt}
    (hrun : SlotsRun run slots acts items halt)
    (roomy : ∀ child ∈ slots.flatMap Slot.children, enough child) (hacts : ∀ act ∈ acts, P act) :
    halt ≠ some .overflowed := by
  induction hrun with
  | nil => nofun
  | cons walked others ih =>
    rw [List.flatMap_cons, List.forall_mem_append] at roomy
    exact ih roomy.2 (List.forall_mem_append.1 hacts).2
  | halt walked =>
    rw [List.flatMap_cons, List.forall_mem_append] at roomy
    exact walked.returning h roomy.1 hacts

end Slots

variable [Admission ρ α] {options : Options} {count : Nat}

/-- Asking visitors overflows only where a call does. -/
lemma ConsultRun.returning {hook : NodeHook} {place : Place ρ} {index : Nat} {node : Tree ρ α}
    {acts : List (Act ρ α)} {verdict : Verdict (Tree ρ α)}
    (hrun : ConsultRun options count hook place index node acts verdict)
    (returns : ∀ act ∈ acts, act.overflows = false) : verdict.why? ≠ some .overflowed := by
  induction hrun with
  | done node => nofun
  | pass inRange judged others ih =>
    exact ih (List.forall_mem_append.1 (List.forall_mem_cons.1 returns).2).2
  | settle inRange judged settled =>
    obtain ⟨left, directive, rfl, -, -, rfl, -⟩ | ⟨rfl, -, -⟩ | ⟨error, rfl, -⟩ :=
      options.judge_cases rfl judged
    · cases directive <;> nofun
    · cases (List.forall_mem_cons.1 returns).1
    · nofun

omit [Admission ρ α] in
lemma ShowRun.returning {hook : SequenceHook} {index : Nat} {nodes items : List (Tree ρ α)}
    {acts : List (Act ρ α)} {halt : Option Halt}
    (hrun : ShowRun count hook index nodes acts items halt)
    (returns : ∀ act ∈ acts, act.overflows = false) : halt ≠ some .overflowed := by
  induction hrun with
  | done nodes => nofun
  | pass inRange judged others ih =>
    exact ih (List.forall_mem_append.1 (List.forall_mem_cons.1 returns).2).2
  | @halt index name nodes items reply event why inRange judged =>
    have hreply := (List.forall_mem_cons.1 returns).1
    match reply with
    | .overflowed => cases hreply
    | .unavailable | .failed _ =>
      cases judged
      nofun
    | .answered none | .answered (some _) => cases judged

/-- What is enough room for a node at a depth: at least one level, and enough below for what the
node has once it was entered. Calls of which a property holds do not overflow. -/
structure Ample (options : Options) (count : Nat) (P : Act ρ α → Prop)
    (enough : Nat → Nat → Tree ρ α → Prop) : Prop where
  returns : ∀ {act}, P act → act.overflows = false
  pos : ∀ {room depth node}, enough room depth node → 0 < room
  below : ∀ {room depth place node mid acts}, enough (room + 1) depth node →
    options.exceededAt depth = none →
    ConsultRun options count .enter place 0 node acts (.proceed mid) → (∀ act ∈ acts, P act) →
    ∀ child ∈ mid.children, enough room (depth + 1) child

variable {enough : Nat → Nat → Tree ρ α → Prop}

lemma VisitRun.returning (ample : Ample options count P enough) {room depth : Nat}
    {below : Place ρ → Tree ρ α → List (Act ρ α) → Fate (Tree ρ α) → Prop}
    (h : ∀ place, Returning P (enough room (depth + 1)) (below place)) (place : Place ρ) :
    Returning P (enough (room + 1) depth) (VisitRun options count below depth place) := by
  constructor
  intro node acts fate hrun roomy hacts
  have hreturns := fun act hmem => ample.returns (hacts act hmem)
  cases hrun with
  | tooDeep exceeded => nofun
  | walked allowed entered descended left =>
    exact left.returning (List.forall_mem_append.1 hreturns).2
  | broken allowed entered descended =>
    obtain ⟨hentered, hbelow⟩ := List.forall_mem_append.1 hacts
    exact descended.returning h (ample.below roomy allowed entered hentered) hbelow
  | skipped allowed entered left => exact left.returning (List.forall_mem_append.1 hreturns).2
  | settled allowed entered proceeds skips => exact entered.returning hreturns

/-- Where there is enough room for a node the visit of it does not overflow. -/
theorem NodeRun.returning (ample : Ample options count P enough) (room depth : Nat)
    (place : Place ρ) :
    Returning P (enough room depth) (NodeRun options count room depth place) := by
  induction room generalizing depth place with
  | zero =>
    constructor
    intro node acts fate hrun roomy
    exact absurd (ample.pos roomy) (Nat.lt_irrefl 0)
  | succ room ih => exact VisitRun.returning ample (fun place => ih (depth + 1) place) place

/-- A traversal that has enough room for the nodes it walks does not overflow. -/
theorem TraversalRun.returning (ample : Ample options count P enough) {room : Nat}
    {nodes items : List (Tree ρ α)} {acts : List (Act ρ α)} {halt : Option Halt}
    (hrun : TraversalRun options count room nodes acts items halt)
    (roomy : ∀ shown rest start, acts = .event (.started nodes.length count) :: shown ++ rest →
      ShowRun count .before 0 nodes shown start none → ∀ node ∈ start, enough room 0 node)
    (hacts : ∀ act ∈ acts, P act) : halt ≠ some .overflowed := by
  have hreturns := fun act hmem => ample.returns (hacts act hmem)
  cases hrun with
  | unready shown => exact shown.returning (List.forall_mem_cons.1 hreturns).2
  | broken shown walked unstopped =>
    have hwalk := (List.forall_mem_append.1 (List.forall_mem_cons.1 hacts).2).2
    exact ListRun.returning (NodeRun.returning ample room 0 .topLevel) walked
      (roomy _ _ _ rfl shown) hwalk
  | unfinished shown walked shownAgain =>
    exact shownAgain.returning (List.forall_mem_append.1 (List.forall_mem_cons.1 hreturns).2).2
  | finished => nofun

theorem Walker.traverse_returning {walker : Walker ρ α σ} {stack : Nat} {nodes : List (Tree ρ α)}
    {state : σ} (ample : Ample walker.options walker.visitors.length P enough)
    (roomy : ∀ node ∈ (walker.opening nodes state).items, enough (walker.room stack) 0 node)
    (hacts : ∀ act ∈ walker.acts stack nodes state, P act) :
    ∃ result, (walker.traverse stack nodes state).result = some result := by
  obtain ⟨-, hrun, -⟩ := walker.recorded_traverse stack nodes state
  have hstart : ∀ shown rest start, walker.acts stack nodes state =
      .event (.started nodes.length walker.visitors.length) :: shown ++ rest →
      ShowRun walker.visitors.length .before 0 nodes shown start none →
      ∀ node ∈ start, enough (walker.room stack) 0 node := by
    intro shown rest start hsplit hshown
    obtain ⟨final, hopen, -⟩ := exists_opening_eq hshown hsplit
    rwa [hopen] at roomy
  have hhalt := hrun.returning ample hstart hacts
  exact Option.ne_none_iff_exists'.1 fun hnone => hhalt (Sweep.result_eq_none_iff.1 hnone)

end Overflow

section Counting

open Moment

/-- A property that calls of visitors and arrivals may have, but nothing that is made known. -/
structure Countable (p : Moment ρ α → Bool) : Prop where
  below : ∀ number slot moment, p (Moment.below number slot moment) = p moment
  event : ∀ spot event, p (.acted spot (.event event)) = false

/-- Of the moments, so many at most have a property for each arrival, and a few more. -/
def Rationed (p : Moment ρ α → Bool) (rate bound : Nat) (moments : List (Moment ρ α)) : Prop :=
  moments.countP p ≤ rate * (arrivals moments).length + bound

section Rationed

variable {p : Moment ρ α → Bool} {rate bound more : Nat} {moments rest : List (Moment ρ α)}

lemma Rationed.append (h : Rationed p rate bound moments) (hrest : Rationed p rate more rest) :
    Rationed p rate (bound + more) (moments ++ rest) := by
  simp only [Rationed, List.countP_append, arrivals_append, List.length_append, Nat.mul_add] at *
  omega

lemma Rationed.mono (h : Rationed p rate bound moments) (hle : bound ≤ more) :
    Rationed p rate more moments :=
  Nat.le_trans h (Nat.add_le_add_left hle _)

lemma rationed_nil : Rationed p rate bound ([] : List (Moment ρ α)) :=
  Nat.zero_le _

lemma Countable.countP_telling (countable : Countable p) (spot : Option (Spot ρ))
    (event : Option Event) : (ofActs spot (Act.telling event)).countP p = 0 := by
  cases event with
  | none => rfl
  | some event => simp [ofActs, Act.telling, countable.event]

lemma Countable.rationed_telling (countable : Countable p) (event : Option Event) :
    Rationed p rate 0 (telling event) := by
  simp [Rationed, telling, countable.countP_telling]

lemma Rationed.map_below (countable : Countable p) (number slot : Nat)
    (h : Rationed p rate bound moments) :
    Rationed p rate bound (moments.map (Moment.below number slot)) := by
  simpa [Rationed, List.countP_map, Function.comp_def, countable.below] using h

end Rationed

/-- What is allowed for the nodes that are yet to be walked when visitors were asked on entering a
node. -/
def Verdict.pledged (allowance : Tree ρ α → Nat) : Verdict (Tree ρ α) → Nat
  | .proceed mid => (mid.children.map allowance).sum
  | .skipChildren _ | .remove | .splice _ | .halt .. => 0

/-- What is allowed for a node covers the moments up to when the node was entered, the moments of
one more round in which visitors are asked, and what is allowed for the children that the node has
by then. -/
structure Ration [Admission ρ α] (options : Options) (count : Nat) (P : Act ρ α → Prop)
    (p : Moment ρ α → Bool) (rate round : Nat) (allowance : Tree ρ α → Nat) : Prop
    extends Countable p where
  reached : ∀ spot node, [Moment.reached spot node].countP p ≤ rate + allowance node
  entered : ∀ {place node acts verdict} (spot : Spot ρ),
    ConsultRun options count .enter place 0 node acts verdict → (∀ act ∈ acts, P act) →
    (.reached spot node :: ofActs (some spot) acts).countP p + round +
      verdict.pledged allowance ≤ rate + allowance node
  left : ∀ {place node acts verdict} (spot : Spot ρ),
    ConsultRun options count .leave place 0 node acts verdict →
    (ofActs (some spot) acts).countP p ≤ round
  shown : ∀ {hook nodes acts items halt}, ShowRun count hook 0 nodes acts items halt →
    (ofActs none acts : List (Moment ρ α)).countP p ≤ round

section Trails

variable {P : Act ρ α → Prop} {p : Moment ρ α → Bool} {rate round : Nat}
  {allowance : Tree ρ α → Nat}

/-- Of the moments in the trails of a node so many have the property as are allowed for it. -/
structure Thrifty (P : Act ρ α → Prop) (p : Moment ρ α → Bool) (rate : Nat)
    (allowance : Tree ρ α → Nat)
    (trail : Nat → Tree ρ α → List (Moment ρ α) → Fate (Tree ρ α) → Prop) : Prop where
  rationed : ∀ {number node moments fate}, trail number node moments fate →
    (∀ act ∈ acts moments, P act) → Rationed p rate (allowance node) moments

lemma ListTrail.rationed (countable : Countable p)
    {trail : Nat → Tree ρ α → List (Moment ρ α) → Fate (Tree ρ α) → Prop}
    (h : Thrifty P p rate allowance trail) {slot : String} {emitted : Nat}
    {nodes items : List (Tree ρ α)} {moments : List (Moment ρ α)} {halt : Option Halt}
    (htrail : ListTrail trail slot emitted nodes moments items halt)
    (hacts : ∀ act ∈ acts moments, P act) :
    Rationed p rate (nodes.map allowance).sum moments := by
  induction htrail with
  | nil emitted => exact rationed_nil
  | @cons emitted node rest given items fate moments more halt visited part others ih =>
    simp only [acts_append, List.forall_mem_append] at hacts
    have htold : Rationed p rate 0 (telling (fate.event slot emitted)) :=
      countable.rationed_telling _
    exact ((h.rationed visited hacts.1.1).append htold).append (ih hacts.2)
  | @halt emitted node left rest moments why visited =>
    refine (h.rationed visited hacts).mono ?_
    rw [List.map_cons, List.sum_cons]
    exact Nat.le_add_right _ _

section Slots

variable {trail : Place ρ → Nat → Tree ρ α → List (Moment ρ α) → Fate (Tree ρ α) → Prop}

lemma ContentTrail.rationed (countable : Countable p)
    (h : ∀ place, Thrifty P p rate allowance (trail place)) {rule : Rule ρ}
    {content left : Content α (Tree ρ α)} {moments : List (Moment ρ α)} {halt : Option Halt}
    (htrail : ContentTrail trail rule content moments left halt)
    (hacts : ∀ act ∈ acts moments, P act) :
    Rationed p rate (content.children.map allowance).sum moments := by
  cases htrail with
  | vacant | value => exact rationed_nil
  | kept visited | spliced visited | halt visited => exact (h _).rationed visited hacts
  | cleared visited =>
    simp only [acts_append, List.forall_mem_append] at hacts
    exact ((h _).rationed visited hacts.1).append (countable.rationed_telling _)
  | list walked => exact ListTrail.rationed countable (h _) walked hacts

lemma SlotsTrail.rationed (countable : Countable p)
    (h : ∀ place, Thrifty P p rate allowance (trail place)) {number slot : Nat}
    {slots items : List (Slot ρ α (Tree ρ α))} {moments : List (Moment ρ α)} {halt : Option Halt}
    (htrail : SlotsTrail trail number slot slots moments items halt)
    (hacts : ∀ act ∈ acts moments, P act) :
    Rationed p rate ((slots.flatMap Slot.children).map allowance).sum moments := by
  induction htrail with
  | nil slot => exact rationed_nil
  | @cons slot rule content left rest items moments more halt walked others ih =>
    simp only [acts_append, acts_map_below, List.forall_mem_append] at hacts
    have hfirst := (walked.rationed countable h hacts.1).map_below countable number slot
    rw [List.flatMap_cons, List.map_append, List.sum_append]
    exact hfirst.append (ih hacts.2)
  | @halt slot rule content left rest moments why walked =>
    rw [acts_map_below] at hacts
    have hfirst := (walked.rationed countable h hacts).map_below countable number slot
    rw [List.flatMap_cons, List.map_append, List.sum_append]
    exact hfirst.mono (Nat.le_add_right _ _)

end Slots

variable [Admission ρ α] {options : Options} {count : Nat}

lemma VisitTrail.thrifty (ration : Ration options count P p rate round allowance) {depth : Nat}
    {below : Place ρ → Nat → Tree ρ α → List (Moment ρ α) → Fate (Tree ρ α) → Prop}
    (h : ∀ place, Thrifty P p rate allowance (below place)) (place : Place ρ) :
    Thrifty P p rate allowance (VisitTrail options count below depth place) := by
  constructor
  intro number node moments fate htrail hacts
  cases htrail with
  | @tooDeep limit exceeded =>
    have hreached := ration.reached (.here place number) node
    have htold := ration.countP_telling (some (.here place number))
      (some (.tooDeep limit node.tag))
    simp only [Act.telling, Option.toList, List.map_cons, List.map_nil] at htold
    simp only [List.countP_singleton] at hreached
    simp only [Rationed, List.countP_cons, htold, arrivals_reached, arrivals_ofActs,
      List.length_singleton]
    omega
  | @walked mid slots enter last moments verdict allowed entered descended left =>
    simp only [acts_reached, acts_append, acts_ofActs, List.forall_mem_append] at hacts
    have hentered := ration.entered (.here place number) entered hacts.1.1
    have hbelow := descended.rationed ration.toCountable h hacts.1.2
    have hleft := ration.left (.here place number) left
    simp only [Verdict.pledged, Tree.children, List.countP_cons] at hentered
    simp only [Rationed, List.countP_cons, List.countP_append, arrivals_reached, arrivals_append,
      arrivals_ofActs, List.nil_append, List.append_nil, List.length_cons, Nat.mul_add,
      Nat.mul_one] at hbelow ⊢
    omega
  | @broken mid slots enter moments why allowed entered descended =>
    simp only [acts_reached, acts_append, acts_ofActs, List.forall_mem_append] at hacts
    have hentered := ration.entered (.here place number) entered hacts.1
    have hbelow := descended.rationed ration.toCountable h hacts.2
    simp only [Verdict.pledged, Tree.children, List.countP_cons] at hentered
    simp only [Rationed, List.countP_cons, List.countP_append, arrivals_reached, arrivals_append,
      arrivals_ofActs, List.nil_append, List.length_cons, Nat.mul_add, Nat.mul_one] at hbelow ⊢
    omega
  | @skipped mid enter last verdict allowed entered left =>
    simp only [acts_reached, acts_append, acts_ofActs, List.forall_mem_append] at hacts
    have hentered := ration.entered (.here place number) entered hacts.1
    have hleft := ration.left (.here place number) left
    simp only [List.countP_cons] at hentered
    simp only [Rationed, List.countP_cons, List.countP_append, arrivals_reached, arrivals_append,
      arrivals_ofActs, List.append_nil, List.length_singleton, Nat.mul_one]
    omega
  | @settled enter verdict allowed entered proceeds skips =>
    simp only [acts_reached, acts_ofActs] at hacts
    have hentered := ration.entered (.here place number) entered hacts
    simp only [List.countP_cons] at hentered
    simp only [Rationed, List.countP_cons, arrivals_reached, arrivals_ofActs, List.length_singleton,
      Nat.mul_one]
    omega

theorem NodeTrail.thrifty (ration : Ration options count P p rate round allowance)
    (room depth : Nat) (place : Place ρ) :
    Thrifty P p rate allowance (NodeTrail options count room depth place) := by
  induction room generalizing depth place with
  | zero =>
    constructor
    rintro number node moments fate ⟨rfl, -⟩ -
    exact rationed_nil
  | succ room ih => exact VisitTrail.thrifty ration (fun place => ih (depth + 1) place) place

lemma WalkTrail.rationed (ration : Ration options count P p rate round allowance) {room : Nat}
    {nodes items : List (Tree ρ α)} {moments : List (Moment ρ α)}
    (htrail : WalkTrail options count room nodes moments items)
    (hacts : ∀ act ∈ acts moments, P act) :
    Rationed p rate (nodes.map allowance).sum moments := by
  have hnodes := NodeTrail.thrifty ration room 0 .topLevel
  cases htrail with
  | through walked => exact ListTrail.rationed ration.toCountable hnodes walked hacts
  | stopped walked =>
    simp only [acts_append, List.forall_mem_append] at hacts
    exact (ListTrail.rationed ration.toCountable hnodes walked hacts.1).append
      (ration.rationed_telling _)

/-- The moments of a traversal are covered by what is allowed for the nodes that it walks, and by
one round at the beginning and one at the end. -/
theorem TraversalTrail.rationed (ration : Ration options count P p rate round allowance)
    {room bound : Nat} {nodes items : List (Tree ρ α)} {trail : List (Moment ρ α)}
    {halt : Option Halt} (htrail : TraversalTrail options count room nodes trail items halt)
    (hbound : ∀ shown rest start,
      acts trail = .event (.started nodes.length count) :: shown ++ rest →
      ShowRun count .before 0 nodes shown start none → (start.map allowance).sum ≤ bound)
    (hacts : ∀ act ∈ acts trail, P act) : Rationed p rate (bound + 2 * round) trail := by
  have hround : ∀ {hook nodes shown items halt}, ShowRun count hook 0 nodes shown items halt →
      Rationed p rate round (ofActs none shown : List (Moment ρ α)) := by
    intro hook nodes shown items halt hrun
    simpa [Rationed] using ration.shown hrun
  have hopening : ∀ {shown items halt}, ShowRun count .before 0 nodes shown items halt →
      Rationed p rate (0 + round)
        (telling (some (.started nodes.length count)) ++ ofActs none shown : List (Moment ρ α)) :=
    fun hrun => (ration.rationed_telling _).append (hround hrun)
  cases htrail with
  | unready shown => exact (hopening shown).mono (by omega)
  | @broken start _ first moments why shown walked unstopped =>
    have hstart := hbound first (acts moments) start (by simp [Act.telling]) shown
    simp only [acts_append, List.forall_mem_append] at hacts
    have hwalk := ListTrail.rationed ration.toCountable
      (NodeTrail.thrifty ration room 0 .topLevel) walked hacts.2
    exact ((hopening shown).append hwalk).mono (by omega)
  | @unfinished start mid _ first last moments why shown walked shownAgain =>
    have hstart := hbound first (acts moments ++ last) start (by simp [Act.telling]) shown
    simp only [acts_append, List.forall_mem_append] at hacts
    have hwalk := walked.rationed ration hacts.1.2
    exact (((hopening shown).append hwalk).append (hround shownAgain)).mono (by omega)
  | @finished start mid _ first last moments shown walked shownAgain =>
    have hstart := hbound first (acts moments ++ last ++ [.event (.finished items.length)]) start
      (by simp [Act.telling]) shown
    simp only [acts_append, List.forall_mem_append] at hacts
    have hwalk := walked.rationed ration hacts.1.1.2
    exact ((((hopening shown).append hwalk).append (hround shownAgain)).append
      (ration.rationed_telling _)).mono (by omega)

theorem Walker.Leaves.rationed {walker : Walker ρ α σ} {stack : Nat} {nodes : List (Tree ρ α)}
    {state : σ} {trail : List (Moment ρ α)} (h : walker.Leaves stack nodes state trail)
    (ration : Ration walker.options walker.visitors.length P p rate round allowance)
    (hacts : ∀ act ∈ walker.acts stack nodes state, P act) :
    Rationed p rate (((walker.opening nodes state).items.map allowance).sum + 2 * round)
      trail := by
  rw [← h.acts_eq] at hacts
  refine h.trodden.rationed ration (fun shown rest start hsplit hshown => ?_) hacts
  obtain ⟨final, hopen, -⟩ := exists_opening_eq hshown (h.acts_eq ▸ hsplit)
  exact Nat.le_of_eq (by rw [hopen])

end Trails

end Counting

section Limit

open Moment

variable [Admission ρ α] {options : Options} {count limit : Nat}

omit [Admission ρ α] in
/-- A walk that ends at the first node beyond the limit comes to no node that is deeper. -/
lemma Moment.Truncated.depth_le {base : Nat} {moments : List (Moment ρ α)} {halt : Option Halt}
    (h : Truncated limit base moments halt) :
    ∀ address ∈ arrivals moments, base + address.depth ≤ limit + 1 := by
  have hwithin : ∀ {moments : List (Moment ρ α)},
      (∀ moment ∈ moments, moment.Within limit base) →
      ∀ address ∈ arrivals moments, base + address.depth ≤ limit + 1 := by
    intro moments shallow address hmem
    obtain ⟨moment, hmoment, harrival⟩ := List.mem_filterMap.1 hmem
    cases moment with
    | acted => cases harrival
    | reached spot node =>
      cases harrival
      exact Nat.le_succ_of_le (shallow _ hmoment spot rfl)
  cases h with
  | within shallow => exact hwithin shallow
  | @tooDeep before spot node shallow depth =>
    rw [arrivals_append, List.forall_mem_append]
    exact ⟨hwithin shallow, List.forall_mem_singleton.2 (Nat.le_of_eq depth)⟩

/-- With a depth limit a traversal comes to no node that is more than one level too deep. -/
lemma TraversalTrail.depth_le (limited : options.maxDepth = some limit) {room : Nat}
    {nodes items : List (Tree ρ α)} {trail : List (Moment ρ α)} {halt : Option Halt}
    (htrail : TraversalTrail options count room nodes trail items halt) :
    ∀ address ∈ arrivals trail, address.depth ≤ limit + 1 := by
  have htop : ∀ {start mid : List (Tree ρ α)} {moments halt},
      TopTrail options count room start moments mid halt →
      ∀ address ∈ arrivals moments, address.depth ≤ limit + 1 := by
    intro start mid moments halt walked
    have htruncated :=
      ListTrail.truncated (NodeTrail.truncated limited room (Nat.zero_le _) .topLevel) walked
    simpa using htruncated.depth_le
  have hwalk : ∀ {start mid : List (Tree ρ α)} {moments},
      WalkTrail options count room start moments mid →
      ∀ address ∈ arrivals moments, address.depth ≤ limit + 1 := by
    intro start mid moments walked
    cases walked with
    | through walked => exact htop walked
    | stopped walked => simpa using htop walked
  cases htrail with
  | unready shown => simp
  | broken shown walked unstopped => simpa using htop walked
  | unfinished shown walked shownAgain => simpa using hwalk walked
  | finished shown walked shownAgain => simpa using hwalk walked

/-- The levels that a depth limit leaves are enough room. -/
lemma ample_of_limit (limited : options.maxDepth = some limit) :
    Ample options count (fun act : Act ρ α => act.overflows = false)
      fun room depth _ => 0 < room ∧ depth + room = limit + 2 := by
  refine ⟨id, And.left, ?_⟩
  intro room depth place node mid acts roomy allowed entered hacts child hchild
  have hle := Options.le_of_exceededAt_eq_none limited allowed
  omega

end Limit

section Calls

open Moment

/-- Whether a visitor is called. -/
def Moment.isCall : Moment ρ α → Bool
  | .reached _ _ => false
  | .acted _ act => act.isCall

lemma Moment.countP_isCall_ofActs (spot : Option (Spot ρ)) (acts : List (Act ρ α)) :
    (ofActs spot acts).countP isCall = acts.countP Act.isCall := by
  rw [ofActs, List.countP_map]
  rfl

lemma Moment.countP_isCall (moments : List (Moment ρ α)) :
    moments.countP isCall = (acts moments).countP Act.isCall := by
  induction moments with
  | nil => rfl
  | cons moment rest ih =>
    cases moment with
    | reached spot node => simpa [isCall] using ih
    | acted spot act =>
      rw [acts_acted, List.countP_cons, List.countP_cons, ih]
      rfl

lemma Act.countP_isCall_telling (event : Option Event) :
    (Act.telling event : List (Act ρ α)).countP Act.isCall = 0 := by
  cases event <;> rfl

variable {count : Nat}

/-- In one round each visitor is called once at most. -/
lemma ConsultRun.countP_isCall_le [Admission ρ α] {options : Options} {hook : NodeHook}
    {place : Place ρ} {index : Nat} {node : Tree ρ α} {acts : List (Act ρ α)}
    {verdict : Verdict (Tree ρ α)}
    (hrun : ConsultRun options count hook place index node acts verdict) :
    index + acts.countP Act.isCall ≤ count := by
  induction hrun with
  | done node => exact Nat.le_refl _
  | pass inRange judged others ih =>
    simp only [List.countP_cons, List.countP_append, Act.countP_isCall_telling, Act.isCall,
      if_true]
    omega
  | settle inRange judged settled =>
    simp only [List.countP_cons, Act.countP_isCall_telling, Act.isCall, if_true]
    omega

lemma ShowRun.countP_isCall_le {hook : SequenceHook} {index : Nat} {nodes items : List (Tree ρ α)}
    {acts : List (Act ρ α)} {halt : Option Halt}
    (hrun : ShowRun count hook index nodes acts items halt) :
    index + acts.countP Act.isCall ≤ count := by
  induction hrun with
  | done nodes => exact Nat.le_refl _
  | pass inRange judged others ih =>
    simp only [List.countP_cons, List.countP_append, Act.countP_isCall_telling, Act.isCall,
      if_true]
    omega
  | halt inRange judged =>
    simp only [List.countP_cons, Act.countP_isCall_telling, Act.isCall, if_true]
    omega

lemma countable_isCall : Countable (Moment.isCall : Moment ρ α → Bool) := by
  refine ⟨fun number slot moment => ?_, fun spot event => rfl⟩
  cases moment <;> rfl

/-- For each node that the walk comes to visitors are called in two rounds at most. -/
lemma ration_of_calls [Admission ρ α] (options : Options) (count : Nat) (P : Act ρ α → Prop) :
    Ration options count P Moment.isCall (2 * count) count fun _ => 0 := by
  refine { countable_isCall with reached := ?_, entered := ?_, left := ?_, shown := ?_ }
  · intro spot node
    exact Nat.zero_le _
  · intro place node acts verdict spot entered hacts
    have hround := entered.countP_isCall_le
    have hpledged : verdict.pledged (fun _ => 0) = 0 := by
      cases verdict <;> simp [Verdict.pledged]
    simp only [List.countP_cons, Moment.isCall, Moment.countP_isCall_ofActs, hpledged]
    simp only [Bool.false_eq_true, if_false]
    omega
  · intro place node acts verdict spot left
    have hround := left.countP_isCall_le
    rw [Moment.countP_isCall_ofActs]
    omega
  · intro hook nodes acts items halt shown
    have hround := shown.countP_isCall_le
    rw [Moment.countP_isCall_ofActs]
    omega

end Calls

section Sparing

/-- If the act is a call in which a node is entered, there are not more nodes in hand after it. -/
def Act.Sparing : Act ρ α → Prop
  | .node _ _ .enter shown reply => (reply.inHand shown).size ≤ shown.size
  | .node _ _ .leave _ _ | .event _ | .sequence .. => True

instance (act : Act ρ α) : Decidable act.Sparing :=
  match act with
  | .node _ _ .enter shown reply =>
    inferInstanceAs (Decidable ((reply.inHand shown).size ≤ shown.size))
  | .node _ _ .leave _ _ | .event _ | .sequence .. => inferInstanceAs (Decidable True)

variable [Admission ρ α] {options : Options} {count : Nat}

/-- A node does not become larger while it is entered. -/
lemma ConsultRun.size_le {place : Place ρ} {index : Nat} {node mid : Tree ρ α}
    {acts : List (Act ρ α)} {verdict : Verdict (Tree ρ α)}
    (hrun : ConsultRun options count .enter place index node acts verdict)
    (sparing : ∀ act ∈ acts, act.Sparing) (proceeds : verdict = .proceed mid) :
    mid.size ≤ node.size := by
  induction hrun with
  | done node =>
    cases proceeds
    exact Nat.le_refl _
  | @pass index name node next reply event acts verdict inRange judged others ih =>
    obtain ⟨hcall, hrest⟩ := List.forall_mem_cons.1 sparing
    have hnext : (reply.inHand node).size ≤ node.size := hcall
    rw [NodeReply.inHand_eq rfl judged] at hnext
    exact Nat.le_trans (ih (List.forall_mem_append.1 hrest).2 proceeds) hnext
  | settle inRange judged settled => exact absurd proceeds (settled _)

/-- As many levels as there are nodes are enough room, if the calls are sparing. -/
lemma ample_of_sparing :
    Ample options count (fun act : Act ρ α => act.overflows = false ∧ act.Sparing)
      fun room _ node => node.size ≤ room := by
  refine ⟨And.left, fun roomy => Nat.lt_of_lt_of_le (Tree.size_pos _) roomy, ?_⟩
  intro room depth place node mid acts roomy allowed entered hacts child hchild
  have hmid := entered.size_le (fun act hmem => (hacts act hmem).2) rfl
  have hbelow := Tree.size_lt_of_mem_children hchild
  omega

/-- If the calls are sparing, the walk comes to each node of a tree once at most, or to another in
its place. -/
lemma ration_of_sparing :
    Ration options count (fun act : Act ρ α => act.overflows = false ∧ act.Sparing)
      (fun moment => moment.arrival?.isSome) 0 0 Tree.size := by
  have hquiet : ∀ spot (acts : List (Act ρ α)),
      (Moment.ofActs spot acts).countP (fun moment => moment.arrival?.isSome) = 0 := by
    intro spot acts
    simp [Moment.ofActs, Moment.arrival?]
  refine { below := ?_, event := ?_, reached := ?_, entered := ?_, left := ?_, shown := ?_ }
  · intro number slot moment
    cases moment <;> rfl
  · intro spot event
    rfl
  · intro spot node
    rw [Nat.zero_add]
    exact Tree.size_pos node
  · intro place node acts verdict spot entered hacts
    rw [List.countP_cons, hquiet]
    cases verdict with
    | proceed mid =>
      have hmid := entered.size_le (fun act hmem => (hacts act hmem).2) rfl
      have hsize : mid.size = 1 + (mid.children.map Tree.size).sum := Tree.size_eq mid
      simp only [Moment.arrival?, Option.isSome_some, if_true, Verdict.pledged]
      omega
    | _ =>
      have hpos := Tree.size_pos node
      simp only [Moment.arrival?, Option.isSome_some, if_true, Verdict.pledged]
      omega
  · intro place node acts verdict spot left
    exact Nat.le_of_eq (hquiet _ _)
  · intro hook nodes acts items halt shown
    exact Nat.le_of_eq (hquiet _ _)

end Sparing

namespace Walker

open Moment

/-- With a depth limit a traversal comes to an end, whatever the visitors do with the nodes, as long
as each of their calls does. The walk comes to no node that is more than one level too deep. From
every arrival at a node on, the walk of the list that holds the node makes at most as many steps as
there are nodes in the list, at that moment, from this one on; so a list is walked in as many steps
at most as it has nodes when its walk begins. And for each node that the walk comes to, a visitor is
called twice at most, as it is before and after the walk. -/
theorem traverse_returns_of_limit [Admission ρ α] (walker : Walker ρ α σ) (stack : Nat)
    (nodes : List (Tree ρ α)) (state : σ) {limit : Nat}
    (limited : walker.options.maxDepth = some limit)
    (returns : ∀ act ∈ walker.acts stack nodes state, act.overflows = false) :
    (∃ result, (walker.traverse stack nodes state).result = some result) ∧
      ∀ trail, walker.Leaves stack nodes state trail →
        (∀ address ∈ arrivals trail, address.depth ≤ limit + 1) ∧
        (∀ before spot node after, trail = before ++ .reached spot node :: after →
          spot.address.number + spot.address.strides (arrivals (.reached spot node :: after)) ≤
            (spot.address.siblings (replay walker.options before (.list nodes))).length) ∧
        (walker.acts stack nodes state).countP Act.isCall ≤
          2 * walker.visitors.length * ((arrivals trail).length + 1) := by
  have hroom := walker.room_of_limit limited stack
  refine ⟨traverse_returning (ample_of_limit limited) (by simp [hroom]) returns, ?_⟩
  intro trail hleaves
  refine ⟨hleaves.trodden.depth_le limited, ?_, ?_⟩
  · rintro before spot node after rfl
    exact hleaves.strides_le
  · have hcalls := hleaves.rationed (ration_of_calls walker.options walker.visitors.length _)
      returns
    have hnone : ((walker.opening nodes state).items.map fun _ => 0).sum = 0 := by simp
    rw [Rationed, hnone, countP_isCall, hleaves.acts_eq] at hcalls
    rw [Nat.mul_add, Nat.mul_one]
    omega

/-- Replaces every node that is entered by a larger one, in which it stands twice. -/
def sprouting : Walker Shape Unit Unit :=
  .stateless { maxDepth := some 2 } "sprouting" fun hook node =>
    .answered node <|
      match hook with
      | .enter => .replace (bed "sprout" [node, node])
      | .leave => .keep

/-- However much there is to walk, the traversal ends at the first node that is too deep. -/
theorem sprouting_returns :
    let garden := [bed "a" [], bed "b" []]
    (∃ result, (sprouting.traverse 0 garden ()).result = some result) ∧
      (sprouting.acts 0 garden ()).countP Act.isCall = 4 ∧
      ∀ trail, sprouting.Leaves 0 garden () trail →
        ∀ address ∈ arrivals trail, address.depth ≤ 3 := by
  intro garden
  have returns : ∀ act ∈ sprouting.acts 0 garden (), act.overflows = false := by decide +kernel
  obtain ⟨hresult, htrails⟩ := sprouting.traverse_returns_of_limit 0 garden () rfl returns
  exact ⟨hresult, by decide +kernel, fun trail hleaves => (htrails trail hleaves).1⟩

/-- Without a depth limit, too, a traversal comes to an end if no call in which a node is entered
makes the node in hand larger. What visitors do when nodes are left plays no part: as many nodes are
visited at most as there are in the sequence that the visitors leave at the beginning. -/
theorem traverse_returns_of_sparing [Admission ρ α] (walker : Walker ρ α σ) (stack : Nat)
    (nodes : List (Tree ρ α)) (state : σ) (unlimited : walker.options.maxDepth = none)
    (returns : ∀ act ∈ walker.acts stack nodes state, act.overflows = false)
    (sparing : ∀ act ∈ walker.acts stack nodes state, act.Sparing)
    (roomy : ∀ node ∈ (walker.opening nodes state).items, node.size ≤ stack) :
    (∃ result, (walker.traverse stack nodes state).result = some result) ∧
      ∀ trail, walker.Leaves stack nodes state trail →
        (arrivals trail).length ≤ ((walker.opening nodes state).items.map Tree.size).sum := by
  have hacts := fun act hmem => And.intro (returns act hmem) (sparing act hmem)
  have hroom := walker.room_of_unlimited unlimited stack
  refine ⟨traverse_returning ample_of_sparing (by rwa [hroom]) hacts, ?_⟩
  intro trail hleaves
  have hvisits := hleaves.rationed ration_of_sparing hacts
  rw [Rationed, ← List.length_filterMap_eq_countP] at hvisits
  exact Nat.le_trans hvisits (by omega)

/-- Replaces a block by a smaller one on entering it, and grows others on leaving them. -/
def pruning : Walker Shape Unit Unit :=
  .stateless {} "pruning" fun hook node =>
    .answered node <|
      match hook, node.label with
      | .enter, some "a" => .replace (bed "d" [bed "e" []])
      | .leave, some "e" => .splice [bed "f" [bed "g" []], bed "h" [], node]
      | .leave, some "d" => .replace (bed "i" [node, node])
      | _, _ => .keep

/-- The nodes that are put in on leaving others are not visited. -/
theorem pruning_returns :
    let garden := [bed "a" [bed "b" [], bed "c" []], bed "e" []]
    (∃ result, (pruning.traverse 3 garden ()).result = some result) ∧
      ∀ trail, pruning.Leaves 3 garden () trail → (arrivals trail).length ≤ 4 := by
  intro garden
  have returns : ∀ act ∈ pruning.acts 3 garden (), act.overflows = false := by decide +kernel
  have sparing : ∀ act ∈ pruning.acts 3 garden (), act.Sparing := by decide +kernel
  have roomy : ∀ node ∈ (pruning.opening garden ()).items, node.size ≤ 3 := by decide +kernel
  obtain ⟨hresult, hvisits⟩ :=
    pruning.traverse_returns_of_sparing 3 garden () rfl returns sparing roomy
  have hsize : ((pruning.opening garden ()).items.map Tree.size).sum = 4 := by decide +kernel
  exact ⟨hresult, fun trail hleaves => hsize ▸ hvisits trail hleaves⟩

end Walker

end ForestWalk
