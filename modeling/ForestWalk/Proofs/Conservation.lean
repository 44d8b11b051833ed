import ForestWalk.Proofs.Visits
/-!
No node is lost and none comes twice. Each edit that is applied takes out the node that the visitor
was shown, with all that is below it, and puts in the nodes that it brought along. So what a
traversal leaves is what it started from and what was put in, less what was taken out, and each node
that is left is still itself.
-/

namespace ForestWalk

variable {ρ α σ ι : Type}

namespace Moment

section Edits

variable [Admission ρ α] (options : Options)

/-- The directive that is applied at a moment, being legal and accepted by the slot, and the node
that it is given for. -/
def applied? : Moment ρ α → Option (Tree ρ α × Directive (Tree ρ α))
  | .acted (some spot) (.node _ _ hook shown (.answered _ directive)) =>
    if directive.legal hook spot.place.position ∧
        (options.firstRefused spot.place.rule directive.carried).isNone then
      some (shown, directive)
    else none
  | _ => none

/-- The nodes that an edit puts in at a moment. -/
def gains (moment : Moment ρ α) : List (Tree ρ α) :=
  (moment.applied? options).elim [] fun (_, directive) => directive.carried

/-- The node that an edit takes out at a moment, with all that is below it. -/
def loses (moment : Moment ρ α) : List (Tree ρ α) :=
  (moment.applied? options).elim [] fun (shown, directive) =>
    if directive.isEdit then [shown] else []

/-- Moments at which so many nodes with a property are put in and taken out that their number goes
from the one to the other. What is taken out was there. -/
def Balance (p : Tree ρ α → Bool) : Nat → List (Moment ρ α) → Nat → Prop
  | held, [], final => held = final
  | held, moment :: rest, final => ∃ kept, held = kept + Tree.tally p (moment.loses options) ∧
    Balance p (kept + Tree.tally p (moment.gains options)) rest final

end Edits

variable [Admission ρ α] {options : Options} {p : Tree ρ α → Bool} {held mid final : Nat}
  {moments more : List (Moment ρ α)}

@[simp] theorem applied?_below (number slot : Nat) (moment : Moment ρ α) :
    (moment.below number slot).applied? options = moment.applied? options := by
  match moment with
  | .reached _ _ | .acted none _ | .acted (some _) (.event _) | .acted (some _) (.sequence ..)
  | .acted (some _) (.node _ _ _ _ .unavailable) | .acted (some _) (.node _ _ _ _ (.failed ..))
  | .acted (some _) (.node _ _ _ _ .overflowed)
  | .acted (some _) (.node _ _ _ _ (.answered ..)) => rfl

@[simp] theorem gains_below (number slot : Nat) (moment : Moment ρ α) :
    (moment.below number slot).gains options = moment.gains options := by
  simp only [gains, applied?_below]

@[simp] theorem loses_below (number slot : Nat) (moment : Moment ρ α) :
    (moment.below number slot).loses options = moment.loses options := by
  simp only [loses, applied?_below]

variable (options) in
/-- An act puts in all the nodes that come with it, or none. -/
lemma gains_acted (spot : Option (Spot ρ)) (act : Act ρ α) :
    (Moment.acted spot act).gains options = [] ∨
      (Moment.acted spot act).gains options = act.carried := by
  match spot, act with
  | none, _ | some _, .event _ | some _, .sequence .. | some _, .node _ _ _ _ .unavailable
  | some _, .node _ _ _ _ (.failed ..) | some _, .node _ _ _ _ .overflowed => exact .inl rfl
  | some spot, .node index name hook shown (.answered left directive) =>
    simp only [gains, applied?]
    split
    · exact .inr rfl
    · exact .inl rfl

lemma tally_gains_le (p : Tree ρ α → Bool) (trail : List (Moment ρ α)) :
    Tree.tally p (trail.flatMap (gains options)) ≤
      Tree.tally p ((acts trail).flatMap Act.carried) := by
  induction trail with
  | nil => exact Nat.le_refl _
  | cons moment rest ih =>
    cases moment with
    | reached spot node => exact ih
    | acted spot act =>
      rw [acts_acted, List.flatMap_cons, List.flatMap_cons, Tree.tally_append, Tree.tally_append]
      obtain hgains | hgains := gains_acted options spot act
      · rw [hgains, Tree.tally_nil]
        omega
      · rw [hgains]
        omega

namespace Balance

lemma append (h : Balance options p held moments mid) (hmore : Balance options p mid more final) :
    Balance options p held (moments ++ more) final := by
  induction moments generalizing held with
  | nil =>
    obtain rfl : held = mid := h
    exact hmore
  | cons moment rest ih =>
    obtain ⟨kept, hheld, hrest⟩ := h
    exact ⟨kept, hheld, ih hrest⟩

/-- Other nodes may stand by. -/
lemma add (h : Balance options p held moments final) (others : Nat) :
    Balance options p (held + others) moments (final + others) := by
  induction moments generalizing held with
  | nil => exact congrArg (· + others) h
  | cons moment rest ih =>
    obtain ⟨kept, hheld, hrest⟩ := h
    refine ⟨kept + others, by omega, ?_⟩
    have hlater := ih hrest
    rwa [Nat.add_right_comm] at hlater

lemma map_below (h : Balance options p held moments final) (number slot : Nat) :
    Balance options p held (moments.map (below number slot)) final := by
  induction moments generalizing held with
  | nil => exact h
  | cons moment rest ih =>
    obtain ⟨kept, hheld, hrest⟩ := h
    refine ⟨kept, by rwa [loses_below], ?_⟩
    rw [gains_below]
    exact ih hrest

/-- Where no directive is applied the number stays the same. -/
lemma of_quiet (h : ∀ moment ∈ moments, moment.applied? options = none) (held : Nat) :
    Balance options p held moments held := by
  induction moments with
  | nil => rfl
  | cons moment rest ih =>
    obtain ⟨hmoment, hrest⟩ := List.forall_mem_cons.1 h
    refine ⟨held, by simp [loses, hmoment], ?_⟩
    simpa [gains, hmoment] using ih hrest

lemma of_acts (h : ∀ act ∈ acts moments, act.callsNode = false) (held : Nat) :
    Balance options p held moments held := by
  refine of_quiet (fun moment hmem => ?_) held
  match moment with
  | .reached _ _ | .acted none _ | .acted (some _) (.event _)
  | .acted (some _) (.sequence ..) => rfl
  | .acted (some spot) (.node ..) => cases h _ (mem_acts.2 ⟨_, hmem⟩)

lemma telling (event : Option Event) (held : Nat) :
    Balance options p held (Moment.telling event) held :=
  of_acts (by rw [acts_telling]; exact forall_mem_telling fun _ _ => rfl) held

/-- There are no more in the end than there were and were put in. -/
lemma final_le (h : Balance options p held moments final) :
    final ≤ held + Tree.tally p (moments.flatMap (gains options)) := by
  induction moments generalizing held with
  | nil =>
    obtain rfl : held = final := h
    exact Nat.le_add_right _ _
  | cons moment rest ih =>
    obtain ⟨kept, hheld, hrest⟩ := h
    have hlater := ih hrest
    rw [List.flatMap_cons, Tree.tally_append]
    omega

omit [Admission ρ α] in
/-- An item that splits a list is the first, or it splits the rest. -/
lemma exists_split_cons {β : Type} {first : β} {rest : List β} {P : β → Prop}
    {Q : List β → Prop} :
    (∃ before item after, first :: rest = before ++ item :: after ∧ P item ∧ Q after) ↔
      (P first ∧ Q rest) ∨
      ∃ before item after, rest = before ++ item :: after ∧ P item ∧ Q after := by
  constructor
  · rintro ⟨_ | ⟨other, before⟩, item, after, hsplit, hitem, hafter⟩
    · obtain ⟨rfl, rfl⟩ := List.cons.inj hsplit
      exact .inl ⟨hitem, hafter⟩
    · obtain ⟨-, rfl⟩ := List.cons.inj hsplit
      exact .inr ⟨before, item, after, rfl, hitem, hafter⟩
  · rintro (⟨hfirst, hrest⟩ | ⟨before, item, after, rfl, hitem, hafter⟩)
    · exact ⟨[], first, rest, rfl, hfirst, hrest⟩
    · exact ⟨first :: before, item, after, rfl, hitem, hafter⟩

/-- Where there is one at most it is there in the end just if it was there, or was put in at some
moment, and was not taken out after that. -/
lemma pos_iff (h : Balance options p held moments final)
    (hone : held + Tree.tally p (moments.flatMap (gains options)) ≤ 1) :
    0 < final ↔
      (0 < held ∧ ∀ moment ∈ moments, Tree.tally p (moment.loses options) = 0) ∨
      ∃ before moment after, moments = before ++ moment :: after ∧
        0 < Tree.tally p (moment.gains options) ∧
        ∀ later ∈ after, Tree.tally p (later.loses options) = 0 := by
  induction moments generalizing held with
  | nil =>
    obtain rfl : held = final := h
    simp
  | cons moment rest ih =>
    obtain ⟨kept, hheld, hrest⟩ := h
    rw [List.flatMap_cons, Tree.tally_append] at hone
    rw [ih hrest (by omega), exists_split_cons]
    constructor
    · rintro (⟨hpos, hlater⟩ | hsplit)
      -- either the moment puts it in, or it was there and the moment does not take it out
      · by_cases hgains : 0 < Tree.tally p (moment.gains options)
        · exact .inr (.inl ⟨hgains, hlater⟩)
        · exact .inl ⟨by omega, List.forall_mem_cons.2 ⟨by omega, hlater⟩⟩
      · exact .inr (.inr hsplit)
    · rintro (⟨hpos, hloses⟩ | ⟨hgains, hlater⟩ | hsplit)
      · obtain ⟨hnone, hlater⟩ := List.forall_mem_cons.1 hloses
        exact .inl ⟨by omega, hlater⟩
      · exact .inl ⟨by omega, hlater⟩
      · exact .inr hsplit

end Balance

section Conserving

variable {identify : Tree ρ α → ι} {start left : List (Tree ρ α)}

variable (options) in
/-- The moments account for what has become of a forest: for every property the numbers of nodes
that have it balance. -/
def Conserve (start : List (Tree ρ α)) (moments : List (Moment ρ α)) (left : List (Tree ρ α)) :
    Prop :=
  ∀ p, Balance options p (Tree.tally p start) moments (Tree.tally p left)

/-- Identifiers that are distinct are found once at most. -/
lemma tally_le_one [DecidableEq ι]
    (distinct : (Tree.idents identify (start ++ moments.flatMap (gains options))).Nodup) (x : ι) :
    Tree.tally (fun husk => decide (identify husk = x)) start +
      Tree.tally (fun husk => decide (identify husk = x))
        (moments.flatMap (gains options)) ≤ 1 := by
  rw [← Tree.tally_append, ← Tree.count_idents]
  exact List.nodup_iff_count_le_one.1 distinct x

lemma Conserve.nodup (h : Conserve options start moments left)
    (distinct : (Tree.idents identify (start ++ moments.flatMap (gains options))).Nodup) :
    (Tree.idents identify left).Nodup := by
  classical
  refine List.nodup_iff_count_le_one.2 fun x => ?_
  rw [Tree.count_idents]
  exact Nat.le_trans (h _).final_le (tally_le_one distinct x)

lemma Conserve.mem_idents_iff (h : Conserve options start moments left)
    (distinct : (Tree.idents identify (start ++ moments.flatMap (gains options))).Nodup) (x : ι) :
    x ∈ Tree.idents identify left ↔
      (x ∈ Tree.idents identify start ∧
        ∀ moment ∈ moments, x ∉ Tree.idents identify (moment.loses options)) ∨
      ∃ before moment after, moments = before ++ moment :: after ∧
        x ∈ Tree.idents identify (moment.gains options) ∧
        ∀ later ∈ after, x ∉ Tree.idents identify (later.loses options) := by
  classical
  have hpos := (h _).pos_iff (tally_le_one distinct x)
  simpa only [Tree.mem_idents_iff, Nat.pos_iff_ne_zero, not_not] using hpos

/-- A node that is left was there at the start or was put in. -/
lemma Conserve.origin (h : Conserve options start moments left) {husk : Tree ρ α}
    (hleft : husk ∈ left.flatMap Tree.husks) :
    husk ∈ start.flatMap Tree.husks ∨
      ∃ moment ∈ moments, husk ∈ (moment.gains options).flatMap Tree.husks := by
  classical
  have hmem : ∀ forest, husk ∈ forest.flatMap Tree.husks ↔
      0 < Tree.tally (fun other => decide (other = husk)) forest := by
    intro forest
    simp only [Tree.tally, List.countP_pos_iff, decide_eq_true_eq, exists_eq_right]
  have hle := (h fun other => decide (other = husk)).final_le
  have hfinal := (hmem left).1 hleft
  by_cases hstart : husk ∈ start.flatMap Tree.husks
  · exact .inl hstart
  · have hnone := mt (hmem start).2 hstart
    have hgains := (hmem (moments.flatMap (gains options))).2 (by omega)
    rw [List.flatMap_assoc] at hgains
    exact .inr (List.mem_flatMap.1 hgains)

end Conserving

end Moment

section Walking

open Moment

variable [Admission ρ α] {options : Options} {count : Nat} {p : Tree ρ α → Bool}

/-- What a call makes of a node in hand is what is there without what is taken out, and with what is
put in. -/
lemma balance_call {hook : NodeHook} {index : Nat} {name : String} {spot : Spot ρ}
    {node : Tree ρ α} {reply : NodeReply ρ α} (still : reply.left node = node) :
    Balance options p (Tree.tally p [node])
      [.acted (some spot) (.node index name hook node reply)]
      (Tree.tally p (reply.outcome options hook spot.place node)) := by
  match reply with
  | .unavailable | .overflowed => exact ⟨_, rfl, rfl⟩
  | .failed left _ =>
    obtain rfl : left = node := still
    exact ⟨_, rfl, rfl⟩
  | .answered left directive =>
    obtain rfl : left = node := still
    by_cases happlied : directive.legal hook spot.place.position ∧
        (options.firstRefused spot.place.rule directive.carried).isNone
    · have hmoment : (Moment.acted (some spot)
          (.node index name hook left (.answered left directive))).applied? options =
          some (left, directive) :=
        if_pos happlied
      simp only [Balance, loses, gains, hmoment, NodeReply.outcome, if_pos happlied]
      cases directive with
      | keep | skipChildren | stop => exact ⟨_, rfl, rfl⟩
      | replace new => exact ⟨0, (Nat.zero_add _).symm, Nat.zero_add _⟩
      | remove => exact ⟨0, (Nat.zero_add _).symm, rfl⟩
      | splice new => exact ⟨0, (Nat.zero_add _).symm, Nat.zero_add _⟩
    · have hmoment : (Moment.acted (some spot)
          (.node index name hook left (.answered left directive))).applied? options = none :=
        if_neg happlied
      simp only [Balance, loses, gains, hmoment, NodeReply.outcome, if_neg happlied]
      exact ⟨_, rfl, rfl⟩

/-- Visitors are asked about a node. -/
lemma ConsultRun.balance {hook : NodeHook} {place : Place ρ} {index : Nat} {node : Tree ρ α}
    {acts : List (Act ρ α)} {verdict : Verdict (Tree ρ α)} (number : Nat)
    (hrun : ConsultRun options count hook place index node acts verdict)
    (still : ∀ act ∈ acts, act.Still) :
    Balance options p (Tree.tally p [node]) (ofActs (some (.here place number)) acts)
      (Tree.tally p verdict.fate.nodes) := by
  have htelling : ∀ (event : Option Event) held,
      Balance options p held (ofActs (some (.here place number)) (Act.telling event)) held := by
    intro event held
    refine Balance.of_acts ?_ held
    rw [acts_ofActs]
    exact forall_mem_telling fun _ _ => rfl
  have hcall : ∀ {index name} {node : Tree ρ α} {reply verdict event},
      options.judge hook place ⟨.node hook, index, name⟩ node reply = (verdict, event) →
      reply.left node = node →
      Balance options p (Tree.tally p [node])
        [.acted (some (.here place number)) (.node index name hook node reply)]
        (Tree.tally p verdict.fate.nodes) := by
    intro index name node reply verdict event judged still
    rw [← NodeReply.outcome_eq judged]
    exact balance_call still
  induction hrun with
  | done node => rfl
  | @pass index name node mid reply event acts verdict inRange judged others ih =>
    obtain ⟨hstill, hrest⟩ := List.forall_mem_cons.1 still
    have hlater := (htelling event _).append (ih (List.forall_mem_append.1 hrest).2)
    have hall := (hcall judged hstill).append hlater
    simpa [ofActs] using hall
  | @settle index name node reply event verdict inRange judged settled =>
    obtain ⟨hstill, -⟩ := List.forall_mem_cons.1 still
    have hall := (hcall judged hstill).append (htelling event _)
    simpa [ofActs] using hall

/-- In a trail of a node the numbers of nodes balance. -/
def Balances (options : Options) (p : Tree ρ α → Bool)
    (trail : Nat → Tree ρ α → List (Moment ρ α) → Fate (Tree ρ α) → Prop) : Prop :=
  ∀ {number node moments fate}, trail number node moments fate →
    (∀ act ∈ Moment.acts moments, act.Still) →
    Balance options p (Tree.tally p [node]) moments (Tree.tally p fate.nodes)

lemma ListTrail.balance {trail : Nat → Tree ρ α → List (Moment ρ α) → Fate (Tree ρ α) → Prop}
    (h : Balances options p trail) {slot : String} {emitted : Nat} {nodes items : List (Tree ρ α)}
    {moments : List (Moment ρ α)} {halt : Option Halt}
    (htrail : ListTrail trail slot emitted nodes moments items halt)
    (still : ∀ act ∈ Moment.acts moments, act.Still) :
    Balance options p (Tree.tally p nodes) moments (Tree.tally p items) := by
  induction htrail with
  | nil emitted => rfl
  | @cons emitted node rest given items fate moments more halt visited part others ih =>
    simp only [acts_append, List.forall_mem_append] at still
    -- while a node is visited the rest of the list stands by, and then what came of the node
    have hnode := h visited still.1.1
    rw [Fate.nodes_of_contribution part] at hnode
    have hrest := (ih still.2).add (Tree.tally p given)
    rw [Nat.add_comm, Nat.add_comm (Tree.tally p items)] at hrest
    rw [Tree.tally_cons, Tree.tally_append]
    exact ((hnode.add _).append (Balance.telling _ _)).append hrest
  | @halt emitted node left rest moments why visited =>
    rw [Tree.tally_cons, Tree.tally_cons p left]
    exact (h visited still).add _

section Slots

variable {trail : Place ρ → Nat → Tree ρ α → List (Moment ρ α) → Fate (Tree ρ α) → Prop}

lemma ContentTrail.balance (hredone : ∀ place, Redone options place (trail place))
    (h : ∀ place, Balances options p (trail place)) {rule : Rule ρ}
    {content left : Content α (Tree ρ α)} {moments : List (Moment ρ α)} {halt : Option Halt}
    (htrail : ContentTrail trail rule content moments left halt)
    (still : ∀ act ∈ Moment.acts moments, act.Still) :
    Balance options p (Tree.tally p content.children) moments (Tree.tally p left.children) := by
  cases htrail with
  | vacant | value => rfl
  | kept visited | halt visited => exact h _ visited still
  | cleared visited =>
    rw [acts_append] at still
    exact (h _ visited (List.forall_mem_append.1 still).1).append (Balance.telling _ _)
  | spliced visited => exact absurd rfl ((hredone ⟨.single, rule⟩).unspliced visited rfl _)
  | list walked => exact walked.balance (h _) still

lemma SlotsTrail.balance (hredone : ∀ place, Redone options place (trail place))
    (h : ∀ place, Balances options p (trail place)) {number slot : Nat}
    {slots items : List (Slot ρ α (Tree ρ α))} {moments : List (Moment ρ α)} {halt : Option Halt}
    (htrail : SlotsTrail trail number slot slots moments items halt)
    (still : ∀ act ∈ Moment.acts moments, act.Still) :
    Balance options p (Tree.tally p (slots.flatMap Slot.children)) moments
      (Tree.tally p (items.flatMap Slot.children)) := by
  induction htrail with
  | nil slot => rfl
  | @cons slot rule content left rest items moments more halt walked others ih =>
    simp only [acts_append, acts_map_below, List.forall_mem_append] at still
    have hslot := (walked.balance hredone h still.1).map_below number slot
    have hrest := (ih still.2).add (Tree.tally p left.children)
    rw [Nat.add_comm, Nat.add_comm (Tree.tally p (items.flatMap Slot.children))] at hrest
    rw [List.flatMap_cons, List.flatMap_cons, Tree.tally_append, Tree.tally_append]
    exact (hslot.add _).append hrest
  | @halt slot rule content left rest moments why walked =>
    rw [acts_map_below] at still
    have hslot := (walked.balance hredone h still).map_below number slot
    rw [List.flatMap_cons, List.flatMap_cons, Tree.tally_append, Tree.tally_append]
    exact hslot.add _

end Slots

section Visit

variable {run : Place ρ → Tree ρ α → List (Act ρ α) → Fate (Tree ρ α) → Prop}
  {below : Place ρ → Nat → Tree ρ α → List (Moment ρ α) → Fate (Tree ρ α) → Prop}

/-- The walk of the slots of a node changes the number of nodes below it, and the node is still the
same. -/
lemma SlotsTrail.balance_node (htrodden : ∀ place, Trodden (run place) (below place))
    (hredone : ∀ place, Redone options place (below place))
    (h : ∀ place, Balances options p (below place)) {number : Nat} {node : Tree ρ α}
    {slots : List (Slot ρ α (Tree ρ α))} {moments : List (Moment ρ α)} {halt : Option Halt}
    (htrail : SlotsTrail below number 0 node.slots moments slots halt)
    (still : ∀ act ∈ Moment.acts moments, act.Still) :
    Balance options p (Tree.tally p [node]) moments
      (Tree.tally p [{ node with slots := slots }]) := by
  have hslots := (htrail.balance hredone h still).add (if p node.husk then 1 else 0)
  rw [Tree.tally_singleton, Tree.tally_singleton p { node with slots := slots },
    Tree.husk_congr (htrail.run_acts htrodden).bare_eq, Nat.add_comm]
  rwa [Nat.add_comm (Tree.tally p (slots.flatMap Slot.children))] at hslots

lemma VisitTrail.balance (htrodden : ∀ place, Trodden (run place) (below place))
    (hredone : ∀ place, Redone options place (below place))
    (h : ∀ place, Balances options p (below place)) (depth : Nat) (place : Place ρ) :
    Balances options p (VisitTrail options count below depth place) := by
  intro number node moments fate htrail still
  have hreached : ∀ held, Balance options p held [.reached (.here place number) node] held :=
    fun held => ⟨held, rfl, rfl⟩
  cases htrail with
  | tooDeep exceeded =>
    exact (hreached _).append (Balance.of_acts (by simp [acts, act?, Act.callsNode]) _)
  | walked allowed entered descended left =>
    simp only [acts_reached, acts_append, acts_ofActs, List.forall_mem_append] at still
    have hentered := entered.balance (p := p) number still.1.1
    have hbelow := descended.balance_node htrodden hredone h still.1.2
    have hleft := left.balance (p := p) number still.2
    exact (hreached _).append ((hentered.append hbelow).append hleft)
  | broken allowed entered descended =>
    simp only [acts_reached, acts_append, acts_ofActs, List.forall_mem_append] at still
    have hentered := entered.balance (p := p) number still.1
    have hbelow := descended.balance_node htrodden hredone h still.2
    exact (hreached _).append (hentered.append hbelow)
  | skipped allowed entered left =>
    simp only [acts_reached, acts_append, acts_ofActs, List.forall_mem_append] at still
    have hentered := entered.balance (p := p) number still.1
    have hleft := left.balance (p := p) number still.2
    exact (hreached _).append (hentered.append hleft)
  | settled allowed entered proceeds skips =>
    simp only [acts_reached, acts_ofActs] at still
    exact (hreached _).append (entered.balance number still)

/-- A node is visited, with all that is below it. -/
theorem NodeTrail.balance (room depth : Nat) (place : Place ρ) :
    Balances options p (NodeTrail (α := α) options count room depth place) := by
  induction room generalizing depth place with
  | zero =>
    rintro number node moments fate ⟨rfl, rfl⟩ -
    rfl
  | succ room ih =>
    exact VisitTrail.balance (NodeRun.trodden room (depth + 1)) (NodeTrail.redone room (depth + 1))
      (ih (depth + 1)) depth place

end Visit

end Walking

namespace Walker

variable [Admission ρ α] {walker : Walker ρ α σ} {stack : Nat} {nodes : List (Tree ρ α)} {state : σ}
  {trail : List (Moment ρ α)}

/-- A trail accounts for what a traversal makes of the sequence that its walk starts from. -/
theorem Leaves.conserve (h : walker.Leaves stack nodes state trail)
    (opened : (walker.opening nodes state).halt = none)
    (still : ∀ act ∈ walker.acts stack nodes state, act.Still)
    (kept : ∀ act ∈ walker.acts stack nodes state, act.replacesLast = false) :
    Moment.Conserve walker.options (walker.opening nodes state).items trail
      (walker.traverse stack nodes state).items := by
  intro p
  obtain ⟨hhalt, -⟩ | ⟨-, front, walk, last, mid, halt, rfl, hfront, htop, hlast, hitems⟩ := h.walk
  · exact absurd opened hhalt
  rw [← h.acts_eq, Moment.acts_append, Moment.acts_append] at still kept
  simp only [List.forall_mem_append] at still kept
  rw [hitems kept.2]
  exact ((Moment.Balance.of_acts hfront _).append
    (ListTrail.balance (NodeTrail.balance _ 0 .topLevel) htop still.1.2)).append
    (Moment.Balance.of_acts hlast _)

/-- Where all nodes that visitors bring along are distinct, those that are put in are. -/
lemma Leaves.nodup_gains {identify : Tree ρ α → ι} {start : List (Tree ρ α)}
    (h : walker.Leaves stack nodes state trail)
    (distinct : (Tree.idents identify
      (start ++ (walker.acts stack nodes state).flatMap Act.carried)).Nodup) :
    (Tree.idents identify (start ++ trail.flatMap (Moment.gains walker.options))).Nodup := by
  classical
  refine List.nodup_iff_count_le_one.2 fun x => ?_
  have hone := List.nodup_iff_count_le_one.1 distinct x
  rw [← h.acts_eq, Tree.count_idents, Tree.tally_append] at hone
  rw [Tree.count_idents, Tree.tally_append]
  exact Nat.le_trans (Nat.add_le_add_left (Moment.tally_gains_le _ trail) _) hone

variable (walker stack nodes state) in
/-- No node is lost and none comes twice. Let all nodes that a walk starts from and all that
visitors bring along have identifiers of their own, let the visitors leave the nodes themselves as
they are, and let none of them ask for another sequence in the end. Then whether the traversal
succeeds or not each identifier occurs once at most in what it leaves. It occurs just if its node
was there at the start, or was put in by an edit, and no edit after that took out the node or one
that it stood below. And each node that is left is, apart from its children, what it was at the
start or when it was put in. -/
theorem nodes_conserved (identify : Tree ρ α → ι)
    (opened : (walker.opening nodes state).halt = none)
    (still : ∀ act ∈ walker.acts stack nodes state, act.Still)
    (kept : ∀ act ∈ walker.acts stack nodes state, act.replacesLast = false)
    (distinct : (Tree.idents identify ((walker.opening nodes state).items ++
      (walker.acts stack nodes state).flatMap Act.carried)).Nodup) :
    let start := (walker.opening nodes state).items
    let left := (walker.traverse stack nodes state).items
    (Tree.idents identify left).Nodup ∧
      (∃ trail, walker.Leaves stack nodes state trail) ∧
      ∀ trail, walker.Leaves stack nodes state trail →
        (∀ x, x ∈ Tree.idents identify left ↔
          (x ∈ Tree.idents identify start ∧
            ∀ moment ∈ trail, x ∉ Tree.idents identify (moment.loses walker.options)) ∨
          ∃ before moment after, trail = before ++ moment :: after ∧
            x ∈ Tree.idents identify (moment.gains walker.options) ∧
            ∀ later ∈ after, x ∉ Tree.idents identify (later.loses walker.options)) ∧
        ∀ husk ∈ left.flatMap Tree.husks, husk ∈ start.flatMap Tree.husks ∨
          ∃ moment ∈ trail, husk ∈ (moment.gains walker.options).flatMap Tree.husks := by
  intro start left
  obtain ⟨trail, leaves⟩ := walker.exists_leaves stack nodes state
  refine ⟨?_, ⟨trail, leaves⟩, fun trail leaves => ?_⟩
  · exact (leaves.conserve opened still kept).nodup (leaves.nodup_gains distinct)
  · have hconserve : Moment.Conserve walker.options start trail left :=
      leaves.conserve opened still kept
    exact ⟨hconserve.mem_idents_iff (leaves.nodup_gains distinct), fun _ => hconserve.origin⟩

/-- What the gardener leaves of a block of three is what it put in, and the block itself. It took
out the third of them. -/
theorem gardener_conserved :
    let garden := [bed "r" [bed "a" [], bed "b" [], bed "c" []]]
    let left := (gardener.traverse 4 garden ()).items
    (Tree.idents Tree.label left).map (·.getD "") = ["r", "h", "i", "d", "e", "f", "g"] ∧
      (Tree.idents Tree.label left).Nodup ∧
      ∀ trail, gardener.Leaves 4 garden () trail →
        ∃ moment ∈ trail, some "c" ∈ Tree.idents Tree.label (moment.loses gardener.options) := by
  intro garden left
  have still : ∀ act ∈ gardener.acts 4 garden (), act.Still := by
    refine acts_still ?_ 4 garden ()
    intro visitor hmem hook node state
    obtain rfl := List.mem_singleton.1 hmem
    rfl
  have kept : ∀ act ∈ gardener.acts 4 garden (), act.replacesLast = false := by
    decide +kernel
  have distinct : (Tree.idents Tree.label ((gardener.opening garden ()).items ++
      (gardener.acts 4 garden ()).flatMap Act.carried)).Nodup := by
    decide +kernel
  have opened : (gardener.opening garden ()).halt = none := by
    decide +kernel
  obtain ⟨hnodup, -, hall⟩ := gardener.nodes_conserved 4 garden () Tree.label opened still kept
    distinct
  refine ⟨by decide +kernel, hnodup, fun trail leaves => ?_⟩
  have hmem := (hall trail leaves).1 (some "c")
  have hstart : some "c" ∈ Tree.idents Tree.label (gardener.opening garden ()).items := by
    decide +kernel
  have hleft : some "c" ∉ Tree.idents Tree.label left := by
    decide +kernel
  by_contra hnone
  exact hleft (hmem.2 (.inl ⟨hstart, fun moment hmoment hloses =>
    hnone ⟨moment, hmoment, hloses⟩⟩))

end Walker

end ForestWalk
