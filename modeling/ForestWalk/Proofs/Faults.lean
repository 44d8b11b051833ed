import ForestWalk.Error.Report
import ForestWalk.Proofs.Trails
/-!
The faults that a traversal can meet with, and the failure that each of them amounts to. A part of a
trail accounts for how the walk of that part ended: no moment before the last breaks the walk off,
and the last one does so just if the walk was broken off.
-/

namespace ForestWalk

inductive Fault where
  /-- The visitor that is to be called is lent. -/
  | unavailable
  /-- A hook fails. -/
  | hookFailed
  /-- The walk comes to a node beyond the depth limit. -/
  | tooDeep
  /-- A directive is given where it is not legal. -/
  | illegal
  /-- A node that is brought along is refused by the slot it would go into. -/
  | refused
deriving Repr, DecidableEq

/-- The kind of error that a fault makes a traversal fail with. -/
def Fault.errorKind : Fault → ErrorKind
  | .unavailable | .hookFailed | .refused => .visitorFailed
  | .tooDeep => .tooDeep
  | .illegal => .illegalDirective

namespace Moment

variable {ρ α : Type} [Admission ρ α] (options : Options)

/-- There is a fault at the moment, and this is the error that tells of it. The depth of nodes is
counted from a base, which is the depth of the sequence that the addresses start from. -/
inductive Fails (base : Nat) : Moment ρ α → Fault → WalkError → Prop
  | lentForNode {spot : Option (Spot ρ)} {index : Nat} {name : String} {hook : NodeHook}
      {node : Tree ρ α} :
      Fails base (.acted spot (.node index name hook node .unavailable)) .unavailable
        (.visitorFailed ⟨.node hook, index, name⟩ (some node.tag) .unavailable)
  | lentForSequence {spot : Option (Spot ρ)} {index : Nat} {name : String} {hook : SequenceHook}
      {nodes : List (Tree ρ α)} :
      Fails base (.acted spot (.sequence index name hook nodes .unavailable)) .unavailable
        (.visitorFailed ⟨.sequence hook, index, name⟩ none .unavailable)
  | nodeHook {spot : Option (Spot ρ)} {index : Nat} {name : String} {hook : NodeHook}
      {node left : Tree ρ α} {cause : Cause WalkError} :
      Fails base (.acted spot (.node index name hook node (.failed left cause))) .hookFailed
        (.visitorFailed ⟨.node hook, index, name⟩ (some left.tag) cause)
  | sequenceHook {spot : Option (Spot ρ)} {index : Nat} {name : String} {hook : SequenceHook}
      {nodes : List (Tree ρ α)} {cause : Cause WalkError} :
      Fails base (.acted spot (.sequence index name hook nodes (.failed cause))) .hookFailed
        (.visitorFailed ⟨.sequence hook, index, name⟩ none cause)
  | tooDeep {spot : Spot ρ} {node : Tree ρ α} {limit : Nat}
      (limited : options.maxDepth = some limit)
      (beyond : limit < base + spot.address.depth) :
      Fails base (.reached spot node) .tooDeep (.tooDeep limit node.tag)
  | splicedOnEnter {spot : Spot ρ} {index : Nat} {name : String} {node left : Tree ρ α}
      {new : List (Tree ρ α)} :
      Fails base (.acted (some spot) (.node index name .enter node (.answered left (.splice new))))
        .illegal
        (.illegalDirective ⟨.node .enter, index, name⟩ "splice" left.tag spot.place.position)
  | skippedOnLeave {spot : Spot ρ} {index : Nat} {name : String} {node left : Tree ρ α} :
      Fails base (.acted (some spot) (.node index name .leave node (.answered left .skipChildren)))
        .illegal
        (.illegalDirective ⟨.node .leave, index, name⟩ "skip_children" left.tag spot.place.position)
  | splicedInSingle {spot : Spot ρ} {index : Nat} {name : String} {node left : Tree ρ α}
      {new : List (Tree ρ α)} (single : spot.place.position = .single) :
      Fails base (.acted (some spot) (.node index name .leave node (.answered left (.splice new))))
        .illegal (.illegalDirective ⟨.node .leave, index, name⟩ "splice" left.tag .single)
  | replacementRefused {spot : Spot ρ} {index : Nat} {name : String} {hook : NodeHook}
      {node left new : Tree ρ α} (checked : options.checkShapes = true)
      (refuses : spot.place.rule.accepts new = false) :
      Fails base (.acted (some spot) (.node index name hook node (.answered left (.replace new))))
        .refused
        (.visitorFailed ⟨.node hook, index, name⟩ (some new.tag)
          (.shape ⟨new.tag, spot.place.rule.name⟩))
  | splicedRefused {spot : Spot ρ} {index : Nat} {name : String} {node left refused : Tree ρ α}
      {front rest : List (Tree ρ α)} (checked : options.checkShapes = true)
      (legal : spot.place.position ≠ .single)
      (accepts : ∀ new ∈ front, spot.place.rule.accepts new = true)
      (refuses : spot.place.rule.accepts refused = false) :
      Fails base
        (.acted (some spot)
          (.node index name .leave node (.answered left (.splice (front ++ refused :: rest)))))
        .refused
        (.visitorFailed ⟨.node .leave, index, name⟩ (some refused.tag)
          (.shape ⟨refused.tag, spot.place.rule.name⟩))

/-- At the moment the walk is broken off, and this is why. -/
inductive Breaks (base : Nat) : Moment ρ α → Halt → Prop
  | fails {moment : Moment ρ α} {fault : Fault} {error : WalkError}
      (fault : moment.Fails options base fault error) : Breaks base moment (.failed error)
  | stops {spot : Spot ρ} {index : Nat} {name : String} {hook : NodeHook} {node left : Tree ρ α} :
      Breaks base (.acted (some spot) (.node index name hook node (.answered left .stop))) .stopped
  | nodeOverflows {spot : Option (Spot ρ)} {index : Nat} {name : String} {hook : NodeHook}
      {node : Tree ρ α} :
      Breaks base (.acted spot (.node index name hook node .overflowed)) .overflowed
  | sequenceOverflows {spot : Option (Spot ρ)} {index : Nat} {name : String} {hook : SequenceHook}
      {nodes : List (Tree ρ α)} :
      Breaks base (.acted spot (.sequence index name hook nodes .overflowed)) .overflowed

variable {options}

theorem Fails.kind_eq {base : Nat} {moment : Moment ρ α} {fault : Fault} {error : WalkError}
    (h : moment.Fails options base fault error) : error.kind = fault.errorKind := by
  cases h <;> rfl

@[simp] theorem depth_below (number slot : Nat) (spot : Spot ρ) :
    (spot.below number slot).address.depth = spot.address.depth + 1 :=
  rfl

/-- Seen from further above a node is deeper by one. -/
theorem fails_below_iff {base number slot : Nat} {moment : Moment ρ α} {fault : Fault}
    {error : WalkError} :
    (moment.below number slot).Fails options base fault error ↔
      moment.Fails options (base + 1) fault error := by
  constructor
  · intro h
    match moment with
    | .reached spot node =>
      cases h with
      | tooDeep limited beyond =>
        rw [depth_below] at beyond
        exact .tooDeep limited (by omega)
    | .acted none act =>
      cases h with
      | lentForNode => exact .lentForNode
      | nodeHook => exact .nodeHook
      | lentForSequence => exact .lentForSequence
      | sequenceHook => exact .sequenceHook
    | .acted (some spot) act =>
      cases h with
      | lentForNode => exact .lentForNode
      | lentForSequence => exact .lentForSequence
      | nodeHook => exact .nodeHook
      | sequenceHook => exact .sequenceHook
      | splicedOnEnter => exact .splicedOnEnter
      | skippedOnLeave => exact .skippedOnLeave
      | splicedInSingle single => exact .splicedInSingle single
      | replacementRefused checked refuses => exact .replacementRefused checked refuses
      | splicedRefused checked legal accepts refuses =>
        exact .splicedRefused checked legal accepts refuses
  · intro h
    cases h with
    | lentForNode => exact .lentForNode
    | lentForSequence => exact .lentForSequence
    | nodeHook => exact .nodeHook
    | sequenceHook => exact .sequenceHook
    | tooDeep limited beyond =>
      refine .tooDeep limited ?_
      rw [depth_below]
      omega
    | splicedOnEnter => exact .splicedOnEnter
    | skippedOnLeave => exact .skippedOnLeave
    | splicedInSingle single => exact .splicedInSingle single
    | replacementRefused checked refuses => exact .replacementRefused checked refuses
    | splicedRefused checked legal accepts refuses =>
      exact .splicedRefused checked legal accepts refuses

theorem breaks_below_iff {base number slot : Nat} {moment : Moment ρ α} {why : Halt} :
    (moment.below number slot).Breaks options base why ↔
      moment.Breaks options (base + 1) why := by
  constructor
  · intro h
    match moment with
    | .reached spot node =>
      cases h with
      | fails fault => exact .fails (fails_below_iff.1 fault)
    | .acted none act =>
      cases h with
      | fails fault => exact .fails (fails_below_iff.1 fault)
      | nodeOverflows => exact .nodeOverflows
      | sequenceOverflows => exact .sequenceOverflows
    | .acted (some spot) act =>
      cases h with
      | fails fault => exact .fails (fails_below_iff.1 fault)
      | stops => exact .stops
      | nodeOverflows => exact .nodeOverflows
      | sequenceOverflows => exact .sequenceOverflows
  · intro h
    cases h with
    | fails fault => exact .fails (fails_below_iff.2 fault)
    | stops => exact .stops
    | nodeOverflows => exact .nodeOverflows
    | sequenceOverflows => exact .sequenceOverflows

lemma not_breaks_event {base : Nat} {spot : Option (Spot ρ)} {event : Event} {why : Halt} :
    ¬ (Moment.acted spot (.event event) : Moment ρ α).Breaks options base why := by
  rintro (⟨fault⟩ | _)
  cases fault

end Moment

section Judging

variable {ρ α : Type} [Admission ρ α] {options : Options}

theorem Options.firstRefused_eq_some_iff {rule : Rule ρ} {nodes : List (Tree ρ α)}
    {refused : Tree ρ α} :
    options.firstRefused rule nodes = some refused ↔
      options.checkShapes = true ∧ ∃ front rest, nodes = front ++ refused :: rest ∧
        (∀ new ∈ front, rule.accepts new = true) ∧ rule.accepts refused = false := by
  rw [firstRefused]
  split
  · rename_i hcheck
    simp only [List.find?_eq_some_iff_append, hcheck, true_and, Bool.not_eq_eq_eq_not,
      Bool.not_true, Bool.not_not]
    constructor
    · rintro ⟨refuses, front, rest, rfl, accepts⟩
      exact ⟨front, rest, rfl, accepts, refuses⟩
    · rintro ⟨front, rest, rfl, accepts, refuses⟩
      exact ⟨refuses, front, rest, rfl, accepts⟩
  · rename_i hcheck
    simp [hcheck]

/-- The directives that are not legal, by hook and position. -/
theorem Directive.legal_eq_false_iff {τ : Type} {directive : Directive τ} {hook : NodeHook}
    {position : Position} :
    directive.legal hook position = false ↔
      (hook = .enter ∧ ∃ new, directive = .splice new) ∨
      (hook = .leave ∧ directive = .skipChildren) ∨
      (hook = .leave ∧ position = .single ∧ ∃ new, directive = .splice new) := by
  cases directive <;> cases hook <;> cases position <;> simp [legal, Position.allowsSplice]

/-- A node is refused when it comes with a legal answer about another node, and the failure has its
tag twice. -/
theorem Moment.Fails.of_refused {base : Nat} {moment : Moment ρ α} {error : WalkError}
    (h : moment.Fails options base .refused error) :
    ∃ spot index name hook shown left directive refused,
      moment = .acted (some spot) (.node index name hook shown (.answered left directive)) ∧
      directive.legal hook spot.place.position = true ∧
      options.firstRefused spot.place.rule directive.carried = some refused ∧
      error = .visitorFailed ⟨.node hook, index, name⟩ (some refused.tag)
        (.shape ⟨refused.tag, spot.place.rule.name⟩) := by
  cases h with
  | @replacementRefused spot index name hook shown left new checked refuses =>
    have hrefused := Options.firstRefused_eq_some_iff.2 ⟨checked, [], [], rfl, by simp, refuses⟩
    exact ⟨spot, index, name, hook, shown, left, .replace new, new, rfl, rfl, hrefused, rfl⟩
  | @splicedRefused spot index name shown left refused front rest checked legal accepts refuses =>
    have hrefused :=
      Options.firstRefused_eq_some_iff.2 ⟨checked, front, rest, rfl, accepts, refuses⟩
    refine ⟨spot, index, name, .leave, shown, left, .splice (front ++ refused :: rest), refused,
      rfl, ?_, hrefused, rfl⟩
    cases hposition : spot.place.position with
    | single => exact absurd hposition legal
    | topLevel | list => rfl

/-- Why the walk is broken off, if it is. -/
def Fate.why? {τ : Type} : Fate τ → Option Halt
  | .halt _ why => some why
  | .keep _ | .remove | .splice _ => none

/-- Why the walk is broken off, if it is. -/
def Verdict.why? {τ : Type} (verdict : Verdict τ) : Option Halt :=
  verdict.fate.why?

section Answered

variable {hook : NodeHook} {place : Place ρ} {index : Nat} {name : String}
  {node left refused : Tree ρ α} {directive : Directive (Tree ρ α)}

/-- A directive that is not legal is judged to be a failure. -/
lemma Options.why_judge_of_illegal (hlegal : directive.legal hook place.position = false) :
    (options.judge hook place ⟨.node hook, index, name⟩ node (.answered left directive)).1.why? =
      some (.failed (.illegalDirective ⟨.node hook, index, name⟩ directive.name left.tag
        place.position)) := by
  simp only [judge, follow]
  rw [if_neg (by simp [hlegal])]
  rfl

/-- A directive that is legal but brings a node which is refused is judged to be a failure. -/
lemma Options.why_judge_of_refused (hlegal : directive.legal hook place.position = true)
    (hr : options.firstRefused place.rule directive.carried = some refused) :
    (options.judge hook place ⟨.node hook, index, name⟩ node (.answered left directive)).1.why? =
      some (.failed (.visitorFailed ⟨.node hook, index, name⟩ (some refused.tag)
        (.shape ⟨refused.tag, place.rule.name⟩))) := by
  simp only [judge, follow]
  rw [if_pos hlegal, hr]
  rfl

/-- A directive that can be followed gives the verdict. -/
lemma Options.why_judge_of_followed (hlegal : directive.legal hook place.position = true)
    (hr : options.firstRefused place.rule directive.carried = none) :
    (options.judge hook place ⟨.node hook, index, name⟩ node (.answered left directive)).1.why? =
      (directive.verdict left).why? := by
  simp only [judge, follow]
  rw [if_pos hlegal, hr]

end Answered

lemma Options.breaks_of_judge {hook : NodeHook} {spot : Spot ρ} {index : Nat} {name : String}
    {node : Tree ρ α} {reply : NodeReply ρ α} {why : Halt} (base : Nat)
    (judged : (options.judge hook spot.place ⟨.node hook, index, name⟩ node reply).1.why? =
      some why) :
    (Moment.acted (some spot) (.node index name hook node reply)).Breaks options base why := by
  cases reply with
  | unavailable =>
    obtain rfl := Option.some.inj judged
    exact .fails .lentForNode
  | overflowed =>
    obtain rfl := Option.some.inj judged
    exact .nodeOverflows
  | failed left cause =>
    obtain rfl := Option.some.inj judged
    exact .fails .nodeHook
  | answered left directive =>
    rcases hlegal : directive.legal hook spot.place.position with _ | _
    · rw [why_judge_of_illegal hlegal] at judged
      obtain rfl := Option.some.inj judged
      obtain ⟨rfl, new, rfl⟩ | ⟨rfl, rfl⟩ | ⟨rfl, hsingle, new, rfl⟩ :=
        Directive.legal_eq_false_iff.1 hlegal
      · exact .fails .splicedOnEnter
      · exact .fails .skippedOnLeave
      · rw [hsingle]
        exact .fails (.splicedInSingle hsingle)
    · rcases hr : options.firstRefused spot.place.rule directive.carried with _ | refused
      · rw [why_judge_of_followed hlegal hr] at judged
        cases directive with
        | stop =>
          obtain rfl := Option.some.inj judged
          exact .stops
        | _ => cases judged
      · rw [why_judge_of_refused hlegal hr] at judged
        obtain rfl := Option.some.inj judged
        obtain ⟨checked, front, rest, hcarried, accepts, refuses⟩ :=
          firstRefused_eq_some_iff.1 hr
        cases directive with
        | replace new =>
          have hmem : refused ∈ (Directive.replace new).carried := by simp [hcarried]
          obtain rfl := List.mem_singleton.1 hmem
          exact .fails (.replacementRefused checked refuses)
        | splice new =>
          obtain rfl : new = front ++ refused :: rest := hcarried
          cases hook with
          | enter => cases hlegal
          | leave =>
            refine .fails (.splicedRefused checked ?_ accepts refuses)
            intro hsingle
            rw [hsingle] at hlegal
            cases hlegal
        | _ => simp [Directive.carried] at hcarried

lemma Moment.Breaks.why_judge {hook : NodeHook} {spot : Spot ρ} {index : Nat} {name : String}
    {node : Tree ρ α} {reply : NodeReply ρ α} {why : Halt} {base : Nat}
    (h : (Moment.acted (some spot) (.node index name hook node reply)).Breaks options base why) :
    (options.judge hook spot.place ⟨.node hook, index, name⟩ node reply).1.why? = some why := by
  cases h with
  | stops => rw [Options.judge_stop]; rfl
  | nodeOverflows => rfl
  | @fails _ fault error failing =>
    by_cases hrefusal : fault = .refused
    · subst hrefusal
      obtain ⟨_, _, _, _, _, _, _, _, hmoment, hlegal, hrefused, rfl⟩ := failing.of_refused
      cases hmoment
      exact Options.why_judge_of_refused hlegal hrefused
    · cases failing with
      | lentForNode => rfl
      | nodeHook => rfl
      | splicedOnEnter => exact Options.why_judge_of_illegal rfl
      | skippedOnLeave => exact Options.why_judge_of_illegal rfl
      | @splicedInSingle _ _ _ _ left new single =>
        have hlegal : (Directive.splice new).legal .leave spot.place.position = false :=
          Directive.legal_eq_false_iff.2 (.inr (.inr ⟨rfl, single, new, rfl⟩))
        rw [Options.why_judge_of_illegal hlegal, single]
        rfl
      | replacementRefused | splicedRefused => exact absurd rfl hrefusal

/-- A call with a node breaks the walk off just if the reply is judged so. -/
theorem Options.why_judge_eq_some_iff {hook : NodeHook} {spot : Spot ρ} {index : Nat}
    {name : String} {node : Tree ρ α} {reply : NodeReply ρ α} {why : Halt} (base : Nat) :
    (options.judge hook spot.place ⟨.node hook, index, name⟩ node reply).1.why? = some why ↔
      (Moment.acted (some spot) (.node index name hook node reply)).Breaks options base why :=
  ⟨Options.breaks_of_judge base, Moment.Breaks.why_judge⟩

/-- A call with the sequence breaks the traversal off just if the reply is judged so. -/
theorem SequenceReply.why_judge_eq_some_iff {hook : SequenceHook} {spot : Option (Spot ρ)}
    {index : Nat} {name : String} {nodes : List (Tree ρ α)} {reply : SequenceReply ρ α} {why : Halt}
    (base : Nat) :
    (reply.judge hook ⟨.sequence hook, index, name⟩ nodes).1.2 = some why ↔
      (Moment.acted spot (.sequence index name hook nodes reply)).Breaks options base why := by
  constructor
  · intro judged
    match reply with
    | .unavailable =>
      obtain rfl := Option.some.inj judged
      exact .fails .lentForSequence
    | .failed cause =>
      obtain rfl := Option.some.inj judged
      exact .fails .sequenceHook
    | .overflowed =>
      obtain rfl := Option.some.inj judged
      exact .sequenceOverflows
    | .answered none | .answered (some _) => cases judged
  · intro h
    cases h with
    | sequenceOverflows => rfl
    | fails fault =>
      cases fault with
      | lentForSequence | sequenceHook => rfl

end Judging

end ForestWalk
