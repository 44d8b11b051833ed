import ForestWalk.Proofs.Heedless
import ForestWalk.Proofs.Stopping
/-!
Answers that amount to the same. A visitor may take a node out or splice nothing in its place, it
may replace a node or splice the new one in if no further visitor is to be asked, and it may bring
along a new node or write it over the one it was shown. Whichever it chooses, in any number of its
calls, the traversal does the same but for the edits that it makes known.
-/

namespace ForestWalk

variable {ρ α σ : Type}

section Fates

variable (count index : Nat) (hook : NodeHook) (place : Place ρ)

/-- What two replies that amount to the same make of a node, where the visitor with a number, out of
`count` in all, is asked about it. -/
inductive Verdict.Equivalent : Verdict (Tree ρ α) → Verdict (Tree ρ α) → Prop
  | same (verdict : Verdict (Tree ρ α)) : Equivalent verdict verdict
  | removed (leaves : hook = .leave) (splices : place.position.allowsSplice = true) :
      Equivalent .remove (.splice [])
  | replaced {new : Tree ρ α} (leaves : hook = .leave)
      (splices : place.position.allowsSplice = true) (last : index + 1 = count) :
      Equivalent (.proceed new) (.splice [new])

/-- What becomes of a node in the place where it stands, told in two ways: where there is room for
any number of nodes they may both give the same ones. -/
def Fate.Agrees (fate other : Fate (Tree ρ α)) : Prop :=
  other = fate ∨ (place.position.allowsSplice = true ∧
    ∃ given, fate.contribution = some given ∧ other.contribution = some given)

variable {place} {fate other : Fate (Tree ρ α)}

namespace Fate.Agrees

lemma contribution_eq (h : fate.Agrees place other) : other.contribution = fate.contribution := by
  obtain rfl | ⟨-, given, hfate, hother⟩ := h
  · rfl
  · rw [hfate, hother]

lemma eq_of_halt {left : Tree ρ α} {why : Halt} (h : (Fate.halt left why).Agrees place other) :
    other = .halt left why := by
  obtain hsame | ⟨-, given, hfate, -⟩ := h
  · exact hsame
  · cases hfate

lemma eq_of_single (h : fate.Agrees place other) (single : place.position = .single) :
    other = fate := by
  obtain hsame | ⟨splices, -⟩ := h
  · exact hsame
  · rw [single] at splices
    cases splices

end Fate.Agrees

/-- What is made known of the element of a list is an edit. -/
lemma Fate.withoutEdits_event (fate : Fate (Tree ρ α)) (slot : String) (emitted : Nat) :
    Act.withoutEdits (Act.telling (fate.event slot emitted) : List (Act ρ α)) = [] := by
  cases fate <;> rfl

end Fates

section Replies

variable [Admission ρ α] (options : Options) (count index : Nat) (hook : NodeHook)
  (place : Place ρ)

/-- A reply of a visitor that is asked about a node, and another one that amounts to the same. -/
inductive NodeReply.Equivalent : NodeReply ρ α → NodeReply ρ α → Prop
  | removed {left : Tree ρ α} (leaves : hook = .leave)
      (splices : place.position.allowsSplice = true) :
      Equivalent (.answered left .remove) (.answered left (.splice []))
  | replaced {left new : Tree ρ α} (leaves : hook = .leave)
      (splices : place.position.allowsSplice = true) (last : index + 1 = count) :
      Equivalent (.answered left (.replace new)) (.answered left (.splice [new]))
  | overwritten {left new : Tree ρ α}
      (accepted : options.checkShapes = true → place.rule.accepts new = true) :
      Equivalent (.answered left (.replace new)) (.answered new .keep)

/-- Either reply may be given for the other. -/
def NodeReply.Interchangeable (reply other : NodeReply ρ α) : Prop :=
  other = reply ∨ reply.Equivalent options count index hook place other ∨
    other.Equivalent options count index hook place reply

variable {options count index hook place}

lemma Options.firstRefused_singleton {new : Tree ρ α}
    (accepted : options.checkShapes = true → place.rule.accepts new = true) :
    options.firstRefused place.rule [new] = none := by
  rw [firstRefused]
  split
  · rename_i checked
    simp [accepted checked]
  · rfl

/-- Equivalent replies are judged alike, but for the edits that are made known. -/
lemma NodeReply.Equivalent.judge {reply other : NodeReply ρ α}
    (h : reply.Equivalent options count index hook place other) (site : CallSite)
    (node : Tree ρ α) :
    let judged := options.judge hook place site node reply
    let judged' := options.judge hook place site node other
    judged.1.Equivalent count index hook place judged'.1 ∧
      Act.withoutEdits (Act.telling judged'.2 : List (Act ρ α)) =
        Act.withoutEdits (Act.telling judged.2) := by
  cases h with
  | removed leaves splices =>
    subst leaves
    have hspliced : (Directive.splice ([] : List (Tree ρ α))).legal .leave place.position = true :=
      splices
    have hnone : options.firstRefused place.rule ([] : List (Tree ρ α)) = none := by
      simp [Options.firstRefused]
    simp only [Options.judge, Options.follow, hspliced, Directive.carried, hnone]
    exact ⟨.removed rfl splices, rfl⟩
  | @replaced left new leaves splices last =>
    subst leaves
    have hspliced : (Directive.splice [new]).legal .leave place.position = true := splices
    simp only [Options.judge, Options.follow, hspliced, Directive.carried]
    rcases options.firstRefused place.rule [new] with _ | refused
    · exact ⟨.replaced rfl splices last, rfl⟩
    · exact ⟨.same _, rfl⟩
  | @overwritten left new accepted =>
    have hkept : options.firstRefused place.rule (Directive.keep : Directive (Tree ρ α)).carried =
        none := by
      simp [Options.firstRefused, Directive.carried]
    have hreplaced : options.firstRefused place.rule (Directive.replace new).carried = none :=
      Options.firstRefused_singleton accepted
    simp only [Options.judge, Options.follow, hkept, hreplaced]
    exact ⟨.same _, rfl⟩

/-- Replies that are given for each other are judged alike, but for the edits made known. -/
lemma NodeReply.Interchangeable.judge {reply other : NodeReply ρ α}
    (h : reply.Interchangeable options count index hook place other) {site : CallSite}
    {node : Tree ρ α} {verdict verdict' : Verdict (Tree ρ α)} {event event' : Option Event}
    (judged : options.judge hook place site node reply = (verdict, event))
    (judged' : options.judge hook place site node other = (verdict', event')) :
    (verdict.Equivalent count index hook place verdict' ∨
        verdict'.Equivalent count index hook place verdict) ∧
      Act.withoutEdits (Act.telling event' : List (Act ρ α)) =
        Act.withoutEdits (Act.telling event) := by
  obtain rfl | h | h := h
  · obtain ⟨rfl, rfl⟩ := Prod.mk.inj (judged.symm.trans judged')
    exact ⟨.inl (.same _), rfl⟩
  · have hjudge := h.judge site node
    rw [judged, judged'] at hjudge
    exact ⟨.inl hjudge.1, hjudge.2⟩
  · have hjudge := h.judge site node
    rw [judged, judged'] at hjudge
    exact ⟨.inr hjudge.1, hjudge.2.symm⟩

end Replies

namespace Moment

variable [Admission ρ α] (options : Options) (count : Nat)

/-- What may be done at a moment instead, but for making edits known. -/
def Retold : Moment ρ α → List (Act ρ α) → Prop
  | .reached _ _, acts => acts = []
  | .acted spot (.node index name hook node reply), acts =>
    ∃ other, acts = [.node index name hook node other] ∧ ∀ found ∈ spot,
      reply.Interchangeable options count index hook found.place other
  | .acted _ act, acts => acts = Act.withoutEdits [act]

/-- What may be done at all moments instead. -/
def AllRetold : List (Moment ρ α) → List (Act ρ α) → Prop
  | [], acts => acts = []
  | moment :: rest, acts =>
    ∃ first later, acts = first ++ later ∧ moment.Retold options count first ∧ AllRetold rest later

variable {options count}

lemma allRetold_append {moments more : List (Moment ρ α)} {acts : List (Act ρ α)} :
    AllRetold options count (moments ++ more) acts ↔
      ∃ first later, acts = first ++ later ∧ AllRetold options count moments first ∧
        AllRetold options count more later := by
  induction moments generalizing acts with
  | nil =>
    constructor
    · intro h
      exact ⟨[], acts, rfl, rfl, h⟩
    · rintro ⟨_, later, rfl, rfl, h⟩
      exact h
  | cons moment rest ih =>
    simp only [List.cons_append, AllRetold, ih]
    constructor
    · rintro ⟨first, _, rfl, hfirst, mid, later, rfl, hmid, hlater⟩
      exact ⟨first ++ mid, later, (List.append_assoc ..).symm, ⟨first, mid, rfl, hfirst, hmid⟩,
        hlater⟩
    · rintro ⟨_, later, rfl, ⟨first, mid, rfl, hfirst, hmid⟩, hlater⟩
      exact ⟨first, mid ++ later, List.append_assoc .., hfirst, mid, later, rfl, hmid, hlater⟩

lemma retold_below {number slot : Nat} {moment : Moment ρ α} {acts : List (Act ρ α)} :
    (moment.below number slot).Retold options count acts ↔ moment.Retold options count acts := by
  match moment with
  | .reached _ _ | .acted _ (.event _) | .acted _ (.sequence ..) | .acted none (.node ..) => rfl
  | .acted (some spot) (.node ..) => simp [below, Retold, Spot.below]

lemma allRetold_map_below {number slot : Nat} {moments : List (Moment ρ α)}
    {acts : List (Act ρ α)} :
    AllRetold options count (moments.map (below number slot)) acts ↔
      AllRetold options count moments acts := by
  induction moments generalizing acts with
  | nil => rfl
  | cons moment rest ih => simp only [List.map_cons, AllRetold, retold_below, ih]

/-- Where nobody is called with a node all is done as before. -/
lemma AllRetold.of_quiet {spot : Option (Spot ρ)} {quiet acts : List (Act ρ α)}
    (hquiet : ∀ act ∈ quiet, act.callsNode = false)
    (h : AllRetold options count (ofActs spot quiet) acts) : acts = Act.withoutEdits quiet := by
  induction quiet generalizing acts with
  | nil => exact h
  | cons act rest ih =>
    obtain ⟨hact, hrest⟩ := List.forall_mem_cons.1 hquiet
    obtain ⟨first, later, rfl, hfirst, hlater⟩ := h
    rw [ih hrest hlater]
    match act with
    | .event _ | .sequence .. =>
      obtain rfl := hfirst
      exact (Act.withoutEdits_append [_] rest).symm
    | .node .. => cases hact

lemma AllRetold.of_telling {spot : Option (Spot ρ)} {event : Option Event} {acts : List (Act ρ α)}
    (h : AllRetold options count (ofActs spot (Act.telling event)) acts) :
    acts = Act.withoutEdits (Act.telling event) := by
  refine h.of_quiet ?_
  intro act hmem
  obtain ⟨event, -, rfl⟩ := List.mem_map.1 hmem
  rfl

end Moment

section Runs

open Moment

variable [Admission ρ α] {options : Options} {count : Nat}

/-- No further visitor is asked after the last one. -/
lemma ConsultRun.of_last {hook : NodeHook} {place : Place ρ} {index : Nat} {node : Tree ρ α}
    {acts : List (Act ρ α)} {verdict : Verdict (Tree ρ α)}
    (hrun : ConsultRun options count hook place index node acts verdict) (last : index = count) :
    acts = [] ∧ verdict = .proceed node := by
  cases hrun with
  | done node => exact ⟨rfl, rfl⟩
  | pass inRange => omega
  | settle inRange => omega

/-- Visitors that are asked about a node may answer otherwise. On entering it all goes on alike. -/
theorem ConsultRun.retold {hook : NodeHook} {place : Place ρ} {number index : Nat}
    {node : Tree ρ α} {acts : List (Act ρ α)} {verdict : Verdict (Tree ρ α)}
    (hrun : ConsultRun options count hook place index node acts verdict) {told : List (Act ρ α)}
    (h : AllRetold options count (ofActs (some (.here place number)) acts) told) :
    ∃ acts' verdict', Act.withoutEdits acts' = told ∧
      ConsultRun options count hook place index node acts' verdict' ∧
      (hook = .enter → verdict' = verdict) ∧ verdict.fate.Agrees place verdict'.fate := by
  induction hrun generalizing told with
  | done node =>
    obtain rfl : told = [] := h
    exact ⟨[], _, rfl, .done node, fun _ => rfl, .inl rfl⟩
  | @pass index name node next reply event acts verdict inRange judged others ih =>
    rw [ofActs, List.map_cons, List.map_append] at h
    obtain ⟨_, _, rfl, ⟨other, rfl, hother⟩, h⟩ := h
    obtain ⟨edits, later, rfl, hedits, hlater⟩ := allRetold_append.1 h
    obtain rfl := AllRetold.of_telling hedits
    rcases hjudged : options.judge hook place ⟨.node hook, index, name⟩ node other with
      ⟨verdict', event'⟩
    obtain ⟨hverdict, hevent⟩ := (hother _ rfl).judge judged hjudged
    rw [← hevent]
    have hproceeds : verdict' = .proceed next ∨ (verdict' = .splice [next] ∧ hook = .leave ∧
        place.position.allowsSplice = true ∧ index + 1 = count) := by
      obtain hforth | hback := hverdict
      · cases hforth with
        | same => exact .inl rfl
        | replaced leaves splices last => exact .inr ⟨rfl, leaves, splices, last⟩
      · cases hback with
        | same => exact .inl rfl
    obtain rfl | ⟨rfl, rfl, splices, last⟩ := hproceeds
    · obtain ⟨acts', verdict', rfl, hrun, hsame, hagrees⟩ := ih hlater
      refine ⟨_, verdict', ?_, .pass inRange hjudged hrun, hsame, hagrees⟩
      rw [Act.withoutEdits_cons rfl, Act.withoutEdits_append]
      rfl
    · obtain ⟨rfl, rfl⟩ := others.of_last last
      obtain rfl : later = [] := hlater
      refine ⟨_, _, ?_, .settle inRange hjudged (by simp), by simp,
        .inr ⟨splices, [next], rfl, rfl⟩⟩
      rw [Act.withoutEdits_cons rfl, List.append_nil]
      rfl
  | @settle index name node reply event verdict inRange judged settled =>
    rw [ofActs, List.map_cons] at h
    obtain ⟨_, edits, rfl, ⟨other, rfl, hother⟩, hedits⟩ := h
    obtain rfl := AllRetold.of_telling hedits
    rcases hjudged : options.judge hook place ⟨.node hook, index, name⟩ node other with
      ⟨verdict', event'⟩
    obtain ⟨hverdict, hevent⟩ := (hother _ rfl).judge judged hjudged
    rw [← hevent]
    have htold : ∀ more : List (Act ρ α), Act.withoutEdits more = [] →
        Act.withoutEdits (.node index name hook node other :: (Act.telling event' ++ more)) =
          [.node index name hook node other] ++ Act.withoutEdits (Act.telling event') := by
      intro more hmore
      rw [Act.withoutEdits_cons rfl, Act.withoutEdits_append, hmore, List.append_nil]
      rfl
    have hsettled : ∀ {left}, options.judge hook place ⟨.node hook, index, name⟩ node other =
        (left, event') → (∀ next, left ≠ .proceed next) → ConsultRun options count hook place index
          node (.node index name hook node other :: (Act.telling event' ++ [])) left := by
      intro left hjudged hleft
      rw [List.append_nil]
      exact .settle inRange hjudged hleft
    obtain hforth | hback := hverdict
    · cases hforth with
      | same => exact ⟨_, _, htold [] rfl, hsettled hjudged settled, fun _ => rfl, .inl rfl⟩
      | removed leaves splices =>
        subst leaves
        exact ⟨_, _, htold [] rfl, hsettled hjudged (by simp), by simp,
          .inr ⟨splices, [], rfl, rfl⟩⟩
      | replaced => exact absurd rfl (settled _)
    · cases hback with
      | same => exact ⟨_, _, htold [] rfl, hsettled hjudged settled, fun _ => rfl, .inl rfl⟩
      | removed leaves splices =>
        subst leaves
        exact ⟨_, _, htold [] rfl, hsettled hjudged (by simp), by simp,
          .inr ⟨splices, [], rfl, rfl⟩⟩
      | @replaced new leaves splices last =>
        subst leaves
        have hdone : ConsultRun options count .leave place (index + 1) new [] (.proceed new) := by
          rw [last]
          exact .done new
        exact ⟨_, _, htold [] rfl, .pass inRange hjudged hdone, by simp,
          .inr ⟨splices, [new], rfl, rfl⟩⟩

/-- Whatever visitors answer instead of what they answered in a trail of a node, there is a run with
these answers, and the same becomes of the node. -/
structure Flexible (options : Options) (count : Nat) (place : Place ρ)
    (trail : Nat → Tree ρ α → List (Moment ρ α) → Fate (Tree ρ α) → Prop)
    (run : Tree ρ α → List (Act ρ α) → Fate (Tree ρ α) → Prop) : Prop where
  retold : ∀ {number node moments fate told}, trail number node moments fate →
    AllRetold options count moments told →
    ∃ acts fate', Act.withoutEdits acts = told ∧ run node acts fate' ∧ fate.Agrees place fate'

lemma ListTrail.retold {place : Place ρ}
    {trail : Nat → Tree ρ α → List (Moment ρ α) → Fate (Tree ρ α) → Prop}
    {run : Tree ρ α → List (Act ρ α) → Fate (Tree ρ α) → Prop}
    (hnode : Flexible options count place trail run) {slot : String} {emitted : Nat}
    {nodes items : List (Tree ρ α)} {moments : List (Moment ρ α)} {halt : Option Halt}
    (htrail : ListTrail trail slot emitted nodes moments items halt) {told : List (Act ρ α)}
    (h : AllRetold options count moments told) :
    ∃ acts, Act.withoutEdits acts = told ∧ ListRun run slot emitted nodes acts items halt := by
  induction htrail generalizing told with
  | nil emitted =>
    obtain rfl : told = [] := h
    exact ⟨[], rfl, .nil emitted⟩
  | @cons emitted node rest given items fate moments more halt visited part others ih =>
    obtain ⟨_, later, rfl, hfirst, hlater⟩ := allRetold_append.1 h
    obtain ⟨first, edits, rfl, hfirst, hedits⟩ := allRetold_append.1 hfirst
    obtain ⟨acts, fate', rfl, hrun, hagrees⟩ := hnode.retold visited hfirst
    obtain ⟨others', rfl, hothers⟩ := ih hlater
    have hedits' := hedits.of_telling
    rw [Fate.withoutEdits_event] at hedits'
    obtain rfl := hedits'
    refine ⟨_, ?_, .cons hrun (hagrees.contribution_eq.trans part) hothers⟩
    simp [Fate.withoutEdits_event]
  | halt visited =>
    obtain ⟨acts, fate', rfl, hrun, hagrees⟩ := hnode.retold visited h
    obtain rfl := hagrees.eq_of_halt
    exact ⟨acts, rfl, .halt hrun⟩

section Slots

variable {trail : Place ρ → Nat → Tree ρ α → List (Moment ρ α) → Fate (Tree ρ α) → Prop}
  {run : Place ρ → Tree ρ α → List (Act ρ α) → Fate (Tree ρ α) → Prop}

lemma ContentTrail.retold (hnode : ∀ place, Flexible options count place (trail place) (run place))
    {rule : Rule ρ} {content left : Content α (Tree ρ α)} {moments : List (Moment ρ α)}
    {halt : Option Halt} (htrail : ContentTrail trail rule content moments left halt)
    {told : List (Act ρ α)} (h : AllRetold options count moments told) :
    ∃ acts, Act.withoutEdits acts = told ∧ ContentRun run rule content acts left halt := by
  cases htrail with
  | vacant =>
    obtain rfl : told = [] := h
    exact ⟨[], rfl, .vacant⟩
  | value content =>
    obtain rfl : told = [] := h
    exact ⟨[], rfl, .value content⟩
  | kept visited =>
    obtain ⟨acts, fate', rfl, hrun, hagrees⟩ := (hnode ⟨.single, rule⟩).retold visited h
    obtain rfl := hagrees.eq_of_single rfl
    exact ⟨acts, rfl, .kept hrun⟩
  | spliced visited =>
    obtain ⟨acts, fate', rfl, hrun, hagrees⟩ := (hnode ⟨.single, rule⟩).retold visited h
    obtain rfl := hagrees.eq_of_single rfl
    exact ⟨acts, rfl, .spliced hrun⟩
  | halt visited =>
    obtain ⟨acts, fate', rfl, hrun, hagrees⟩ := (hnode ⟨.single, rule⟩).retold visited h
    obtain rfl := hagrees.eq_of_single rfl
    exact ⟨acts, rfl, .halt hrun⟩
  | cleared visited =>
    obtain ⟨first, later, rfl, hfirst, hlater⟩ := allRetold_append.1 h
    obtain ⟨acts, fate', rfl, hrun, hagrees⟩ := (hnode ⟨.single, rule⟩).retold visited hfirst
    obtain rfl := hagrees.eq_of_single rfl
    obtain rfl := hlater.of_telling
    exact ⟨_, Act.withoutEdits_append .., .cleared hrun⟩
  | list walked =>
    obtain ⟨acts, rfl, hrun⟩ := ListTrail.retold (hnode ⟨.list, rule⟩) walked h
    exact ⟨acts, rfl, .list hrun⟩

lemma SlotsTrail.retold (hnode : ∀ place, Flexible options count place (trail place) (run place))
    {number slot : Nat} {slots items : List (Slot ρ α (Tree ρ α))} {moments : List (Moment ρ α)}
    {halt : Option Halt} (htrail : SlotsTrail trail number slot slots moments items halt)
    {told : List (Act ρ α)} (h : AllRetold options count moments told) :
    ∃ acts, Act.withoutEdits acts = told ∧ SlotsRun run slots acts items halt := by
  induction htrail generalizing told with
  | nil slot =>
    obtain rfl : told = [] := h
    exact ⟨[], rfl, .nil⟩
  | cons walked others ih =>
    obtain ⟨first, later, rfl, hfirst, hlater⟩ := allRetold_append.1 h
    obtain ⟨acts, rfl, hrun⟩ := walked.retold hnode (allRetold_map_below.1 hfirst)
    obtain ⟨more, rfl, hmore⟩ := ih hlater
    exact ⟨_, Act.withoutEdits_append .., .cons hrun hmore⟩
  | halt walked =>
    obtain ⟨acts, rfl, hrun⟩ := walked.retold hnode (allRetold_map_below.1 h)
    exact ⟨acts, rfl, .halt hrun⟩

end Slots

lemma VisitTrail.retold {depth : Nat}
    {trail : Place ρ → Nat → Tree ρ α → List (Moment ρ α) → Fate (Tree ρ α) → Prop}
    {run : Place ρ → Tree ρ α → List (Act ρ α) → Fate (Tree ρ α) → Prop}
    (hbelow : ∀ place, Flexible options count place (trail place) (run place)) (place : Place ρ) :
    Flexible options count place (VisitTrail options count trail depth place)
      (VisitRun options count run depth place) := by
  constructor
  intro number node moments fate told htrail h
  cases htrail with
  | @tooDeep limit exceeded =>
    obtain ⟨first, later, rfl, rfl, hlater⟩ := h
    have htold : later = Act.withoutEdits (Act.telling (some (.tooDeep limit node.tag))) :=
      AllRetold.of_telling hlater
    subst htold
    exact ⟨_, _, rfl, .tooDeep exceeded, .inl rfl⟩
  | walked allowed entered descended left =>
    obtain ⟨first, _, rfl, rfl, h⟩ := h
    obtain ⟨_, told, rfl, h, hlast⟩ := allRetold_append.1 h
    obtain ⟨first, mid, rfl, hfirst, hmid⟩ := allRetold_append.1 h
    obtain ⟨acts, verdict, rfl, hentered, hsame, -⟩ := entered.retold hfirst
    obtain rfl := hsame rfl
    obtain ⟨more, rfl, hslots⟩ := descended.retold hbelow hmid
    obtain ⟨last, verdict, rfl, hleft, -, hagrees⟩ := left.retold hlast
    exact ⟨_, _, by simp, .walked allowed hentered hslots hleft, hagrees⟩
  | broken allowed entered descended =>
    obtain ⟨first, _, rfl, rfl, h⟩ := h
    obtain ⟨first, mid, rfl, hfirst, hmid⟩ := allRetold_append.1 h
    obtain ⟨acts, verdict, rfl, hentered, hsame, -⟩ := entered.retold hfirst
    obtain rfl := hsame rfl
    obtain ⟨more, rfl, hslots⟩ := descended.retold hbelow hmid
    exact ⟨_, _, by simp, .broken allowed hentered hslots, .inl rfl⟩
  | skipped allowed entered left =>
    obtain ⟨first, _, rfl, rfl, h⟩ := h
    obtain ⟨first, told, rfl, hfirst, hlast⟩ := allRetold_append.1 h
    obtain ⟨acts, verdict, rfl, hentered, hsame, -⟩ := entered.retold hfirst
    obtain rfl := hsame rfl
    obtain ⟨last, verdict, rfl, hleft, -, hagrees⟩ := left.retold hlast
    exact ⟨_, _, by simp, .skipped allowed hentered hleft, hagrees⟩
  | settled allowed entered proceeds skips =>
    obtain ⟨first, _, rfl, rfl, h⟩ := h
    obtain ⟨acts, verdict, rfl, hentered, hsame, -⟩ := entered.retold h
    obtain rfl := hsame rfl
    exact ⟨_, _, by simp, .settled allowed hentered proceeds skips, .inl rfl⟩

theorem NodeTrail.retold (room depth : Nat) (place : Place ρ) :
    Flexible (α := α) options count place (NodeTrail options count room depth place)
      (NodeRun options count room depth place) := by
  induction room generalizing depth place with
  | zero =>
    constructor
    rintro number node moments fate told ⟨rfl, rfl⟩ h
    obtain rfl : told = [] := h
    exact ⟨[], _, rfl, ⟨rfl, rfl⟩, .inl rfl⟩
  | succ room ih => exact VisitTrail.retold (fun place => ih (depth + 1) place) place

lemma TopTrail.retold {room : Nat} {nodes items : List (Tree ρ α)} {moments : List (Moment ρ α)}
    {halt : Option Halt} (htrail : TopTrail options count room nodes moments items halt)
    {told : List (Act ρ α)} (h : AllRetold options count moments told) :
    ∃ acts, Act.withoutEdits acts = told ∧ TopRun options count room nodes acts items halt :=
  ListTrail.retold (NodeTrail.retold room 0 .topLevel) htrail h

lemma WalkTrail.retold {room : Nat} {nodes items : List (Tree ρ α)} {moments : List (Moment ρ α)}
    (htrail : WalkTrail options count room nodes moments items) {told : List (Act ρ α)}
    (h : AllRetold options count moments told) :
    ∃ acts, Act.withoutEdits acts = told ∧ WalkRun options count room nodes acts items := by
  cases htrail with
  | through walked =>
    obtain ⟨acts, rfl, hrun⟩ := TopTrail.retold walked h
    exact ⟨acts, rfl, .through hrun⟩
  | stopped walked =>
    obtain ⟨first, later, rfl, hfirst, hlater⟩ := allRetold_append.1 h
    obtain ⟨acts, rfl, hrun⟩ := TopTrail.retold walked hfirst
    obtain rfl := hlater.of_telling
    exact ⟨_, Act.withoutEdits_append .., .stopped hrun⟩

/-- Whatever visitors answer instead of what they answered in a traversal, there is one with these
answers that ends in the same way. -/
theorem TraversalTrail.retold {room : Nat} {nodes items : List (Tree ρ α)}
    {trail : List (Moment ρ α)} {halt : Option Halt}
    (htrail : TraversalTrail options count room nodes trail items halt) {told : List (Act ρ α)}
    (h : AllRetold options count trail told) :
    ∃ acts, Act.withoutEdits acts = told ∧
      TraversalRun options count room nodes acts items halt := by
  -- Nothing is answered otherwise while the visitors are shown the sequence.
  have hshown : ∀ {hook index nodes items halt} {acts told : List (Act ρ α)},
      ShowRun count hook index nodes acts items halt →
      AllRetold options count (ofActs none acts) told → told = Act.withoutEdits acts :=
    fun shown h => h.of_quiet shown.callsNode
  cases htrail with
  | unready shown =>
    obtain ⟨first, later, rfl, hfirst, hlater⟩ := allRetold_append.1 h
    obtain rfl := hfirst.of_telling
    obtain rfl := hshown shown hlater
    exact ⟨_, Act.withoutEdits_append .., .unready shown⟩
  | broken shown walked unstopped =>
    obtain ⟨_, mid, rfl, h, hmid⟩ := allRetold_append.1 h
    obtain ⟨start, first, rfl, hstart, hfirst⟩ := allRetold_append.1 h
    obtain rfl := hstart.of_telling
    obtain rfl := hshown shown hfirst
    obtain ⟨acts, rfl, hrun⟩ := TopTrail.retold walked hmid
    refine ⟨_, ?_, .broken shown hrun unstopped⟩
    exact (Act.withoutEdits_append [_] _).trans (by simp [Act.telling])
  | unfinished shown walked shownAgain =>
    obtain ⟨_, last, rfl, h, hlast⟩ := allRetold_append.1 h
    obtain ⟨_, mid, rfl, h, hmid⟩ := allRetold_append.1 h
    obtain ⟨start, first, rfl, hstart, hfirst⟩ := allRetold_append.1 h
    obtain rfl := hstart.of_telling
    obtain rfl := hshown shown hfirst
    obtain ⟨acts, rfl, hrun⟩ := walked.retold hmid
    obtain rfl := hshown shownAgain hlast
    refine ⟨_, ?_, .unfinished shown hrun shownAgain⟩
    exact (Act.withoutEdits_append [_] _).trans (by simp [Act.telling])
  | finished shown walked shownAgain =>
    obtain ⟨_, finish, rfl, h, hfinish⟩ := allRetold_append.1 h
    obtain ⟨_, last, rfl, h, hlast⟩ := allRetold_append.1 h
    obtain ⟨_, mid, rfl, h, hmid⟩ := allRetold_append.1 h
    obtain ⟨start, first, rfl, hstart, hfirst⟩ := allRetold_append.1 h
    obtain rfl := hstart.of_telling
    obtain rfl := hshown shown hfirst
    obtain ⟨acts, rfl, hrun⟩ := walked.retold hmid
    obtain rfl := hshown shownAgain hlast
    obtain rfl := hfinish.of_telling
    refine ⟨_, ?_, .finished shown hrun shownAgain⟩
    exact (Act.withoutEdits_append [_] _).trans (by simp [Act.telling])

end Runs

namespace Act

/-- The act with the reply changed if it is the call of a visitor with a node, the number of which
is given. -/
def changed (change : Nat → NodeReply ρ α → NodeReply ρ α) (number : Nat) : Act ρ α → Act ρ α
  | .node index name hook shown reply => .node index name hook shown (change number reply)
  | act => act

/-- The acts with the replies to calls with a node changed, where the first of these calls has a
given number. -/
def changeAll (change : Nat → NodeReply ρ α → NodeReply ρ α) :
    Nat → List (Act ρ α) → List (Act ρ α)
  | _, [] => []
  | number, act :: rest =>
    act.changed change number ::
      changeAll change (if act.callsNode then number + 1 else number) rest

variable (change : Nat → NodeReply ρ α → NodeReply ρ α)

@[simp] theorem callsNode_changed (number : Nat) (act : Act ρ α) :
    (act.changed change number).callsNode = act.callsNode := by
  cases act <;> rfl

end Act

namespace Moment

variable [Admission ρ α] {options : Options} {count : Nat}
  {change : Nat → NodeReply ρ α → NodeReply ρ α}

/-- Replies may be changed if in each call the new one may be given for the old one. -/
lemma allRetold_changeAll {trail : List (Moment ρ α)} {number : Nat}
    (h : ∀ before spot index name hook node reply after,
      trail = before ++ .acted (some spot) (.node index name hook node reply) :: after →
      reply.Interchangeable options count index hook spot.place
        (change (number + (acts before).countP Act.callsNode) reply)) :
    AllRetold options count trail
      (Act.changeAll change number (Act.withoutEdits (acts trail))) := by
  induction trail generalizing number with
  | nil => rfl
  | cons moment rest ih =>
    have hrest : ∀ next, (∀ before, number + (acts (moment :: before)).countP Act.callsNode =
        next + (acts before).countP Act.callsNode) →
        AllRetold options count rest
          (Act.changeAll change next (Act.withoutEdits (acts rest))) := by
      intro next hnext
      refine ih fun before spot index name hook node reply after heq => ?_
      rw [← hnext before]
      exact h (moment :: before) spot index name hook node reply after (congrArg (moment :: ·) heq)
    match moment with
    | .reached spot node => exact ⟨[], _, rfl, rfl, hrest number fun _ => rfl⟩
    | .acted spot (.event told) =>
      have hlater := hrest number fun _ => by simp [Act.callsNode]
      rcases hedit : (Act.event told : Act ρ α).tellsEdit with _ | _
      · refine ⟨[.event told], _, ?_, (Act.withoutEdits_cons hedit []).symm, hlater⟩
        rw [acts_acted, Act.withoutEdits_cons hedit]
        rfl
      · refine ⟨[], _, ?_, (Act.withoutEdits_cons_of_edit hedit []).symm, hlater⟩
        rw [acts_acted, Act.withoutEdits_cons_of_edit hedit]
        rfl
    | .acted spot (.sequence index name hook nodes reply) =>
      have hlater := hrest number fun _ => by simp [Act.callsNode]
      refine ⟨[.sequence index name hook nodes reply], _, ?_, rfl, hlater⟩
      rw [acts_acted, Act.withoutEdits_cons rfl]
      rfl
    | .acted spot (.node index name hook node reply) =>
      have hlater := hrest (number + 1) fun _ => by
        rw [acts_acted, List.countP_cons_of_pos rfl]
        omega
      refine ⟨[.node index name hook node (change number reply)], _, ?_, ⟨_, rfl, ?_⟩, hlater⟩
      · rw [acts_acted, Act.withoutEdits_cons rfl]
        rfl
      · rintro found ⟨⟩
        exact h [] found index name hook node reply rest rfl

end Moment

namespace Walker

/-- The walker with the replies to calls with a node changed, which are counted. It writes down its
acts. -/
def changing (change : Nat → NodeReply ρ α → NodeReply ρ α) (walker : Walker ρ α σ) :
    Walker ρ α (σ × List (Act ρ α)) :=
  walker.amended fun acts _ _ _ reply => change (acts.countP Act.callsNode) reply

variable {walker : Walker ρ α σ} {change : Nat → NodeReply ρ α → NodeReply ρ α}

lemma does_changing_iff {act : Act ρ α} {state final : σ} {done acts : List (Act ρ α)} :
    (walker.changing change).Does act (state, done) (final, acts) ↔
      acts = done ++ [act] ∧ ∃ original, act = original.changed change (done.countP Act.callsNode) ∧
        walker.Does original state final := by
  have hchanged : ∀ original : Act ρ α,
      original.amended (fun acts _ _ _ reply => change (acts.countP Act.callsNode) reply) done =
        original.changed change (done.countP Act.callsNode) := by
    intro original
    cases original <;> rfl
  simp only [changing, does_amended_iff, hchanged]

/-- A walker whose visitors do not heed edits does the changed acts, whichever edits are made known
with them. -/
lemma Heedless.changing {τ : Type} {view : σ → τ} (h : walker.Heedless view)
    {acts quiet : List (Act ρ α)} {number : Nat}
    (hacts : Act.withoutEdits acts = Act.changeAll change number quiet)
    {done : List (Act ρ α)} (hnumber : done.countP Act.callsNode = number) {state state' final : σ}
    (hview : view state' = view state) (hdoes : walker.DoesAll quiet state final) :
    ∃ final', (walker.changing change).DoesAll acts (state', done) (final', done ++ acts) ∧
      view final' = view final := by
  induction acts generalizing quiet number done state state' with
  | nil =>
    cases quiet with
    | nil =>
      obtain rfl := hdoes
      exact ⟨state', by simp, hview⟩
    | cons first more => cases hacts
  | cons act rest ih =>
    rcases hedit : act.tellsEdit with _ | _
    · rw [Act.withoutEdits_cons hedit] at hacts
      cases quiet with
      | nil => cases hacts
      | cons first more =>
        obtain ⟨rfl, hrest⟩ := List.cons.inj hacts
        obtain ⟨mid, hfirst, hmore⟩ := hdoes
        obtain ⟨mid', hfirst', hmid⟩ := h.does hview hfirst
        have hcount : (done ++ [first.changed change number]).countP Act.callsNode =
            if first.callsNode then number + 1 else number := by
          rw [List.countP_append, hnumber, List.countP_singleton, Act.callsNode_changed]
          split <;> rfl
        obtain ⟨final', hdone, hfinal⟩ := ih hrest hcount hmid hmore
        rw [List.append_assoc] at hdone
        exact ⟨final', ⟨_, does_changing_iff.2 ⟨rfl, first, by rw [hnumber], hfirst'⟩, hdone⟩,
          hfinal⟩
    · match act with
      | .event told =>
        rw [Act.withoutEdits_cons_of_edit hedit] at hacts
        have hcount : (done ++ [Act.event told]).countP Act.callsNode = number := by
          rw [List.countP_append, hnumber]
          rfl
        obtain ⟨final', hdone, hfinal⟩ :=
          ih hacts hcount ((h.tells state' hedit).trans hview) hdoes
        rw [List.append_assoc] at hdone
        exact ⟨final', ⟨_, does_changing_iff.2 ⟨rfl, .event told, rfl, rfl⟩, hdone⟩, hfinal⟩
      | .node .. | .sequence .. => cases hedit

section Traverse

variable [Admission ρ α]

theorem traverse_changing {τ : Type} {view : σ → τ} (h : walker.Heedless view) {stack : Nat}
    {nodes : List (Tree ρ α)} {state : σ} {trail : List (Moment ρ α)}
    (hleaves : walker.Leaves stack nodes state trail)
    (interchangeable : ∀ before spot index name hook node reply after,
      trail = before ++ .acted (some spot) (.node index name hook node reply) :: after →
      reply.Interchangeable walker.options walker.visitors.length index hook spot.place
        (change ((Moment.acts before).countP Act.callsNode) reply)) :
    let sweep := walker.traverse stack nodes state
    let sweep' := (walker.changing change).traverse stack nodes (state, [])
    sweep'.items = sweep.items ∧ sweep'.halt = sweep.halt ∧
      view sweep'.state.1 = view sweep.state ∧
      Act.withoutEdits sweep'.state.2 =
        Act.changeAll change 0 (Act.withoutEdits (walker.acts stack nodes state)) := by
  intro sweep sweep'
  have hretold : Moment.AllRetold walker.options walker.visitors.length trail
      (Act.changeAll change 0 (Act.withoutEdits (walker.acts stack nodes state))) := by
    rw [← hleaves.acts_eq]
    exact Moment.allRetold_changeAll (by simpa using interchangeable)
  obtain ⟨acts, hacts, hrun⟩ := hleaves.trodden.retold hretold
  obtain ⟨-, -, hdoes⟩ := walker.recorded_traverse stack nodes state
  obtain ⟨final, hquiet, hfinal⟩ := h.withoutEdits rfl hdoes
  obtain ⟨final', hdoes', hfinal'⟩ := h.changing hacts List.countP_nil rfl hquiet
  have hcount : (walker.changing change).visitors.length = walker.visitors.length :=
    walker.length_visitors_amended _
  rw [← hcount] at hrun
  have hsame : sweep' = ⟨sweep.items, sweep.halt, final', acts⟩ :=
    (walker.changing change).traverse_determined hrun hdoes'
  rw [hsame]
  exact ⟨rfl, rfl, hfinal'.trans hfinal, hacts⟩

end Traverse

end Walker

namespace Traverser

variable {V : Type}

section Interchange

variable [Admission ρ α]

/-- Answers that amount to the same may be given for each other. Let the replies in any number of
the calls with a node be changed, each to one that may be given for it at the place where the node
stands. Then the traversal ends in the same way and leaves the same sequence, the visitors are in
the same states, and all is done and written down as before, with the replies changed, except that
other edits are made known. -/
theorem nest_interchange (behaviour : Behaviour ρ α V) (traverser : Traverser)
    (change : Nat → NodeReply ρ α → NodeReply ρ α) {stack nesting : Nat} {nodes : List (Tree ρ α)}
    {roster : Roster ρ α V} {trail : List (Moment ρ α)}
    (hleaves : (traverser.walker behaviour (nest behaviour stack nesting)).Leaves stack nodes roster
      trail)
    (interchangeable : ∀ before spot index name hook node reply after,
      trail = before ++ .acted (some spot) (.node index name hook node reply) :: after →
      reply.Interchangeable traverser.options traverser.count index hook spot.place
        (change ((Moment.acts before).countP Act.callsNode) reply)) :
    let walker := traverser.walker behaviour (nest behaviour stack nesting)
    let sweep := nest behaviour stack (nesting + 1) traverser nodes roster
    let sweep' := (walker.changing change).traverse stack nodes (roster, [])
    sweep'.items = sweep.items ∧ sweep'.halt = sweep.halt ∧
      sweep'.state.1.cells = sweep.state.cells ∧
      (sweep'.state.1.journal.toList.filter fun entry => !entry.tellsEdit) =
        (sweep.state.journal.toList.filter fun entry => !entry.tellsEdit) ∧
      Act.withoutEdits sweep'.state.2 =
        Act.changeAll change 0 (Act.withoutEdits (walker.acts stack nodes roster)) := by
  intro walker sweep sweep'
  have heedless : walker.Heedless Roster.view :=
    (nest_oblivious behaviour stack nesting).heedless behaviour traverser
  have hcount : walker.visitors.length = traverser.count := length_walker
  obtain ⟨hitems, hhalt, hview, hacts⟩ :=
    Walker.traverse_changing heedless hleaves (hcount.symm ▸ interchangeable)
  obtain ⟨hcells, hjournal⟩ := Prod.mk.inj hview
  exact ⟨hitems, hhalt, hcells, hjournal, hacts⟩

end Interchange

/-- Puts something new in the place of every echo. -/
def refresh : Behaviour Shape Unit Unit where
  name := fun _ => "refresh"
  node := fun hook state node =>
    let directive : Directive (Tree Shape Unit) :=
      match hook with
      | .enter => if node.tag = "Stmt_Echo" then .replace { tag := "Stmt_Nop" } else .keep
      | .leave => .keep
    .finish { state := state, node := node, answer := .ok directive }

/-- Writes a new node over the old one instead of bringing it along. -/
def overwrite : NodeReply Shape Unit → NodeReply Shape Unit
  | .answered _ (.replace new) => .answered new .keep
  | reply => reply

/-- Where shapes are not checked it makes no difference whether a visitor brings a new node along or
writes it over the old one, but for the edit that is made known. -/
theorem refresh_interchange :
    let traverser : Traverser := { visitors := [0], options := { checkShapes := false } }
    let roster : Roster Shape Unit Unit := .ofList [()]
    let nodes : List (Tree Shape Unit) := [{ tag := "Stmt_Echo" }, { tag := "Stmt_Nop" }]
    let walker := traverser.walker refresh (nest refresh 3 0)
    let sweep := nest refresh 3 1 traverser nodes roster
    let sweep' := (walker.changing fun _ => overwrite).traverse 3 nodes (roster, [])
    sweep'.items = sweep.items ∧ sweep'.halt = sweep.halt ∧
      sweep'.state.1.events ≠ sweep.state.events := by
  intro traverser roster nodes walker sweep sweep'
  obtain ⟨trail, hleaves⟩ := walker.exists_leaves 3 nodes roster
  have interchangeable : ∀ (index : Nat) (hook : NodeHook) (place : Place Shape)
      (reply : NodeReply Shape Unit), reply.Interchangeable traverser.options traverser.count index
        hook place (overwrite reply) := by
    intro index hook place reply
    match reply with
    | .answered left (.replace new) => exact .inr (.inl (.overwritten nofun))
    | .answered _ .keep | .answered _ .remove | .answered _ (.splice _)
    | .answered _ .skipChildren | .answered _ .stop | .unavailable | .failed .. | .overflowed =>
      exact .inl rfl
  obtain ⟨hitems, hhalt, -⟩ := nest_interchange refresh traverser (fun _ => overwrite) hleaves
    fun _ spot index _ hook _ reply _ _ => interchangeable index hook spot.place reply
  have hevents : sweep'.state.1.events ≠ sweep.state.events := by
    decide +kernel
  exact ⟨hitems, hhalt, hevents⟩

end Traverser

end ForestWalk
