import ForestWalk.Proofs.Faults
/-!
How the moments of a trail account for the end of a traversal. It fails just if there is a fault at
some moment, and the error tells of the first of these.
-/

namespace ForestWalk

variable {ρ α σ : Type}

namespace Moment

/-- Whether something is made known at the moment. -/
def isEvent : Moment ρ α → Bool
  | .acted _ (.event _) => true
  | _ => false

variable [Admission ρ α] (options : Options) (base : Nat)

/-- The walk is not broken off at any of the moments. -/
def Clear (moments : List (Moment ρ α)) : Prop :=
  ∀ moment ∈ moments, ∀ why, ¬ moment.Breaks options base why

/-- The moments account for the end of a part of a walk. After a moment at which the walk is broken
off, nothing happens but that something is made known. -/
inductive Accounts : List (Moment ρ α) → Option Halt → Prop
  | through {moments : List (Moment ρ α)} (clear : Clear options base moments) :
      Accounts moments none
  | broken {before told : List (Moment ρ α)} {moment : Moment ρ α} {why : Halt}
      (clear : Clear options base before) (breaks : moment.Breaks options base why)
      (events : ∀ later ∈ told, later.isEvent = true) :
      Accounts (before ++ moment :: told) (some why)
  | noRoom {moments : List (Moment ρ α)} (clear : Clear options base moments) :
      Accounts moments (some .overflowed)

variable {options base}

@[simp] theorem clear_nil : Clear options base ([] : List (Moment ρ α)) :=
  fun _ hmem => absurd hmem List.not_mem_nil

@[simp] theorem clear_append {moments more : List (Moment ρ α)} :
    Clear options base (moments ++ more) ↔ Clear options base moments ∧ Clear options base more :=
  List.forall_mem_append

@[simp] theorem clear_cons {moment : Moment ρ α} {rest : List (Moment ρ α)} :
    Clear options base (moment :: rest) ↔
      (∀ why, ¬ moment.Breaks options base why) ∧ Clear options base rest :=
  List.forall_mem_cons

lemma clear_of_events {moments : List (Moment ρ α)}
    (h : ∀ moment ∈ moments, moment.isEvent = true) :
    Clear options base moments := by
  intro moment hmem why
  have hevent := h moment hmem
  match moment with
  | .acted spot (.event event) => exact not_breaks_event
  | .reached _ _ | .acted _ (.node ..) | .acted _ (.sequence ..) => cases hevent

omit [Admission ρ α] in
lemma isEvent_of_mem_telling (spot : Option (Spot ρ)) (event : Option Event) {moment : Moment ρ α}
    (hmem : moment ∈ ofActs spot (Act.telling event)) : moment.isEvent = true := by
  obtain ⟨act, hact, rfl⟩ := List.mem_map.1 hmem
  obtain ⟨event, -, rfl⟩ := List.mem_map.1 hact
  rfl

omit [Admission ρ α] in
/-- Nobody is called while something is made known. -/
lemma isCall_of_events {moments : List (Moment ρ α)}
    (h : ∀ moment ∈ moments, moment.isEvent = true) : ∀ act ∈ acts moments, act.isCall = false := by
  intro act hact
  obtain ⟨spot, hmem⟩ := mem_acts.1 hact
  have hevent := h _ hmem
  cases act with
  | event => rfl
  | node | sequence => cases hevent

lemma clear_ofActs_telling (spot : Option (Spot ρ)) (event : Option Event) :
    Clear options base (ofActs spot (Act.telling event) : List (Moment ρ α)) :=
  clear_of_events fun _ hmem => isEvent_of_mem_telling spot event hmem

lemma clear_telling (event : Option Event) :
    Clear options base (telling event : List (Moment ρ α)) :=
  clear_ofActs_telling none event

theorem clear_map_below {number slot : Nat} {moments : List (Moment ρ α)} :
    Clear options base (moments.map (below number slot)) ↔ Clear options (base + 1) moments := by
  simp only [Clear, List.forall_mem_map, breaks_below_iff]

lemma Accounts.clear {moments : List (Moment ρ α)} (h : Accounts options base moments none) :
    Clear options base moments := by
  cases h with
  | through clear => exact clear

lemma Accounts.prepend {before moments : List (Moment ρ α)} {halt : Option Halt}
    (hbefore : Clear options base before) (h : Accounts options base moments halt) :
    Accounts options base (before ++ moments) halt := by
  cases h with
  | through clear => exact .through (clear_append.2 ⟨hbefore, clear⟩)
  | broken clear breaks events =>
    rw [← List.append_assoc]
    exact .broken (clear_append.2 ⟨hbefore, clear⟩) breaks events
  | noRoom clear => exact .noRoom (clear_append.2 ⟨hbefore, clear⟩)

lemma Accounts.map_below (number slot : Nat) {moments : List (Moment ρ α)} {halt : Option Halt}
    (h : Accounts options (base + 1) moments halt) :
    Accounts options base (moments.map (Moment.below number slot)) halt := by
  cases h with
  | through clear => exact .through (clear_map_below.2 clear)
  | @broken before told moment why clear breaks events =>
    rw [List.map_append, List.map_cons]
    refine .broken (clear_map_below.2 clear) (breaks_below_iff.2 breaks) ?_
    rw [List.forall_mem_map]
    intro later hmem
    have hevent := events later hmem
    match later with
    | .acted _ (.event _) => rfl
    | .reached _ _ | .acted _ (.node ..) | .acted _ (.sequence ..) => cases hevent
  | noRoom clear => exact .noRoom (clear_map_below.2 clear)

end Moment

theorem Options.exceededAt_eq_some_iff {options : Options} {depth limit : Nat} :
    options.exceededAt depth = some limit ↔ options.maxDepth = some limit ∧ limit < depth := by
  simp [exceededAt, Option.filter_eq_some_iff]

/-- A visit that gives its contribution has not broken the walk off. -/
lemma Fate.why?_of_contribution {τ : Type} {fate : Fate τ} {given : List τ}
    (part : fate.contribution = some given) : fate.why? = none := by
  cases fate with
  | halt left why => cases part
  | _ => rfl

section Accounts

variable [Admission ρ α] {options : Options} {count : Nat}

open Moment

lemma ConsultRun.accounts (base : Nat) (spot : Spot ρ) {hook : NodeHook} {index : Nat}
    {node : Tree ρ α} {acts : List (Act ρ α)} {verdict : Verdict (Tree ρ α)}
    (hrun : ConsultRun options count hook spot.place index node acts verdict) :
    Accounts options base (ofActs (some spot) acts) verdict.why? := by
  induction hrun with
  | done node => exact .through clear_nil
  | @pass index name node next reply event acts verdict inRange judged others ih =>
    have hclear : ∀ why, ¬ (Moment.acted (some spot) (.node index name hook node reply)).Breaks
        options base why := by
      intro why hbreaks
      have hwhy := (Options.why_judge_eq_some_iff base).2 hbreaks
      rw [judged] at hwhy
      cases hwhy
    have hfirst : Clear options base
        (.acted (some spot) (.node index name hook node reply) ::
          ofActs (some spot) (Act.telling event)) :=
      clear_cons.2 ⟨hclear, clear_ofActs_telling _ _⟩
    have haccounts := ih.prepend hfirst
    simpa [ofActs] using haccounts
  | @settle index name node reply event verdict inRange judged settled =>
    rcases hwhy : verdict.why? with _ | why
    · refine .through (clear_cons.2 ⟨?_, clear_ofActs_telling _ _⟩)
      intro why hbreaks
      have hjudge := (Options.why_judge_eq_some_iff base).2 hbreaks
      rw [judged, hwhy] at hjudge
      cases hjudge
    · have hjudge : (options.judge hook spot.place ⟨.node hook, index, name⟩ node reply).1.why? =
          some why := by rw [judged, hwhy]
      exact .broken clear_nil ((Options.why_judge_eq_some_iff base).1 hjudge) fun _ hmem =>
        isEvent_of_mem_telling _ _ hmem

lemma ShowRun.accounts (base : Nat) {hook : SequenceHook} {index : Nat}
    {nodes items : List (Tree ρ α)} {acts : List (Act ρ α)} {halt : Option Halt}
    (hrun : ShowRun count hook index nodes acts items halt) :
    Accounts options base (ofActs none acts) halt := by
  induction hrun with
  | done nodes => exact .through clear_nil
  | @pass index name nodes next items reply event acts halt inRange judged others ih =>
    have hclear : ∀ why, ¬ (Moment.acted none (.sequence index name hook nodes reply)).Breaks
        options base why := by
      intro why hbreaks
      have hwhy := (SequenceReply.why_judge_eq_some_iff base).2 hbreaks
      rw [judged] at hwhy
      cases hwhy
    have hfirst : Clear options base
        (.acted none (.sequence index name hook nodes reply) ::
          ofActs none (Act.telling event)) :=
      clear_cons.2 ⟨hclear, clear_ofActs_telling _ _⟩
    have haccounts := ih.prepend hfirst
    simpa [ofActs] using haccounts
  | @halt index name nodes items reply event why inRange judged =>
    have hjudge : (reply.judge hook ⟨.sequence hook, index, name⟩ nodes).1.2 = some why := by
      rw [judged]
    exact .broken clear_nil ((SequenceReply.why_judge_eq_some_iff base).1 hjudge) fun _ hmem =>
      isEvent_of_mem_telling _ _ hmem

/-- The trails of a node account for what becomes of it. -/
structure Accounted (options : Options) (base : Nat)
    (trail : Nat → Tree ρ α → List (Moment ρ α) → Fate (Tree ρ α) → Prop) : Prop where
  accounts : ∀ {number node moments fate}, trail number node moments fate →
    Accounts options base moments fate.why?

lemma ListTrail.accounts {base : Nat}
    {trail : Nat → Tree ρ α → List (Moment ρ α) → Fate (Tree ρ α) → Prop}
    (h : Accounted options base trail) {slot : String} {emitted : Nat}
    {nodes items : List (Tree ρ α)} {moments : List (Moment ρ α)} {halt : Option Halt}
    (htrail : ListTrail trail slot emitted nodes moments items halt) :
    Accounts options base moments halt := by
  induction htrail with
  | nil emitted => exact .through clear_nil
  | cons visited part others ih =>
    have hvisited := h.accounts visited
    rw [Fate.why?_of_contribution part] at hvisited
    exact ih.prepend (clear_append.2 ⟨hvisited.clear, clear_telling _⟩)
  | halt visited => exact h.accounts visited

section Slots

variable {base : Nat}
  {trail : Place ρ → Nat → Tree ρ α → List (Moment ρ α) → Fate (Tree ρ α) → Prop}

lemma ContentTrail.accounts (h : ∀ place, Accounted options base (trail place)) {rule : Rule ρ}
    {content left : Content α (Tree ρ α)} {moments : List (Moment ρ α)} {halt : Option Halt}
    (htrail : ContentTrail trail rule content moments left halt) :
    Accounts options base moments halt := by
  cases htrail with
  | vacant | value => exact .through clear_nil
  | kept visited | spliced visited | halt visited => exact (h _).accounts visited
  | cleared visited =>
    have hvisited := (h _).accounts visited
    exact .through (clear_append.2 ⟨hvisited.clear, clear_telling _⟩)
  | list walked => exact ListTrail.accounts (h ⟨.list, rule⟩) walked

lemma SlotsTrail.accounts (h : ∀ place, Accounted options (base + 1) (trail place))
    {number slot : Nat} {slots items : List (Slot ρ α (Tree ρ α))} {moments : List (Moment ρ α)}
    {halt : Option Halt} (htrail : SlotsTrail trail number slot slots moments items halt) :
    Accounts options base moments halt := by
  induction htrail with
  | nil slot => exact .through clear_nil
  | cons walked others ih =>
    exact ih.prepend (clear_map_below.2 (walked.accounts h).clear)
  | halt walked => exact (walked.accounts h).map_below _ _

end Slots

lemma VisitTrail.accounts {depth : Nat}
    {below : Place ρ → Nat → Tree ρ α → List (Moment ρ α) → Fate (Tree ρ α) → Prop}
    (h : ∀ place, Accounted options (depth + 1) (below place)) (place : Place ρ) :
    Accounted options depth (VisitTrail options count below depth place) := by
  constructor
  intro number node moments fate htrail
  have hreached : options.exceededAt depth = none →
      Clear options depth [Moment.reached (.here place number) node] := by
    intro allowed
    refine clear_cons.2 ⟨?_, clear_nil⟩
    rintro why ⟨fault⟩
    cases fault with
    | tooDeep limited beyond =>
      have hexceeded : options.exceededAt depth = some _ :=
        Options.exceededAt_eq_some_iff.2 ⟨limited, beyond⟩
      rw [allowed] at hexceeded
      cases hexceeded
  cases htrail with
  | @tooDeep limit exceeded =>
    obtain ⟨limited, beyond⟩ := Options.exceededAt_eq_some_iff.1 exceeded
    exact .broken clear_nil (.fails (.tooDeep limited beyond)) fun _ hmem =>
      isEvent_of_mem_telling _ (some _) hmem
  | walked allowed entered descended left =>
    have henter := (entered.accounts depth (.here place number)).clear
    have hslots := (descended.accounts h).clear
    have hbefore := clear_append.2 ⟨hreached allowed, clear_append.2 ⟨henter, hslots⟩⟩
    exact (left.accounts depth (.here place number)).prepend hbefore
  | broken allowed entered descended =>
    have henter := (entered.accounts depth (.here place number)).clear
    exact (descended.accounts h).prepend (clear_append.2 ⟨hreached allowed, henter⟩)
  | skipped allowed entered left =>
    have henter := (entered.accounts depth (.here place number)).clear
    exact (left.accounts depth (.here place number)).prepend
      (clear_append.2 ⟨hreached allowed, henter⟩)
  | settled allowed entered proceeds skips =>
    exact (entered.accounts depth (.here place number)).prepend (hreached allowed)

theorem NodeTrail.accounts (room depth : Nat) (place : Place ρ) :
    Accounted (α := α) options depth (NodeTrail options count room depth place) := by
  induction room generalizing depth place with
  | zero =>
    constructor
    rintro number node moments fate ⟨rfl, rfl⟩
    exact .noRoom clear_nil
  | succ room ih => exact VisitTrail.accounts (fun place => ih (depth + 1) place) place

end Accounts

section Faults

variable [Admission ρ α] (options : Options)

/-- There is no fault at any of the moments. -/
def Moment.Faultless (moments : List (Moment ρ α)) : Prop :=
  ∀ moment ∈ moments, ∀ fault error, ¬ moment.Fails options 0 fault error

/-- The first fault in a trail, and the error that tells of it. -/
def Moment.FirstFault (trail : List (Moment ρ α)) (fault : Fault) (error : WalkError) : Prop :=
  ∃ before moment after, trail = before ++ moment :: after ∧ Faultless options before ∧
    moment.Fails options 0 fault error

/-- The first fault in a trail, after which nothing happens but that something is made known. -/
def Moment.LastFault (trail : List (Moment ρ α)) (fault : Fault) (error : WalkError) : Prop :=
  ∃ before moment told, trail = before ++ moment :: told ∧ Faultless options before ∧
    moment.Fails options 0 fault error ∧ ∀ later ∈ told, later.isEvent = true

/-- Two ways to part a list at an item. -/
lemma append_cons_cases {β : Type} {front other back rest : List β} {item another : β}
    (h : front ++ item :: back = other ++ another :: rest) :
    (front = other ∧ item = another ∧ back = rest) ∨ (another ∈ front ∧ item ∈ rest) ∨
      (item ∈ other ∧ another ∈ back) := by
  obtain ⟨more, hother, hback⟩ | ⟨more, hfront, hrest⟩ := List.append_eq_append_iff.1 h
  · cases more with
    | nil =>
      obtain ⟨rfl, rfl⟩ := List.cons.inj hback
      exact .inl ⟨by simpa using hother.symm, rfl, rfl⟩
    | cons first others =>
      obtain ⟨rfl, rfl⟩ := List.cons.inj hback
      exact .inr (.inr ⟨by simp [hother], by simp⟩)
  · cases more with
    | nil =>
      obtain ⟨rfl, rfl⟩ := List.cons.inj hrest
      exact .inl ⟨by simpa using hfront, rfl, rfl⟩
    | cons first others =>
      obtain ⟨rfl, rfl⟩ := List.cons.inj hrest
      exact .inr (.inl ⟨by simp [hfront], by simp⟩)

variable {options}

namespace Moment

lemma faultless_append {moments more : List (Moment ρ α)} :
    Faultless options (moments ++ more) ↔ Faultless options moments ∧ Faultless options more :=
  List.forall_mem_append

lemma Clear.faultless {moments : List (Moment ρ α)} (h : Clear options 0 moments) :
    Faultless options moments :=
  fun moment hmem _ _ fails => h moment hmem _ (.fails fails)

/-- One fault has one error. -/
lemma Fails.unique {base : Nat} {moment : Moment ρ α} {fault other : Fault}
    {error another : WalkError} (h : moment.Fails options base fault error)
    (h' : moment.Fails options base other another) : error = another := by
  match moment with
  | .reached spot node =>
    cases h with
    | tooDeep limited beyond =>
      cases h' with
      | tooDeep limited' beyond' =>
        rw [limited] at limited'
        rw [Option.some.inj limited']
  | .acted spot (.sequence index name hook nodes reply) =>
    have hjudge := (SequenceReply.why_judge_eq_some_iff base).2 (.fails h)
    rw [(SequenceReply.why_judge_eq_some_iff base).2 (.fails h')] at hjudge
    cases hjudge
    rfl
  | .acted _ (.event _) => cases h
  | .acted none (.node ..) =>
    cases h with
    | lentForNode | nodeHook =>
      cases h'
      rfl
  | .acted (some spot) (.node index name hook node reply) =>
    have hjudge := (Options.why_judge_eq_some_iff base).2 (.fails h)
    rw [(Options.why_judge_eq_some_iff base).2 (.fails h')] at hjudge
    cases hjudge
    rfl

lemma FirstFault.not_faultless {trail : List (Moment ρ α)} {fault : Fault} {error : WalkError}
    (h : FirstFault options trail fault error) : ¬ Faultless options trail := by
  obtain ⟨before, moment, after, rfl, -, fails⟩ := h
  intro hfree
  exact hfree moment (by simp) _ _ fails

/-- The first fault is one. -/
lemma FirstFault.unique {trail : List (Moment ρ α)} {fault other : Fault}
    {error another : WalkError} (h : FirstFault options trail fault error)
    (h' : FirstFault options trail other another) : error = another := by
  obtain ⟨before, moment, after, rfl, hbefore, fails⟩ := h
  obtain ⟨front, second, rest, hsplit, hfront, fails'⟩ := h'
  obtain ⟨-, rfl, -⟩ | ⟨hmem, -⟩ | ⟨hmem, -⟩ := append_cons_cases hsplit
  · exact fails.unique fails'
  · exact absurd fails' (hbefore _ hmem _ _)
  · exact absurd fails (hfront _ hmem _ _)

lemma Fails.isEvent_eq_false {base : Nat} {moment : Moment ρ α} {fault : Fault} {error : WalkError}
    (h : moment.Fails options base fault error) : moment.isEvent = false := by
  cases h <;> rfl

lemma LastFault.firstFault {trail : List (Moment ρ α)} {fault : Fault} {error : WalkError}
    (h : LastFault options trail fault error) : FirstFault options trail fault error := by
  obtain ⟨before, moment, told, htrail, hbefore, fails, -⟩ := h
  exact ⟨before, moment, told, htrail, hbefore, fails⟩

lemma LastFault.prepend {before trail : List (Moment ρ α)} {fault : Fault} {error : WalkError}
    (hbefore : Faultless options before) (h : LastFault options trail fault error) :
    LastFault options (before ++ trail) fault error := by
  obtain ⟨front, moment, told, rfl, hfront, fails, events⟩ := h
  exact ⟨before ++ front, moment, told, by simp, faultless_append.2 ⟨hbefore, hfront⟩, fails,
    events⟩

/-- Wherever there is a fault, it is the first one and the last. -/
lemma LastFault.of_fails {before after : List (Moment ρ α)} {moment : Moment ρ α}
    {fault other : Fault} {error another : WalkError}
    (h : LastFault options (before ++ moment :: after) fault error)
    (fails : moment.Fails options 0 other another) :
    Faultless options before ∧ another = error ∧ ∀ later ∈ after, later.isEvent = true := by
  obtain ⟨front, second, told, hsplit, hfront, fails', events⟩ := h
  obtain ⟨rfl, rfl, rfl⟩ | ⟨-, hmem⟩ | ⟨hmem, -⟩ := append_cons_cases hsplit
  · exact ⟨hfront, fails.unique fails', events⟩
  · have hevent := events _ hmem
    rw [fails.isEvent_eq_false] at hevent
    cases hevent
  · exact absurd fails (hfront _ hmem _ _)

lemma Accounts.faultless {moments : List (Moment ρ α)} {halt : Option Halt}
    (h : Accounts options 0 moments halt) (unfailed : ∀ error, halt ≠ some (.failed error)) :
    Faultless options moments := by
  cases h with
  | through clear => exact clear.faultless
  | noRoom clear => exact clear.faultless
  | @broken before told moment why clear breaks events =>
    refine faultless_append.2 ⟨clear.faultless, List.forall_mem_cons.2 ⟨?_, ?_⟩⟩
    · rintro fault error fails
      cases breaks with
      | fails other => exact unfailed _ rfl
      | stops => cases fails
      | nodeOverflows => cases fails
      | sequenceOverflows => cases fails
    · exact (clear_of_events events).faultless

lemma Accounts.exists_lastFault {moments : List (Moment ρ α)} {error : WalkError}
    (h : Accounts options 0 moments (some (.failed error))) :
    ∃ fault, LastFault options moments fault error := by
  cases h with
  | @broken before told moment why clear breaks events =>
    cases breaks with
    | fails fault => exact ⟨_, before, moment, told, rfl, clear.faultless, fault, events⟩

/-- What comes before has no fault, so the first fault is that of the rest, if there is one. -/
lemma Accounts.outcome {before moments : List (Moment ρ α)} {halt : Option Halt}
    (hbefore : Faultless options before) (h : Accounts options 0 moments halt) :
    (∀ error, halt = some (.failed error) →
      ∃ fault, LastFault options (before ++ moments) fault error) ∧
    ((∀ error, halt ≠ some (.failed error)) → Faultless options (before ++ moments)) := by
  constructor
  · rintro error rfl
    obtain ⟨fault, hlast⟩ := h.exists_lastFault
    exact ⟨fault, hlast.prepend hbefore⟩
  · intro unfailed
    exact faultless_append.2 ⟨hbefore, h.faultless unfailed⟩

end Moment

open Moment

omit [Admission ρ α] in
/-- Only a call with a node stops a walk. -/
lemma ShowRun.halt_ne_stopped {count index : Nat} {hook : SequenceHook}
    {nodes items : List (Tree ρ α)} {acts : List (Act ρ α)} {halt : Option Halt}
    (hrun : ShowRun count hook index nodes acts items halt) : halt ≠ some .stopped := by
  induction hrun with
  | done nodes => nofun
  | pass inRange judged others ih => exact ih
  | @halt index name nodes items reply event why inRange judged =>
    rintro ⟨⟩
    match reply with
    | .unavailable | .answered none | .answered (some _) | .failed _ | .overflowed => cases judged

variable {count : Nat}

lemma WalkTrail.faultless {room : Nat} {nodes items : List (Tree ρ α)}
    {moments : List (Moment ρ α)} (htrail : WalkTrail options count room nodes moments items) :
    Faultless options moments := by
  cases htrail with
  | through walked =>
    have haccounts := ListTrail.accounts (NodeTrail.accounts room 0 .topLevel) walked
    exact haccounts.faultless nofun
  | stopped walked =>
    have haccounts := ListTrail.accounts (NodeTrail.accounts room 0 .topLevel) walked
    exact faultless_append.2 ⟨haccounts.faultless nofun, (clear_telling _).faultless⟩

theorem TraversalTrail.outcome {room : Nat} {nodes items : List (Tree ρ α)}
    {trail : List (Moment ρ α)} {halt : Option Halt}
    (htrail : TraversalTrail options count room nodes trail items halt) :
    halt ≠ some .stopped ∧
      (∀ error, halt = some (.failed error) → ∃ fault, LastFault options trail fault error) ∧
      ((∀ error, halt ≠ some (.failed error)) → Faultless options trail) := by
  have hshown : ∀ {acts : List (Act ρ α)} {start : List (Tree ρ α)},
      ShowRun count .before 0 nodes acts start none →
      Faultless options (telling (some (.started nodes.length count)) ++ ofActs none acts) := by
    intro acts start shown
    exact faultless_append.2 ⟨(clear_telling _).faultless, (shown.accounts 0).faultless nofun⟩
  cases htrail with
  | unready shown =>
    exact ⟨shown.halt_ne_stopped, (shown.accounts 0).outcome (clear_telling _).faultless⟩
  | broken shown walked unstopped =>
    have haccounts := ListTrail.accounts (NodeTrail.accounts room 0 .topLevel) walked
    exact ⟨fun h => unstopped (Option.some.inj h), haccounts.outcome (hshown shown)⟩
  | unfinished shown walked shownAgain =>
    have hbefore := faultless_append.2 ⟨hshown shown, walked.faultless⟩
    exact ⟨shownAgain.halt_ne_stopped, (shownAgain.accounts 0).outcome hbefore⟩
  | finished shown walked shownAgain =>
    have hbefore := faultless_append.2 ⟨hshown shown, walked.faultless⟩
    have hlast := ((shownAgain.accounts 0).outcome hbefore).2 nofun
    exact ⟨nofun, nofun, fun _ => faultless_append.2 ⟨hlast, (clear_telling _).faultless⟩⟩

/-- A traversal that comes to an end has succeeded just if there is no fault in its trail, and
otherwise it fails with the error that tells of the first one. -/
theorem Walker.Leaves.outcome {walker : Walker ρ α σ} {stack : Nat} {nodes : List (Tree ρ α)}
    {state : σ} {trail : List (Moment ρ α)} (h : walker.Leaves stack nodes state trail) :
    let halt := (walker.traverse stack nodes state).halt
    halt ≠ some .stopped ∧
      (halt = none ↔ halt ≠ some .overflowed ∧ Faultless walker.options trail) ∧
      ∀ error, halt = some (.failed error) ↔
        halt ≠ some .overflowed ∧ ∃ fault, FirstFault walker.options trail fault error := by
  intro halt
  obtain ⟨unstopped, hfailed, hfree⟩ := h.trodden.outcome
  change halt ≠ some .stopped at unstopped
  refine ⟨unstopped, ⟨?_, ?_⟩, fun error => ⟨?_, ?_⟩⟩
  · intro hnone
    rw [hnone]
    exact ⟨nofun, hfree fun error he => by cases hnone.symm.trans he⟩
  · rintro ⟨returned, hfaultless⟩
    rcases hh : halt with _ | why
    · rfl
    · cases why with
      | stopped => exact absurd hh unstopped
      | overflowed => exact absurd hh returned
      | failed error =>
        obtain ⟨fault, hlast⟩ := hfailed error hh
        exact absurd hfaultless hlast.firstFault.not_faultless
  · intro he
    rw [he]
    obtain ⟨fault, hlast⟩ := hfailed error he
    exact ⟨nofun, fault, hlast.firstFault⟩
  · rintro ⟨returned, fault, hfirst⟩
    rcases hh : halt with _ | why
    · exact absurd (hfree fun error he => by cases hh.symm.trans he) hfirst.not_faultless
    · cases why with
      | stopped => exact absurd hh unstopped
      | overflowed => exact absurd hh returned
      | failed another =>
        obtain ⟨other, hother⟩ := hfailed another hh
        rw [hfirst.unique hother.firstFault]

end Faults

end ForestWalk
