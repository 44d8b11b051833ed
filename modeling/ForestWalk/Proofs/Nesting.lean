import ForestWalk.Proofs.Refusals
import ForestWalk.Proofs.Scenes
/-!
A traversal of a roster, with all that the hooks do while it runs, is a sequence of steps from scene
to scene. If it returns it leaves behind just what was under way before, and itself.
-/

namespace ForestWalk

variable {ρ α V : Type}

namespace Act

/-- The call runs out of room for the traversals that the hook starts. -/
def overflows : Act ρ α → Bool
  | .node _ _ _ _ .overflowed | .sequence _ _ _ _ .overflowed => true
  | _ => false

/-- Makes known that a traversal starts. -/
def isStart : Act ρ α → Bool
  | .event told => told.isStart
  | .node .. | .sequence .. => false

end Act

section Overflow

/-- After a call that overflows nobody is called, and the walk is broken off for it. -/
structure Spills (acts : List (Act ρ α)) (halt : Option Halt) : Prop where
  last : acts.Pairwise fun act later => act.overflows = true → later.isCall = false
  halted : halt ≠ some .overflowed → ∀ act ∈ acts, act.overflows = false

lemma Spills.prepend {before acts : List (Act ρ α)} {halt : Option Halt}
    (hbefore : ∀ act ∈ before, act.overflows = false) (h : Spills acts halt) :
    Spills (before ++ acts) halt := by
  constructor
  · refine List.pairwise_append.2 ⟨?_, h.last, ?_⟩
    · refine List.pairwise_of_forall_mem_list fun act hact later _ hover => ?_
      rw [hbefore act hact] at hover
      cases hover
    · intro act hact later _ hover
      rw [hbefore act hact] at hover
      cases hover
  · exact fun hne => List.forall_mem_append.2 ⟨hbefore, h.halted hne⟩

variable [Admission ρ α] {options : Options} {count : Nat}

namespace Moment

lemma Clear.overflows {base : Nat} {moments : List (Moment ρ α)}
    (h : Clear options base moments) : ∀ act ∈ acts moments, act.overflows = false := by
  intro act hact
  obtain ⟨spot, hmem⟩ := mem_acts.1 hact
  have hclear := h _ hmem .overflowed
  match act with
  | .node _ _ _ _ .overflowed => exact absurd .nodeOverflows hclear
  | .sequence _ _ _ _ .overflowed => exact absurd .sequenceOverflows hclear
  | .event _ | .node _ _ _ _ .unavailable | .node _ _ _ _ (.answered ..)
  | .node _ _ _ _ (.failed ..) | .sequence _ _ _ _ .unavailable | .sequence _ _ _ _ (.answered _)
  | .sequence _ _ _ _ (.failed _) => rfl

lemma Accounts.spills {base : Nat} {moments : List (Moment ρ α)} {halt : Option Halt}
    (h : Accounts options base moments halt) : Spills (acts moments) halt := by
  have hquiet : ∀ {moments : List (Moment ρ α)}, Clear options base moments →
      ∀ halt, Spills (acts moments) halt := by
    intro moments hclear halt
    have hspills : Spills ([] : List (Act ρ α)) halt := ⟨.nil, fun _ => by simp⟩
    simpa using hspills.prepend hclear.overflows
  cases h with
  | through clear => exact hquiet clear none
  | noRoom clear => exact hquiet clear _
  | @broken before told moment why clear breaks events =>
    have htold := isCall_of_events events
    have hquiet' := hquiet (clear_of_events events) (some why)
    rw [acts_append]
    refine Spills.prepend clear.overflows ?_
    match moment with
    | .reached spot node => exact hquiet'
    | .acted spot act =>
      refine ⟨List.pairwise_cons.2 ⟨fun later hmem _ => htold later hmem, hquiet'.last⟩, ?_⟩
      intro hne
      refine List.forall_mem_cons.2 ⟨?_, hquiet'.halted hne⟩
      rcases hover : act.overflows with _ | _
      · rfl
      · cases breaks with
        | fails fault => cases fault <;> cases hover
        | stops => cases hover
        | nodeOverflows | sequenceOverflows => exact absurd rfl hne

end Moment

variable {room : Nat} {nodes items : List (Tree ρ α)}

lemma WalkTrail.overflows {moments : List (Moment ρ α)}
    (htrail : WalkTrail options count room nodes moments items) :
    ∀ act ∈ Moment.acts moments, act.overflows = false := by
  cases htrail with
  | through walked =>
    have haccounts := ListTrail.accounts (NodeTrail.accounts room 0 .topLevel) walked
    exact haccounts.spills.halted nofun
  | stopped walked =>
    have haccounts := ListTrail.accounts (NodeTrail.accounts room 0 .topLevel) walked
    rw [Moment.acts_append, Moment.acts_telling]
    exact List.forall_mem_append.2
      ⟨haccounts.spills.halted nofun, forall_mem_telling fun _ _ => rfl⟩

theorem TraversalTrail.spills {trail : List (Moment ρ α)} {halt : Option Halt}
    (htrail : TraversalTrail options count room nodes trail items halt) :
    Spills (Moment.acts trail) halt := by
  have hshow : ∀ {hook start final acts halt}, ShowRun count hook 0 start acts final halt →
      Spills (α := α) (ρ := ρ) acts halt := by
    intro hook start final acts halt shown
    have haccounts : Moment.Accounts options 0 (Moment.ofActs none acts) halt := shown.accounts 0
    simpa using haccounts.spills
  have hstart : ∀ act ∈ (Act.telling (some (.started nodes.length count)) : List (Act ρ α)),
      act.overflows = false := forall_mem_telling fun _ _ => rfl
  cases htrail with
  | unready shown =>
    simpa using (hshow shown).prepend hstart
  | broken shown walked unstopped =>
    have haccounts := ListTrail.accounts (NodeTrail.accounts room 0 .topLevel) walked
    have hbefore := List.forall_mem_append.2 ⟨hstart, (hshow shown).halted nofun⟩
    simpa using haccounts.spills.prepend hbefore
  | unfinished shown walked shownAgain =>
    have hbefore := List.forall_mem_append.2 ⟨hstart, (hshow shown).halted nofun⟩
    have hbefore' := List.forall_mem_append.2 ⟨hbefore, walked.overflows⟩
    simpa using (hshow shownAgain).prepend hbefore'
  | finished shown walked shownAgain =>
    have hbefore := List.forall_mem_append.2 ⟨hstart, (hshow shown).halted nofun⟩
    have hbefore' := List.forall_mem_append.2 ⟨hbefore, walked.overflows⟩
    have hlast := List.forall_mem_append.2 ⟨hbefore', (hshow shownAgain).halted nofun⟩
    have hend : Spills (Act.telling (some (.finished items.length)) : List (Act ρ α)) none :=
      ⟨List.pairwise_singleton _ _, fun _ => forall_mem_telling fun _ _ => rfl⟩
    simpa using hend.prepend hlast

theorem TraversalRun.spills {acts : List (Act ρ α)} {halt : Option Halt}
    (hrun : TraversalRun options count room nodes acts items halt) : Spills acts halt := by
  obtain ⟨trail, htrail, rfl⟩ := hrun.exists_trail
  exact htrail.spills

end Overflow

section Start

variable [Admission ρ α] {options : Options} {count room : Nat} {nodes items : List (Tree ρ α)}
  {acts : List (Act ρ α)}

lemma ListRun.isStart_eq_false {halt : Option Halt}
    (hrun : TopRun options count room nodes acts items halt) :
    ∀ act ∈ acts, act.isStart = false := by
  refine TopRun.forall_walking (fun event hevent => ?_) (fun _ => rfl) hrun
  cases event with
  | started => cases hevent
  | _ => rfl

omit [Admission ρ α] in
lemma ShowRun.isStart_eq_false {hook : SequenceHook} {index : Nat} {halt : Option Halt}
    (hrun : ShowRun count hook index nodes acts items halt) :
    ∀ act ∈ acts, act.isStart = false := by
  refine ShowRun.forall_showing (fun event hevent => ?_) (fun _ => rfl) hrun
  cases event with
  | started => cases hevent
  | _ => rfl

lemma WalkRun.isStart_eq_false (hrun : WalkRun options count room nodes acts items) :
    ∀ act ∈ acts, act.isStart = false := by
  cases hrun with
  | through walked => exact ListRun.isStart_eq_false walked
  | stopped walked =>
    exact List.forall_mem_append.2 ⟨ListRun.isStart_eq_false walked,
      List.forall_mem_singleton.2 rfl⟩

/-- A traversal first makes known that it starts, and never again. -/
theorem TraversalRun.exists_start {halt : Option Halt}
    (hrun : TraversalRun options count room nodes acts items halt) :
    ∃ rest, acts = .event (.started nodes.length count) :: rest ∧
      ∀ act ∈ rest, act.isStart = false := by
  cases hrun with
  | unready shown => exact ⟨_, rfl, shown.isStart_eq_false⟩
  | broken shown walked unstopped =>
    exact ⟨_, rfl, List.forall_mem_append.2
      ⟨shown.isStart_eq_false, ListRun.isStart_eq_false walked⟩⟩
  | unfinished shown walked shownAgain =>
    refine ⟨_, rfl, ?_⟩
    simp only [List.forall_mem_append]
    exact ⟨⟨shown.isStart_eq_false, walked.isStart_eq_false⟩, shownAgain.isStart_eq_false⟩
  | finished shown walked shownAgain =>
    refine ⟨_, rfl, ?_⟩
    simp only [List.forall_mem_append]
    exact ⟨⟨⟨shown.isStart_eq_false, walked.isStart_eq_false⟩, shownAgain.isStart_eq_false⟩,
      List.forall_mem_singleton.2 rfl⟩

end Start

/-- Traversals run in steps. One that returns leaves on the stack what was there before, and
itself. -/
structure Stepped (nested : Traversal ρ α V) : Prop where
  steps : ∀ traverser nodes roster (stack : List Frame), stack.head? ≠ some .traversal →
    let sweep := nested traverser nodes roster
    ∃ deeds later, Scene.Steps deeds (⟨roster, stack⟩ : Scene ρ α V) ⟨sweep.state, later⟩ ∧
      (sweep.result ≠ none → later = .traversal :: stack)

section Steps

variable {nested : Traversal ρ α V} {visitor : Nat}

theorem Routine.perform_steps {β : Type} (h : Stepped nested) (visitor : Nat)
    (routine : Routine ρ α β) (roster : Roster ρ α V) (stack : List Frame) :
    let ended := routine.perform nested visitor roster
    ∃ deeds later, Scene.Steps deeds ⟨roster, .hook visitor :: stack⟩ ⟨ended.2, later⟩ ∧
      (ended.1 ≠ none → later = .hook visitor :: stack) := by
  induction routine generalizing roster with
  | finish answer => exact ⟨[], _, rfl, fun _ => rfl⟩
  | hold target mode next ih =>
    have hstep := Scene.Step.hold roster stack visitor target mode
    rcases hhold : roster.hold target mode with ⟨granted, after⟩
    rw [hhold] at hstep
    obtain ⟨deeds, later, hsteps, hlater⟩ := ih granted (after.note (.hold visitor target granted))
    simp only [perform, hhold]
    exact ⟨_, later, hsteps.cons hstep, hlater⟩
  | release target next ih =>
    have hstep := Scene.Step.release roster stack visitor target
    rcases hrelease : roster.release target with ⟨count, after⟩
    rw [hrelease] at hstep
    obtain ⟨deeds, later, hsteps, hlater⟩ := ih count (after.note (.release visitor target count))
    simp only [perform, hrelease]
    exact ⟨_, later, hsteps.cons hstep, hlater⟩
  | traverse traverser nodes next ih =>
    obtain ⟨deeds, later, hsteps, hlater⟩ :=
      h.steps traverser nodes roster (.hook visitor :: stack) (by simp)
    simp only [perform]
    rcases hresult : (nested traverser nodes roster).result with _ | result
    · exact ⟨deeds, later, hsteps, fun hne => absurd rfl hne⟩
    · obtain rfl := hlater (by simp [hresult])
      obtain ⟨more, last, hmore, hlast⟩ :=
        ih result ((nested traverser nodes roster).state.note (.nested visitor result))
      exact ⟨_, last, hsteps.trans (hmore.cons .nested), hlast⟩

/-- A call of a free visitor, from its begin to its end. -/
lemma Routine.call_steps {β : Type} (h : Stepped nested) {roster last : Roster ρ α V} {state : V}
    (free : roster.cells[visitor]? = some { state := state }) (request : Request ρ α)
    {routine : Routine ρ α β} {answer : Option β}
    (ended : routine.perform nested visitor
      ((roster.setLease visitor .hook).note (request.entry visitor)) = (answer, last))
    (left : β → V) (stack : List Frame) :
    let final := answer.elim last fun result => last.putBack visitor (left result)
    ∃ deeds later, Scene.Steps deeds ⟨roster, .traversal :: stack⟩ ⟨final, later⟩ ∧
      (answer ≠ none → later = .traversal :: stack) := by
  obtain ⟨deeds, later, hsteps, hlater⟩ := routine.perform_steps h visitor
    ((roster.setLease visitor .hook).note (request.entry visitor)) (.traversal :: stack)
  rw [ended] at hsteps hlater
  have hcalled := hsteps.cons (.call (Roster.takeForCall_of_free free))
  cases answer with
  | none => exact ⟨_, later, hcalled, fun hne => absurd rfl hne⟩
  | some result =>
    obtain rfl := hlater nofun
    have hreturned : Scene.Steps [.returned visitor]
        (⟨last, .hook visitor :: .traversal :: stack⟩ : Scene ρ α V)
        ⟨last.putBack visitor (left result), .traversal :: stack⟩ := ⟨_, .returned, rfl⟩
    exact ⟨_, _, hcalled.trans hreturned, fun _ => rfl⟩

variable {behaviour : Behaviour ρ α V}

lemma Roster.Called.steps (h : Stepped nested) {roster final : Roster ρ α V} {act : Act ρ α}
    (called : roster.Called behaviour nested visitor act final) (stack : List Frame) :
    ∃ deeds later, Scene.Steps deeds ⟨roster, .traversal :: stack⟩ ⟨final, later⟩ ∧
      (act.overflows = false → later = .traversal :: stack) := by
  cases called with
  | lentForNode | lentForSequence => exact ⟨[], _, rfl, fun _ => rfl⟩
  | nodeAnswered free ended | nodeFailed free ended =>
    obtain ⟨deeds, later, hsteps, hlater⟩ :=
      Routine.call_steps h free (.node _ _) ended NodeResult.state stack
    exact ⟨deeds, later, hsteps, fun _ => hlater nofun⟩
  | sequenceAnswered free ended | sequenceFailed free ended =>
    obtain ⟨deeds, later, hsteps, hlater⟩ :=
      Routine.call_steps h free (.sequence _ _) ended SequenceResult.state stack
    exact ⟨deeds, later, hsteps, fun _ => hlater nofun⟩
  | nodeOverflows free endless =>
    obtain ⟨deeds, later, hsteps, -⟩ :=
      Routine.call_steps h free (.node _ _) endless NodeResult.state stack
    exact ⟨deeds, later, hsteps, nofun⟩
  | sequenceOverflows free endless =>
    obtain ⟨deeds, later, hsteps, -⟩ :=
      Routine.call_steps h free (.sequence _ _) endless SequenceResult.state stack
    exact ⟨deeds, later, hsteps, nofun⟩

variable (behaviour) (traverser : Traverser)

namespace Traverser

lemma does_steps (h : Stepped nested) {act : Act ρ α} (goesOn : act.isStart = false)
    {roster final : Roster ρ α V}
    (hdoes : (traverser.walker behaviour nested).Does act roster final) (stack : List Frame) :
    ∃ deeds later, Scene.Steps deeds ⟨roster, .traversal :: stack⟩ ⟨final, later⟩ ∧
      (act.overflows = false → later = .traversal :: stack) := by
  cases act with
  | event event =>
    obtain rfl := hdoes
    exact ⟨[.event event], _, ⟨_, .tell goesOn, rfl⟩, fun _ => rfl⟩
  | node | sequence =>
    obtain ⟨number, -, hcalled, -⟩ := (does_call_iff rfl).1 hdoes
    exact hcalled.steps h stack

/-- While something is made known, nothing else changes. -/
lemma doesAll_events_steps {acts : List (Act ρ α)} (goesOn : ∀ act ∈ acts, act.isStart = false)
    (events : ∀ act ∈ acts, act.isCall = false) {roster final : Roster ρ α V}
    (hdoes : (traverser.walker behaviour nested).DoesAll acts roster final) (stack : List Frame) :
    ∃ deeds, Scene.Steps deeds (⟨roster, stack⟩ : Scene ρ α V) ⟨final, stack⟩ := by
  induction acts generalizing roster with
  | nil =>
    obtain rfl := hdoes
    exact ⟨[], rfl⟩
  | cons act rest ih =>
    obtain ⟨hact, hrest⟩ := List.forall_mem_cons.1 goesOn
    obtain ⟨hevent, hevents⟩ := List.forall_mem_cons.1 events
    obtain ⟨mid, hfirst, hothers⟩ := hdoes
    cases act with
    | event event =>
      obtain rfl := hfirst
      obtain ⟨deeds, hsteps⟩ := ih hrest hevents hothers
      exact ⟨_, hsteps.cons (.tell hact)⟩
    | node | sequence => cases hevent

lemma doesAll_steps (h : Stepped nested) {acts : List (Act ρ α)}
    (goesOn : ∀ act ∈ acts, act.isStart = false)
    (last : acts.Pairwise fun act later => act.overflows = true → later.isCall = false)
    {roster final : Roster ρ α V}
    (hdoes : (traverser.walker behaviour nested).DoesAll acts roster final) (stack : List Frame) :
    ∃ deeds later, Scene.Steps deeds ⟨roster, .traversal :: stack⟩ ⟨final, later⟩ ∧
      ((∀ act ∈ acts, act.overflows = false) → later = .traversal :: stack) := by
  induction acts generalizing roster with
  | nil =>
    obtain rfl := hdoes
    exact ⟨[], _, rfl, fun _ => rfl⟩
  | cons act rest ih =>
    obtain ⟨hact, hrest⟩ := List.forall_mem_cons.1 goesOn
    obtain ⟨hquiet, hlast⟩ := List.pairwise_cons.1 last
    obtain ⟨mid, hfirst, hothers⟩ := hdoes
    obtain ⟨deeds, later, hsteps, hlater⟩ := does_steps behaviour traverser h hact hfirst stack
    rcases hover : act.overflows with _ | _
    · obtain rfl := hlater hover
      obtain ⟨more, after, hmore, hafter⟩ := ih hrest hlast hothers
      exact ⟨_, after, hsteps.trans hmore, fun hall => hafter (List.forall_mem_cons.1 hall).2⟩
    · -- What is still made known does not change what is under way.
      have hevents := fun later hmem => hquiet later hmem hover
      obtain ⟨more, hmore⟩ := doesAll_events_steps behaviour traverser hrest hevents hothers later
      refine ⟨_, later, hsteps.trans hmore, fun hall => ?_⟩
      rw [(List.forall_mem_cons.1 hall).1] at hover
      cases hover

variable [Admission ρ α] (room : Nat)

/-- Traversals run in steps, however deep they may nest. -/
theorem nest_steps (nesting : Nat) : Stepped (nest (ρ := ρ) (α := α) behaviour room nesting) := by
  induction nesting with
  | zero => exact ⟨fun _ _ _ stack _ => ⟨[], stack, rfl, fun hne => absurd rfl hne⟩⟩
  | succ nesting ih =>
    constructor
    intro traverser nodes roster stack idle
    let walker := traverser.walker behaviour (nest behaviour room nesting)
    obtain ⟨-, hrun, hdoes⟩ := walker.recorded_traverse room nodes roster
    obtain ⟨rest, hacts, goesOn⟩ := hrun.exists_start
    have hspills := hrun.spills
    rw [hacts] at hdoes hspills
    obtain ⟨_, rfl, hrest⟩ := hdoes
    obtain ⟨deeds, later, hsteps, hlater⟩ := doesAll_steps behaviour traverser ih goesOn
      (List.pairwise_cons.1 hspills.last).2 hrest stack
    refine ⟨_, later, hsteps.cons (.start rfl idle), fun hne => hlater ?_⟩
    have hhalt := fun he => hne (Sweep.result_eq_none_iff.2 he)
    exact (List.forall_mem_cons.1 (hspills.halted hhalt)).2

end Traverser

end Steps

end ForestWalk
