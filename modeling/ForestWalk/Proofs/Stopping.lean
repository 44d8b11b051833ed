import ForestWalk.Proofs.CallWords
import ForestWalk.Proofs.Outcome
import ForestWalk.Proofs.Replay
/-!
What a visitor brings about that stops a walk. It is the last one that is called with a node, the
forest stays as it is at that moment, and then all visitors are shown this forest.
-/

namespace ForestWalk

variable {ρ α σ : Type}

/-- Whether the act calls a visitor with a node. -/
def Act.callsNode : Act ρ α → Bool
  | .node .. => true
  | .event _ | .sequence .. => false

/-- What is shown after a walk: to which visitor on the list, and which sequence. -/
def Act.shown? : Act ρ α → Option (Nat × List (Tree ρ α))
  | .sequence index _ .after shown _ => some (index, shown)
  | .sequence _ _ .before _ _ | .event _ | .node .. => none

section Parts

variable {β : Type} {front back part rest : List β} {item : β}

/-- An item that is not in the first part of a list is in the second. -/
lemma exists_of_notMem_left (h : front ++ item :: back = part ++ rest) (hnot : item ∉ part) :
    ∃ middle, front = part ++ middle ∧ middle ++ item :: back = rest := by
  obtain ⟨more, hpart, hback⟩ | ⟨more, hfront, hrest⟩ := List.append_eq_append_iff.1 h
  · cases more with
    | nil => exact ⟨[], by simpa using hpart.symm, by simpa using hback⟩
    | cons first others =>
      obtain ⟨rfl, -⟩ := List.cons.inj hback
      exact absurd (by simp [hpart]) hnot
  · exact ⟨more, hfront, hrest.symm⟩

/-- An item that is not in the second part of a list is in the first. -/
lemma exists_of_notMem_right (h : front ++ item :: back = part ++ rest) (hnot : item ∉ rest) :
    ∃ middle, back = middle ++ rest ∧ front ++ item :: middle = part := by
  obtain ⟨more, hpart, hback⟩ | ⟨more, hfront, hrest⟩ := List.append_eq_append_iff.1 h
  · cases more with
    | nil =>
      obtain rfl : item :: back = rest := hback
      exact absurd List.mem_cons_self hnot
    | cons first others =>
      obtain ⟨rfl, rfl⟩ := List.cons.inj hback
      exact ⟨others, rfl, hpart.symm⟩
  · exact absurd (by simp [hrest]) hnot

end Parts

section Break

variable [Admission ρ α] {options : Options} {base : Nat}

namespace Moment

/-- A moment breaks a walk off for one reason only. -/
lemma Breaks.unique {moment : Moment ρ α} {why other : Halt}
    (h : moment.Breaks options base why) (h' : moment.Breaks options base other) : why = other := by
  cases h with
  | fails fault =>
    cases h' with
    | fails fault' => rw [fault.unique fault']
    | stops | nodeOverflows | sequenceOverflows => cases fault
  | stops | nodeOverflows | sequenceOverflows =>
    cases h' with
    | fails fault => cases fault
    | _ => rfl

/-- The moment at which a walk is broken off accounts for its end, and after it nothing happens but
that something is made known. -/
lemma Accounts.of_breaks {before after : List (Moment ρ α)} {moment : Moment ρ α}
    {halt : Option Halt} {why : Halt}
    (h : Accounts options base (before ++ moment :: after) halt)
    (breaks : moment.Breaks options base why) :
    halt = some why ∧ ∀ later ∈ after, later.isEvent = true := by
  generalize htrail : before ++ moment :: after = trail at h
  cases h with
  | through clear | noRoom clear =>
    subst htrail
    exact absurd breaks (clear moment (by simp) why)
  | @broken front told other why' clear breaks' events =>
    obtain ⟨-, rfl, rfl⟩ | ⟨-, hmem⟩ | ⟨hmem, -⟩ := append_cons_cases htrail
    · exact ⟨congrArg some (breaks'.unique breaks), events⟩
    · exact absurd breaks (clear_of_events events moment hmem why)
    · exact absurd breaks (clear moment hmem why)

lemma redo_of_isEvent {moment : Moment ρ α} (h : moment.isEvent = true)
    (content : Content α (Tree ρ α)) : moment.redo options content = content := by
  match moment with
  | .acted spot (.event event) => exact redo_event spot event content
  | .reached _ _ | .acted _ (.node ..) | .acted _ (.sequence ..) => cases h

lemma replay_of_events {moments : List (Moment ρ α)}
    (h : ∀ moment ∈ moments, moment.isEvent = true) (content : Content α (Tree ρ α)) :
    replay options moments content = content := by
  induction moments generalizing content with
  | nil => rfl
  | cons moment rest ih =>
    obtain ⟨hmoment, hrest⟩ := List.forall_mem_cons.1 h
    rw [replay_cons, redo_of_isEvent hmoment, ih hrest]

end Moment

/-- A visitor that stops the walk leaves the node where it is. -/
lemma NodeReply.outcome_stop (options : Options) (hook : NodeHook) (place : Place ρ)
    (node left : Tree ρ α) :
    (NodeReply.answered left .stop).outcome options hook place node = [left] := by
  simp [outcome, Directive.outcome, Directive.carried, Options.firstRefused, Directive.legal]

end Break

section Shown

variable {count index : Nat} {nodes items : List (Tree ρ α)} {acts : List (Act ρ α)}
  {halt : Option Halt}

lemma Act.shown?_of_mem_telling {event : Option Event} :
    ∀ act ∈ (Act.telling event : List (Act ρ α)), act.shown? = none :=
  forall_mem_telling fun _ _ => rfl

lemma filterMap_shown?_cons {name : String} {reply : SequenceReply ρ α} {event : Option Event} :
    (Act.sequence index name .after nodes reply :: (Act.telling event ++ acts)).filterMap
      Act.shown? = (index, nodes) :: acts.filterMap Act.shown? := by
  have htold : (Act.telling event).filterMap Act.shown? = ([] : List (Nat × List (Tree ρ α))) :=
    List.filterMap_eq_nil_iff.2 Act.shown?_of_mem_telling
  rw [List.filterMap_cons_some (f := Act.shown?) rfl, List.filterMap_append, htold, List.nil_append]

/-- The visitors are shown the sequence in order, and all of them unless one breaks it off. -/
lemma ShowRun.shown (hrun : ShowRun count .after index nodes acts items halt) :
    let showings := acts.filterMap Act.shown?
    (index < count → showings.head? = some (index, nodes)) ∧
      showings.map Prod.fst = List.range' index showings.length ∧
      (halt = none → index + showings.length = count) := by
  induction hrun with
  | done nodes => simp
  | pass inRange judged others ih =>
    obtain ⟨-, hindex, hcount⟩ := ih
    rw [filterMap_shown?_cons]
    refine ⟨fun _ => rfl, ?_, fun hhalt => ?_⟩
    · rw [List.map_cons, hindex, List.length_cons, List.range'_succ]
    · have hlength := hcount hhalt
      rw [List.length_cons]
      omega
  | @halt index name nodes items reply event why inRange judged =>
    have hone := @filterMap_shown?_cons _ _ index nodes [] name reply event
    rw [List.append_nil] at hone
    rw [hone]
    exact ⟨fun _ => rfl, rfl, nofun⟩

lemma ShowRun.callsNode {hook : SequenceHook}
    (hrun : ShowRun count hook index nodes acts items halt) :
    ∀ act ∈ acts, act.callsNode = false :=
  hrun.forall_showing (fun _ _ => rfl) fun _ => rfl

/-- Showing the sequence is broken off just if a visitor does not answer. -/
lemma ShowRun.halt_eq_none_iff (hrun : ShowRun count .after index nodes acts items halt) :
    halt = none ↔ ∀ index name shown reply, Act.sequence index name .after shown reply ∈ acts →
      ∃ replacement, reply = .answered replacement := by
  have htold : ∀ {event : Option Event} {index name shown reply},
      Act.sequence (ρ := ρ) (α := α) index name .after shown reply ∉ Act.telling event := by
    intro event index name shown reply hmem
    cases Act.shown?_of_mem_telling _ hmem
  induction hrun with
  | done nodes => simp
  | @pass index name nodes next items reply event acts halt inRange judged others ih =>
    refine ih.trans ⟨?_, ?_⟩
    · intro hall index' name' shown' reply' hmem
      rcases List.mem_cons.1 hmem with heq | hmem
      · cases heq
        match reply with
        | .answered replacement => exact ⟨replacement, rfl⟩
        | .unavailable | .failed _ | .overflowed => cases judged
      · rcases List.mem_append.1 hmem with hmem | hmem
        · exact absurd hmem htold
        · exact hall _ _ _ _ hmem
    · intro hall index' name' shown' reply' hmem
      exact hall _ _ _ _ (List.mem_cons_of_mem _ (List.mem_append_right _ hmem))
  | @halt index name nodes items reply event why inRange judged =>
    constructor
    · nofun
    · intro hall
      obtain ⟨replacement, rfl⟩ := hall _ _ _ _ List.mem_cons_self
      cases replacement <;> cases judged

/-- What happens after a walk is over: the visitors are shown the forest, and beside that something
is made known. -/
structure Aftermath (count : Nat) (forest : List (Tree ρ α)) (acts : List (Act ρ α))
    (items : List (Tree ρ α)) (halt : Option Halt) : Prop where
  exists_run : ∃ told last ending, acts = told ++ last ++ ending ∧
    ShowRun count .after 0 forest last items halt ∧
    (∀ act ∈ told, act.isCall = false) ∧ ∀ act ∈ ending, act.isCall = false

lemma shown?_eq_none {act : Act ρ α} (h : act.isCall = false) : act.shown? = none := by
  cases act with
  | event => rfl
  | node | sequence => cases h

lemma callsNode_eq_false {act : Act ρ α} (h : act.isCall = false) : act.callsNode = false := by
  cases act with
  | event => rfl
  | node | sequence => cases h

variable {forest : List (Tree ρ α)}

lemma Aftermath.callsNode (h : Aftermath count forest acts items halt) :
    ∀ act ∈ acts, act.callsNode = false := by
  obtain ⟨told, last, ending, rfl, hrun, htold, hending⟩ := h
  simp only [List.forall_mem_append]
  exact ⟨⟨fun act hact => callsNode_eq_false (htold act hact), hrun.callsNode⟩,
    fun act hact => callsNode_eq_false (hending act hact)⟩

lemma Aftermath.showings (h : Aftermath count forest acts items halt) :
    let showings := acts.filterMap Act.shown?
    (0 < count → showings.head? = some (0, forest)) ∧
      showings.map Prod.fst = List.range showings.length ∧
      (halt = none → showings.length = count) := by
  obtain ⟨told, last, ending, rfl, hrun, htold, hending⟩ := h
  have hquiet : ∀ {acts : List (Act ρ α)}, (∀ act ∈ acts, act.isCall = false) →
      acts.filterMap Act.shown? = [] := fun hacts =>
    List.filterMap_eq_nil_iff.2 fun act hact => shown?_eq_none (hacts act hact)
  have hshowings : (told ++ last ++ ending).filterMap Act.shown? = last.filterMap Act.shown? := by
    rw [List.filterMap_append, List.filterMap_append, hquiet htold, hquiet hending, List.nil_append,
      List.append_nil]
  obtain ⟨hhead, hindex, hcount⟩ := hrun.shown
  rw [hshowings]
  refine ⟨hhead, ?_, fun hhalt => ?_⟩
  · rw [hindex, List.range_eq_range']
  · simpa using hcount hhalt

lemma Aftermath.halt_eq_none_iff (h : Aftermath count forest acts items halt) :
    halt = none ↔ ∀ index name shown reply, Act.sequence index name .after shown reply ∈ acts →
      ∃ replacement, reply = .answered replacement := by
  obtain ⟨told, last, ending, rfl, hrun, htold, hending⟩ := h
  rw [hrun.halt_eq_none_iff]
  constructor
  · intro hanswered index name shown reply hmem
    simp only [List.mem_append] at hmem
    obtain (hmem | hmem) | hmem := hmem
    · cases htold _ hmem
    · exact hanswered index name shown reply hmem
    · cases hending _ hmem
  · intro hanswered index name shown reply hmem
    exact hanswered index name shown reply
      (List.mem_append_left _ (List.mem_append_right _ hmem))

end Shown

section Stop

open Moment

variable {spot : Option (Spot ρ)} {index : Nat} {name : String} {hook : NodeHook}
  {shown left : Tree ρ α} {front back : List (Moment ρ α)}

lemma Moment.notMem_ofActs {acts : List (Act ρ α)} (hacts : ∀ act ∈ acts, act.callsNode = false)
    {act : Act ρ α} (hact : act.callsNode = true) (other : Option (Spot ρ)) :
    Moment.acted spot act ∉ ofActs other acts := by
  intro hmem
  obtain ⟨found, hfound, heq⟩ := List.mem_map.1 hmem
  cases heq
  rw [hacts _ hfound] at hact
  cases hact

variable [Admission ρ α] {options : Options} {count room : Nat} {nodes items : List (Tree ρ α)}

/-- The walk of the top-level sequence in which a visitor stops the walk: nothing comes of it but
what the call made of its node. -/
lemma TopTrail.of_stop {halt : Option Halt}
    (htrail : TopTrail options count room nodes
      (front ++ .acted spot (.node index name hook shown (.answered left .stop)) :: back) items
        halt) :
    halt = some .stopped ∧ (∀ later ∈ back, later.isEvent = true) ∧
      ∃ found, spot = some found ∧
        found.address.graft [left] (Moment.replay options front (.list nodes)) = .list items := by
  have hwalk := ListTrail.inWalk (NodeTrail.redone room 0 .topLevel) htrail _
    (List.mem_append_right front List.mem_cons_self)
  obtain ⟨found, rfl⟩ := Option.isSome_iff_exists.1 hwalk
  have haccounts := ListTrail.accounts (NodeTrail.accounts room 0 .topLevel) htrail
  obtain ⟨hhalt, events⟩ := haccounts.of_breaks .stops
  refine ⟨hhalt, events, found, rfl, ?_⟩
  have hreplay := TopTrail.replay htrail
  rw [replay_append, replay_cons, replay_of_events events] at hreplay
  rw [← hreplay, redo, NodeReply.outcome_stop]

lemma WalkTrail.of_stop
    (htrail : WalkTrail options count room nodes
      (front ++ .acted spot (.node index name hook shown (.answered left .stop)) :: back) items) :
    (∀ later ∈ back, later.isEvent = true) ∧
      ∃ found, spot = some found ∧
        found.address.graft [left] (Moment.replay options front (.list nodes)) = .list items := by
  generalize htrail' : front ++ _ :: back = trail at htrail
  cases htrail with
  | through walked =>
    subst htrail'
    cases (TopTrail.of_stop walked).1
  | stopped walked =>
    obtain ⟨middle, rfl, rfl⟩ := exists_of_notMem_right htrail'
      (notMem_ofActs (forall_mem_telling fun _ _ => rfl) rfl none)
    obtain ⟨-, events, hfound⟩ := TopTrail.of_stop walked
    refine ⟨List.forall_mem_append.2 ⟨events, ?_⟩, hfound⟩
    exact fun _ hmem => isEvent_of_mem_telling none _ hmem

/-- A traversal in which a visitor stops the walk: what the call made of its node is the last
change, and then the visitors are shown the forest as it is. -/
theorem TraversalTrail.of_stop {halt : Option Halt}
    (htrail : TraversalTrail options count room nodes
      (front ++ .acted spot (.node index name hook shown (.answered left .stop)) :: back) items
        halt) :
    ∃ found forest, spot = some found ∧
      found.address.graft [left] (Moment.replay options front (.list nodes)) = .list forest ∧
      Aftermath count forest (acts back) items halt := by
  have hfirst : ∀ {acts : List (Act ρ α)} {start halt},
      ShowRun count .before 0 nodes acts start halt →
      .acted spot (.node index name hook shown (.answered left .stop)) ∉
        (telling (some (.started nodes.length count)) ++ ofActs none acts : List (Moment ρ α)) := by
    intro acts start halt hshown hmem
    rcases List.mem_append.1 hmem with hmem | hmem
    · exact notMem_ofActs (forall_mem_telling fun _ _ => rfl) rfl none hmem
    · exact notMem_ofActs hshown.callsNode rfl none hmem
  -- The walk up to the call and after it, when the sequence was shown to all visitors before.
  have hwalked : ∀ {acts : List (Act ρ α)} {start mid : List (Tree ρ α)} {rest back},
      ShowRun count .before 0 nodes acts start none →
      WalkTrail options count room start rest mid →
      front ++ .acted spot (.node index name hook shown (.answered left .stop)) :: back =
        telling (some (.started nodes.length count)) ++ ofActs none acts ++ rest →
      (∀ act ∈ Moment.acts back, act.isCall = false) ∧ ∃ found, spot = some found ∧
        found.address.graft [left] (Moment.replay options front (.list nodes)) = .list mid := by
    intro acts start mid rest back hshown hwalk heq
    obtain ⟨middle, rfl, rfl⟩ := exists_of_notMem_left heq (hfirst hshown)
    obtain ⟨events, hfound⟩ := hwalk.of_stop
    refine ⟨isCall_of_events events, ?_⟩
    rwa [replay_append, replay_append, replay_telling, hshown.replay]
  generalize htrail' : front ++ _ :: back = trail at htrail
  cases htrail with
  | unready hshown =>
    have hmem : .acted spot (.node index name hook shown (.answered left .stop)) ∈
        front ++ .acted spot (.node index name hook shown (.answered left .stop)) :: back :=
      List.mem_append_right front List.mem_cons_self
    rw [htrail'] at hmem
    exact absurd hmem (hfirst hshown)
  | broken hshown walked unstopped =>
    obtain ⟨middle, rfl, rfl⟩ := exists_of_notMem_left htrail' (hfirst hshown)
    exact absurd (Option.some.inj (TopTrail.of_stop walked).1) unstopped
  | @unfinished start mid _ acts last moments why hshown walked shownAgain =>
    obtain ⟨middle, rfl, heq⟩ := exists_of_notMem_right htrail'
      (notMem_ofActs shownAgain.callsNode rfl none)
    obtain ⟨hcalls, found, rfl, hgraft⟩ := hwalked hshown walked heq
    refine ⟨found, mid, rfl, hgraft, Moment.acts middle, last, [], by simp, shownAgain, hcalls, ?_⟩
    simp
  | @finished start mid _ acts last moments hshown walked shownAgain =>
    obtain ⟨rest, rfl, hrest⟩ := exists_of_notMem_right htrail'
      (notMem_ofActs (forall_mem_telling fun _ _ => rfl) rfl none)
    obtain ⟨middle, rfl, heq⟩ := exists_of_notMem_right hrest
      (notMem_ofActs shownAgain.callsNode rfl none)
    obtain ⟨hcalls, found, rfl, hgraft⟩ := hwalked hshown walked heq
    refine ⟨found, mid, rfl, hgraft, Moment.acts middle, last,
      Act.telling (some (.finished items.length)), by simp, shownAgain, hcalls, ?_⟩
    exact forall_mem_telling fun _ _ => rfl

end Stop

namespace Walker

variable [Admission ρ α] (walker : Walker ρ α σ)

/-- When a visitor stops a walk, no visitor is called with a node any more. In every trail of the
traversal the call has an address, and what it left of its node is the last change of the forest.
Just this forest is then shown to the first visitor, and the others are called in order. All of them
are called if the traversal succeeds, and it does unless one of these calls fails. -/
theorem traverse_stopped_by {stack : Nat} {nodes : List (Tree ρ α)} {state : σ}
    {before after : List (Act ρ α)} {index : Nat} {name : String} {hook : NodeHook}
    {shown left : Tree ρ α}
    (stop : walker.acts stack nodes state =
      before ++ .node index name hook shown (.answered left .stop) :: after) :
    let sweep := walker.traverse stack nodes state
    let showings := after.filterMap Act.shown?
    (∀ act ∈ after, act.callsNode = false) ∧
      (∀ trail, walker.Leaves stack nodes state trail → ∃ front spot back forest,
        trail = front ++
            .acted (some spot) (.node index name hook shown (.answered left .stop)) :: back ∧
          Moment.acts front = before ∧ Moment.acts back = after ∧
          spot.address.graft [left] (Moment.replay walker.options front (.list nodes)) =
            .list forest ∧
          showings.head? = some (0, forest)) ∧
      showings.map Prod.fst = List.range showings.length ∧
      (sweep.halt = none → showings.length = walker.visitors.length) ∧
      (sweep.halt = none ↔
        ∀ index name shown reply, .sequence index name .after shown reply ∈ after →
          ∃ replacement, reply = .answered replacement) := by
  intro sweep showings
  have hcount : 0 < walker.visitors.length := by
    obtain ⟨-, -, hdoes⟩ := walker.recorded_traverse stack nodes state
    rw [stop] at hdoes
    obtain ⟨_, _, visitor, hv, -⟩ :=
      hdoes.exists_does (List.mem_append_right before List.mem_cons_self)
    exact Nat.zero_lt_of_lt (List.getElem?_eq_some_iff.1 hv).1
  have haftermath : ∀ trail, walker.Leaves stack nodes state trail →
      ∃ front spot back forest,
        trail = front ++
            .acted (some spot) (.node index name hook shown (.answered left .stop)) :: back ∧
          Moment.acts front = before ∧ Moment.acts back = after ∧
          spot.address.graft [left] (Moment.replay walker.options front (.list nodes)) =
            .list forest ∧
          Aftermath walker.visitors.length forest after sweep.items sweep.halt := by
    intro trail hleaves
    obtain ⟨front, spot, back, rfl, hfront, rfl⟩ :=
      Moment.exists_of_acts_eq (hleaves.acts_eq.trans stop)
    obtain ⟨found, forest, rfl, hgraft, hafter⟩ := hleaves.trodden.of_stop
    exact ⟨front, found, back, forest, rfl, hfront, rfl, hgraft, hafter⟩
  obtain ⟨trail, hleaves⟩ := walker.exists_leaves stack nodes state
  obtain ⟨-, -, -, forest, -, -, -, -, hafter⟩ := haftermath trail hleaves
  obtain ⟨-, hindex, hall⟩ := hafter.showings
  refine ⟨hafter.callsNode, fun trail hleaves => ?_, hindex, hall, hafter.halt_eq_none_iff⟩
  obtain ⟨front, spot, back, forest, htrail, hfront, hback, hgraft, hafter⟩ :=
    haftermath trail hleaves
  exact ⟨front, spot, back, forest, htrail, hfront, hback, hgraft, hafter.showings.1 hcount⟩

/-- Takes out empty statements when they are entered, and stops at an echo. -/
def haltAtEcho : NodeHook → Tree Shape Unit → NodeReply Shape Unit
  | .enter, node =>
    if node.tag = "Stmt_Nop" then .answered node .remove
    else if node.tag = "Stmt_Echo" then .answered { node with label := some "last" } .stop
    else .answered node .keep
  | .leave, node => .answered node .keep

/-- A block with an echo between empty statements. -/
def haltAtEchoBlock : Tree Shape Unit where
  tag := "Stmt_Block"
  slots := [⟨⟨"body", some .stmt⟩,
    .list [{ tag := "Stmt_Nop" }, { tag := "Stmt_Echo" }, { tag := "Stmt_Nop" }]⟩]

/-- The first of the empty statements is taken out, and then the walk ends. -/
theorem haltAtEcho_stopped_by :
    let walker := Walker.stateless {} "halt" haltAtEcho
    let sweep := walker.traverse 3 [haltAtEchoBlock] ()
    ∃ before after index name hook shown left,
      walker.acts 3 [haltAtEchoBlock] () =
          before ++ .node index name hook shown (.answered left .stop) :: after ∧
        (∀ act ∈ after, act.callsNode = false) ∧ sweep.halt = none ∧
        (after.filterMap Act.shown?).length = 1 := by
  intro walker sweep
  have hhalt : sweep.halt = none := by
    decide +kernel
  have hstops : (walker.acts 3 [haltAtEchoBlock] ()).any Act.stops = true := by
    decide +kernel
  obtain ⟨act, hmem, hact⟩ := List.any_eq_true.1 hstops
  obtain ⟨before, after, stop⟩ := List.append_of_mem hmem
  match act with
  | .node index name hook shown (.answered left .stop) =>
    obtain ⟨hquiet, -, -, hall, -⟩ := walker.traverse_stopped_by stop
    exact ⟨before, after, index, name, hook, shown, left, stop, hquiet, hhalt, hall hhalt⟩
  | .node _ _ _ _ (.answered _ .keep) | .node _ _ _ _ (.answered _ (.replace _))
  | .node _ _ _ _ (.answered _ .remove) | .node _ _ _ _ (.answered _ (.splice _))
  | .node _ _ _ _ (.answered _ .skipChildren) | .node _ _ _ _ .unavailable
  | .node _ _ _ _ (.failed ..) | .node _ _ _ _ .overflowed | .event _ | .sequence .. => cases hact

end Walker

end ForestWalk
