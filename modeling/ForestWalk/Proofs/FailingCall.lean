import ForestWalk.Proofs.Adequacy
/-!
Failing in a call with a node, compared to stopping there. `Walker.stoppingAt` has the same
visitors, but in one call the visitor asks to stop, once it has changed the node as before. A
traversal that fails in this call leaves what the other one leaves.
-/

namespace ForestWalk

variable {ρ α σ : Type}

/-- The hook in which a walk failed. -/
def Halt.hook : Halt → Option Hook
  | .failed error => error.hook
  | .stopped | .overflowed => none

lemma Halt.exists_error {halt : Option Halt} {hook : Hook}
    (h : halt.bind Halt.hook = some hook) :
    ∃ error, halt = some (.failed error) ∧ error.hook = some hook := by
  obtain ⟨why, rfl, hwhy⟩ := Option.bind_eq_some_iff.1 h
  cases why with
  | failed error => exact ⟨error, rfl, hwhy⟩
  | stopped | overflowed => cases hwhy

/-- The call that a failure comes from. It is the last call among the acts, and after it nothing but
a warning is made known. -/
structure FailingCall [Admission ρ α] (options : Options) (error : WalkError)
    (acts : List (Act ρ α)) where
  before : List (Act ρ α)
  index : Nat
  name : String
  hook : NodeHook
  place : Place ρ
  node : Tree ρ α
  reply : NodeReply ρ α
  warning : Option Event
  acts_eq : acts = before ++ .node index name hook node reply :: Act.telling warning
  judged : options.judge hook place ⟨.node hook, index, name⟩ node reply =
    (.halt (reply.left node) (.failed error), warning)
  level_warning : ∀ event ∈ warning, event.level = .warn

namespace FailingCall

variable [Admission ρ α] {options : Options} {error : WalkError} {acts : List (Act ρ α)}

/-- The acts up to the call, in which now the visitor asks to stop. -/
def stopped (call : FailingCall options error acts) : List (Act ρ α) :=
  call.before ++
    [.node call.index call.name call.hook call.node
      (.answered (call.reply.left call.node) .stop)]

/-- Puts acts in front. -/
def prepend (front : List (Act ρ α)) (call : FailingCall options error acts) :
    FailingCall options error (front ++ acts) :=
  { call with before := front ++ call.before, acts_eq := by simp [call.acts_eq] }

@[simp] theorem stopped_prepend (front : List (Act ρ α)) (call : FailingCall options error acts) :
    (call.prepend front).stopped = front ++ call.stopped := by
  simp [stopped, prepend]

end FailingCall

/-- Where a run of a node fails in a call, there is a run that stops in this call and leaves the
same. -/
structure Stoppable [Admission ρ α] (options : Options)
    (run : Tree ρ α → List (Act ρ α) → Fate (Tree ρ α) → Prop) : Prop where
  stoppable : ∀ {node acts left error hook}, run node acts (.halt left (.failed error)) →
    error.hook = some (.node hook) →
    ∃ call : FailingCall options error acts, run node call.stopped (.halt left .stopped)

section Runs

variable [Admission ρ α] {options : Options} {count : Nat} {error : WalkError} {hook : NodeHook}

lemma ConsultRun.stoppable {asked : NodeHook} {place : Place ρ} {index : Nat}
    {node left : Tree ρ α} {acts : List (Act ρ α)}
    (hrun : ConsultRun options count asked place index node acts (.halt left (.failed error))) :
    ∃ call : FailingCall options error acts,
      ConsultRun options count asked place index node call.stopped (.halt left .stopped) := by
  generalize hv : Verdict.halt left (Halt.failed error) = verdict at hrun
  induction hrun with
  | done node => cases hv
  | @pass index name node next reply event acts verdict inRange judged others ih =>
    obtain ⟨call, hrun⟩ := ih hv
    refine ⟨call.prepend (.node index name asked node reply :: Act.telling event), ?_⟩
    simpa using ConsultRun.pass inRange judged hrun
  | @settle index name node reply event verdict inRange judged settled =>
    subst hv
    obtain ⟨left', directive, -, -, -, hv, -⟩ | ⟨-, hv, -⟩ | ⟨error', hv, -, level, -⟩ :=
      Options.judge_cases rfl judged
    · cases directive <;> cases hv
    · cases hv
    · cases hv
      -- This is the call, and nothing was done before it in this run.
      refine ⟨⟨[], index, name, asked, place, node, reply, event, rfl, judged, level⟩, ?_⟩
      have hstop := options.judge_stop asked place ⟨.node asked, index, name⟩ node (reply.left node)
      have hsettled : ∀ next, Verdict.halt (reply.left node) .stopped ≠ .proceed next := nofun
      simpa [FailingCall.stopped, Act.telling] using ConsultRun.settle inRange hstop hsettled

lemma ListRun.stoppable {run : Tree ρ α → List (Act ρ α) → Fate (Tree ρ α) → Prop}
    (h : Stoppable options run) (ofNode : error.hook = some (.node hook)) {slot : String}
    {emitted : Nat} {nodes items : List (Tree ρ α)} {acts : List (Act ρ α)}
    (hrun : ListRun run slot emitted nodes acts items (some (.failed error))) :
    ∃ call : FailingCall options error acts,
      ListRun run slot emitted nodes call.stopped items (some .stopped) := by
  generalize hh : some (Halt.failed error) = halt at hrun
  induction hrun with
  | nil emitted => cases hh
  | @cons emitted node rest given items fate acts more halt visited part others ih =>
    obtain ⟨call, hrun⟩ := ih hh
    refine ⟨call.prepend (acts ++ Act.telling (fate.event slot emitted)), ?_⟩
    simpa using ListRun.cons visited part hrun
  | halt visited =>
    cases hh
    obtain ⟨call, hrun⟩ := h.stoppable visited ofNode
    exact ⟨call, .halt hrun⟩

section Slots

variable {run : Place ρ → Tree ρ α → List (Act ρ α) → Fate (Tree ρ α) → Prop}

lemma ContentRun.stoppable (h : ∀ place, Stoppable options (run place))
    (ofNode : error.hook = some (.node hook)) {rule : Rule ρ} {content left : Content α (Tree ρ α)}
    {acts : List (Act ρ α)}
    (hrun : ContentRun run rule content acts left (some (.failed error))) :
    ∃ call : FailingCall options error acts,
      ContentRun run rule content call.stopped left (some .stopped) := by
  cases hrun with
  | halt visited =>
    obtain ⟨call, hrun⟩ := (h _).stoppable visited ofNode
    exact ⟨call, .halt hrun⟩
  | list walked =>
    obtain ⟨call, hrun⟩ := ListRun.stoppable (h _) ofNode walked
    exact ⟨call, .list hrun⟩

lemma SlotsRun.stoppable (h : ∀ place, Stoppable options (run place))
    (ofNode : error.hook = some (.node hook)) {slots items : List (Slot ρ α (Tree ρ α))}
    {acts : List (Act ρ α)} (hrun : SlotsRun run slots acts items (some (.failed error))) :
    ∃ call : FailingCall options error acts,
      SlotsRun run slots call.stopped items (some .stopped) := by
  generalize hh : some (Halt.failed error) = halt at hrun
  induction hrun with
  | nil => cases hh
  | @cons rule content left rest items acts more halt walked others ih =>
    obtain ⟨call, hrun⟩ := ih hh
    refine ⟨call.prepend acts, ?_⟩
    simpa using SlotsRun.cons walked hrun
  | halt walked =>
    cases hh
    obtain ⟨call, hrun⟩ := walked.stoppable h ofNode
    exact ⟨call, .halt hrun⟩

end Slots

lemma VisitRun.stoppable
    {below : Place ρ → Tree ρ α → List (Act ρ α) → Fate (Tree ρ α) → Prop}
    (h : ∀ place, Stoppable options (below place)) (depth : Nat) (place : Place ρ) :
    Stoppable options (VisitRun options count below depth place) := by
  constructor
  intro node acts final error hook hrun ofNode
  generalize hf : Fate.halt final (Halt.failed error) = fate at hrun
  cases hrun with
  | tooDeep exceeded =>
    cases hf
    cases ofNode
  | @walked mid slots acts more last verdict allowed entered descended left =>
    obtain rfl := Verdict.eq_halt hf
    obtain ⟨call, hrun⟩ := left.stoppable
    refine ⟨call.prepend (acts ++ more), ?_⟩
    rw [FailingCall.stopped_prepend]
    exact .walked allowed entered descended hrun
  | @broken mid slots acts more why allowed entered descended =>
    cases hf
    obtain ⟨call, hrun⟩ := descended.stoppable h ofNode
    refine ⟨call.prepend acts, ?_⟩
    rw [FailingCall.stopped_prepend]
    exact .broken allowed entered hrun
  | @skipped mid acts last verdict allowed entered left =>
    obtain rfl := Verdict.eq_halt hf
    obtain ⟨call, hrun⟩ := left.stoppable
    refine ⟨call.prepend acts, ?_⟩
    rw [FailingCall.stopped_prepend]
    exact .skipped allowed entered hrun
  | settled allowed entered proceeds skips =>
    obtain rfl := Verdict.eq_halt hf
    obtain ⟨call, hrun⟩ := entered.stoppable
    exact ⟨call, .settled allowed hrun nofun nofun⟩

theorem NodeRun.stoppable (room depth : Nat) (place : Place ρ) :
    Stoppable (α := α) options (NodeRun options count room depth place) := by
  induction room generalizing depth place with
  | zero =>
    constructor
    rintro node acts left error hook ⟨-, hf⟩ -
    cases hf
  | succ room ih => exact VisitRun.stoppable (fun place => ih (depth + 1) place) depth place

omit [Admission ρ α] in
/-- Only a call with the sequence fails while the sequence is shown. -/
lemma ShowRun.hook_error {shown : SequenceHook} {index : Nat} {nodes items : List (Tree ρ α)}
    {acts : List (Act ρ α)}
    (hrun : ShowRun count shown index nodes acts items (some (.failed error))) :
    error.hook = some (.sequence shown) := by
  generalize hh : some (Halt.failed error) = halt at hrun
  induction hrun with
  | done nodes => cases hh
  | pass inRange judged others ih => exact ih hh
  | @halt index name nodes items reply event why inRange judged =>
    obtain rfl := Option.some.inj hh
    match reply with
    | .answered none | .answered (some _) | .overflowed => cases judged
    | .unavailable | .failed _ =>
      cases judged
      rfl

/-- A traversal that fails in a call with a node has been ready to walk, and there is a walk that
stops in this call. -/
theorem TraversalRun.stoppable {room : Nat} {nodes items : List (Tree ρ α)}
    {acts : List (Act ρ α)}
    (hrun : TraversalRun options count room nodes acts items (some (.failed error)))
    (ofNode : error.hook = some (.node hook)) :
    ∃ start first, ShowRun count .before 0 nodes first start none ∧
      ∃ call : FailingCall options error acts, ∃ walk,
        call.stopped = .event (.started nodes.length count) :: (first ++ walk) ∧
        TopRun options count room start walk items (some .stopped) := by
  cases hrun with
  | unready shown =>
    rw [shown.hook_error] at ofNode
    cases ofNode
  | broken shown walked unstopped =>
    obtain ⟨call, hstop⟩ := ListRun.stoppable (NodeRun.stoppable room 0 .topLevel) ofNode walked
    refine ⟨_, _, shown, call.prepend (.event (.started nodes.length count) :: _), _, ?_, hstop⟩
    simp
  | unfinished shown walked shownAgain =>
    rw [shownAgain.hook_error] at ofNode
    cases ofNode

end Runs

/-- A visitor that is shown the final sequence lets it stand. -/
def Act.LetsStand : Act ρ α → Prop
  | .sequence _ _ .after _ reply => reply = .answered none
  | _ => True

lemma ShowRun.letsStand {count index : Nat} {nodes items : List (Tree ρ α)}
    {acts : List (Act ρ α)} {halt : Option Halt}
    (hrun : ShowRun count .after index nodes acts items halt)
    (quiet : ∀ act ∈ acts, act.LetsStand) : halt = none ∧ items = nodes := by
  induction hrun with
  | done nodes => exact ⟨rfl, rfl⟩
  | pass inRange judged others ih =>
    obtain rfl : _ = SequenceReply.answered none := quiet _ List.mem_cons_self
    cases judged
    exact ih fun act hact => quiet act (by simp [hact])
  | halt inRange judged =>
    obtain rfl : _ = SequenceReply.answered none := quiet _ List.mem_cons_self
    cases judged

/-- Whether a visitor is shown the final sequence. -/
def Act.isAfter : Act ρ α → Bool
  | .sequence _ _ .after _ _ => true
  | _ => false

/-- The visitor with another hook for the final sequence. -/
def Registration.withAfter (after : List (Tree ρ α) → σ → SequenceReply ρ α × σ)
    (visitor : Registration ρ α σ) : Registration ρ α σ :=
  { visitor with
    callSequence := fun
      | .before, nodes, state => visitor.callSequence .before nodes state
      | .after, nodes, state => after nodes state }

namespace Walker

variable (walker : Walker ρ α σ)

/-- The walker whose visitors have other hooks for the final sequence. -/
def withAfter (after : Nat → List (Tree ρ α) → σ → SequenceReply ρ α × σ) : Walker ρ α σ :=
  { walker with
    visitors := walker.visitors.mapIdx fun index => Registration.withAfter (after index) }

/-- The walker whose visitor asks to stop if it is shown a node right after so many acts. What it
does to the node is the same. -/
def stoppingAt (position : Nat) : Walker ρ α (σ × List (Act ρ α)) :=
  walker.amended fun acts _ _ node reply =>
    if acts.length = position then .answered (reply.left node) .stop else reply

@[simp] theorem length_visitors_withAfter
    (after : Nat → List (Tree ρ α) → σ → SequenceReply ρ α × σ) :
    (walker.withAfter after).visitors.length = walker.visitors.length := by
  simp [withAfter]

@[simp] theorem length_visitors_stoppingAt (position : Nat) :
    (walker.stoppingAt position).visitors.length = walker.visitors.length :=
  walker.length_visitors_amended _

variable {walker}

lemma Does.withAfter {act : Act ρ α} {state final : σ} (h : walker.Does act state final)
    (after : Nat → List (Tree ρ α) → σ → SequenceReply ρ α × σ) (earlier : act.isAfter = false) :
    (walker.withAfter after).Does act state final := by
  cases act with
  | event event => exact h
  | node index name hook node reply =>
    obtain ⟨visitor, hv, hc, hs⟩ := h
    exact ⟨visitor.withAfter (after index), by simp [Walker.withAfter, hv], hc, hs⟩
  | sequence index name hook nodes reply =>
    obtain ⟨visitor, hv, hc, hs⟩ := h
    cases hook with
    | before => exact ⟨visitor.withAfter (after index), by simp [Walker.withAfter, hv], hc, hs⟩
    | after => cases earlier

lemma DoesAll.withAfter {acts : List (Act ρ α)} {state final : σ}
    (h : walker.DoesAll acts state final)
    (after : Nat → List (Tree ρ α) → σ → SequenceReply ρ α × σ)
    (earlier : ∀ act ∈ acts, act.isAfter = false) :
    (walker.withAfter after).DoesAll acts state final := by
  induction acts generalizing state with
  | nil => exact h
  | cons act rest ih =>
    obtain ⟨mid, hact, hrest⟩ := h
    obtain ⟨hfirst, hothers⟩ := List.forall_mem_cons.1 earlier
    exact ⟨mid, hact.withAfter after hfirst, ih hrest hothers⟩

/-- Up to the position nothing is changed. -/
lemma DoesAll.stoppingAt {position : Nat} {acts done : List (Act ρ α)} {state final : σ}
    (h : walker.DoesAll acts state final) (hle : done.length + acts.length ≤ position) :
    (walker.stoppingAt position).DoesAll acts (state, done) (final, done ++ acts) := by
  induction acts generalizing state done with
  | nil =>
    obtain rfl := h
    simp
  | cons act rest ih =>
    obtain ⟨mid, hact, hrest⟩ := h
    rw [List.length_cons] at hle
    have hne : done.length ≠ position := by omega
    have hsame : (walker.stoppingAt position).Does act (state, done) (mid, done ++ [act]) := by
      refine (walker.does_amended_iff).2 ⟨rfl, act, ?_, hact⟩
      cases act <;> simp [Act.amended, hne]
    have hlength : (done ++ [act]).length + rest.length ≤ position := by
      rw [List.length_append, List.length_singleton]
      omega
    have hothers := ih hrest hlength
    rw [List.append_assoc] at hothers
    exact ⟨_, hsame, hothers⟩

lemma Does.stoppingAt {index : Nat} {name : String} {hook : NodeHook} {node : Tree ρ α}
    {reply : NodeReply ρ α} {state final : σ}
    (h : walker.Does (.node index name hook node reply) state final) (done : List (Act ρ α)) :
    (walker.stoppingAt done.length).Does
      (.node index name hook node (.answered (reply.left node) .stop)) (state, done)
      (final, done ++ [.node index name hook node (.answered (reply.left node) .stop)]) := by
  refine (walker.does_amended_iff).2 ⟨rfl, _, ?_, h⟩
  simp [Act.amended]

variable (walker)

/-- A walker that does the acts of a walk which is stopped. If the visitors let the sequence stand
after that, the traversal comes to its end with what the walk has left. -/
theorem traverse_stopped [Admission ρ α] {stack : Nat} {nodes start items : List (Tree ρ α)}
    {first walk : List (Act ρ α)} {state mid : σ}
    (shown : ShowRun walker.visitors.length .before 0 nodes first start none)
    (walked : TopRun walker.options walker.visitors.length (walker.room stack) start walk items
      (some .stopped))
    (hdoes : walker.DoesAll
      (.event (.started nodes.length walker.visitors.length) :: (first ++ walk)) state mid) :
    (.event (.started nodes.length walker.visitors.length) :: (first ++ walk)) <+:
        walker.acts stack nodes state ∧
      ((∀ act ∈ walker.acts stack nodes state, act.LetsStand) →
        (walker.traverse stack nodes state).halt = none ∧
          (walker.traverse stack nodes state).items = items) := by
  obtain ⟨_, rfl, hacts⟩ := hdoes
  obtain ⟨last, hlast, hdoes⟩ :=
    walker.showAll_runs .after items (walker.emit .stopped mid)
  rcases ha : walker.showAll .after items (walker.emit .stopped mid) with ⟨items', halt, after⟩
  rw [ha] at hlast hdoes
  have hwalk := WalkRun.stopped walked
  have hstopped : walker.DoesAll (first ++ (walk ++ [.event .stopped]) ++ last)
      (walker.emit (.started nodes.length walker.visitors.length) state) after := by
    obtain ⟨before, hfirst, hwalked⟩ := (walker.doesAll_append).1 hacts
    have hnote : walker.DoesAll (walk ++ [.event .stopped]) before (walker.emit .stopped mid) :=
      (walker.doesAll_append).2 ⟨mid, hwalked, _, rfl, rfl⟩
    exact (walker.doesAll_append).2 ⟨_, (walker.doesAll_append).2 ⟨before, hfirst, hnote⟩, hdoes⟩
  cases halt with
  | none =>
    have hrun := TraversalRun.finished shown hwalk hlast
    have hdone : walker.DoesAll (.event (.started nodes.length walker.visitors.length) ::
        (first ++ (walk ++ [.event .stopped]) ++ last ++ [.event (.finished items'.length)])) state
        (walker.emit (.finished items'.length) after) :=
      ⟨_, rfl, (walker.doesAll_append).2 ⟨after, hstopped, _, rfl, rfl⟩⟩
    rw [walker.acts_eq hrun hdone, walker.traverse_determined hrun hdone]
    refine ⟨by simp, fun quiet => ⟨rfl, ?_⟩⟩
    exact (hlast.letsStand fun act hact => quiet act (by simp [hact])).2
  | some why =>
    have hrun := TraversalRun.unfinished shown hwalk hlast
    have hdone : walker.DoesAll (.event (.started nodes.length walker.visitors.length) ::
        (first ++ (walk ++ [.event .stopped]) ++ last)) state after := ⟨_, rfl, hstopped⟩
    rw [walker.acts_eq hrun hdone]
    refine ⟨by simp, fun quiet => ?_⟩
    cases (hlast.letsStand fun act hact => quiet act (by simp [hact])).1

/-- A traversal that fails in a call with a node leaves what it would leave if the visitor asked to
stop in this call, and did the same to the node. This holds whatever the visitors do when they are
shown the final sequence, as long as they let it stand. -/
theorem traverse_failed_as_stopped [Admission ρ α] (stack : Nat) (nodes : List (Tree ρ α))
    (state : σ) {error : WalkError} {hook : NodeHook}
    (failed : (walker.traverse stack nodes state).halt = some (.failed error))
    (ofNode : error.hook = some (.node hook)) :
    ∃ call : FailingCall walker.options error (walker.acts stack nodes state),
      ∀ after : Nat → List (Tree ρ α) → σ → SequenceReply ρ α × σ,
        let stopping := (walker.withAfter after).stoppingAt call.before.length
        let acts := stopping.acts stack nodes (state, [])
        let sweep := stopping.traverse stack nodes (state, [])
        call.stopped <+: acts ∧
          ((∀ act ∈ acts, act.LetsStand) →
            sweep.halt = none ∧ sweep.items = (walker.traverse stack nodes state).items) := by
  obtain ⟨-, hrun, hdoes⟩ := walker.recorded_traverse stack nodes state
  simp only [failed] at hrun
  obtain ⟨start, first, shown, call, walk, hstopped, walked⟩ := hrun.stoppable ofNode
  refine ⟨call, fun after => ?_⟩
  intro stopping acts sweep
  -- The walk ends before the final sequence is shown, so another hook for it makes no difference.
  have hevent : ∀ event, (Act.event event : Act ρ α).isAfter = false := fun _ => rfl
  have earlier : ∀ act ∈ call.stopped, act.isAfter = false := by
    rw [hstopped]
    refine List.forall_mem_cons.2 ⟨rfl, List.forall_mem_append.2 ⟨?_, ?_⟩⟩
    · exact shown.forall_acts hevent fun _ => rfl
    · exact ListRun.forall_acts hevent (NodeRun.forall_acts hevent fun _ => rfl) walked
  obtain ⟨mid, hstop⟩ : ∃ mid, stopping.DoesAll call.stopped (state, []) mid := by
    rw [call.acts_eq] at hdoes
    obtain ⟨mid, hbefore, final, hcall, -⟩ := (walker.doesAll_append).1 hdoes
    -- Both walkers do the same before the call, so they come to it in the same state.
    have hsame : stopping.DoesAll call.before (state, []) (mid, [] ++ call.before) := by
      have hbefore' := hbefore.withAfter after fun act hact =>
        earlier act (List.mem_append_left _ hact)
      exact hbefore'.stoppingAt (by simp)
    have hcall' := (hcall.withAfter after rfl).stoppingAt call.before
    exact ⟨_, (stopping.doesAll_append).2 ⟨_, hsame, _, hcall', rfl⟩⟩
  have hlength : stopping.visitors.length = walker.visitors.length := by simp [stopping]
  rw [hstopped, ← hlength] at hstop ⊢
  rw [← hlength] at shown walked
  exact stopping.traverse_stopped shown walked hstop

/-- Visitors that answer so let the final sequence stand, in every call. -/
lemma letsStand_stoppingAt [Admission ρ α]
    {after : Nat → List (Tree ρ α) → σ → SequenceReply ρ α × σ}
    (quiet : ∀ index nodes state, (after index nodes state).1 = .answered none)
    (position stack : Nat) (nodes : List (Tree ρ α)) (state : σ × List (Act ρ α)) :
    ∀ act ∈ ((walker.withAfter after).stoppingAt position).acts stack nodes state,
      act.LetsStand := by
  intro act hact
  obtain ⟨-, -, hdoes⟩ :=
    ((walker.withAfter after).stoppingAt position).recorded_traverse stack nodes state
  obtain ⟨⟨before, acts⟩, ⟨final, acts'⟩, hdone⟩ := hdoes.exists_does hact
  obtain ⟨-, original, rfl, horiginal⟩ := (does_amended_iff _).1 hdone
  cases original with
  | event | node => trivial
  | sequence index name hook nodes reply =>
    cases hook with
    | before => trivial
    | after =>
      obtain ⟨visitor, hv, hc, -⟩ := horiginal
      obtain ⟨visitor', -, rfl⟩ : ∃ visitor', walker.visitors[index]? = some visitor' ∧
          visitor'.withAfter (after index) = visitor := by
        simpa [Walker.withAfter] using hv
      have hreply := quiet index nodes before
      change after index nodes before = (reply, final) at hc
      rw [hc] at hreply
      exact hreply

/-- Takes out empty statements when they are left, and tries to put an expression in the place of an
echo. -/
def unwrap : NodeHook → Tree Shape Unit → NodeReply Shape Unit
  | .enter, node => .answered node .keep
  | .leave, node =>
    if node.tag = "Stmt_Nop" then .answered node .remove
    else if node.tag = "Stmt_Echo" then
      .answered { node with label := some "unwrapped" } (.replace { tag := "Expr_Text" })
    else .answered node .keep

/-- A block with room for statements only. -/
def unwrapBlock : Tree Shape Unit where
  tag := "Stmt_Block"
  slots := [⟨⟨"body", some .stmt⟩,
    .list [{ tag := "Stmt_Nop" }, { tag := "Stmt_Echo" }, { tag := "Stmt_Nop" }]⟩]

/-- The slot has no room for an expression. -/
theorem unwrap_failed_as_stopped :
    let walker := Walker.stateless {} "unwrap" unwrap
    let sweep := walker.traverse 3 [unwrapBlock] ()
    ∃ error, sweep.halt = some (.failed error) ∧ error.hook = some (.node .leave) ∧
      ∃ call : FailingCall walker.options error (walker.acts 3 [unwrapBlock] ()),
        let stopping := (walker.withAfter fun _ _ state => (.answered none, state)).stoppingAt
          call.before.length
        (stopping.traverse 3 [unwrapBlock] ((), [])).halt = none ∧
          (stopping.traverse 3 [unwrapBlock] ((), [])).items = sweep.items := by
  intro walker sweep
  have hhook : sweep.halt.bind Halt.hook = some (.node .leave) := by
    decide +kernel
  obtain ⟨error, failed, ofNode⟩ := Halt.exists_error hhook
  obtain ⟨call, hcall⟩ := walker.traverse_failed_as_stopped 3 [unwrapBlock] () failed ofNode
  refine ⟨error, failed, ofNode, call, ?_⟩
  exact (hcall _).2 (walker.letsStand_stoppingAt (fun _ _ _ => rfl) _ _ _ _)

end Walker

end ForestWalk
