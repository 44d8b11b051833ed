import ForestWalk.Proofs.Calls
import ForestWalk.Proofs.Outcome
/-!
The calls that a traverser makes. A visitor that is lent to somebody refuses its call, which leaves
the roster as it is, and the traversal fails. With that, the outcome of a traversal on a roster is
told by the first fault in its trail.
-/

namespace ForestWalk

variable {ρ α V : Type}

namespace Roster

/-- A visitor goes by its name as long as it is lent to nobody but readers. -/
lemma name_eq (behaviour : Behaviour ρ α V) {visitor : Nat} {roster : Roster ρ α V} {cell : Cell V}
    (hcell : roster.cells[visitor]? = some cell) :
    roster.name behaviour visitor =
      if cell.lease.readable then some (behaviour.name cell.state) else none := by
  rw [name, read, hcell, Option.filter_some]
  split <;> rfl

end Roster

namespace Traverser

variable {behaviour : Behaviour ρ α V} {nested : Traversal ρ α V} {traverser : Traverser}

/-- The visitors that a traverser calls are those on its list. -/
lemma getElem?_walker {index : Nat} {visitor : Registration ρ α (Roster ρ α V)} :
    (traverser.walker behaviour nested).visitors[index]? = some visitor ↔
      ∃ number, traverser.visitors[index]? = some number ∧
        registration behaviour nested number = visitor := by
  simp [walker]

@[simp] theorem options_walker :
    (traverser.walker behaviour nested).options = traverser.options :=
  rfl

@[simp] theorem length_walker :
    (traverser.walker behaviour nested).visitors.length = traverser.count := by
  simp [walker, count]

variable {act : Act ρ α} {roster final : Roster ρ α V} {index visitor : Nat} {hook : Hook}
  {tag : Option String}

/-- A traverser calls with a node the visitor of the roster that its list has at a place. -/
theorem does_node_iff {name : String} {hook : NodeHook} {node : Tree ρ α} {reply : NodeReply ρ α} :
    (traverser.walker behaviour nested).Does (.node index name hook node reply) roster final ↔
      ∃ number, traverser.visitors[index]? = some number ∧
        roster.callNode behaviour nested number hook node = (reply, final) ∧
        (final.name behaviour number).getD (namelessVisitor index) = name := by
  constructor
  · rintro ⟨_, hv, hcall, hname⟩
    obtain ⟨number, hnumber, rfl⟩ := getElem?_walker.1 hv
    exact ⟨number, hnumber, hcall, hname⟩
  · rintro ⟨number, hnumber, hcall, hname⟩
    exact ⟨_, getElem?_walker.2 ⟨number, hnumber, rfl⟩, hcall, hname⟩

/-- A traverser calls with the sequence the visitor of the roster that its list has at a place. -/
theorem does_sequence_iff {name : String} {hook : SequenceHook} {nodes : List (Tree ρ α)}
    {reply : SequenceReply ρ α} :
    (traverser.walker behaviour nested).Does (.sequence index name hook nodes reply) roster final ↔
      ∃ number, traverser.visitors[index]? = some number ∧
        roster.callSequence behaviour nested number hook nodes = (reply, final) ∧
        (final.name behaviour number).getD (namelessVisitor index) = name := by
  constructor
  · rintro ⟨_, hv, hcall, hname⟩
    obtain ⟨number, hnumber, rfl⟩ := getElem?_walker.1 hv
    exact ⟨number, hnumber, hcall, hname⟩
  · rintro ⟨number, hnumber, hcall, hname⟩
    exact ⟨_, getElem?_walker.2 ⟨number, hnumber, rfl⟩, hcall, hname⟩

/-- A traverser calls the visitor of the roster that its list has at a place, and after the call the
visitor goes by its name if that can be asked. -/
theorem does_call_iff (call : act.call? = some (index, hook, tag)) :
    (traverser.walker behaviour nested).Does act roster final ↔
      ∃ number, traverser.visitors[index]? = some number ∧
        roster.Called behaviour nested number act final ∧
        act.name? = some ((final.name behaviour number).getD (namelessVisitor index)) := by
  cases act with
  | event event => cases call
  | node index name hook node reply =>
    cases call
    simp only [does_node_iff, Roster.called_node_iff, Act.name?, Option.some.injEq, eq_comm]
  | sequence index name hook nodes reply =>
    cases call
    simp only [does_sequence_iff, Roster.called_sequence_iff, Act.name?, Option.some.injEq, eq_comm]

lemma does_index_lt (hdoes : (traverser.walker behaviour nested).Does act roster final)
    (call : act.call? = some (index, hook, tag)) : index < traverser.count := by
  obtain ⟨number, hnumber, -⟩ := (does_call_iff call).1 hdoes
  exact (List.getElem?_eq_some_iff.1 hnumber).1

lemma does_called (hdoes : (traverser.walker behaviour nested).Does act roster final)
    (call : act.call? = some (index, hook, tag))
    (listed : traverser.visitors[index]? = some visitor) :
    roster.Called behaviour nested visitor act final ∧
      act.name? = some ((final.name behaviour visitor).getD (namelessVisitor index)) := by
  obtain ⟨number, hnumber, hcalled⟩ := (does_call_iff call).1 hdoes
  obtain rfl : number = visitor := Option.some.inj (hnumber.symm.trans listed)
  exact hcalled

/-- A call is refused just if the visitor is not free. -/
theorem does_isRefused_iff (hdoes : (traverser.walker behaviour nested).Does act roster final)
    (call : act.call? = some (index, hook, tag))
    (listed : traverser.visitors[index]? = some visitor) :
    act.isRefused = true ↔ roster.lease visitor ≠ some .free :=
  (does_called hdoes call listed).1.isRefused_iff

/-- A call that is refused changes nothing, and the visitor goes by its name if that can be
asked. -/
lemma does_refused (hdoes : (traverser.walker behaviour nested).Does act roster final)
    (refused : act.isRefused = true) (call : act.call? = some (index, hook, tag))
    (listed : traverser.visitors[index]? = some visitor) :
    final = roster ∧
      act.name? = some ((roster.name behaviour visitor).getD (namelessVisitor index)) := by
  obtain ⟨hcalled, hname⟩ := does_called hdoes call listed
  obtain rfl := hcalled.eq_of_refused refused
  exact ⟨rfl, hname⟩

end Traverser

section Outcome

variable [Admission ρ α] {options : Options}

namespace Moment

/-- A moment at which an error with a call site arises is one at which this call is made. -/
lemma Fails.call?_eq {base : Nat} {moment : Moment ρ α} {fault : Fault} {error : WalkError}
    {site : CallSite} (h : moment.Fails options base fault error) (hsite : error.site = some site) :
    ∃ spot act tag, moment = .acted spot act ∧ act.call? = some (site.index, site.hook, tag) := by
  cases h with
  | tooDeep => cases hsite
  | _ =>
    cases hsite
    exact ⟨_, _, _, rfl, rfl⟩

/-- A call that is refused is a fault. -/
lemma fails_of_isRefused {base : Nat} {spot : Option (Spot ρ)} {act : Act ρ α} {index : Nat}
    {hook : Hook} {tag : Option String} {name : String} (refused : act.isRefused = true)
    (call : act.call? = some (index, hook, tag)) (named : act.name? = some name) :
    (Moment.acted spot act).Fails options base .unavailable
      (.visitorFailed ⟨hook, index, name⟩ tag .unavailable) := by
  match act with
  | .node _ _ _ _ .unavailable =>
    cases call
    cases named
    exact .lentForNode
  | .sequence _ _ _ _ .unavailable =>
    cases call
    cases named
    exact .lentForSequence
  | .event _ => cases call
  | .node _ _ _ _ (.answered ..) | .node _ _ _ _ (.failed ..) | .node _ _ _ _ .overflowed
  | .sequence _ _ _ _ (.answered _) | .sequence _ _ _ _ (.failed _)
  | .sequence _ _ _ _ .overflowed => cases refused

end Moment

namespace Sweep

variable {τ σ : Type} {sweep : Sweep τ σ}

/-- A traversal that runs out of room has no result, and any other has one. -/
lemma result_eq_none_iff : sweep.result = none ↔ sweep.halt = some .overflowed := by
  obtain ⟨items, halt, state⟩ := sweep
  match halt with
  | none | some .stopped | some (.failed _) | some .overflowed => simp [result]

lemma result_eq_error_iff {error : WalkError} :
    sweep.result = some (.error error) ↔ sweep.halt = some (.failed error) := by
  obtain ⟨items, halt, state⟩ := sweep
  match halt with
  | none | some .stopped | some (.failed _) | some .overflowed => simp [result]

lemma result_eq_ok_iff (unstopped : sweep.halt ≠ some .stopped) :
    sweep.result = some (.ok sweep.items) ↔ sweep.halt = none := by
  obtain ⟨items, halt, state⟩ := sweep
  match halt with
  | some .stopped => exact absurd rfl unstopped
  | none | some (.failed _) | some .overflowed => simp [result]

end Sweep

/-- The acts before a moment of a trail can be done, and then the act of this moment. -/
lemma Walker.Leaves.exists_does {σ : Type} {walker : Walker ρ α σ} {stack : Nat}
    {nodes : List (Tree ρ α)} {state : σ} {before after : List (Moment ρ α)}
    {spot : Option (Spot ρ)} {act : Act ρ α}
    (h : walker.Leaves stack nodes state (before ++ .acted spot act :: after)) :
    ∃ mid next, walker.DoesAll (Moment.acts before) state mid ∧ walker.Does act mid next := by
  obtain ⟨-, -, hdoes⟩ := walker.recorded_traverse stack nodes state
  rw [← h.acts_eq, Moment.acts_append, Moment.acts_acted, Walker.doesAll_append] at hdoes
  obtain ⟨mid, hbefore, next, hact, -⟩ := hdoes
  exact ⟨mid, next, hbefore, hact⟩

namespace Traverser

/-- A traversal on a roster that comes to an end has succeeded just if there is no fault in its
trail. Otherwise it fails with the error that tells of the first fault: the kind of error is that of
the fault, and a call that it speaks of is one of a visitor on the list. The calls of the trail are
those of the visitors: each is made on the roster as the acts before have left it, and is refused
just if the visitor is not free then; and a visitor that is free replies with what the routine of
its hook ends with, be it a failure or an answer. -/
theorem nest_outcome (behaviour : Behaviour ρ α V) (room nesting : Nat) (traverser : Traverser)
    (nodes : List (Tree ρ α)) (roster : Roster ρ α V) :
    let nested := nest behaviour room nesting
    let walker := traverser.walker behaviour nested
    let sweep := nest behaviour room (nesting + 1) traverser nodes roster
    (∃ trail, walker.Leaves room nodes roster trail) ∧
    ∀ trail, walker.Leaves room nodes roster trail →
      (sweep.result = some (.ok sweep.items) ↔
        sweep.result ≠ none ∧ Moment.Faultless traverser.options trail) ∧
      (∀ error, sweep.result = some (.error error) ↔
        sweep.result ≠ none ∧ ∃ fault, Moment.FirstFault traverser.options trail fault error) ∧
      (∀ fault error, Moment.FirstFault traverser.options trail fault error →
        error.kind = fault.errorKind ∧
          ∀ site, error.site = some site → site.index < traverser.count) ∧
      ∀ before spot act after, trail = before ++ .acted spot act :: after →
        ∃ mid next, walker.DoesAll (Moment.acts before) roster mid ∧ walker.Does act mid next ∧
          ∀ index hook tag, act.call? = some (index, hook, tag) →
            ∃ visitor, traverser.visitors[index]? = some visitor ∧
              mid.Called behaviour nested visitor act next ∧
              act.name? = some ((next.name behaviour visitor).getD (namelessVisitor index)) ∧
              (act.isRefused = true ↔ mid.lease visitor ≠ some .free) := by
  intro nested walker sweep
  refine ⟨walker.exists_leaves room nodes roster,
    fun trail hleaves => ⟨?_, fun error => ?_, ?_, ?_⟩⟩
  · obtain ⟨hstop, hok, -⟩ := hleaves.outcome
    have unstopped : sweep.halt ≠ some .stopped := hstop
    rw [Sweep.result_eq_ok_iff unstopped, Ne, Sweep.result_eq_none_iff]
    exact hok
  · obtain ⟨-, -, hfailed⟩ := hleaves.outcome
    rw [Sweep.result_eq_error_iff, Ne, Sweep.result_eq_none_iff]
    exact hfailed error
  · rintro fault error ⟨before, moment, after, rfl, -, fails⟩
    refine ⟨fails.kind_eq, fun site hsite => ?_⟩
    obtain ⟨spot, act, tag, rfl, hcall⟩ := fails.call?_eq hsite
    obtain ⟨mid, next, -, hdoes⟩ := hleaves.exists_does
    exact does_index_lt hdoes hcall
  · rintro before spot act after rfl
    obtain ⟨mid, next, hbefore, hdoes⟩ := hleaves.exists_does
    refine ⟨mid, next, hbefore, hdoes, fun index hook tag hcall => ?_⟩
    obtain ⟨visitor, hvisitor, hcalled, hname⟩ := (does_call_iff hcall).1 hdoes
    exact ⟨visitor, hvisitor, hcalled, hname, hcalled.isRefused_iff⟩

/-- Counts the nodes that it is shown, and fails when it is shown a third one. -/
def flagging : Behaviour Shape Unit Nat where
  name := fun _ => "flagging"
  node := fun _ seen node =>
    .finish
      { state := seen + 1, node := node
        answer := if seen < 2 then .ok .keep else .error (.message "enough") }

/-- The first fault is the failure of the hook, and its visitor has seen two nodes by then. -/
theorem flagging_outcome :
    let traverser : Traverser := { visitors := [0] }
    let nested := nest flagging 2 0
    let walker := traverser.walker flagging nested
    let nodes : List (Tree Shape Unit) := [{ tag := "Stmt_Echo" }, { tag := "Stmt_Print" }]
    let sweep := nest flagging 2 1 traverser nodes (.ofList [0])
    ∃ trail error, walker.Leaves 2 nodes (.ofList [0]) trail ∧
      sweep.result = some (.error error) ∧
      error.text = "flagging (visitor #0) failed in enter_node on Stmt_Print: enough" ∧
      Moment.FirstFault traverser.options trail .hookFailed error ∧
      ∃ act, ∃ mid next : Roster Shape Unit Nat, ∃ state,
        mid.Called flagging nested 0 act next ∧
        mid.cells[0]? = some { state := state } ∧ 2 ≤ state := by
  intro traverser nested walker nodes sweep
  have hresult : sweep.result = some (.error (.visitorFailed ⟨.node .enter, 0, "flagging"⟩
      (some "Stmt_Print") (.message "enough"))) := by
    with_unfolding_all rfl
  obtain ⟨⟨trail, hleaves⟩, houtcome⟩ :=
    nest_outcome flagging 2 0 traverser nodes (.ofList [0])
  obtain ⟨-, hfailed, -, hcalls⟩ := houtcome trail hleaves
  obtain ⟨-, fault, hfirst⟩ := (hfailed _).1 hresult
  refine ⟨trail, _, hleaves, hresult, rfl, ?_⟩
  generalize herror : WalkError.visitorFailed _ _ _ = error at hfirst ⊢
  obtain ⟨before, moment, after, htrail, hbefore, fails⟩ := hfirst
  cases fails with
  | @nodeHook spot _ _ _ shown left _ =>
    obtain ⟨hsite, -, rfl⟩ := WalkError.visitorFailed.inj herror
    cases hsite
    obtain ⟨mid, next, -, -, hcall⟩ := hcalls before spot _ after htrail
    obtain ⟨visitor, hvisitor, hcalled, -⟩ := hcall _ _ _ rfl
    obtain rfl : 0 = visitor := Option.some.inj hvisitor
    -- The hook fails in no state but one in which two nodes have been counted.
    obtain ⟨state, free, hseen⟩ :
        ∃ state, mid.cells[0]? = some { state := state } ∧ 2 ≤ state := by
      cases hcalled with
      | @nodeFailed _ _ _ _ _ state _ _ _ free ended =>
        have hanswer : (if state < 2 then .ok .keep else .error (.message "enough") :
            Except (Cause WalkError) (Directive (Tree Shape Unit))) = .error (.message "enough") :=
          congrArg NodeResult.answer (Option.some.inj (Prod.mk.inj ended).1)
        refine ⟨state, free, Nat.le_of_not_lt fun hlt => ?_⟩
        rw [if_pos hlt] at hanswer
        cases hanswer
    exact ⟨⟨before, _, after, htrail, hbefore, .nodeHook⟩, _, mid, next, state, hcalled, free,
      hseen⟩
  | _ => simp at herror

end Traverser

end Outcome

end ForestWalk
