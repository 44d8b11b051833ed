import ForestWalk.Proofs.Nesting
/-!
The name by which an error speaks of a visitor. While a hook runs nobody else can hold its visitor,
whatever is borrowed and traversed meanwhile, so that after the call the visitor is free and its
name can be asked. Only of a visitor that could not be called the name may be out of reach.
-/

namespace ForestWalk

variable {ρ α V : Type}

section Calls

variable {nested : Traversal ρ α V} {visitor : Nat}

/-- A hook has its visitor to itself until it ends. -/
lemma Routine.perform_hooked {β : Type} (h : Stepped nested) {routine : Routine ρ α β}
    {roster last : Roster ρ α V} {answer : β} (busy : roster.lease visitor = some .hook)
    (ended : routine.perform nested visitor roster = (some answer, last)) :
    last.lease visitor = some .hook := by
  obtain ⟨deeds, later, hsteps, hlater⟩ := routine.perform_steps h visitor roster [.traversal]
  rw [ended] at hsteps hlater
  obtain rfl := hlater nofun
  have hmem : visitor ∈ roster.running := Roster.mem_running.2 busy
  have hperm := List.perm_cons_erase hmem
  have hsound : (⟨roster, [.hook visitor, .traversal]⟩ : Scene ρ α V).Sound
      (roster.running.erase visitor) :=
    { distinct := hperm.nodup_iff.1 roster.nodup_running
      hooked := fun _ => Roster.mem_running.symm.trans hperm.mem_iff
      alternate := .hook (.traversal .nil (by simp)) }
  exact ((hsteps.sound hsound).hooked visitor).2 List.mem_cons_self

/-- After a call that has ended the visitor is there, free, in the state that the call left it
in. -/
lemma Routine.call_returned {β : Type} (h : Stepped nested) {roster last : Roster ρ α V}
    {state : V} (free : roster.cells[visitor]? = some { state := state })
    {routine : Routine ρ α β} {entry : Entry ρ α} {answer : β}
    (ended : routine.perform nested visitor ((roster.setLease visitor .hook).note entry) =
      (some answer, last)) (left : V) :
    (last.putBack visitor left).cells[visitor]? = some { state := left } := by
  have htaken := (Roster.lease_taken_eq_hook_iff (Roster.takeForCall_of_free free) visitor).2
    (.inl rfl)
  have hbusy := perform_hooked h ((Roster.lease_note visitor entry _).trans htaken) ended
  exact List.getElem?_set_self (Roster.lt_of_lease_eq_some hbusy)

namespace Roster

variable {behaviour : Behaviour ρ α V} {roster final : Roster ρ α V}

lemma Called.returned (h : Stepped nested) {act : Act ρ α}
    (called : roster.Called behaviour nested visitor act final) (accepted : act.isRefused = false)
    (inTime : act.overflows = false) :
    ∃ state, final.cells[visitor]? = some { state := state } := by
  cases called with
  | lentForNode | lentForSequence => cases accepted
  | nodeOverflows | sequenceOverflows => cases inTime
  | nodeAnswered free ended | nodeFailed free ended
  | sequenceAnswered free ended | sequenceFailed free ended =>
    exact ⟨_, Routine.call_returned h free ended _⟩

/-- A free visitor goes by its name. -/
lemma name_of_free (behaviour : Behaviour ρ α V) {state : V}
    (hcell : roster.cells[visitor]? = some { state := state }) :
    roster.name behaviour visitor = some (behaviour.name state) :=
  name_eq behaviour hcell

end Roster

namespace Traverser

variable {behaviour : Behaviour ρ α V} {traverser : Traverser} {act : Act ρ α}
  {roster final : Roster ρ α V} {index : Nat} {hook : Hook} {tag : Option String}

/-- After a call that has ended the visitor is free, and goes by the name that it has then. -/
theorem does_returned (h : Stepped nested)
    (hdoes : (traverser.walker behaviour nested).Does act roster final)
    (call : act.call? = some (index, hook, tag))
    (listed : traverser.visitors[index]? = some visitor) (accepted : act.isRefused = false)
    (ended : act.overflows = false) :
    ∃ state, final.cells[visitor]? = some { state := state } ∧
      act.name? = some (behaviour.name state) := by
  obtain ⟨hcalled, hname⟩ := does_called hdoes call listed
  obtain ⟨state, hcell⟩ := hcalled.returned h accepted ended
  rw [Roster.name_of_free behaviour hcell] at hname
  exact ⟨state, hcell, hname⟩

end Traverser

end Calls

variable [Admission ρ α]

/-- What an error says of a call is what the call was. -/
lemma Moment.Fails.site_eq {options : Options} {base : Nat} {spot : Option (Spot ρ)} {act : Act ρ α}
    {fault : Fault} {error : WalkError} {site : CallSite}
    (h : (Moment.acted spot act).Fails options base fault error) (hsite : error.site = some site) :
    (∃ tag, act.call? = some (site.index, site.hook, tag) ∧
      (fault = .unavailable → error = .visitorFailed site tag .unavailable)) ∧
    act.name? = some site.visitor ∧ act.overflows = false ∧
    (act.isRefused = true ↔ fault = .unavailable) := by
  cases h with
  | lentForNode | lentForSequence =>
    cases hsite
    exact ⟨⟨_, rfl, fun _ => rfl⟩, rfl, rfl, by simp [Act.isRefused]⟩
  | _ =>
    cases hsite
    exact ⟨⟨_, rfl, by simp⟩, rfl, rfl, by simp [Act.isRefused]⟩

namespace Traverser

/-- An error that speaks of a call is of the last call of the traversal, and its index is the place
of the visitor that was called. If that visitor could be called, then the error has the name that
goes with the state in which the call left it, and nobody else has borrowed it then. A stand-in for
the name is found only in the error of a visitor that could not be called, since it was lent; and
even then only if its name could not be asked. -/
theorem nest_naming (behaviour : Behaviour ρ α V) (room nesting : Nat) (traverser : Traverser)
    (nodes : List (Tree ρ α)) (roster : Roster ρ α V) :
    let walker := traverser.walker behaviour (nest behaviour room nesting)
    let sweep := nest behaviour room (nesting + 1) traverser nodes roster
    ∀ error site, sweep.result = some (.error error) → error.site = some site →
      ∃ fault visitor before spot act after mid next tag,
        traverser.visitors[site.index]? = some visitor ∧
        walker.acts room nodes roster = before ++ act :: after ∧
        (∀ later ∈ after, later.isCall = false) ∧
        walker.DoesAll before roster mid ∧ walker.Does act mid next ∧
        act.call? = some (site.index, site.hook, tag) ∧
        (Moment.acted spot act).Fails traverser.options 0 fault error ∧
        (fault ≠ .unavailable → ∃ state,
          next.cells[visitor]? = some { state := state, lease := .free } ∧
            site.visitor = behaviour.name state) ∧
        (fault = .unavailable → next = mid ∧ mid.lease visitor ≠ some .free ∧
          error = .visitorFailed site tag .unavailable ∧
          site.visitor = (mid.name behaviour visitor).getD (namelessVisitor site.index)) := by
  intro walker sweep error site hresult hsite
  obtain ⟨trail, hleaves⟩ := walker.exists_leaves room nodes roster
  obtain ⟨-, hfailed, -⟩ := hleaves.trodden.outcome
  obtain ⟨fault, before, moment, told, rfl, -, fails, events⟩ :=
    hfailed error (Sweep.result_eq_error_iff.1 hresult)
  obtain ⟨spot, act, -, rfl, -⟩ := fails.call?_eq hsite
  obtain ⟨⟨tag, hcall, hunavailable⟩, hname, hended, hrefused⟩ := fails.site_eq hsite
  obtain ⟨mid, next, hbefore, hact⟩ := hleaves.exists_does
  have hlt := does_index_lt hact hcall
  obtain ⟨visitor, hvisitor⟩ : ∃ visitor, traverser.visitors[site.index]? = some visitor :=
    ⟨_, List.getElem?_eq_getElem hlt⟩
  refine ⟨fault, visitor, Moment.acts before, spot, act, Moment.acts told, mid, next, tag, hvisitor,
    ?_, Moment.isCall_of_events events, hbefore, hact, hcall, fails, ?_, ?_⟩
  · rw [← hleaves.acts_eq, Moment.acts_append, Moment.acts_acted]
  · intro havailable
    have haccepted : act.isRefused = false :=
      Bool.eq_false_iff.2 fun he => havailable (hrefused.1 he)
    obtain ⟨state, hcell, hgiven⟩ :=
      does_returned (nest_steps behaviour room nesting) hact hcall hvisitor haccepted hended
    exact ⟨state, hcell, Option.some.inj (hname.symm.trans hgiven)⟩
  · intro hfault
    have hact' := hrefused.2 hfault
    obtain ⟨rfl, hgiven⟩ := does_refused hact hact' hcall hvisitor
    exact ⟨rfl, (does_isRefused_iff hact hcall hvisitor).1 hact', hunavailable hfault,
      Option.some.inj (hname.symm.trans hgiven)⟩

end Traverser

/-- The kind of error that a walk was broken off for, and the call that it failed in. -/
def Halt.blame : Halt → Option (ErrorKind × CallSite)
  | .failed error => error.site.map (error.kind, ·)
  | .stopped | .overflowed => none

lemma Halt.exists_blamed {halt : Option Halt} {kind : ErrorKind} {site : CallSite}
    (h : halt.bind Halt.blame = some (kind, site)) :
    ∃ error, halt = some (.failed error) ∧ error.kind = kind ∧ error.site = some site := by
  obtain ⟨why, rfl, hwhy⟩ := Option.bind_eq_some_iff.1 h
  cases why with
  | failed error =>
    obtain ⟨_, hsite, heq⟩ := Option.map_eq_some_iff.1 hwhy
    obtain ⟨rfl, rfl⟩ := Prod.mk.inj heq
    exact ⟨error, rfl, rfl, hsite⟩
  | stopped | overflowed => cases hwhy

namespace Traverser

/-- A visitor that is its own name. Whenever it is shown a node it tries to borrow itself, and takes
another name before it asks for what it may not have. -/
def tiring : Behaviour Shape Unit String where
  name := fun state => state
  node := fun _ state node => .hold 0 .shared fun _ =>
    .finish { state := state ++ ", tired", node := node, answer := .ok (.splice []) }

/-- The error has the name that the visitor took last. -/
theorem tiring_named :
    let traverser : Traverser := { visitors := [0] }
    let nested := nest tiring 2 0
    let sweep := nest tiring 2 1 traverser [{ tag := "Stmt_Nop" }] (.ofList ["scout"])
    ∃ error site, sweep.result = some (.error error) ∧ error.site = some site ∧
      site.visitor = "scout, tired" ∧
      ∃ act mid next state, act ∈ (traverser.walker tiring nested).acts 2
          [{ tag := "Stmt_Nop" }] (.ofList ["scout"]) ∧
        (traverser.walker tiring nested).Does act mid next ∧
        next.cells[0]? = some { state := state } ∧ site.visitor = tiring.name state := by
  intro traverser nested sweep
  have hblame : sweep.halt.bind Halt.blame =
      some (.illegalDirective, ⟨.node .enter, 0, "scout, tired"⟩) := by decide +kernel
  obtain ⟨error, hfailed, hkind, hsite⟩ := Halt.exists_blamed hblame
  have hresult := Sweep.result_eq_error_iff.2 hfailed
  obtain ⟨fault, visitor, before, spot, act, after, mid, next, tag, hvisitor, hacts, -, -, hact, -,
    fails, hnamed, -⟩ := nest_naming tiring 2 0 traverser _ _ error _ hresult hsite
  obtain rfl : 0 = visitor := Option.some.inj hvisitor
  have havailable : fault ≠ .unavailable := by
    rintro rfl
    cases hkind.symm.trans fails.kind_eq
  obtain ⟨state, hcell, hname⟩ := hnamed havailable
  exact ⟨error, _, hresult, hsite, rfl, act, mid, next, state, by simp [nested, hacts], hact, hcell,
    hname⟩

end Traverser

end ForestWalk
