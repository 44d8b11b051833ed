import ForestWalk.Proofs.Nesting
import ForestWalk.Proofs.Tracking
/-!
A traversal is announced: what a hook does adds nothing to the log, or a start is among what is
added. So where the log of a run tells of one start only, all of it is of this traversal itself, and
it is an exact ledger of the trail.
-/

namespace ForestWalk

variable {ρ α V : Type}

namespace Roster

variable {roster mid final : Roster ρ α V} {told more : List Event}

/-- What is added to the log is what is expected, or there are more starts in it. -/
def Tells (roster : Roster ρ α V) (told : List Event) (final : Roster ρ α V) : Prop :=
  ∃ added, final.events = roster.events ++ added ∧
    (added = told ∨ told.countP Event.isStart < added.countP Event.isStart)

namespace Tells

lemma of_journal (h : final.journal = roster.journal) : roster.Tells [] final :=
  ⟨[], by simp [events, h], .inl rfl⟩

lemma refl (roster : Roster ρ α V) : roster.Tells [] roster :=
  of_journal rfl

lemma trans (h : roster.Tells told mid) (h' : mid.Tells more final) :
    roster.Tells (told ++ more) final := by
  obtain ⟨added, hadded, hstarts⟩ := h
  obtain ⟨others, hothers, hstarts'⟩ := h'
  refine ⟨added ++ others, by rw [hothers, hadded, List.append_assoc], ?_⟩
  rw [List.countP_append, List.countP_append]
  rcases hstarts with rfl | hlt
  · rcases hstarts' with rfl | hlt
    · exact .inl rfl
    · exact .inr (by omega)
  · -- The starts that are too many stay so, whatever comes after them.
    rcases hstarts' with rfl | hlt'
    · exact .inr (by omega)
    · exact .inr (by omega)

lemma event (event : Event) (roster : Roster ρ α V) :
    roster.Tells [event] (roster.note (.event event)) :=
  ⟨[event], by simp [events, Roster.note], .inl rfl⟩

/-- Notes of what visitors do are not in the log. -/
lemma note {entry : Entry ρ α} (quiet : ∀ event, entry ≠ .event event) (roster : Roster ρ α V) :
    roster.Tells [] (roster.note entry) := by
  refine ⟨[], ?_, .inl rfl⟩
  cases entry with
  | event event => exact absurd rfl (quiet event)
  | _ => simp [events, Roster.note]

lemma putBack (visitor : Nat) (state : V) (roster : Roster ρ α V) :
    roster.Tells [] (roster.putBack visitor state) :=
  (of_journal rfl).trans (note (by simp) _)

/-- Where a start is expected, there is one. -/
lemma of_start (h : roster.Tells told final) (starts : 0 < told.countP Event.isStart) :
    roster.Tells [] final := by
  obtain ⟨added, hadded, hstarts⟩ := h
  refine ⟨added, hadded, .inr ?_⟩
  rcases hstarts with rfl | hlt
  · exact starts
  · exact Nat.zero_lt_of_lt hlt

end Tells

end Roster

/-- Traversals are announced: each adds nothing to the log, or a start among other things. -/
structure Announcing (nested : Traversal ρ α V) : Prop where
  announced : ∀ traverser nodes roster, Roster.Tells roster [] (nested traverser nodes roster).state

namespace Announcing

variable {nested : Traversal ρ α V} {behaviour : Behaviour ρ α V} {visitor : Nat}
  {roster final : Roster ρ α V}

lemma perform {β : Type} (h : Announcing nested) (visitor : Nat) (routine : Routine ρ α β)
    (roster : Roster ρ α V) : roster.Tells [] (routine.perform nested visitor roster).2 := by
  induction routine generalizing roster with
  | finish answer => exact .refl roster
  | hold target mode next ih =>
    have hheld := Roster.Tells.of_journal (Roster.journal_hold target mode roster)
    exact (hheld.trans (.note (by simp) _)).trans (ih _ _)
  | release target next ih =>
    have hreleased := Roster.Tells.of_journal (Roster.journal_release target roster)
    exact (hreleased.trans (.note (by simp) _)).trans (ih _ _)
  | traverse traverser nodes next ih =>
    have hnested := h.announced traverser nodes roster
    simp only [Routine.perform]
    rcases (nested traverser nodes roster).result with _ | result
    · exact hnested
    · exact (hnested.trans (.note (by simp) _)).trans (ih _ _)

/-- A call of a free visitor, as far as it is carried out. -/
lemma call {β : Type} {last : Roster ρ α V} (h : Announcing nested) (request : Request ρ α)
    {routine : Routine ρ α β} {answer : Option β}
    (ended : routine.perform nested visitor
      ((roster.setLease visitor .hook).note (request.entry visitor)) = (answer, last)) :
    roster.Tells [] last := by
  have htaken : roster.Tells [] (roster.setLease visitor .hook) := .of_journal rfl
  have quiet : ∀ event, request.entry visitor ≠ .event event := by
    cases request <;> simp [Request.entry]
  have hperformed := h.perform visitor routine
    ((roster.setLease visitor .hook).note (request.entry visitor))
  rw [ended] at hperformed
  exact (htaken.trans (.note quiet _)).trans hperformed

lemma called {act : Act ρ α} (h : Announcing nested)
    (hcalled : roster.Called behaviour nested visitor act final) : roster.Tells [] final := by
  cases hcalled with
  | lentForNode | lentForSequence => exact .refl roster
  | nodeOverflows free endless => exact h.call (.node _ _) endless
  | sequenceOverflows free endless => exact h.call (.sequence _ _) endless
  | nodeAnswered free ended | nodeFailed free ended =>
    exact (h.call (.node _ _) ended).trans (.putBack visitor _ _)
  | sequenceAnswered free ended | sequenceFailed free ended =>
    exact (h.call (.sequence _ _) ended).trans (.putBack visitor _ _)

/-- An act adds to the log what it makes known, or there are more starts in what it adds. -/
lemma does {traverser : Traverser} {act : Act ρ α} (h : Announcing nested)
    (hdoes : (traverser.walker behaviour nested).Does act roster final) :
    roster.Tells act.told?.toList final := by
  cases act with
  | event event =>
    obtain rfl : roster.note (.event event) = final := hdoes
    exact .event event roster
  | node | sequence =>
    obtain ⟨visitor, -, hcalled, -⟩ := (Traverser.does_call_iff rfl).1 hdoes
    exact h.called hcalled

lemma doesAll {traverser : Traverser} {acts : List (Act ρ α)} (h : Announcing nested)
    (hdoes : (traverser.walker behaviour nested).DoesAll acts roster final) :
    roster.Tells (Act.log acts) final := by
  induction acts generalizing roster with
  | nil =>
    obtain rfl : roster = final := hdoes
    exact .refl roster
  | cons act rest ih =>
    obtain ⟨mid, hact, hrest⟩ := hdoes
    have hlog : Act.log (act :: rest) = act.told?.toList ++ Act.log rest := by
      cases act <;> rfl
    rw [hlog]
    exact (h.does hact).trans (ih hrest)

end Announcing

namespace Traverser

variable [Admission ρ α]

/-- Traversals are announced, however deep they may nest. -/
theorem nest_announcing (behaviour : Behaviour ρ α V) (stack nesting : Nat) :
    Announcing (nest behaviour stack nesting) := by
  induction nesting with
  | zero => exact ⟨fun _ _ roster => .refl roster⟩
  | succ nesting ih =>
    constructor
    intro traverser nodes roster
    let walker := traverser.walker behaviour (nest behaviour stack nesting)
    obtain ⟨-, hrun, hdoes⟩ := walker.recorded_traverse stack nodes roster
    obtain ⟨rest, hacts, -⟩ := hrun.exists_start
    refine (ih.doesAll hdoes).of_start ?_
    rw [hacts, Act.log_event, List.countP_cons_of_pos rfl]
    exact Nat.succ_pos _

/-- The log of a run that tells of one start only is an exact ledger of the edits. It begins with
the start, has one entry for each edit that is applied, in order, and no other such entry, says that
the walk was stopped just if a visitor asked for it, and ends with the end of the traversal just if
it succeeds, and with a warning just if it fails for a fault that there are warnings of. Provided
that no slot of a node goes by the name of the top-level sequence, what the log tells of this
sequence can be done again with marks in the place of the nodes that the walk starts from. No index
is out of range, and each mark comes to stand where its node stands in what the walk has left, if
the node is left at all. -/
theorem nest_ledger (behaviour : Behaviour ρ α V) (stack nesting : Nat) (traverser : Traverser)
    (nodes : List (Tree ρ α)) (roster : Roster ρ α V) :
    let walker := traverser.walker behaviour (nest behaviour stack nesting)
    let sweep := nest behaviour stack (nesting + 1) traverser nodes roster
    ∃ log, sweep.state.events = roster.events ++ log ∧ (log.countP Event.isStart = 1 →
      (∃ trail, walker.Leaves stack nodes roster trail) ∧
      ∀ trail, walker.Leaves stack nodes roster trail →
        Ledger traverser.options traverser.count nodes trail sweep log ∧
        ((∀ act ∈ Moment.acts trail, act.Shuns topLevelName) →
          let start := walker.opening nodes roster
          let walked := walker.walkTop stack start.items start.state
          let left := walker.leftoversTop stack start.items start.state
          ∃ entries, Event.replay topLevelName log ((List.range start.items.length).map some) =
              some entries ∧
            (start.halt = none → entries.length = walked.items.length ∧
              ∀ mark item, left[mark]? = some (some item) ↔ ∃ index : Nat,
                entries[index]? = some (some mark) ∧ walked.items[index]? = some item))) := by
  intro walker sweep
  obtain ⟨-, hrun, hdoes⟩ := walker.recorded_traverse stack nodes roster
  obtain ⟨rest, hacts, -⟩ := hrun.exists_start
  obtain ⟨log, hlog, hstarts⟩ := (nest_announcing behaviour stack nesting).doesAll hdoes
  refine ⟨log, hlog, fun alone => ⟨walker.exists_leaves stack nodes roster, fun trail leaves => ?_⟩⟩
  obtain rfl : log = Act.log (Moment.acts trail) := by
    rw [leaves.acts_eq]
    rcases hstarts with heq | hlt
    · exact heq
    · -- A start of another traversal would be a second one.
      rw [hacts, Act.log_event, List.countP_cons_of_pos rfl] at hlt
      omega
  have hledger := leaves.trodden.ledger
  rw [length_walker, options_walker] at hledger
  exact ⟨hledger, leaves.tracked⟩

/-- Takes out what does nothing, splices two echoes in the place of one, and stops before a function
is left. -/
def thinning : Behaviour Shape Unit Unit where
  name := fun _ => "thinning"
  node := fun hook _ node => .finish
    { state := ()
      node := node
      answer := .ok (match hook, node.tag with
        | .enter, "Stmt_Nop" => .remove
        | .leave, "Stmt_Echo" => .splice [{ tag := "Stmt_Echo" }, { tag := "Stmt_Echo" }]
        | .leave, "Stmt_Return" => .stop
        | _, _ => .keep) }

/-- The log of a run with edits at the top level and in a block, which is stopped. The last three
nodes are left, and have come to stand where the log tells. -/
theorem thinning_ledger :
    let traverser : Traverser := { visitors := [0] }
    let nodes : List (Tree Shape Unit) :=
      [{ tag := "Stmt_Nop" }, { tag := "Stmt_Echo" },
        { tag := "Stmt_Block", slots := [⟨⟨"body", some .stmt⟩, .list [{ tag := "Stmt_Nop" }]⟩] },
        { tag := "Stmt_Return" }, { tag := "Stmt_Nop" }]
    let roster : Roster Shape Unit Unit := .ofList [()]
    let walker := traverser.walker thinning (nest thinning 4 0)
    let sweep := nest thinning 4 1 traverser nodes roster
    let start := walker.opening nodes roster
    let walked := walker.walkTop 4 start.items start.state
    let left := walker.leftoversTop 4 start.items start.state
    sweep.state.events =
        [.started 5 1, .removed "<top-level>" 0, .spliced "<top-level>" 0 2, .removed "body" 0,
          .stopped, .finished 5] ∧
      sweep.result = some (.ok sweep.items) ∧
      ∀ mark item, left[mark]? = some (some item) ↔ ∃ index : Nat,
        [none, none, some 2, some 3, some 4][index]? = some (some mark) ∧
          walked.items[index]? = some item := by
  intro traverser nodes roster walker sweep start walked left
  have hevents : sweep.state.events =
      [.started 5 1, .removed "<top-level>" 0, .spliced "<top-level>" 0 2, .removed "body" 0,
        .stopped, .finished 5] := by
    decide +kernel
  obtain ⟨log, hlog, hledger⟩ := nest_ledger thinning 4 0 traverser nodes roster
  obtain rfl := hevents.symm.trans hlog
  obtain ⟨⟨trail, leaves⟩, hall⟩ := hledger rfl
  obtain ⟨ledger, htracked⟩ := hall trail leaves
  obtain ⟨hresult, -⟩ := (ledger.finishes 5).1 (by simp)
  have shuns : ∀ act ∈ walker.acts 4 nodes roster, act.Shuns topLevelName := by
    decide +kernel
  obtain ⟨entries, hreplay, hstands⟩ := htracked (leaves.acts_eq ▸ shuns)
  obtain rfl := Option.some.inj hreplay
  have opened : start.halt = none := by
    decide +kernel
  exact ⟨hevents, hresult, (hstands opened).2⟩

end Traverser

end ForestWalk
