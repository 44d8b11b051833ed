import ForestWalk.Proofs.Refusals
/-!
Rounds of calls in which nothing is asked for. A visitor whose hook finishes at once answers if it
is free, and nobody but itself is changed by the call. If every visitor keeps what it is shown, a
round goes through all of them in order, and shows the same to each.
-/

namespace ForestWalk

variable {ρ α V : Type}

/-- What the traversal is told of the way a hook ended. -/
def NodeResult.reply (result : NodeResult ρ α V) : NodeReply ρ α :=
  match result.answer with
  | .ok directive => .answered result.node directive
  | .error cause => .failed result.node cause

/-- What the traversal is told of the way a hook ended. -/
def SequenceResult.reply (result : SequenceResult ρ α V) : SequenceReply ρ α :=
  match result.answer with
  | .ok replacement => .answered replacement
  | .error cause => .failed cause

namespace Roster

variable {behaviour : Behaviour ρ α V} {visitor : Nat} {state : V} {roster : Roster ρ α V}

/-- A call takes a visitor off the roster and puts it back. -/
lemma cells_putBack_taken (roster : Roster ρ α V) (visitor : Nat) (entry : Entry ρ α) (state : V) :
    (((roster.setLease visitor .hook).note entry).putBack visitor state).cells =
      roster.cells.set visitor { state := state } := by
  refine List.ext_getElem? fun other => ?_
  simp only [putBack, cells_note, setLease, List.getElem?_set, List.length_modify,
    List.getElem?_modify]
  by_cases h : visitor = other
  · simp [h]
  · simp [h]

/-- A free visitor whose hook finishes at once answers, and the call changes its own state only. -/
lemma callNode_of_finish (nested : Traversal ρ α V)
    (free : roster.cells[visitor]? = some { state := state })
    {hook : NodeHook} {node : Tree ρ α} {result : NodeResult ρ α V}
    (finish : behaviour.node hook state node = .finish result) :
    ∃ final, roster.callNode behaviour nested visitor hook node = (result.reply, final) ∧
      final.cells = roster.cells.set visitor { state := result.state } := by
  refine ⟨_, ?_, roster.cells_putBack_taken visitor (.nodeCall visitor hook node) result.state⟩
  simp only [callNode, takeForCall_of_free free, finish]
  rfl

/-- A free visitor whose hook finishes at once answers, and the call changes its own state only. -/
lemma callSequence_of_finish (nested : Traversal ρ α V)
    (free : roster.cells[visitor]? = some { state := state })
    {hook : SequenceHook} {nodes : List (Tree ρ α)} {result : SequenceResult ρ α V}
    (finish : behaviour.sequence hook state nodes = .finish result) :
    ∃ final, roster.callSequence behaviour nested visitor hook nodes = (result.reply, final) ∧
      final.cells = roster.cells.set visitor { state := result.state } := by
  refine ⟨_, ?_, roster.cells_putBack_taken visitor (.sequenceCall visitor hook nodes) result.state⟩
  simp only [callSequence, takeForCall_of_free free, finish]
  rfl

/-- A call of a free visitor whose hook finishes at once ends as the hook does. -/
lemma callNode_finished {nested : Traversal ρ α V}
    (free : roster.cells[visitor]? = some { state := state })
    {hook : NodeHook} {node : Tree ρ α} {result : NodeResult ρ α V}
    (finish : behaviour.node hook state node = .finish result) {reply : NodeReply ρ α}
    {final : Roster ρ α V}
    (called : roster.callNode behaviour nested visitor hook node = (reply, final)) :
    reply = result.reply ∧ final.cells = roster.cells.set visitor { state := result.state } := by
  obtain ⟨_, hcall, hcells⟩ := callNode_of_finish nested free finish
  cases hcall.symm.trans called
  exact ⟨rfl, hcells⟩

lemma callSequence_finished {nested : Traversal ρ α V}
    (free : roster.cells[visitor]? = some { state := state })
    {hook : SequenceHook} {nodes : List (Tree ρ α)} {result : SequenceResult ρ α V}
    (finish : behaviour.sequence hook state nodes = .finish result) {reply : SequenceReply ρ α}
    {final : Roster ρ α V}
    (called : roster.callSequence behaviour nested visitor hook nodes = (reply, final)) :
    reply = result.reply ∧ final.cells = roster.cells.set visitor { state := result.state } := by
  obtain ⟨_, hcall, hcells⟩ := callSequence_of_finish nested free finish
  cases hcall.symm.trans called
  exact ⟨rfl, hcells⟩

lemma getElem?_of_called {final : Roster ρ α V} {left : V}
    (free : roster.cells[visitor]? = some { state := state })
    (hcells : final.cells = roster.cells.set visitor { state := left }) :
    final.cells[visitor]? = some { state := left } := by
  have hlt := (List.getElem?_eq_some_iff.1 free).1
  rw [hcells, List.getElem?_set_self hlt]

/-- A call after which a visitor is in the same state changes no visitor. -/
lemma cells_eq_of_called {final : Roster ρ α V}
    (free : roster.cells[visitor]? = some { state := state })
    (hcells : final.cells = roster.cells.set visitor { state := state }) :
    final.cells = roster.cells := by
  rw [hcells]
  refine List.ext_getElem? fun other => ?_
  rw [List.getElem?_set]
  split
  · rename_i heq
    rw [if_pos (List.getElem?_eq_some_iff.1 free).1, ← heq, free]
  · rfl

end Roster

/-- What a visitor is shown when it is called. -/
inductive Showing (ρ α : Type) where
  | node (hook : NodeHook) (node : Tree ρ α)
  | sequence (hook : SequenceHook) (nodes : List (Tree ρ α))

namespace Showing

/-- A round of calls: each visitor of so many on a list is shown the same. -/
def round (count : Nat) (showing : Showing ρ α) : List (Nat × Showing ρ α) :=
  (List.range count).map fun index => (index, showing)

/-- What the visitor at a place is shown, out of the calls of all visitors. -/
def shownAt (place : Nat) (calls : List (Nat × Showing ρ α)) : List (Showing ρ α) :=
  calls.filterMap fun call => if call.1 = place then some call.2 else none

@[simp] theorem shownAt_append (place : Nat) (calls more : List (Nat × Showing ρ α)) :
    shownAt place (calls ++ more) = shownAt place calls ++ shownAt place more :=
  List.filterMap_append

/-- In a round every visitor is called once. -/
lemma shownAt_round {count place : Nat} (inRange : place < count)
    (showing : Showing ρ α) : shownAt place (showing.round count) = [showing] := by
  induction count with
  | zero => omega
  | succ count ih =>
    have hlast : showing.round (count + 1) = showing.round count ++ [(count, showing)] := by
      simp [round, List.range_succ]
    rw [hlast, shownAt_append]
    by_cases hlt : place < count
    · have hne : count ≠ place := by omega
      have hnone : shownAt place [(count, showing)] = [] := by simp [shownAt, hne]
      rw [ih hlt, hnone, List.append_nil]
    · obtain rfl : place = count := by omega
      have hnone : shownAt place (showing.round place) = [] := by
        refine List.filterMap_eq_nil_iff.2 fun call hcall => if_neg ?_
        obtain ⟨index, hindex, rfl⟩ := List.mem_map.1 hcall
        exact Nat.ne_of_lt (List.mem_range.1 hindex)
      rw [hnone]
      simp [shownAt]

lemma shownAt_rounds {count place : Nat} (inRange : place < count)
    (showings : List (Showing ρ α)) :
    shownAt place (showings.flatMap (round count)) = showings := by
  induction showings with
  | nil => rfl
  | cons showing rest ih =>
    rw [List.flatMap_cons, shownAt_append, shownAt_round inRange, ih, List.singleton_append]

end Showing

namespace Act

/-- The place of the visitor that the act calls, and what it is shown. -/
def showing? : Act ρ α → Option (Nat × Showing ρ α)
  | .event _ => none
  | .node index _ hook shown _ => some (index, .node hook shown)
  | .sequence index _ hook shown _ => some (index, .sequence hook shown)

/-- The visitor that the act calls, if it calls one, asks for nothing. -/
def Keeps : Act ρ α → Prop
  | .event _ => True
  | .node _ _ _ shown reply => reply = .answered shown .keep
  | .sequence _ _ _ _ reply => reply = .answered none

@[simp] theorem filterMap_showing?_telling (event : Option Event) :
    (telling event : List (Act ρ α)).filterMap showing? = [] := by
  cases event <;> rfl

end Act

section Rounds

variable {options : Options} {count index : Nat} {acts : List (Act ρ α)}

@[simp] theorem Options.judge_keep [Admission ρ α] (options : Options) (hook : NodeHook)
    (place : Place ρ) (site : CallSite) (node left : Tree ρ α) :
    options.judge hook place site node (.answered left .keep) = (.proceed left, none) := by
  simp [judge, follow, firstRefused, Directive.legal, Directive.carried, Directive.verdict,
    Directive.event]

@[simp] theorem Options.judge_remove [Admission ρ α] (options : Options) (hook : NodeHook)
    (place : Place ρ) (site : CallSite) (node left : Tree ρ α) :
    options.judge hook place site node (.answered left .remove) = (.remove, none) := by
  simp [judge, follow, firstRefused, Directive.legal, Directive.carried, Directive.verdict,
    Directive.event]

/-- If all visitors keep the node, each is called with it in order, and the node stays as it is. -/
lemma ConsultRun.of_keeps [Admission ρ α] {hook : NodeHook} {place : Place ρ} {node : Tree ρ α}
    {verdict : Verdict (Tree ρ α)}
    (hrun : ConsultRun options count hook place index node acts verdict)
    (keeps : ∀ index name shown reply, Act.node index name hook shown reply ∈ acts →
      reply = .answered shown .keep) :
    verdict = .proceed node ∧
      acts.filterMap Act.showing? =
        (List.range' index (count - index)).map fun number => (number, .node hook node) := by
  induction hrun with
  | done node => simp
  | @pass index name node next reply event acts verdict inRange judged others ih =>
    obtain rfl := keeps _ _ _ _ List.mem_cons_self
    rw [Options.judge_keep] at judged
    obtain ⟨hnext, rfl⟩ := Prod.mk.inj judged
    obtain rfl := Verdict.proceed.inj hnext
    obtain ⟨hverdict, hcalls⟩ := ih fun _ _ _ _ hmem => keeps _ _ _ _ (List.mem_cons_of_mem _ hmem)
    have hrest : count - index = count - (index + 1) + 1 := by omega
    refine ⟨hverdict, ?_⟩
    rw [List.filterMap_cons_some (f := Act.showing?) rfl, hrest, List.range'_succ, List.map_cons,
      ← hcalls]
    rfl
  | settle inRange judged settled =>
    obtain rfl := keeps _ _ _ _ List.mem_cons_self
    rw [Options.judge_keep] at judged
    exact absurd (Prod.mk.inj judged).1.symm (settled _)

/-- If no visitor asks for another sequence, each is shown it in order, and it stays as it is. -/
lemma ShowRun.of_keeps {hook : SequenceHook} {nodes items : List (Tree ρ α)} {halt : Option Halt}
    (hrun : ShowRun count hook index nodes acts items halt)
    (keeps : ∀ index name shown reply, Act.sequence index name hook shown reply ∈ acts →
      reply = .answered none) :
    items = nodes ∧ halt = none ∧
      acts.filterMap Act.showing? =
        (List.range' index (count - index)).map fun number => (number, .sequence hook nodes) := by
  induction hrun with
  | done nodes => simp
  | @pass index name nodes next items reply event acts halt inRange judged others ih =>
    obtain rfl := keeps _ _ _ _ List.mem_cons_self
    cases judged
    obtain ⟨hitems, hhalt, hcalls⟩ :=
      ih fun _ _ _ _ hmem => keeps _ _ _ _ (List.mem_cons_of_mem _ hmem)
    have hcount : count - index = count - (index + 1) + 1 := by omega
    refine ⟨hitems, hhalt, ?_⟩
    rw [List.filterMap_cons_some (f := Act.showing?) rfl, hcount, List.range'_succ, List.map_cons,
      ← hcalls]
    rfl
  | @halt index name nodes items reply event why inRange judged =>
    obtain rfl := keeps _ _ _ _ List.mem_cons_self
    cases judged

end Rounds

end ForestWalk
