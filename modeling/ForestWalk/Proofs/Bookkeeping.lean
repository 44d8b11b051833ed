import ForestWalk.Proofs.Images
import ForestWalk.Proofs.Neighbours
import ForestWalk.Proofs.ReadOnly
import ForestWalk.Proofs.Sparing
/-!
A recorder and a counter that stand next to each other on the list of a traverser. Both are shown
the same from the start of a traversal to its end, whatever the others do to the forest and however
the traversal ends, so that what the one has written down is what the other has counted. What they
remember of earlier traversals makes no difference.
-/

namespace ForestWalk

variable {ρ α V W : Type}

section Accumulators

namespace Showing

/-- The tag of a node, if one is shown on a given occasion. -/
def tag? (hook : NodeHook) : Showing ρ α → Option String
  | .node occasion shown => if occasion = hook then some shown.tag else none
  | .sequence _ _ => none

/-- Whether the sequence is shown before the walk. -/
def opens : Showing ρ α → Bool
  | .sequence .before _ => true
  | _ => false

/-- The tags of the nodes that are shown on an occasion, in order. -/
def tags (hook : NodeHook) (showings : List (Showing ρ α)) : List String :=
  showings.filterMap (tag? hook)

end Showing

variable {showings : List (Showing ρ α)}

/-- A recorder writes down the tags of the nodes that it is shown. -/
lemma Recorder.foldl_watch (goesOn : ∀ showing ∈ showings, showing.opens = false)
    (recorder : Recorder) :
    showings.foldl watch recorder =
      { recorder with
        entered := recorder.entered ++ Showing.tags .enter showings
        left := recorder.left ++ Showing.tags .leave showings } := by
  induction showings generalizing recorder with
  | nil => simp [Showing.tags]
  | cons showing rest ih =>
    obtain ⟨hshowing, hrest⟩ := List.forall_mem_cons.1 goesOn
    rw [List.foldl_cons, ih hrest]
    cases showing with
    | node hook node => cases hook <;> simp [watch, record, Showing.tags, Showing.tag?]
    | sequence hook nodes =>
      cases hook with
      | before => cases hshowing
      | after => rfl

namespace Counter

/-- Counts tags one after the other. -/
def seeAll (tags : List String) (counter : Counter) : Counter :=
  tags.foldl (fun counter tag => counter.see tag) counter

/-- A counter counts the nodes that it is shown when they are left. -/
lemma foldl_watch (goesOn : ∀ showing ∈ showings, showing.opens = false) (counter : Counter) :
    showings.foldl watch counter = counter.seeAll (Showing.tags .leave showings) := by
  induction showings generalizing counter with
  | nil => rfl
  | cons showing rest ih =>
    obtain ⟨hshowing, hrest⟩ := List.forall_mem_cons.1 goesOn
    rw [List.foldl_cons, ih hrest]
    cases showing with
    | node hook node => cases hook <;> rfl
    | sequence hook nodes =>
      cases hook with
      | before => cases hshowing
      | after => rfl

theorem count_seeAll (tag : String) (tags : List String) (counter : Counter) :
    (counter.seeAll tags).count tag = counter.count tag + tags.count tag := by
  induction tags generalizing counter with
  | nil => rfl
  | cons seen rest ih =>
    have hstep := ih (counter.see seen)
    rw [count_see, Nat.add_assoc] at hstep
    rw [List.count_cons, Nat.add_comm (rest.count tag)]
    simpa only [seeAll, List.foldl_cons, beq_iff_eq] using hstep

theorem total_seeAll (tags : List String) (counter : Counter) :
    (counter.seeAll tags).total = counter.total + tags.length := by
  induction tags generalizing counter with
  | nil => rfl
  | cons seen rest ih =>
    have hstep := ih (counter.see seen)
    rw [total_see, Nat.add_assoc] at hstep
    rw [List.length_cons, Nat.add_comm rest.length]
    exact hstep

/-- No tag has an entry that was not seen. -/
lemma pos_of_mem_bump {tag : String} {counts : List (String × Nat)}
    (h : ∀ entry ∈ counts, 0 < entry.2) : ∀ entry ∈ bump tag counts, 0 < entry.2 := by
  induction counts with
  | nil => simp [bump]
  | cons first rest ih =>
    obtain ⟨other, n⟩ := first
    obtain ⟨hfirst, hrest⟩ := List.forall_mem_cons.1 h
    rw [bump]
    split
    · exact List.forall_mem_cons.2 ⟨Nat.succ_pos n, hrest⟩
    · exact List.forall_mem_cons.2 ⟨hfirst, ih hrest⟩

lemma pos_of_mem_seeAll (tags : List String) {counter : Counter}
    (h : ∀ entry ∈ counter.counts, 0 < entry.2) :
    ∀ entry ∈ (counter.seeAll tags).counts, 0 < entry.2 := by
  induction tags generalizing counter with
  | nil => exact h
  | cons seen rest ih => exact ih (pos_of_mem_bump h)

end Counter

end Accumulators

section Reaching

namespace Act

variable {place : Nat} {act : Act ρ α} {acts : List (Act ρ α)}

/-- The visitor at a place was shown the sequence before the walk, and could be called. -/
def Reaches (place : Nat) (acts : List (Act ρ α)) : Prop :=
  ∃ act ∈ acts, act.opens = true ∧ act.place? = some place ∧ act.isRefused = false

instance : Decidable (Reaches place acts) :=
  inferInstanceAs
    (Decidable (∃ act ∈ acts, act.opens = true ∧ act.place? = some place ∧ act.isRefused = false))

lemma shownAt_of_opens (opens : act.opens = true) (called : act.place? = some place)
    (acts : List (Act ρ α)) :
    ∃ nodes, shownAt place (act :: acts) = .sequence .before nodes :: shownAt place acts := by
  cases act with
  | event | node => cases opens
  | sequence index name hook nodes reply =>
    obtain rfl := Option.some.inj called
    cases hook with
    | before => exact ⟨nodes, by simp [shownAt_sequence]⟩
    | after => cases opens

/-- Where no call begins a traversal, a visitor is shown nothing that does. -/
lemma opens_of_mem_shownAt (goesOn : ∀ act ∈ acts, act.place? = some place → act.opens = false) :
    ∀ showing ∈ shownAt place acts, showing.opens = false := by
  induction acts with
  | nil => simp
  | cons act rest ih =>
    obtain ⟨hact, hrest⟩ := List.forall_mem_cons.1 goesOn
    cases act with
    | event => exact ih hrest
    | node index name hook node reply =>
      rw [shownAt_node]
      split
      · exact List.forall_mem_cons.2 ⟨rfl, ih hrest⟩
      · exact ih hrest
    | sequence index name hook nodes reply =>
      rw [shownAt_sequence]
      split
      · rename_i heq
        have hopens := hact (congrArg some heq)
        cases hook with
        | before => cases hopens
        | after => exact List.forall_mem_cons.2 ⟨rfl, ih hrest⟩
      · exact ih hrest

end Act

end Reaching

section Attending

variable {behaviour : Behaviour ρ α V} {nested : Traversal ρ α V} {traverser : Traverser}
  {P : Nat → V → Prop} {embed : W → V} {watch : W → Showing ρ α → W} {number place : Nat}

/-- A visitor stands on the list of a traverser once, at a given place. It watches what it is shown,
and everybody spares it. -/
structure Attendant (behaviour : Behaviour ρ α V) (nested : Traversal ρ α V) (traverser : Traverser)
    (P : Nat → V → Prop) (embed : W → V) (watch : W → Showing ρ α → W) (number place : Nat) :
    Prop where
  considerate : Considerate number P nested
  spares : behaviour.Spares number P
  watches : behaviour.Watches embed watch
  kind : ∀ state, P number (embed state)
  listed : traverser.visitors[place]? = some number
  once : ∀ other : Nat, traverser.visitors[other]? = some number → other = place

/-- All visitors are in states of a certain kind, and one of them, which watches, is free. -/
def Roster.Attended (P : Nat → V → Prop) (embed : W → V) (number : Nat) (roster : Roster ρ α V) :
    Prop :=
  roster.Conforms P ∧ ∃ state, roster.cells[number]? = some { state := embed state }

namespace Attendant

variable {roster mid final : Roster ρ α V} {act : Act ρ α} {acts : List (Act ρ α)}

lemma attended_of_undisturbed (attended : roster.Attended P embed number)
    (h : Undisturbed number P roster final) :
    final.cells[number]? = roster.cells[number]? ∧ final.Attended P embed number := by
  obtain ⟨-, state, hcell⟩ := attended
  obtain ⟨lease, hfinal, hfree⟩ := h.kept hcell
  obtain rfl := hfree rfl
  exact ⟨hfinal.trans hcell.symm, h.conforms, state, hfinal⟩

/-- While other visitors are called, nothing happens to one that is free. -/
lemma leavesAlone (h : Attendant behaviour nested traverser P embed watch number place) :
    traverser.LeavesAlone behaviour nested (Roster.Attended P embed number) number where
  node := by
    intro roster visitor attended _ hother hook node
    have hcalled : roster.Called behaviour nested visitor (.node place "" hook node _) _ :=
      Roster.called_node_iff.2 rfl
    exact (attended_of_undisturbed attended
      (h.considerate.called h.spares hother (.refl attended.1) hcalled)).1
  sequence := by
    intro roster visitor attended _ hother hook nodes
    have hcalled : roster.Called behaviour nested visitor (.sequence place "" hook nodes _) _ :=
      Roster.called_sequence_iff.2 rfl
    exact (attended_of_undisturbed attended
      (h.considerate.called h.spares hother (.refl attended.1) hcalled)).1

/-- A call of another visitor. -/
lemma undisturbed (h : Attendant behaviour nested traverser P embed watch number place)
    {before : Roster ρ α V} (alone : Undisturbed number P before roster)
    (elsewhere : act.place? ≠ some place)
    (hdoes : (traverser.walker behaviour nested).Does act roster final) :
    Undisturbed number P before final := by
  refine h.considerate.does h.spares alone (fun index hook tag hcall hlisted => ?_) hdoes
  obtain rfl := h.once index hlisted
  cases act with
  | event => cases hcall
  | node | sequence =>
    cases hcall
    exact elsewhere rfl

/-- A free visitor that watches keeps what it is shown, and is free again after the call. -/
lemma does (h : Attendant behaviour nested traverser P embed watch number place)
    (attended : roster.Attended P embed number)
    (hdoes : (traverser.walker behaviour nested).Does act roster final) :
    (act.place? = some place → act.Keeps) ∧ final.Attended P embed number := by
  by_cases elsewhere : act.place? = some place
  · obtain ⟨hall, state, hcell⟩ := attended
    have hcalled : ∀ {seen : W}, final.cells = roster.cells.set number { state := embed seen } →
        final.Attended P embed number := by
      intro seen hcells
      refine ⟨fun {visitor cell} hvisitor => ?_, seen, Roster.getElem?_of_called hcell hcells⟩
      rw [hcells, List.getElem?_set] at hvisitor
      split at hvisitor
      · rename_i heq
        subst heq
        rw [if_pos (List.getElem?_eq_some_iff.1 hcell).1] at hvisitor
        obtain rfl := Option.some.inj hvisitor
        exact h.kind seen
      · exact hall hvisitor
    cases act with
    | event => cases elsewhere
    | node index name hook node reply =>
      obtain rfl := Option.some.inj elsewhere
      obtain ⟨visitor, hvisitor, hcall, -⟩ := Traverser.does_node_iff.1 hdoes
      obtain rfl := Option.some.inj (hvisitor.symm.trans h.listed)
      obtain ⟨rfl, hcells⟩ := Roster.callNode_finished hcell (h.watches.node hook state node) hcall
      exact ⟨fun _ => rfl, hcalled hcells⟩
    | sequence index name hook nodes reply =>
      obtain rfl := Option.some.inj elsewhere
      obtain ⟨visitor, hvisitor, hcall, -⟩ := Traverser.does_sequence_iff.1 hdoes
      obtain rfl := Option.some.inj (hvisitor.symm.trans h.listed)
      obtain ⟨rfl, hcells⟩ :=
        Roster.callSequence_finished hcell (h.watches.sequence hook state nodes) hcall
      exact ⟨fun _ => rfl, hcalled hcells⟩
  · refine ⟨fun heq => absurd heq elsewhere, ?_⟩
    exact (attended_of_undisturbed attended
      (h.undisturbed (.refl attended.1) elsewhere hdoes)).2

/-- Calls of other visitors. -/
lemma undisturbed_doesAll (h : Attendant behaviour nested traverser P embed watch number place)
    {before : Roster ρ α V} (alone : Undisturbed number P before roster)
    (quiet : ∀ act ∈ acts, act.place? ≠ some place)
    (hdoes : (traverser.walker behaviour nested).DoesAll acts roster final) :
    Undisturbed number P before final := by
  induction acts generalizing roster with
  | nil =>
    obtain rfl : roster = final := hdoes
    exact alone
  | cons act rest ih =>
    obtain ⟨mid, hact, hrest⟩ := hdoes
    obtain ⟨elsewhere, hquiet⟩ := List.forall_mem_cons.1 quiet
    exact ih (h.undisturbed alone elsewhere hact) hquiet hrest

/-- A visitor that can be called the first time is never found lent when its turn comes again. It
keeps all that it is shown, and has watched all of it in the end. -/
theorem attends (h : Attendant behaviour nested traverser P embed watch number place)
    {before after : List (Act ρ α)} {state : W} {lease : Lease}
    (conforms : roster.Conforms P)
    (hcell : roster.cells[number]? = some { state := embed state, lease := lease })
    (quiet : ∀ act ∈ before, act.place? ≠ some place) (called : act.place? = some place)
    (accepted : act.isRefused = false)
    (hdoes : (traverser.walker behaviour nested).DoesAll (before ++ act :: after) roster final) :
    let seen := Act.shownAt place (act :: after)
    (∀ later ∈ before ++ act :: after, later.place? = some place → later.Keeps) ∧
      final.cells[number]? = some { state := embed (seen.foldl watch state) } := by
  obtain ⟨mid, hbefore, hrest⟩ := (Walker.doesAll_append _).1 hdoes
  have hmid := h.undisturbed_doesAll (.refl conforms) quiet hbefore
  obtain ⟨left, hleft, -⟩ := hmid.kept hcell
  -- The visitor is called for the first time, and is free then.
  have hfree : mid.lease number = some .free := by
    obtain ⟨_, hact, -⟩ := hrest
    by_contra hlent
    cases act with
    | event => cases called
    | node | sequence =>
      obtain rfl := Option.some.inj called
      have hrefused := (Traverser.does_isRefused_iff hact rfl h.listed).2 hlent
      rw [accepted] at hrefused
      cases hrefused
  obtain ⟨_, hleft', hlease⟩ := Roster.lease_eq_some_iff.1 hfree
  obtain rfl := Option.some.inj (hleft.symm.trans hleft')
  obtain rfl : left = .free := hlease
  have attended : mid.Attended P embed number := ⟨hmid.conforms, state, hleft⟩
  obtain ⟨hkeeps, -⟩ := hrest.invariant (fun hroster hact => h.does hroster hact) attended
  refine ⟨?_, ?_⟩
  · intro later hlater hplace
    rcases List.mem_append.1 hlater with hmem | hmem
    · exact absurd hplace (quiet later hmem)
    · exact hkeeps later hmem hplace
  · exact h.leavesAlone.watched (fun hroster hact => (h.does hroster hact).2) h.watches h.listed
      h.once attended hleft hrest

variable [Admission ρ α] {options : Options} {count room : Nat} {nodes items : List (Tree ρ α)}
  {halt : Option Halt}

/-- A visitor that was reached before the walk is shown the sequence first, and nothing that begins
another traversal later. It keeps all that it is shown, and has watched all of it in the end. -/
theorem attends_run (h : Attendant behaviour nested traverser P embed watch number place)
    {state : W} {lease : Lease}
    (conforms : roster.Conforms P)
    (hcell : roster.cells[number]? = some { state := embed state, lease := lease })
    (hrun : TraversalRun options count room nodes acts items halt)
    (hdoes : (traverser.walker behaviour nested).DoesAll acts roster final)
    (reached : Act.Reaches place acts) :
    ∃ start rest, Act.shownAt place acts = .sequence .before start :: rest ∧
      (∀ showing ∈ rest, showing.opens = false) ∧
      (∀ act ∈ acts, act.place? = some place → act.Keeps) ∧
      final.cells[number]? =
        some { state := embed ((Act.shownAt place acts).foldl watch state) } := by
  obtain ⟨act, hmem, opens, called, accepted⟩ := reached
  obtain ⟨before, after, rfl, quiet, hafter⟩ := hrun.exists_reached hmem opens called
  obtain ⟨hkeeps, hfinal⟩ := h.attends conforms hcell quiet called accepted hdoes
  have hbefore : Act.shownAt place before = [] := Act.shownAt_eq_nil_iff.2 quiet
  have hseen : Act.shownAt place (before ++ act :: after) = Act.shownAt place (act :: after) := by
    rw [Act.shownAt_append, hbefore, List.nil_append]
  rw [hseen]
  obtain ⟨start, hact⟩ := Act.shownAt_of_opens opens called after
  exact ⟨start, _, hact, Act.opens_of_mem_shownAt hafter, hkeeps, hfinal⟩

end Attendant

end Attending

section Remembering

/-- A visitor of which nothing is left but its name. -/
def Behaviour.onlooker : Behaviour ρ α String where
  name := id

/-- But for what they remember, observers are like such visitors. -/
lemma Observer.alike_onlooker :
    (Observer.behaviour : Behaviour ρ α Observer).Alike
      (Observer.behaviour (ρ := ρ) (α := α)).name (fun _ => True) Eq Behaviour.onlooker where
  name := fun _ => rfl
  node := by
    rintro hook (_ | recorder | counter) node
    · exact .finish rfl
    · cases hook <;> exact .finish rfl
    · cases hook <;> exact .finish rfl
  sequence := by
    rintro hook (_ | recorder | counter) nodes
    · exact .finish rfl
    · cases hook <;> exact .finish rfl
    · cases hook <;> exact .finish rfl

/-- A visitor gets another state, and stays lent as it is. -/
def Roster.reset (visitor : Nat) (state : V) (roster : Roster ρ α V) : Roster ρ α V :=
  { roster with cells := roster.cells.modify visitor fun cell => { cell with state := state } }

namespace Roster

variable {roster : Roster ρ α V} {visitor number : Nat} {cell : Cell V}

lemma getElem?_reset (state : V) (hcell : roster.cells[visitor]? = some cell) :
    (roster.reset visitor state).cells[visitor]? = some { cell with state := state } := by
  simp [reset, hcell]

lemma getElem?_reset_ne (state : V) (hne : visitor ≠ number) :
    (roster.reset visitor state).cells[number]? = roster.cells[number]? := by
  simp [reset, hne]

/-- Where two states have the same image, the one can take the place of the other. -/
lemma map_reset {f : V → W} {state : V} (hcell : roster.cells[visitor]? = some cell)
    (hstate : f state = f cell.state) : (roster.reset visitor state).map f = roster.map f := by
  refine congrArg (Roster.mk · roster.journal) (List.ext_getElem? fun other => ?_)
  rw [List.getElem?_map, List.getElem?_map]
  by_cases heq : visitor = other
  · subst heq
    rw [getElem?_reset state hcell, hcell, Option.map_some, Option.map_some]
    simp only [Cell.map, hstate]
  · rw [getElem?_reset_ne state heq]

/-- A reset visitor is in a state of the same kind. -/
lemma conforms_reset {P : Nat → V → Prop} {state : V} (hstate : P visitor state)
    (h : roster.Conforms P) : (roster.reset visitor state).Conforms P := by
  intro number cell hcell
  by_cases heq : visitor = number
  · subst heq
    rcases hkept : roster.cells[visitor]? with _ | kept
    · simp [reset, hkept] at hcell
    · rw [getElem?_reset state hkept] at hcell
      obtain rfl := Option.some.inj hcell
      exact hstate
  · exact h ((getElem?_reset_ne state heq).symm.trans hcell)

end Roster

end Remembering

section Books

/-- Observers spare everybody. -/
lemma Observer.spares (number : Nat) :
    (Observer.behaviour : Behaviour ρ α Observer).Spares number fun _ _ => True where
  node := by
    rintro visitor (_ | recorder | counter) - hook node
    · trivial
    · cases hook <;> trivial
    · cases hook <;> trivial
  sequence := by
    rintro visitor (_ | recorder | counter) - hook nodes
    · trivial
    · cases hook <;> trivial
    · cases hook <;> trivial

/-- A recorder and a counter stand next to each other on the list of a traverser, each of them once.
The visitors that are no observers spare both of them, as long as they are in states of a certain
kind. -/
structure Traverser.KeepsBooks (behaviour : Behaviour ρ α V) (spares : Nat → V → Prop)
    (traverser : Traverser) (recording counting first second : Nat) : Prop where
  sparesRecorder : behaviour.Spares recording spares
  sparesCounter : behaviour.Spares counting spares
  records : traverser.visitors[first]? = some recording
  counts : traverser.visitors[second]? = some counting
  recordsOnce : traverser.visitors.count recording = 1
  countsOnce : traverser.visitors.count counting = 1
  adjacent : first + 1 = second ∨ second + 1 = first

/-- A recorder and a counter in certain states, while all visitors that are no observers are in
states of a certain kind. -/
structure Roster.HasBooks (spares : Nat → V → Prop) (recording counting : Nat) (recorder : Recorder)
    (counter : Counter) (roster : Roster ρ α (V ⊕ Observer)) : Prop where
  conforms : roster.Conforms fun visitor => Sum.elim (spares visitor) fun _ => True
  recorder : ∃ lease, roster.cells[recording]? =
    some { state := .inr (.inr (.inl recorder)), lease := lease }
  counter : ∃ lease, roster.cells[counting]? =
    some { state := .inr (.inr (.inr counter)), lease := lease }

variable {behaviour : Behaviour ρ α V} {spares : Nat → V → Prop} {traverser : Traverser}
  {recording counting first second : Nat} {recorder : Recorder} {counter : Counter}
  {roster final : Roster ρ α (V ⊕ Observer)}

/-- The roster with a recorder and a counter as if they had never been called. -/
def Roster.withNewBooks (recording counting : Nat) (roster : Roster ρ α (V ⊕ Observer)) :
    Roster ρ α (V ⊕ Observer) :=
  (roster.reset recording (.inr (.inr (.inl {})))).reset counting (.inr (.inr (.inr {})))

namespace Roster.HasBooks

lemma ne (h : roster.HasBooks spares recording counting recorder counter) :
    recording ≠ counting := by
  obtain ⟨_, hrecorder⟩ := h.recorder
  obtain ⟨_, hcounter⟩ := h.counter
  rintro rfl
  cases hrecorder.symm.trans hcounter

lemma withNewBooks (h : roster.HasBooks spares recording counting recorder counter) :
    (roster.withNewBooks recording counting).HasBooks spares recording counting {} {} where
  conforms := conforms_reset trivial (conforms_reset trivial h.conforms)
  recorder := by
    obtain ⟨lease, hrecorder⟩ := h.recorder
    exact ⟨lease, (getElem?_reset_ne _ h.ne.symm).trans (getElem?_reset _ hrecorder)⟩
  counter := by
    obtain ⟨lease, hcounter⟩ := h.counter
    exact ⟨lease, getElem?_reset _ ((getElem?_reset_ne _ h.ne).trans hcounter)⟩

/-- Apart from what the two remember, the roster with new books is the same. -/
lemma map_withNewBooks (h : roster.HasBooks spares recording counting recorder counter) :
    let f := Sum.map id (Observer.behaviour (ρ := ρ) (α := α)).name
    (roster.withNewBooks recording counting).map f = roster.map f := by
  intro f
  obtain ⟨_, hrecorder⟩ := h.recorder
  obtain ⟨_, hcounter⟩ := h.counter
  have hcounter' := (getElem?_reset_ne (.inr (.inr (.inl {}))) h.ne).trans hcounter
  calc (roster.withNewBooks recording counting).map f
      = (roster.reset recording (.inr (.inr (.inl {})))).map f := map_reset hcounter' rfl
    _ = roster.map f := map_reset hrecorder rfl

end Roster.HasBooks

namespace Traverser.KeepsBooks

variable [Admission ρ α] {stack nesting : Nat}

lemma recorderAttends (h : traverser.KeepsBooks behaviour spares recording counting first second)
    (stack nesting : Nat) :
    Attendant (behaviour.sum Observer.behaviour)
      (nest (behaviour.sum Observer.behaviour) stack nesting) traverser
      (fun visitor => Sum.elim (spares visitor) fun _ => True)
      (fun recorder => .inr (.inr (.inl recorder))) Recorder.watch recording first := by
  have hspares := h.sparesRecorder.sum (Observer.spares recording)
  obtain ⟨place, hplace, once⟩ := exists_place_of_count_eq_one h.recordsOnce
  obtain rfl := once first h.records
  exact ⟨nest_considerate hspares stack nesting, hspares, Recorder.watches behaviour,
    fun _ => trivial, hplace, once⟩

lemma counterAttends (h : traverser.KeepsBooks behaviour spares recording counting first second)
    (stack nesting : Nat) :
    Attendant (behaviour.sum Observer.behaviour)
      (nest (behaviour.sum Observer.behaviour) stack nesting) traverser
      (fun visitor => Sum.elim (spares visitor) fun _ => True)
      (fun counter => .inr (.inr (.inr counter))) Counter.watch counting second := by
  have hspares := h.sparesCounter.sum (Observer.spares counting)
  obtain ⟨place, hplace, once⟩ := exists_place_of_count_eq_one h.countsOnce
  obtain rfl := once second h.counts
  exact ⟨nest_considerate hspares stack nesting, hspares, Counter.watches behaviour,
    fun _ => trivial, hplace, once⟩

/-- At the end of a traversal that reached them both, the two have the books of that traversal. -/
lemma books (h : traverser.KeepsBooks behaviour spares recording counting first second)
    (has : roster.HasBooks spares recording counting recorder counter)
    (nodes : List (Tree ρ α)) {acts : List (Act ρ α)}
    (hacts : (traverser.walker (behaviour.sum Observer.behaviour)
      (nest (behaviour.sum Observer.behaviour) stack nesting)).acts stack nodes roster = acts)
    (reachesRecorder : Act.Reaches first acts) (reachesCounter : Act.Reaches second acts) :
    let swept := nest (behaviour.sum Observer.behaviour) stack (nesting + 1) traverser nodes roster
    let left := Showing.tags .leave (Act.shownAt first acts)
    swept.state.cells[recording]? = some { state := .inr (.inr (.inl {
      entered := Showing.tags .enter (Act.shownAt first acts)
      left := left
      runs := recorder.runs + 1 })) } ∧
    swept.state.cells[counting]? =
      some { state := .inr (.inr (.inr (Counter.seeAll left {}))) } := by
  intro swept left
  let walker := traverser.walker (behaviour.sum Observer.behaviour)
    (nest (behaviour.sum Observer.behaviour) stack nesting)
  obtain ⟨-, hrun, hdoes⟩ := walker.recorded_traverse stack nodes roster
  rw [show walker.acts stack nodes roster = acts from hacts] at hrun hdoes
  obtain ⟨_, hrecorder⟩ := has.recorder
  obtain ⟨_, hcounter⟩ := has.counter
  obtain ⟨start, rest, hseen, hrest, hkeeps, hrecorded⟩ :=
    (h.recorderAttends stack nesting).attends_run has.conforms hrecorder hrun hdoes reachesRecorder
  obtain ⟨start', rest', hseen', hrest', hkeeps', hcounted⟩ :=
    (h.counterAttends stack nesting).attends_run has.conforms hcounter hrun hdoes reachesCounter
  have hcount : walker.visitors.length = traverser.visitors.length := length_walker
  rw [hcount] at hrun
  -- The one of the two that comes first hands on all that it is shown.
  have hsame : Act.shownAt first acts = Act.shownAt second acts := by
    rcases h.adjacent with rfl | rfl
    · exact hrun.shownAt_neighbours (List.getElem?_eq_some_iff.1 h.counts).1 hkeeps
    · exact (hrun.shownAt_neighbours (List.getElem?_eq_some_iff.1 h.records).1 hkeeps').symm
  have hswept : swept.state = (walker.traverse stack nodes roster).state := rfl
  have htags : ∀ hook, Showing.tags hook (Act.shownAt first acts) = Showing.tags hook rest := by
    intro hook
    rw [hseen]
    rfl
  constructor
  · have hlast := Recorder.foldl_watch hrest recorder.restart
    rw [hseen, List.foldl_cons, Recorder.watch, hlast] at hrecorded
    rw [hswept, hrecorded]
    simp only [left, htags, Recorder.restart, List.nil_append]
  · have hlast := Counter.foldl_watch hrest {}
    rw [← hsame, hseen, List.foldl_cons, Counter.watch, hlast] at hcounted
    rw [hswept, hcounted]
    simp only [left, htags]

end Traverser.KeepsBooks

namespace Traverser

/-- However a traversal ends that has reached both a recorder and a counter next to it, and whatever
the others do to the forest meanwhile, the counter has counted what the recorder has written down of
the nodes that were left. Both end with the same as they would if they were called for the first
time, but that the recorder knows of the earlier traversals. -/
theorem nest_bookkeeping [Admission ρ α]
    (keeps : traverser.KeepsBooks behaviour spares recording counting first second)
    (has : roster.HasBooks spares recording counting recorder counter) (stack nesting : Nat)
    (nodes : List (Tree ρ α)) :
    let both := behaviour.sum Observer.behaviour
    let acts := (traverser.walker both (nest both stack nesting)).acts stack nodes roster
    let swept := nest both stack (nesting + 1) traverser nodes roster
    let fresh := nest both stack (nesting + 1) traverser nodes
      (roster.withNewBooks recording counting)
    Act.Reaches first acts → Act.Reaches second acts →
    ∃ (entered left : List String) (counted : Counter),
      swept.state.cells[recording]? = some { state := .inr (.inr (.inl {
        entered := entered, left := left, runs := recorder.runs + 1 })) } ∧
      swept.state.cells[counting]? = some { state := .inr (.inr (.inr counted)) } ∧
      (∀ tag, counted.count tag = left.count tag) ∧ counted.total = left.length ∧
      (∀ entry ∈ counted.counts, 0 < entry.2) ∧
      fresh.state.cells[recording]? = some { state := .inr (.inr (.inl {
        entered := entered, left := left, runs := 1 })) } ∧
      fresh.state.cells[counting]? = some { state := .inr (.inr (.inr counted)) } := by
  intro both acts swept fresh reachesRecorder reachesCounter
  have alike := Observer.alike_onlooker.sum behaviour
  have hfresh : (traverser.walker both (nest both stack nesting)).acts stack nodes
      (roster.withNewBooks recording counting) = acts := by
    have himaged := nest_imaged alike stack nesting
    refine (himaged.acts_map alike stack nodes _).symm.trans ?_
    rw [has.map_withNewBooks]
    exact himaged.acts_map alike stack nodes roster
  obtain ⟨hrecorder, hcounter⟩ := keeps.books has nodes rfl reachesRecorder reachesCounter
  obtain ⟨hrecorder', hcounter'⟩ :=
    keeps.books has.withNewBooks nodes hfresh reachesRecorder reachesCounter
  refine ⟨_, _, _, hrecorder, hcounter, fun tag => ?_, ?_, ?_, hrecorder', hcounter'⟩
  · rw [Counter.count_seeAll]
    exact Nat.zero_add _
  · rw [Counter.total_seeAll]
    exact Nat.zero_add _
  · exact Counter.pos_of_mem_seeAll _ (List.forall_mem_nil _)

/-- Removes what does nothing, and stops before a function is left. -/
def abridging : Behaviour Shape Unit Unit where
  name := fun _ => "abridging"
  node := fun hook _ node => .finish
    { state := ()
      node := node
      answer := .ok (if hook = .enter ∧ node.tag = "Stmt_Nop" then .remove
        else if hook = .leave ∧ node.tag = "Stmt_Return" then .stop else .keep) }

lemma abridging_spares (number : Nat) : abridging.Spares number fun _ _ => True :=
  ⟨fun _ _ _ => trivial, fun _ _ _ => trivial⟩

/-- A counter in front of a recorder, neither of them new, in a traversal that is stopped. -/
theorem abridging_bookkeeping :
    let both := abridging.sum Observer.behaviour
    let traverser : Traverser := { visitors := [0, 1, 2] }
    let roster : Roster Shape Unit (Unit ⊕ Observer) :=
      .ofList [.inl (), .inr (.inr (.inr { counts := [("Stmt_If", 7)] })),
        .inr (.inr (.inl { left := ["Stmt_If"], runs := 4 }))]
    let nodes : List (Tree Shape Unit) :=
      [{ tag := "Stmt_Nop" }, { tag := "Stmt_Echo" }, { tag := "Stmt_Return" },
        { tag := "Stmt_If" }]
    let swept := nest both 2 1 traverser nodes roster
    ∃ counted : Counter,
      swept.state.cells[2]? = some { state := .inr (.inr (.inl {
        entered := ["Stmt_Echo", "Stmt_Return"], left := ["Stmt_Echo"], runs := 5 })) } ∧
      swept.state.cells[1]? = some { state := .inr (.inr (.inr counted)) } ∧
      counted.count "Stmt_Echo" = 1 ∧ counted.count "Stmt_If" = 0 ∧ counted.total = 1 := by
  intro both traverser roster nodes swept
  have keeps : traverser.KeepsBooks abridging (fun _ _ => True) 2 1 2 1 :=
    ⟨abridging_spares 2, abridging_spares 1, rfl, rfl, rfl, rfl, .inr rfl⟩
  have has : roster.HasBooks (fun _ _ => True) 2 1 { left := ["Stmt_If"], runs := 4 }
      { counts := [("Stmt_If", 7)] } :=
    { conforms := fun _ cell _ => by rcases cell.state with _ | _ <;> trivial
      recorder := ⟨.free, rfl⟩
      counter := ⟨.free, rfl⟩ }
  have reached : Act.Reaches 2 ((traverser.walker both (nest both 2 0)).acts 2 nodes roster) ∧
      Act.Reaches 1 ((traverser.walker both (nest both 2 0)).acts 2 nodes roster) := by
    decide +kernel
  obtain ⟨entered, left, counted, hrecorder, hcounter, hcount, htotal, -⟩ :=
    nest_bookkeeping keeps has 2 0 nodes reached.1 reached.2
  have hread : (swept.state.cells[2]?.map (·.state)) = some (.inr (.inr (.inl {
      entered := ["Stmt_Echo", "Stmt_Return"], left := ["Stmt_Echo"], runs := 5 }))) := by
    decide +kernel
  have hbooks := hread
  rw [hrecorder] at hbooks
  cases hbooks
  exact ⟨counted, hrecorder, hcounter, (hcount _).trans rfl, (hcount _).trans rfl, htotal⟩

end Traverser

end Books

end ForestWalk
