import ForestWalk.Proofs.Beside
import ForestWalk.Proofs.Insertion
import ForestWalk.Proofs.Reentrancy
import ForestWalk.Tree.Shape
import ForestWalk.Visitor.Observer
/-!
Visitors that only look on are transparent. Put into the list of a traverser at any place, such a
visitor changes nothing for the others: they are called with the same nodes in the same order, and
the traversal makes the same of the forest and ends alike. Only the places of the visitors behind
the newcomer are told anew.
-/

namespace ForestWalk

variable {ρ α V W : Type}

/-- Visitors that only look on: their hooks finish at once, and keep whatever they are shown. -/
structure Behaviour.LooksOn (watching : Behaviour ρ α W) : Prop where
  node : ∀ hook state node, ∃ seen,
    watching.node hook state node = .finish { state := seen, node := node }
  sequence : ∀ hook state nodes, ∃ seen,
    watching.sequence hook state nodes = .finish { state := seen }

namespace Behaviour.LooksOn

lemma idle : (Behaviour.idle : Behaviour ρ α Unit).LooksOn :=
  ⟨fun _ _ _ => ⟨_, rfl⟩, fun _ _ _ => ⟨_, rfl⟩⟩

lemma recorder : (Recorder.behaviour : Behaviour ρ α Recorder).LooksOn :=
  ⟨fun _ _ _ => ⟨_, rfl⟩, fun hook _ _ => by cases hook <;> exact ⟨_, rfl⟩⟩

lemma counter : (Counter.behaviour : Behaviour ρ α Counter).LooksOn :=
  ⟨fun hook _ _ => by cases hook <;> exact ⟨_, rfl⟩,
    fun hook _ _ => by cases hook <;> exact ⟨_, rfl⟩⟩

lemma sum {left : Behaviour ρ α V} {right : Behaviour ρ α W} (hleft : left.LooksOn)
    (hright : right.LooksOn) : (left.sum right).LooksOn where
  node := by
    rintro hook (state | state) node
    · obtain ⟨seen, hseen⟩ := hleft.node hook state node
      exact ⟨.inl seen, by simp only [Behaviour.sum, hseen]; rfl⟩
    · obtain ⟨seen, hseen⟩ := hright.node hook state node
      exact ⟨.inr seen, by simp only [Behaviour.sum, hseen]; rfl⟩
  sequence := by
    rintro hook (state | state) nodes
    · obtain ⟨seen, hseen⟩ := hleft.sequence hook state nodes
      exact ⟨.inl seen, by simp only [Behaviour.sum, hseen]; rfl⟩
    · obtain ⟨seen, hseen⟩ := hright.sequence hook state nodes
      exact ⟨.inr seen, by simp only [Behaviour.sum, hseen]; rfl⟩

lemma observer : (Observer.behaviour : Behaviour ρ α Observer).LooksOn :=
  idle.sum (recorder.sum counter)

end Behaviour.LooksOn

namespace Entry

/-- The visitor whose call is under way after an entry, of the calls that a traversal itself makes:
while a hook runs, other traversals may call other visitors. -/
def underWay (caller : Option Nat) (entry : Entry ρ α) : Option Nat :=
  match caller with
  | none => entry.called?
  | some visitor => if entry.called? = some visitor then none else some visitor

/-- The entry with the places of visitors told anew, if the traversal itself has made it. -/
def shifted (gap : Nat) (caller : Option Nat) (entry : Entry ρ α) : Entry ρ α :=
  match caller, entry with
  | none, .event told => .event (told.shifted gap)
  | _, entry => entry

/-- What a traversal notes, with the places of its visitors told anew. The events of traversals that
hooks start stay as they are. -/
def shiftAll (gap : Nat) : Option Nat → List (Entry ρ α) → List (Entry ρ α)
  | _, [] => []
  | caller, entry :: rest => entry.shifted gap caller :: shiftAll gap (entry.underWay caller) rest

/-- What is noted, but for the calls of a visitor. -/
def withoutCalls (number : Nat) (entries : List (Entry ρ α)) : List (Entry ρ α) :=
  entries.filter fun entry => entry.called? ≠ some number

variable {gap number caller : Nat} {inner rest : List (Entry ρ α)}

@[simp] theorem withoutCalls_append (entries more : List (Entry ρ α)) :
    withoutCalls number (entries ++ more) =
      withoutCalls number entries ++ withoutCalls number more :=
  List.filter_append ..

/-- While a hook runs nothing is told anew. -/
lemma shiftAll_running (hinner : ∀ entry ∈ inner, entry.called? ≠ some caller) :
    shiftAll gap (some caller) (inner ++ rest) = inner ++ shiftAll gap (some caller) rest := by
  induction inner with
  | nil => rfl
  | cons entry inner ih =>
    obtain ⟨hentry, hinner⟩ := List.forall_mem_cons.1 hinner
    have hstill : entry.underWay (some caller) = some caller := if_neg hentry
    rw [List.cons_append, shiftAll, hstill, ih hinner]
    rfl

/-- A call, as far as it has come, stays as it is. -/
lemma shiftAll_call {call : Entry ρ α} (hcall : call.called? = some caller)
    (hinner : ∀ entry ∈ inner, entry.called? ≠ some caller) :
    shiftAll gap none (call :: inner ++ rest) =
      call :: inner ++ shiftAll gap (some caller) rest := by
  have hsame : call.shifted gap none = call := by
    cases call with
    | event told => cases hcall
    | _ => rfl
  have hopened : call.underWay none = some caller := hcall
  rw [List.cons_append, shiftAll, hsame, hopened, shiftAll_running hinner, List.cons_append]

/-- To tell places anew does not change whose call it is. -/
lemma called?_shifted (gap : Nat) (caller : Option Nat) (entry : Entry ρ α) :
    (entry.shifted gap caller).called? = entry.called? := by
  cases caller with
  | none => cases entry <;> rfl
  | some caller => rfl

lemma withoutCalls_of_forall (hinner : ∀ entry ∈ inner, entry.called? ≠ some number) :
    withoutCalls number inner = inner :=
  List.filter_eq_self.2 fun entry hmem => decide_eq_true (hinner entry hmem)

end Entry

namespace Roster

/-- The roster with one visitor more, of a type of its own, whom nobody has borrowed. -/
def joinedBy (newcomer : W) (roster : Roster ρ α V) : Roster ρ α (V ⊕ W) where
  cells := roster.cells.map (Cell.map .inl) ++ [{ state := .inr newcomer }]
  journal := roster.journal

lemma beside_joinedBy (newcomer : W) (roster : Roster ρ α V) :
    roster.Beside roster.cells.length (roster.joinedBy newcomer) := by
  constructor
  · intro visitor hne
    rcases Nat.lt_or_gt_of_ne hne with hlt | hgt
    · simp [joinedBy, List.getElem?_append, hlt]
    · have hnone : roster.cells[visitor]? = none := List.getElem?_eq_none (Nat.le_of_lt hgt)
      simp [joinedBy, List.getElem?_append, hnone]
      omega
  · exact ⟨newcomer, by simp [joinedBy]⟩

/-- Two rosters while a traversal runs, the second with a newcomer among the visitors. Apart from
the calls of the newcomer the same was noted since the beginning, and the same call is under way. -/
structure Observed (number gap : Nat) (start : List (Entry ρ α)) (caller : Option Nat)
    (roster : Roster ρ α V) (roster' : Roster ρ α (V ⊕ W)) : Prop where
  beside : roster.Beside number roster'
  noted : ∃ entries entries', roster.journal.toList = start ++ entries ∧
    roster'.journal.toList = start ++ entries' ∧
    ∀ later, Entry.shiftAll gap none (entries ++ later) =
      Entry.withoutCalls number entries' ++ Entry.shiftAll gap caller later

namespace Observed

variable {number gap visitor : Nat} {start : List (Entry ρ α)} {caller : Option Nat}
  {roster taken : Roster ρ α V} {roster' taken' : Roster ρ α (V ⊕ W)} {state : V}

lemma refl (gap : Nat) (h : roster.Beside number roster')
    (hjournal : roster'.journal = roster.journal) :
    roster.Observed number gap roster.journal.toList none roster' :=
  ⟨h, [], [], by simp, by simp [hjournal], by simp [Entry.withoutCalls]⟩

/-- The same is noted on both rosters, but for the places told in it. -/
lemma note (h : roster.Observed number gap start caller roster') {entry : Entry ρ α}
    (hentry : entry.called? ≠ some number) :
    (roster.note entry).Observed number gap start (entry.underWay caller)
      (roster'.note (entry.shifted gap caller)) := by
  obtain ⟨entries, entries', hjournal, hjournal', hall⟩ := h.noted
  have hkept : Entry.withoutCalls number [entry.shifted gap caller] =
      [entry.shifted gap caller] := by
    refine Entry.withoutCalls_of_forall fun other hmem => ?_
    rw [List.mem_singleton.1 hmem, Entry.called?_shifted]
    exact hentry
  refine ⟨h.beside.note _ _, entries ++ [entry], entries' ++ [entry.shifted gap caller], ?_, ?_,
    fun later => ?_⟩
  · simp [Roster.note, hjournal]
  · simp [Roster.note, hjournal']
  · rw [List.append_assoc, hall, Entry.withoutCalls_append, hkept, List.append_assoc]
    rfl

/-- A call of the newcomer is noted on the second roster alone. -/
lemma newcomer_called (h : roster.Observed number gap start caller roster') {call : Entry ρ α}
    (hcall : call.called? = some number) (seen : W) :
    roster.Observed number gap start caller
      (((roster'.setLease number .hook).note call).putBack number (.inr seen)) := by
  obtain ⟨entries, entries', hjournal, hjournal', hall⟩ := h.noted
  have hdropped : Entry.withoutCalls number [call, .returned number] = [] := by
    have hreturned : (Entry.returned number : Entry ρ α).called? = some number := rfl
    simp [Entry.withoutCalls, hcall, hreturned]
  refine ⟨h.beside.newcomer_called call seen, entries, entries' ++ [call, .returned number],
    hjournal, ?_, fun later => ?_⟩
  · simp [Roster.putBack, Roster.note, Roster.setLease, hjournal']
  · rw [hall, Entry.withoutCalls_append, hdropped, List.append_nil]

/-- A hook of a visitor starts to run. -/
lemma takeForCall (h : roster.Observed number gap start caller roster') (hother : visitor ≠ number)
    (free : roster.takeForCall visitor = some (state, taken)) :
    ∃ taken', roster'.takeForCall visitor = some (.inl state, taken') ∧
      ∀ call : Entry ρ α,
        (taken.note call).Alongside number visitor (roster.journal.toList ++ [call])
          (roster'.journal.toList ++ [call]) (taken'.note call) := by
  obtain ⟨taken', free', hbeside⟩ := h.beside.takeForCall hother free
  refine ⟨taken', free', fun call => ⟨hbeside.note call call,
    (lease_taken_eq_hook_iff free visitor).2 (.inl rfl), [], ?_, ?_, nofun⟩⟩
  · simp [Roster.note, journal_taken free]
  · simp [Roster.note, journal_taken free']

variable {call : Entry ρ α} {last : Roster ρ α V} {last' : Roster ρ α (V ⊕ W)}

/-- Whatever a hook does until it ends is noted on both rosters. -/
lemma running (h : roster.Observed number gap start none roster') (hother : visitor ≠ number)
    (hcall : call.called? = some visitor)
    (hlast : last.Alongside number visitor (roster.journal.toList ++ [call])
      (roster'.journal.toList ++ [call]) last') :
    last.Observed number gap start (some visitor) last' := by
  obtain ⟨entries, entries', hjournal, hjournal', hall⟩ := h.noted
  obtain ⟨inner, hlastJournal, hlastJournal', hinner⟩ := hlast.noted
  have hkept : Entry.withoutCalls number (call :: inner) = call :: inner := by
    refine Entry.withoutCalls_of_forall (List.forall_mem_cons.2 ⟨?_, fun entry hmem => ?_⟩)
    · simpa [hcall] using hother
    · exact (hinner entry hmem).2
  refine ⟨hlast.beside, entries ++ (call :: inner), entries' ++ (call :: inner), ?_, ?_,
    fun later => ?_⟩
  · simp [hlastJournal, hjournal]
  · simp [hlastJournal', hjournal']
  · rw [List.append_assoc, hall, Entry.shiftAll_call hcall fun entry hmem => (hinner entry hmem).1,
      Entry.withoutCalls_append, hkept, List.append_assoc]

/-- A hook has run to its end. -/
lemma putBack (h : last.Observed number gap start (some visitor) last') (hother : visitor ≠ number)
    (left : V) :
    (last.putBack visitor left).Observed number gap start none
      (last'.putBack visitor (.inl left)) := by
  have hentry : (Entry.returned visitor : Entry ρ α).called? ≠ some number := by
    simpa [Entry.called?] using hother
  have hnone : (Entry.returned visitor : Entry ρ α).underWay (some visitor) = none := if_pos rfl
  obtain ⟨-, hnoted⟩ := h.note hentry
  rw [hnone] at hnoted
  exact ⟨h.beside.putBack hother left, hnoted⟩

end Observed

end Roster

section Watching

variable {behaviour : Behaviour ρ α V} {watching : Behaviour ρ α W} {nested : Traversal ρ α V}
  {nested' : Traversal ρ α (V ⊕ W)} {number gap visitor : Nat} {start : List (Entry ρ α)}

/-- The visitors of the first roster are tied to themselves on the second. -/
lemma Unnoticed.tied (h : Unnoticed number nested nested') (avoids : behaviour.Avoids number)
    (watching : Behaviour ρ α W) (gap : Nat) (start : List (Entry ρ α))
    (hother : visitor ≠ number) :
    (Traverser.registration behaviour nested visitor).Tied
      (Roster.Observed number gap start none)
      (fun roster roster' => ∃ caller, roster.Observed number gap start caller roster')
      (Traverser.registration (behaviour.sum watching) nested' visitor) where
  name := fun observed => observed.beside.name_eq hother behaviour watching
  node := by
    intro hook node roster roster' observed
    rcases free : roster.takeForCall visitor with _ | ⟨state, taken⟩
    · have lent := Roster.takeForCall_eq_none_iff.1 free
      simp only [Traverser.registration, Roster.callNode_of_lent behaviour nested lent,
        Roster.callNode_of_lent _ nested' (observed.beside.lease_eq hother ▸ lent)]
      exact ⟨trivial, .inl observed⟩
    · obtain ⟨taken', free', htaken⟩ := observed.takeForCall hother free
      obtain ⟨hreply, ⟨hover, hlast⟩ | ⟨-, last, last', left, hlast, hcalled, hcalled'⟩⟩ :=
        (h.mirrors visitor _ _).callNode (avoids.alike watching) free free' hook node (htaken _)
      · exact ⟨hreply, .inr ⟨hover, some visitor, observed.running hother rfl hlast⟩⟩
      · refine ⟨hreply, .inl ?_⟩
        simp only [Traverser.registration, hcalled, hcalled']
        exact (observed.running hother rfl hlast).putBack hother left
  sequence := by
    intro hook nodes roster roster' observed
    rcases free : roster.takeForCall visitor with _ | ⟨state, taken⟩
    · have lent := Roster.takeForCall_eq_none_iff.1 free
      simp only [Traverser.registration, Roster.callSequence_of_lent behaviour nested lent,
        Roster.callSequence_of_lent _ nested' (observed.beside.lease_eq hother ▸ lent)]
      exact ⟨trivial, .inl observed⟩
    · obtain ⟨taken', free', htaken⟩ := observed.takeForCall hother free
      obtain ⟨hreply, ⟨hover, hlast⟩ | ⟨-, last, last', left, hlast, hcalled, hcalled'⟩⟩ :=
        (h.mirrors visitor _ _).callSequence (avoids.alike watching) free free' hook nodes
          (htaken _)
      · exact ⟨hreply, .inr ⟨hover, some visitor, observed.running hother rfl hlast⟩⟩
      · refine ⟨hreply, .inl ?_⟩
        simp only [Traverser.registration, hcalled, hcalled']
        exact (observed.running hother rfl hlast).putBack hother left

/-- A newcomer that only looks on keeps what it is shown. -/
lemma Behaviour.LooksOn.registration (h : watching.LooksOn) (behaviour : Behaviour ρ α V)
    (nested' : Traversal ρ α (V ⊕ W)) (gap : Nat) (start : List (Entry ρ α)) :
    (Traverser.registration (behaviour.sum watching) nested' number).LooksOn
      (Roster.Observed (V := V) number gap start none) where
  node := by
    intro hook node roster roster' observed
    obtain ⟨state, hstate⟩ := observed.beside.newcomer
    obtain ⟨seen, hseen⟩ := h.node hook state node
    have free := Roster.takeForCall_of_free hstate
    have hcall : (Entry.nodeCall number hook node : Entry ρ α).called? = some number := rfl
    refine ⟨_, ?_, observed.newcomer_called hcall seen⟩
    simp only [Traverser.registration, Roster.callNode, free, Behaviour.sum, hseen]
    rfl
  sequence := by
    intro hook nodes roster roster' observed
    obtain ⟨state, hstate⟩ := observed.beside.newcomer
    obtain ⟨seen, hseen⟩ := h.sequence hook state nodes
    have free := Roster.takeForCall_of_free hstate
    have hcall : (Entry.sequenceCall number hook nodes : Entry ρ α).called? = some number := rfl
    refine ⟨_, ?_, observed.newcomer_called hcall seen⟩
    simp only [Traverser.registration, Roster.callSequence, free, Behaviour.sum, hseen]
    rfl

/-- The walker of a traverser into whose list a newcomer was put that only looks on. -/
def Traverser.observing (unnoticed : Unnoticed number nested nested')
    (avoids : behaviour.Avoids number) (looksOn : watching.LooksOn) (start : List (Entry ρ α))
    (options : Options) {front back : List Nat} (unlisted : number ∉ front ++ back) :
    Insertion (Traverser.walker behaviour nested ⟨front ++ back, options⟩)
      (Traverser.walker (behaviour.sum watching) nested' ⟨front ++ number :: back, options⟩) where
  sync := Roster.Observed number front.length start none
  torn := fun roster roster' => ∃ caller, roster.Observed number front.length start caller roster'
  front := front.map (registration behaviour nested)
  back := back.map (registration behaviour nested)
  front' := front.map (registration (behaviour.sum watching) nested')
  watcher := registration (behaviour.sum watching) nested' number
  back' := back.map (registration (behaviour.sum watching) nested')
  visitors := by simp [walker]
  visitors' := by simp [walker]
  options := rfl
  fronts := by
    refine List.forall₂_map_left_iff.2 (List.forall₂_map_right_iff.2 (List.forall₂_same.2 ?_))
    intro visitor hmem
    exact unnoticed.tied avoids watching front.length start
      fun heq => unlisted (List.mem_append_left back (heq ▸ hmem))
  looksOn := looksOn.registration behaviour nested' front.length start
  backs := by
    refine List.forall₂_map_left_iff.2 (List.forall₂_map_right_iff.2 (List.forall₂_same.2 ?_))
    intro visitor hmem
    exact unnoticed.tied avoids watching front.length start
      fun heq => unlisted (List.mem_append_right front (heq ▸ hmem))
  tells := by
    intro event roster roster' observed
    rw [List.length_map]
    have hentry : (Entry.event event : Entry ρ α).called? ≠ some number := nofun
    exact observed.note hentry

end Watching

namespace Traverser

variable [Admission ρ α]

/-- A traversal with a newcomer on the list that only looks on, beside the same traversal without
it. -/
theorem nest_observed {number : Nat} {behaviour : Behaviour ρ α V}
    (avoids : behaviour.Avoids number) {watching : Behaviour ρ α W} (looksOn : watching.LooksOn)
    {front back : List Nat} (unlisted : number ∉ front ++ back) (options : Options)
    (stack nesting : Nat) (nodes : List (Tree ρ α)) {roster : Roster ρ α V}
    {roster' : Roster ρ α (V ⊕ W)} (beside : roster.Beside number roster')
    (hjournal : roster'.journal = roster.journal) :
    let alone := nest behaviour stack nesting ⟨front ++ back, options⟩ nodes roster
    let observed := nest (behaviour.sum watching) stack nesting ⟨front ++ number :: back, options⟩
      nodes roster'
    observed.items = alone.items ∧
      Option.Rel (Halt.Shifted front.length) alone.halt observed.halt ∧
      ∃ caller, alone.state.Observed number front.length roster.journal.toList caller
        observed.state := by
  have start := Roster.Observed.refl front.length beside hjournal
  cases nesting with
  | zero => exact ⟨rfl, .some .overflowed, none, start⟩
  | succ nesting =>
    let insertion := observing (nest_unnoticed avoids watching stack nesting) avoids looksOn
      roster.journal.toList options unlisted
    have hgap : insertion.gap = front.length := List.length_map _
    obtain ⟨hitems, hhalt, hstate⟩ := insertion.traverse stack nodes start
    rw [hgap] at hhalt
    refine ⟨hitems, hhalt, ?_⟩
    rcases hstate with synced | ⟨-, torn⟩
    · exact ⟨none, synced⟩
    · exact torn

/-- Observers are transparent. Put a new one into the list of a traverser, at any place and in any
state: if the visitors have nothing to do with it, the traversal makes the same of the forest as
without it, and it fails in the same way if it does. The others end up as they would without it.
Apart from the calls of the observer the same is noted, call by call and with the same nodes. Only
that one visitor more is told of at the start, and that the places of those behind the new one are
told anew. -/
theorem traverseInPlace_observed {behaviour : Behaviour ρ α V} (roster : Roster ρ α V)
    (avoids : behaviour.Avoids roster.cells.length) (front back : List Nat)
    (unlisted : roster.cells.length ∉ front ++ back) (options : Options) (observer : Observer)
    (stack : Nat) (nodes : List (Tree ρ α)) :
    let number := roster.cells.length
    let alone := traverseInPlace behaviour stack ⟨front ++ back, options⟩ nodes roster
    let observed := traverseInPlace (behaviour.sum Observer.behaviour) stack
      ⟨front ++ number :: back, options⟩ nodes (roster.joinedBy observer)
    observed.items = alone.items ∧
      Option.Rel (Halt.Shifted front.length) alone.halt observed.halt ∧
      (∀ visitor, visitor ≠ number →
        observed.state.cells[visitor]? = alone.state.cells[visitor]?.map (Cell.map .inl)) ∧
      ∃ entries entries', alone.state.journal.toList = roster.journal.toList ++ entries ∧
        observed.state.journal.toList = roster.journal.toList ++ entries' ∧
        Entry.withoutCalls number entries' = Entry.shiftAll front.length none entries := by
  intro number alone observed
  -- the roster with the newcomer has room for one traversal more to nest
  have hnestings : nestings (roster.joinedBy observer) = nestings roster + 1 := by
    simp [nestings, Roster.joinedBy]
  have enough : roster.Suffices (nestings roster) := by
    simp only [Roster.Suffices, nestings]
    omega
  have halone : alone = nest behaviour stack (nestings roster + 1) ⟨front ++ back, options⟩ nodes
      roster :=
    (nest_agree behaviour stack (nestings roster) 1).eq _ nodes roster enough
  obtain ⟨hitems, hhalt, caller, hstate⟩ := nest_observed avoids .observer unlisted options stack
    (nestings roster + 1) nodes (roster.beside_joinedBy observer) rfl
  have hobserved : observed = nest (behaviour.sum Observer.behaviour) stack (nestings roster + 1)
      ⟨front ++ number :: back, options⟩ nodes (roster.joinedBy observer) := by
    rw [← hnestings]
    rfl
  rw [← halone, ← hobserved] at hhalt hstate
  obtain ⟨entries, entries', hjournal, hjournal', hall⟩ := hstate.noted
  refine ⟨halone ▸ hobserved ▸ hitems, hhalt, hstate.beside.others, entries, entries', hjournal,
    hjournal', ?_⟩
  simpa [Entry.shiftAll] using (hall []).symm

/-- The place and the name of the visitor that an error speaks of. -/
def failed? : Halt → Option (Nat × String)
  | .failed error => error.site.map fun site => (site.index, site.visitor)
  | _ => none

/-- Whenever it is shown a node it borrows the visitor with the number 1, and keeps it. -/
def clinging : Behaviour Shape Unit Unit where
  name := fun _ => "clinging"
  node := fun _ state node =>
    .hold 1 .exclusive fun _ => .finish { state := state, node := node }

/-- A visitor that another one has borrowed cannot be called. With a recorder between the two the
error tells of it at its new place. -/
theorem clinging_observed :
    let roster : Roster Shape Unit Unit := .ofList [(), ()]
    let recorder : Observer := .inr (.inl {})
    let alone := traverseInPlace clinging 2 { visitors := [0, 1] } [{ tag := "Stmt_Nop" }] roster
    let observed := traverseInPlace (clinging.sum Observer.behaviour) 2 { visitors := [0, 2, 1] }
      [{ tag := "Stmt_Nop" }] (roster.joinedBy recorder)
    alone.halt.bind failed? =
        some (1, "<visitor #1, name unavailable while mutably borrowed>") ∧
      observed.halt.bind failed? =
        some (2, "<visitor #2, name unavailable while mutably borrowed>") ∧
      observed.items = alone.items ∧ Option.Rel (Halt.Shifted 1) alone.halt observed.halt := by
  intro roster recorder alone observed
  have avoids : clinging.Avoids roster.cells.length :=
    ⟨fun _ _ _ => ⟨by decide, fun _ => trivial⟩, fun _ _ _ => trivial⟩
  have unlisted : roster.cells.length ∉ [0] ++ [1] := by decide
  obtain ⟨hitems, hhalt, -⟩ := traverseInPlace_observed roster avoids [0] [1] unlisted {} recorder 2
    [{ tag := "Stmt_Nop" }]
  exact ⟨by decide +kernel, by decide +kernel, hitems, hhalt⟩

end Traverser

end ForestWalk
