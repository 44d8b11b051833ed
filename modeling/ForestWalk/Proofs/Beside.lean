import ForestWalk.Proofs.Mirror
import ForestWalk.Proofs.Refusals
/-!
A roster beside another one that has a visitor more, with whom nobody has anything to do. Whatever a
hook does goes the same way on both rosters: what it borrows, what it starts, and what is noted of
it.
-/

namespace ForestWalk

variable {ρ α V W : Type}

/-- The cell of a visitor whose state is taken for one of another type. -/
def Cell.map (f : V → W) (cell : Cell V) : Cell W where
  state := f cell.state
  lease := cell.lease

section Avoiding

/-- The routine has nothing to do with a visitor: it does not borrow it, nor start a traversal that
would call it. -/
def Routine.Avoids {β : Type} (number : Nat) : Routine ρ α β → Prop
  | .finish _ => True
  | .hold target _ next => target ≠ number ∧ ∀ granted, (next granted).Avoids number
  | .release target next => target ≠ number ∧ ∀ count, (next count).Avoids number
  | .traverse traverser _ next =>
    number ∉ traverser.visitors ∧ ∀ result, (next result).Avoids number

/-- None of the visitors has anything to do with a given one. -/
structure Behaviour.Avoids (number : Nat) (behaviour : Behaviour ρ α V) : Prop where
  node : ∀ hook state node, (behaviour.node hook state node).Avoids number
  sequence : ∀ hook state nodes, (behaviour.sequence hook state nodes).Avoids number

/-- The traverser is the same, and does not call the visitor. -/
def Traverser.Without (number : Nat) (traverser traverser' : Traverser) : Prop :=
  traverser' = traverser ∧ number ∉ traverser.visitors

lemma Routine.Avoids.alike {β γ : Type} {number : Nat} {routine : Routine ρ α β}
    (h : routine.Avoids number) (f : β → γ) :
    Routine.Alike (fun answer answer' => answer' = f answer) (· ≠ number)
      (Traverser.Without number) routine (routine.map f) := by
  induction routine with
  | finish answer => exact .finish rfl
  | hold target mode next ih => exact .hold h.1 fun granted => ih granted (h.2 granted)
  | release target next ih => exact .release h.1 fun count => ih count (h.2 count)
  | traverse traverser nodes next ih =>
    exact .traverse ⟨rfl, h.1⟩ fun result => ih result (h.2 result)

lemma Behaviour.Avoids.alike {number : Nat} {behaviour : Behaviour ρ α V}
    (h : behaviour.Avoids number) (watching : Behaviour ρ α W) :
    behaviour.Alike .inl (· ≠ number) (Traverser.Without number) (behaviour.sum watching) where
  name := fun _ => rfl
  node := fun hook state node => (h.node hook state node).alike (NodeResult.mapState Sum.inl)
  sequence := fun hook state nodes =>
    (h.sequence hook state nodes).alike (SequenceResult.mapState Sum.inl)

end Avoiding

namespace Roster

/-- The second roster has one visitor more, under a given number, which nobody has borrowed. -/
structure Beside (number : Nat) (roster : Roster ρ α V) (roster' : Roster ρ α (V ⊕ W)) : Prop where
  others : ∀ visitor, visitor ≠ number →
    roster'.cells[visitor]? = roster.cells[visitor]?.map (Cell.map .inl)
  newcomer : ∃ state, roster'.cells[number]? = some { state := .inr state }

namespace Beside

variable {number visitor : Nat} {roster taken : Roster ρ α V} {roster' : Roster ρ α (V ⊕ W)}
  {state : V}

lemma note (h : roster.Beside number roster') (entry entry' : Entry ρ α) :
    (roster.note entry).Beside number (roster'.note entry') :=
  ⟨h.others, h.newcomer⟩

lemma setLease (h : roster.Beside number roster') (hother : visitor ≠ number) (lease : Lease) :
    (roster.setLease visitor lease).Beside number (roster'.setLease visitor lease) := by
  constructor
  · intro other hne
    simp only [Roster.setLease, List.getElem?_modify, h.others other hne, Option.map_eq_map,
      Option.map_map]
    congr 1
    funext cell
    simp only [Function.comp_apply]
    split <;> rfl
  · obtain ⟨seen, hseen⟩ := h.newcomer
    exact ⟨seen, by simp [Roster.setLease, hseen, hother]⟩

lemma hold (h : roster.Beside number roster') (hother : visitor ≠ number) (mode : Mode) :
    (roster'.hold visitor mode).1 = (roster.hold visitor mode).1 ∧
      (roster.hold visitor mode).2.Beside number (roster'.hold visitor mode).2 := by
  simp only [Roster.hold, h.others visitor hother]
  rcases roster.cells[visitor]? with _ | cell
  · exact ⟨rfl, h⟩
  · simp only [Option.map_some, Option.bind_some, Cell.map]
    rcases cell.lease.lend mode with _ | lent
    · exact ⟨rfl, h⟩
    · exact ⟨rfl, h.setLease hother lent⟩

lemma release (h : roster.Beside number roster') (hother : visitor ≠ number) :
    (roster'.release visitor).1 = (roster.release visitor).1 ∧
      (roster.release visitor).2.Beside number (roster'.release visitor).2 := by
  simp only [Roster.release, h.others visitor hother]
  rcases roster.cells[visitor]? with _ | cell
  · exact ⟨rfl, h⟩
  · exact ⟨rfl, h.setLease hother cell.lease.giveBack⟩

lemma lease_eq (h : roster.Beside number roster') (hother : visitor ≠ number) :
    roster'.lease visitor = roster.lease visitor := by
  simp only [Roster.lease, h.others visitor hother, Option.map_map]
  rfl

lemma name_eq (h : roster.Beside number roster') (hother : visitor ≠ number)
    (behaviour : Behaviour ρ α V) (watching : Behaviour ρ α W) :
    roster'.name (behaviour.sum watching) visitor = roster.name behaviour visitor := by
  simp only [Roster.name, read, h.others visitor hother]
  rcases roster.cells[visitor]? with _ | cell
  · rfl
  · simp only [Option.map_some, Option.filter_some, Cell.map]
    split <;> rfl

/-- What is free on the one roster is free on the other. -/
lemma takeForCall (h : roster.Beside number roster') (hother : visitor ≠ number)
    (free : roster.takeForCall visitor = some (state, taken)) :
    ∃ taken', roster'.takeForCall visitor = some (.inl state, taken') ∧
      taken.Beside number taken' := by
  obtain ⟨⟨cell, hcell, hfree, rfl⟩, rfl⟩ := takeForCall_eq_some_iff.1 free
  refine ⟨_, takeForCall_eq_some_iff.2 ⟨⟨cell.map .inl, ?_, hfree, rfl⟩, rfl⟩,
    h.setLease hother .hook⟩
  rw [h.others visitor hother, hcell]
  rfl

lemma putBack (h : roster.Beside number roster') (hother : visitor ≠ number) (left : V) :
    (roster.putBack visitor left).Beside number (roster'.putBack visitor (.inl left)) := by
  constructor
  · intro other hne
    by_cases heq : visitor = other
    · subst heq
      simp only [Roster.putBack, cells_note, List.getElem?_set_self', h.others visitor hother]
      rcases roster.cells[visitor]? with _ | cell <;> rfl
    · simp [Roster.putBack, List.getElem?_set_ne heq, h.others other hne]
  · obtain ⟨seen, hseen⟩ := h.newcomer
    exact ⟨seen, by simp [Roster.putBack, List.getElem?_set_ne hother, hseen]⟩

/-- A call of the newcomer changes none but the newcomer. -/
lemma newcomer_called (h : roster.Beside number roster') (call : Entry ρ α) (seen : W) :
    roster.Beside number
      (((roster'.setLease number .hook).note call).putBack number (.inr seen)) := by
  constructor
  · intro other hne
    rw [← h.others other hne]
    simp [Roster.putBack, Roster.setLease, List.getElem?_set_ne hne.symm, hne.symm]
  · obtain ⟨state, hstate⟩ := h.newcomer
    obtain ⟨hlt, -⟩ := List.getElem?_eq_some_iff.1 hstate
    exact ⟨seen, by simp [Roster.putBack, Roster.setLease, hlt]⟩

end Beside

/-- Two rosters while a hook of a visitor runs. Since then the same was noted on both, and no other
call of this visitor or of the newcomer. -/
structure Alongside (number caller : Nat) (before before' : List (Entry ρ α))
    (roster : Roster ρ α V) (roster' : Roster ρ α (V ⊕ W)) : Prop where
  beside : roster.Beside number roster'
  busy : roster.lease caller = some .hook
  noted : ∃ inner, roster.journal.toList = before ++ inner ∧
    roster'.journal.toList = before' ++ inner ∧
    ∀ entry ∈ inner, entry.called? ≠ some caller ∧ entry.called? ≠ some number

namespace Alongside

variable {number caller : Nat} {before before' : List (Entry ρ α)} {roster : Roster ρ α V}
  {roster' : Roster ρ α (V ⊕ W)}

lemma note (h : roster.Alongside number caller before before' roster') {entry : Entry ρ α}
    (hcaller : entry.called? ≠ some caller) (hnumber : entry.called? ≠ some number) :
    (roster.note entry).Alongside number caller before before' (roster'.note entry) := by
  obtain ⟨inner, hjournal, hjournal', hinner⟩ := h.noted
  refine ⟨h.beside.note entry entry, h.busy, inner ++ [entry], ?_, ?_, ?_⟩
  · simp [Roster.note, hjournal]
  · simp [Roster.note, hjournal']
  · intro other hmem
    rcases List.mem_append.1 hmem with hmem | hmem
    · exact hinner other hmem
    · obtain rfl := List.mem_singleton.1 hmem
      exact ⟨hcaller, hnumber⟩

/-- Steps that touch neither the journal nor the running hook. -/
lemma of_beside (h : roster.Alongside number caller before before' roster')
    {final : Roster ρ α V} {final' : Roster ρ α (V ⊕ W)} (beside : final.Beside number final')
    (busy : final.lease caller = some .hook) (hjournal : final.journal = roster.journal)
    (hjournal' : final'.journal = roster'.journal) :
    final.Alongside number caller before before' final' := by
  refine ⟨beside, busy, ?_⟩
  rw [hjournal, hjournal']
  exact h.noted

variable {visitor : Nat} {state : V} {taken : Roster ρ α V}

/-- The visitor whose hook runs is not free. -/
lemma caller_ne (h : roster.Alongside number caller before before' roster')
    (free : roster.takeForCall visitor = some (state, taken)) : visitor ≠ caller := by
  rintro rfl
  have hfree := lease_of_takeForCall free
  rw [h.busy] at hfree
  cases hfree

lemma takeForCall (h : roster.Alongside number caller before before' roster')
    (hother : visitor ≠ number) (free : roster.takeForCall visitor = some (state, taken)) :
    ∃ taken', roster'.takeForCall visitor = some (.inl state, taken') ∧
      taken.Alongside number caller before before' taken' := by
  obtain ⟨taken', free', hbeside⟩ := h.beside.takeForCall hother free
  exact ⟨taken', free', h.of_beside hbeside ((lease_taken_eq_hook_iff free caller).2 (.inr h.busy))
    (journal_taken free) (journal_taken free')⟩

lemma putBack (h : roster.Alongside number caller before before' roster')
    (hother : visitor ≠ number) (hcaller : visitor ≠ caller) (left : V) :
    (roster.putBack visitor left).Alongside number caller before before'
      (roster'.putBack visitor (.inl left)) := by
  have hentry : ∀ other, visitor ≠ other →
      (Entry.returned visitor : Entry ρ α).called? ≠ some other := by
    simp [Entry.called?]
  obtain ⟨-, -, hnoted⟩ := h.note (hentry caller hcaller) (hentry number hother)
  exact ⟨h.beside.putBack hother left,
    (lease_putBack_eq_hook_iff visitor caller left roster).2 ⟨hcaller.symm, h.busy⟩, hnoted⟩

end Alongside

end Roster

/-- Ways to run traversals that go alike on both rosters while a hook runs, as long as the newcomer
is not on the list. -/
structure Unnoticed (number : Nat) (nested : Traversal ρ α V) (nested' : Traversal ρ α (V ⊕ W)) :
    Prop where
  traverse : ∀ {traverser caller before before'} {roster : Roster ρ α V}
    {roster' : Roster ρ α (V ⊕ W)} nodes, number ∉ traverser.visitors →
    roster.Alongside number caller before before' roster' →
    let sweep := nested traverser nodes roster
    let sweep' := nested' traverser nodes roster'
    sweep'.items = sweep.items ∧ sweep'.halt = sweep.halt ∧
      sweep.state.Alongside number caller before before' sweep'.state

namespace Unnoticed

variable {number caller : Nat} {before before' : List (Entry ρ α)} {nested : Traversal ρ α V}
  {nested' : Traversal ρ α (V ⊕ W)} {roster final : Roster ρ α V} {roster' : Roster ρ α (V ⊕ W)}

lemma mirrors (h : Unnoticed number nested nested') (caller : Nat)
    (before before' : List (Entry ρ α)) :
    Mirrors (Roster.Alongside number caller before before') (· ≠ number)
      (Traverser.Without number) nested nested' where
  note := fun hcalled h => h.note (by simp [hcalled]) (by simp [hcalled])
  hold := by
    intro target roster roster' mode hother h
    obtain ⟨hgranted, hbeside⟩ := h.beside.hold hother mode
    exact ⟨hgranted, h.of_beside hbeside
      ((Roster.lease_hold_eq_hook_iff target mode roster caller).2 h.busy)
      (roster.journal_hold target mode) (roster'.journal_hold target mode)⟩
  release := by
    intro target roster roster' hother h
    obtain ⟨hcount, hbeside⟩ := h.beside.release hother
    exact ⟨hcount, h.of_beside hbeside
      ((Roster.lease_release_eq_hook_iff target roster caller).2 h.busy)
      (roster.journal_release target) (roster'.journal_release target)⟩
  traverse := by
    rintro traverser _ roster roster' nodes ⟨rfl, unlisted⟩ halongside
    exact h.traverse nodes unlisted halongside

section Calls

variable {behaviour : Behaviour ρ α V} {visitor : Nat}

/-- A call of a visitor on the lists goes alike, and what it leaves behind does. -/
lemma callNode (h : Unnoticed number nested nested') (avoids : behaviour.Avoids number)
    (watching : Behaviour ρ α W) (hother : visitor ≠ number)
    (halongside : roster.Alongside number caller before before' roster') (hook : NodeHook)
    (node : Tree ρ α) :
    let called := roster.callNode behaviour nested visitor hook node
    let called' := roster'.callNode (behaviour.sum watching) nested' visitor hook node
    called'.1 = called.1 ∧ called.2.Alongside number caller before before' called'.2 := by
  rcases free : roster.takeForCall visitor with _ | ⟨state, taken⟩
  · have lent := Roster.takeForCall_eq_none_iff.1 free
    rw [Roster.callNode_of_lent behaviour nested lent,
      Roster.callNode_of_lent _ _ (halongside.beside.lease_eq hother ▸ lent)]
    exact ⟨rfl, halongside⟩
  · have hcaller := halongside.caller_ne free
    obtain ⟨taken', free', htaken⟩ := halongside.takeForCall hother free
    obtain ⟨hreply, ⟨-, hlast⟩ | ⟨-, last, last', left, hlast, hcalled, hcalled'⟩⟩ :=
      (h.mirrors caller before before').callNode (avoids.alike watching) free free' hook node
        (htaken.note (by simpa [Entry.called?]) (by simpa [Entry.called?]))
    · exact ⟨hreply, hlast⟩
    · exact ⟨hreply, hcalled ▸ hcalled' ▸ hlast.putBack hother hcaller left⟩

lemma callSequence (h : Unnoticed number nested nested') (avoids : behaviour.Avoids number)
    (watching : Behaviour ρ α W) (hother : visitor ≠ number)
    (halongside : roster.Alongside number caller before before' roster') (hook : SequenceHook)
    (nodes : List (Tree ρ α)) :
    let called := roster.callSequence behaviour nested visitor hook nodes
    let called' := roster'.callSequence (behaviour.sum watching) nested' visitor hook nodes
    called'.1 = called.1 ∧ called.2.Alongside number caller before before' called'.2 := by
  rcases free : roster.takeForCall visitor with _ | ⟨state, taken⟩
  · have lent := Roster.takeForCall_eq_none_iff.1 free
    rw [Roster.callSequence_of_lent behaviour nested lent,
      Roster.callSequence_of_lent _ _ (halongside.beside.lease_eq hother ▸ lent)]
    exact ⟨rfl, halongside⟩
  · have hcaller := halongside.caller_ne free
    obtain ⟨taken', free', htaken⟩ := halongside.takeForCall hother free
    obtain ⟨hreply, ⟨-, hlast⟩ | ⟨-, last, last', left, hlast, hcalled, hcalled'⟩⟩ :=
      (h.mirrors caller before before').callSequence (avoids.alike watching) free free' hook nodes
        (htaken.note (by simpa [Entry.called?]) (by simpa [Entry.called?]))
    · exact ⟨hreply, hlast⟩
    · exact ⟨hreply, hcalled ▸ hcalled' ▸ hlast.putBack hother hcaller left⟩

variable {traverser : Traverser}

/-- What a traversal does on the one roster it does on the other. -/
lemma does (h : Unnoticed number nested nested') (avoids : behaviour.Avoids number)
    (watching : Behaviour ρ α W) (unlisted : number ∉ traverser.visitors)
    (halongside : roster.Alongside number caller before before' roster') {act : Act ρ α}
    (hdoes : (traverser.walker behaviour nested).Does act roster final) :
    ∃ final', (traverser.walker (behaviour.sum watching) nested').Does act roster' final' ∧
      final.Alongside number caller before before' final' := by
  cases act with
  | event event =>
    obtain rfl : roster.note (.event event) = final := hdoes
    exact ⟨_, rfl, halongside.note nofun nofun⟩
  | node index name hook node reply =>
    obtain ⟨visitor, hvisitor, hcalled, hname⟩ := Traverser.does_node_iff.1 hdoes
    have hother : visitor ≠ number :=
      fun heq => unlisted (heq ▸ List.mem_of_getElem? hvisitor)
    obtain ⟨hreply, hfinal⟩ := h.callNode avoids watching hother halongside hook node
    rw [hcalled] at hreply hfinal
    refine ⟨_, Traverser.does_node_iff.2 ⟨visitor, hvisitor, Prod.ext hreply rfl, ?_⟩, hfinal⟩
    rw [hfinal.beside.name_eq hother, hname]
  | sequence index name hook nodes reply =>
    obtain ⟨visitor, hvisitor, hcalled, hname⟩ := Traverser.does_sequence_iff.1 hdoes
    have hother : visitor ≠ number :=
      fun heq => unlisted (heq ▸ List.mem_of_getElem? hvisitor)
    obtain ⟨hreply, hfinal⟩ := h.callSequence avoids watching hother halongside hook nodes
    rw [hcalled] at hreply hfinal
    refine ⟨_, Traverser.does_sequence_iff.2 ⟨visitor, hvisitor, Prod.ext hreply rfl, ?_⟩, hfinal⟩
    rw [hfinal.beside.name_eq hother, hname]

lemma doesAll (h : Unnoticed number nested nested') (avoids : behaviour.Avoids number)
    (watching : Behaviour ρ α W) (unlisted : number ∉ traverser.visitors)
    (halongside : roster.Alongside number caller before before' roster') {acts : List (Act ρ α)}
    (hdoes : (traverser.walker behaviour nested).DoesAll acts roster final) :
    ∃ final', (traverser.walker (behaviour.sum watching) nested').DoesAll acts roster' final' ∧
      final.Alongside number caller before before' final' := by
  induction acts generalizing roster roster' with
  | nil =>
    obtain rfl := hdoes
    exact ⟨roster', rfl, halongside⟩
  | cons act rest ih =>
    obtain ⟨mid, hact, hrest⟩ := hdoes
    obtain ⟨mid', hact', hmid⟩ := h.does avoids watching unlisted halongside hact
    obtain ⟨final', hrest', hfinal⟩ := ih hmid hrest
    exact ⟨final', ⟨mid', hact', hrest'⟩, hfinal⟩

end Calls

end Unnoticed

/-- Traversals that hooks start go alike on both rosters, however deep they nest. -/
theorem Traverser.nest_unnoticed [Admission ρ α] {number : Nat} {behaviour : Behaviour ρ α V}
    (avoids : behaviour.Avoids number) (watching : Behaviour ρ α W) (stack nesting : Nat) :
    Unnoticed number (nest behaviour stack nesting)
      (nest (behaviour.sum watching) stack nesting) := by
  induction nesting with
  | zero => exact ⟨fun _ _ halongside => ⟨rfl, rfl, halongside⟩⟩
  | succ nesting ih =>
    constructor
    intro traverser caller before before' roster roster' nodes unlisted halongside
    obtain ⟨-, -, hdoes⟩ :=
      (traverser.walker behaviour (nest behaviour stack nesting)).recorded_traverse stack nodes
        roster
    obtain ⟨final', hdoes', hfinal⟩ := ih.doesAll avoids watching unlisted halongside hdoes
    have hsame := Walker.traverse_of_doesAll (by simp) (by simp) hdoes'
    simp only [nest, hsame]
    exact ⟨trivial, trivial, hfinal⟩

end ForestWalk
