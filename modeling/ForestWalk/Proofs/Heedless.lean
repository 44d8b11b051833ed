import ForestWalk.Proofs.Mirror
/-!
Visitors take no heed of the edits that a traversal makes known. These are written into the journal
of the roster, which no hook reads. So what is made known of edits may be left out, put in or told
otherwise, and all visitors reply the same.
-/

namespace ForestWalk

variable {ρ α σ V : Type}

/-- Whether an event tells of an edit that a visitor asked for. -/
def Event.ofEdit : Event → Bool
  | .nodeReplaced .. | .removed .. | .spliced .. => true
  | _ => false

namespace Act

/-- Whether the act makes an edit known. -/
def tellsEdit : Act ρ α → Bool
  | .event told => told.ofEdit
  | .node .. | .sequence .. => false

/-- The acts but for those that make an edit known. -/
def withoutEdits (acts : List (Act ρ α)) : List (Act ρ α) :=
  acts.filter fun act => !act.tellsEdit

@[simp] theorem withoutEdits_append (acts more : List (Act ρ α)) :
    withoutEdits (acts ++ more) = withoutEdits acts ++ withoutEdits more :=
  List.filter_append ..

lemma withoutEdits_cons_of_edit {act : Act ρ α} (h : act.tellsEdit = true)
    (rest : List (Act ρ α)) : withoutEdits (act :: rest) = withoutEdits rest := by
  simp [withoutEdits, h]

lemma withoutEdits_cons {act : Act ρ α} (h : act.tellsEdit = false) (rest : List (Act ρ α)) :
    withoutEdits (act :: rest) = act :: withoutEdits rest := by
  simp [withoutEdits, h]

end Act

namespace Walker

/-- What the visitors of a walker see of its state has nothing to do with the edits that are made
known, and what they do depends on that alone. -/
structure Heedless {τ : Type} (walker : Walker ρ α σ) (view : σ → τ) : Prop where
  tells : ∀ {event} state, event.ofEdit = true → view (walker.emit event state) = view state
  does : ∀ {act state state' final}, view state' = view state → walker.Does act state final →
    ∃ final', walker.Does act state' final' ∧ view final' = view final

namespace Heedless

variable {τ : Type} {walker : Walker ρ α σ} {view : σ → τ} {acts : List (Act ρ α)}
  {state state' final : σ}

lemma doesAll (h : walker.Heedless view) (hview : view state' = view state)
    (hdoes : walker.DoesAll acts state final) :
    ∃ final', walker.DoesAll acts state' final' ∧ view final' = view final := by
  induction acts generalizing state state' with
  | nil =>
    obtain rfl := hdoes
    exact ⟨state', rfl, hview⟩
  | cons act rest ih =>
    obtain ⟨mid, hact, hrest⟩ := hdoes
    obtain ⟨mid', hact', hmid⟩ := h.does hview hact
    obtain ⟨final', hrest', hfinal⟩ := ih hmid hrest
    exact ⟨final', ⟨mid', hact', hrest'⟩, hfinal⟩

/-- All that is done could be done without making edits known. -/
lemma withoutEdits (h : walker.Heedless view) (hview : view state' = view state)
    (hdoes : walker.DoesAll acts state final) :
    ∃ final', walker.DoesAll (Act.withoutEdits acts) state' final' ∧ view final' = view final := by
  induction acts generalizing state state' with
  | nil =>
    obtain rfl := hdoes
    exact ⟨state', rfl, hview⟩
  | cons act rest ih =>
    obtain ⟨mid, hact, hrest⟩ := hdoes
    rcases hedit : act.tellsEdit with _ | _
    · rw [Act.withoutEdits_cons hedit]
      obtain ⟨mid', hact', hmid⟩ := h.does hview hact
      obtain ⟨final', hrest', hfinal⟩ := ih hmid hrest
      exact ⟨final', ⟨mid', hact', hrest'⟩, hfinal⟩
    · rw [Act.withoutEdits_cons_of_edit hedit]
      match act with
      | .event told =>
        obtain rfl : walker.emit told state = mid := hact
        exact ih (hview.trans (h.tells state hedit).symm) hrest
      | .node .. | .sequence .. => cases hedit

end Heedless

end Walker

/-- Whether an entry of the journal tells of an edit. -/
def Entry.tellsEdit : Entry ρ α → Bool
  | .event told => told.ofEdit
  | _ => false

namespace Roster

/-- What visitors see of a roster, and what its journal has but for the edits. -/
def view (roster : Roster ρ α V) : List (Cell V) × List (Entry ρ α) :=
  (roster.cells, roster.journal.toList.filter fun entry => !entry.tellsEdit)

variable {roster roster' : Roster ρ α V} {visitor : Nat}

lemma cells_eq_of_view (h : roster'.view = roster.view) : roster'.cells = roster.cells :=
  congrArg Prod.fst h

lemma view_note (h : roster'.view = roster.view) (entry : Entry ρ α) :
    (roster'.note entry).view = (roster.note entry).view := by
  obtain ⟨hcells, hjournal⟩ := Prod.mk.inj h
  simp only [view, note, Array.toList_push, List.filter_append, hcells, hjournal]

lemma view_note_edit {event : Event} (h : event.ofEdit = true) (roster : Roster ρ α V) :
    (roster.note (.event event)).view = roster.view := by
  simp [view, note, Entry.tellsEdit, h]

/-- What is done to the cells alone is done alike. -/
lemma view_congr {f : List (Cell V) → List (Cell V)} (h : roster'.view = roster.view) :
    ({ roster' with cells := f roster'.cells } : Roster ρ α V).view =
      ({ roster with cells := f roster.cells } : Roster ρ α V).view := by
  obtain ⟨hcells, hjournal⟩ := Prod.mk.inj h
  simp only [view, hcells, hjournal]

lemma view_hold (h : roster'.view = roster.view) (target : Nat) (mode : Mode) :
    (roster'.hold target mode).1 = (roster.hold target mode).1 ∧
      (roster'.hold target mode).2.view = (roster.hold target mode).2.view := by
  simp only [hold, cells_eq_of_view h]
  rcases roster.cells[target]?.bind fun cell => cell.lease.lend mode with _ | lease
  · exact ⟨rfl, h⟩
  · exact ⟨rfl, view_congr h⟩

lemma view_release (h : roster'.view = roster.view) (target : Nat) :
    (roster'.release target).1 = (roster.release target).1 ∧
      (roster'.release target).2.view = (roster.release target).2.view := by
  simp only [release, cells_eq_of_view h]
  rcases roster.cells[target]? with _ | cell
  · exact ⟨rfl, h⟩
  · exact ⟨rfl, view_congr h⟩

lemma view_takeForCall (h : roster'.view = roster.view) {state : V} {taken : Roster ρ α V}
    (free : roster.takeForCall visitor = some (state, taken)) :
    ∃ taken', roster'.takeForCall visitor = some (state, taken') ∧ taken'.view = taken.view := by
  obtain ⟨cell, hcell, htaken⟩ := Option.map_eq_some_iff.1 free
  obtain ⟨rfl, rfl⟩ := Prod.mk.inj htaken
  rw [← cells_eq_of_view h] at hcell
  exact ⟨_, Option.map_eq_some_iff.2 ⟨cell, hcell, rfl⟩, view_congr h⟩

lemma view_putBack (h : roster'.view = roster.view) (visitor : Nat) (state : V) :
    (roster'.putBack visitor state).view = (roster.putBack visitor state).view := by
  let put : List (Cell V) → List (Cell V) := fun cells => cells.set visitor { state := state }
  have hput : ({ roster' with cells := put roster'.cells } : Roster ρ α V).view =
      ({ roster with cells := put roster.cells } : Roster ρ α V).view := view_congr h
  exact view_note hput (.returned visitor)

lemma name_eq_of_view (h : roster'.view = roster.view) (behaviour : Behaviour ρ α V)
    (visitor : Nat) : roster'.name behaviour visitor = roster.name behaviour visitor := by
  simp only [name, read, cells_eq_of_view h]

end Roster

/-- How traversals run does not depend on the edits that were made known. -/
def Oblivious (nested : Traversal ρ α V) : Prop :=
  ∀ traverser nodes {roster roster'}, roster'.view = roster.view →
    let sweep := nested traverser nodes roster
    let sweep' := nested traverser nodes roster'
    sweep'.items = sweep.items ∧ sweep'.halt = sweep.halt ∧ sweep'.state.view = sweep.state.view

namespace Oblivious

variable {nested : Traversal ρ α V} {roster roster' : Roster ρ α V}

lemma mirrors (h : Oblivious nested) :
    Mirrors (fun roster roster' => roster'.view = roster.view) (fun _ => True) Eq nested
      nested where
  note := fun _ hview => Roster.view_note hview _
  hold := fun mode _ hview => Roster.view_hold hview _ mode
  release := fun _ hview => Roster.view_release hview _
  traverse := by
    rintro traverser _ roster roster' nodes rfl hview
    exact h traverser nodes hview

section Calls

variable (h : Oblivious nested) (behaviour : Behaviour ρ α V) (visitor : Nat)
  (hview : roster'.view = roster.view)

include h hview

lemma callNode (hook : NodeHook) (node : Tree ρ α) :
    let called := roster.callNode behaviour nested visitor hook node
    let called' := roster'.callNode behaviour nested visitor hook node
    called'.1 = called.1 ∧ called'.2.view = called.2.view := by
  rcases free : roster.takeForCall visitor with _ | ⟨state, taken⟩
  · have free' : roster'.takeForCall visitor = none := by
      simpa [Roster.takeForCall, Roster.cells_eq_of_view hview] using free
    simp only [Roster.callNode, free, free']
    exact ⟨trivial, hview⟩
  · obtain ⟨taken', free', htaken⟩ := Roster.view_takeForCall hview free
    obtain ⟨hreply, ⟨-, hlast⟩ | ⟨-, last, last', left, hlast, hcalled, hcalled'⟩⟩ :=
      h.mirrors.callNode behaviour.alike_refl free free' hook node (Roster.view_note htaken _)
    · exact ⟨hreply, hlast⟩
    · exact ⟨hreply, hcalled ▸ hcalled' ▸ Roster.view_putBack hlast visitor left⟩

lemma callSequence (hook : SequenceHook) (nodes : List (Tree ρ α)) :
    let called := roster.callSequence behaviour nested visitor hook nodes
    let called' := roster'.callSequence behaviour nested visitor hook nodes
    called'.1 = called.1 ∧ called'.2.view = called.2.view := by
  rcases free : roster.takeForCall visitor with _ | ⟨state, taken⟩
  · have free' : roster'.takeForCall visitor = none := by
      simpa [Roster.takeForCall, Roster.cells_eq_of_view hview] using free
    simp only [Roster.callSequence, free, free']
    exact ⟨trivial, hview⟩
  · obtain ⟨taken', free', htaken⟩ := Roster.view_takeForCall hview free
    obtain ⟨hreply, ⟨-, hlast⟩ | ⟨-, last, last', left, hlast, hcalled, hcalled'⟩⟩ :=
      h.mirrors.callSequence behaviour.alike_refl free free' hook nodes (Roster.view_note htaken _)
    · exact ⟨hreply, hlast⟩
    · exact ⟨hreply, hcalled ▸ hcalled' ▸ Roster.view_putBack hlast visitor left⟩

end Calls

/-- The visitors of a traverser do not heed the edits that are made known. -/
theorem heedless (h : Oblivious nested) (behaviour : Behaviour ρ α V) (traverser : Traverser) :
    (traverser.walker behaviour nested).Heedless Roster.view where
  tells := fun roster hedit => Roster.view_note_edit hedit roster
  does := by
    intro act roster roster' final hview hdoes
    cases act with
    | event event =>
      obtain rfl : roster.note (.event event) = final := hdoes
      exact ⟨_, rfl, Roster.view_note hview _⟩
    | node index name hook node reply =>
      obtain ⟨number, hnumber, hcalled, hname⟩ := Traverser.does_node_iff.1 hdoes
      obtain ⟨hreply, hfinal⟩ := h.callNode behaviour number hview hook node
      rcases hcalled' : roster'.callNode behaviour nested number hook node with ⟨reply', final'⟩
      rw [hcalled, hcalled'] at hreply hfinal
      obtain rfl : reply' = reply := hreply
      have hname' := Roster.name_eq_of_view hfinal behaviour number
      refine ⟨final', Traverser.does_node_iff.2 ⟨number, hnumber, hcalled', ?_⟩, hfinal⟩
      rw [← hname, ← hname']
    | sequence index name hook nodes reply =>
      obtain ⟨number, hnumber, hcalled, hname⟩ := Traverser.does_sequence_iff.1 hdoes
      obtain ⟨hreply, hfinal⟩ := h.callSequence behaviour number hview hook nodes
      rcases hcalled' : roster'.callSequence behaviour nested number hook nodes
        with ⟨reply', final'⟩
      rw [hcalled, hcalled'] at hreply hfinal
      obtain rfl : reply' = reply := hreply
      have hname' := Roster.name_eq_of_view hfinal behaviour number
      refine ⟨final', Traverser.does_sequence_iff.2 ⟨number, hnumber, hcalled', ?_⟩, hfinal⟩
      rw [← hname, ← hname']

end Oblivious

/-- Traversals that hooks start do not depend on the edits that were made known, however deep they
nest. -/
theorem Traverser.nest_oblivious [Admission ρ α] (behaviour : Behaviour ρ α V)
    (stack nesting : Nat) : Oblivious (nest behaviour stack nesting) := by
  induction nesting with
  | zero => exact fun _ _ _ _ hview => ⟨rfl, rfl, hview⟩
  | succ nesting ih =>
    intro traverser nodes roster roster' hview
    obtain ⟨-, -, hdoes⟩ :=
      (traverser.walker behaviour (nest behaviour stack nesting)).recorded_traverse stack nodes
        roster
    obtain ⟨final', hdoes', hfinal⟩ := (ih.heedless behaviour traverser).doesAll hview hdoes
    have hsame := Walker.traverse_of_doesAll rfl rfl hdoes'
    simp only [nest, hsame]
    exact ⟨trivial, trivial, hfinal⟩

end ForestWalk
