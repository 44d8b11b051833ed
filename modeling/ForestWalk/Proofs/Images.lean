import ForestWalk.Proofs.Beside
/-!
A roster seen through a map of the states of its visitors. If the visitors go by the same names and
their hooks take the same steps, a traversal goes on the image as it goes on the roster.
-/

namespace ForestWalk

variable {ρ α V W : Type}

section Alike

variable {U : Type} {borrows : Nat → Prop} {starts : Traverser → Traverser → Prop}

lemma Routine.Alike.map {β γ β' γ' : Type} {ends : β → γ → Prop} {ends' : β' → γ' → Prop}
    {f : β → β'} {g : γ → γ'}
    (hends : ∀ answer answer', ends answer answer' → ends' (f answer) (g answer'))
    {routine : Routine ρ α β} {routine' : Routine ρ α γ}
    (alike : routine.Alike ends borrows starts routine') :
    (routine.map f).Alike ends' borrows starts (routine'.map g) := by
  induction alike with
  | finish ended => exact .finish (hends _ _ ended)
  | hold allowed later ih => exact .hold allowed ih
  | release allowed later ih => exact .release allowed ih
  | traverse tied later ih => exact .traverse tied ih

/-- Visitors that some others are replaced by, among visitors that stay as they are. -/
lemma Behaviour.Alike.sum {f : W → U} {right : Behaviour ρ α W} {other : Behaviour ρ α U}
    (alike : right.Alike f (fun _ => True) Eq other) (left : Behaviour ρ α V) :
    (left.sum right).Alike (Sum.map id f) (fun _ => True) Eq (left.sum other) where
  name := by
    rintro (state | state)
    · rfl
    · exact alike.name state
  node := by
    rintro hook (state | state) node
    · exact (left.node hook state node).alike_refl.map fun _ _ hresult => by rw [hresult]; rfl
    · exact (alike.node hook state node).map fun _ _ hresult => by rw [hresult]; rfl
  sequence := by
    rintro hook (state | state) nodes
    · exact (left.sequence hook state nodes).alike_refl.map fun _ _ hresult => by rw [hresult]; rfl
    · exact (alike.sequence hook state nodes).map fun _ _ hresult => by rw [hresult]; rfl

end Alike

namespace Roster

/-- The roster with each visitor in the image of its state. -/
def map (f : V → W) (roster : Roster ρ α V) : Roster ρ α W where
  cells := roster.cells.map (Cell.map f)
  journal := roster.journal

variable (f : V → W) (roster : Roster ρ α V) (visitor : Nat)

@[simp] theorem getElem?_map : (roster.map f).cells[visitor]? =
    roster.cells[visitor]?.map (Cell.map f) :=
  List.getElem?_map

@[simp] theorem map_setLease (lease : Lease) :
    (roster.setLease visitor lease).map f = (roster.map f).setLease visitor lease := by
  refine congrArg (Roster.mk · roster.journal) (List.ext_getElem? fun other => ?_)
  simp only [map, setLease, List.getElem?_map, List.getElem?_modify, Option.map_eq_map,
    Option.map_map]
  congr 1
  funext cell
  simp only [Function.comp_apply]
  split <;> rfl

@[simp] theorem map_putBack (state : V) :
    (roster.putBack visitor state).map f = (roster.map f).putBack visitor (f state) := by
  have hcells : (roster.cells.set visitor { state := state }).map (Cell.map f) =
      (roster.cells.map (Cell.map f)).set visitor { state := f state } := List.map_set
  exact congrArg (fun cells => note (.returned visitor) ⟨cells, roster.journal⟩) hcells

theorem hold_map (mode : Mode) :
    (roster.map f).hold visitor mode =
      ((roster.hold visitor mode).1, (roster.hold visitor mode).2.map f) := by
  have hlease : ((roster.map f).cells[visitor]?.bind fun cell => cell.lease.lend mode) =
      roster.cells[visitor]?.bind fun cell => cell.lease.lend mode := by
    rw [getElem?_map, Option.bind_map]
    rfl
  simp only [hold, hlease]
  rcases roster.cells[visitor]?.bind fun cell => cell.lease.lend mode with _ | lent
  · rfl
  · simp

theorem release_map :
    (roster.map f).release visitor =
      ((roster.release visitor).1, (roster.release visitor).2.map f) := by
  simp only [release, getElem?_map]
  rcases roster.cells[visitor]? with _ | cell
  · rfl
  · simp [Cell.map]

theorem takeForCall_map :
    (roster.map f).takeForCall visitor =
      (roster.takeForCall visitor).map fun (state, taken) => (f state, taken.map f) := by
  simp only [takeForCall, getElem?_map]
  rcases roster.cells[visitor]? with _ | cell
  · rfl
  · rcases h : cell.lease.isFree with _ | _
    · simp [Cell.map, Option.filter, h]
    · simp [Cell.map, Option.filter, h]

theorem name_map {behaviour : Behaviour ρ α V} {other : Behaviour ρ α W}
    (h : ∀ state, other.name (f state) = behaviour.name state) :
    (roster.map f).name other visitor = roster.name behaviour visitor := by
  simp only [name, read, getElem?_map]
  rcases roster.cells[visitor]? with _ | cell
  · rfl
  · simp only [Option.map_some, Option.filter_some, Cell.map]
    split
    · exact congrArg some (h cell.state)
    · rfl

end Roster

/-- A second way to run traversals goes on images as the first goes on rosters. -/
structure Imaged (f : V → W) (nested : Traversal ρ α V) (nested' : Traversal ρ α W) : Prop where
  traverse : ∀ traverser nodes (roster : Roster ρ α V),
    nested' traverser nodes (roster.map f) =
      ⟨(nested traverser nodes roster).items, (nested traverser nodes roster).halt,
        (nested traverser nodes roster).state.map f⟩

namespace Imaged

variable {f : V → W} {nested : Traversal ρ α V} {nested' : Traversal ρ α W}
  {roster final : Roster ρ α V}

lemma mirrors (h : Imaged f nested nested') :
    Mirrors (fun roster roster' => roster' = roster.map f) (fun _ => True) Eq nested nested' where
  note := by
    rintro entry roster _ - rfl
    rfl
  hold := by
    rintro target roster _ mode - rfl
    rw [Roster.hold_map]
    exact ⟨rfl, rfl⟩
  release := by
    rintro target roster _ - rfl
    rw [Roster.release_map]
    exact ⟨rfl, rfl⟩
  traverse := by
    rintro traverser _ roster _ nodes rfl rfl
    rw [h.traverse]
    exact ⟨rfl, rfl, rfl⟩

variable {behaviour : Behaviour ρ α V} {other : Behaviour ρ α W} {traverser : Traverser}

lemma callNode (h : Imaged f nested nested')
    (alike : behaviour.Alike f (fun _ => True) Eq other) (visitor : Nat) (hook : NodeHook)
    (node : Tree ρ α) :
    (roster.map f).callNode other nested' visitor hook node =
      ((roster.callNode behaviour nested visitor hook node).1,
        (roster.callNode behaviour nested visitor hook node).2.map f) := by
  rcases free : roster.takeForCall visitor with _ | ⟨state, taken⟩
  · have free' : (roster.map f).takeForCall visitor = none := by
      rw [Roster.takeForCall_map, free]
      rfl
    simp only [Roster.callNode, free, free']
  · have free' : (roster.map f).takeForCall visitor = some (f state, taken.map f) := by
      rw [Roster.takeForCall_map, free]
      rfl
    obtain ⟨hreply, ⟨-, hlast⟩ | ⟨-, last, _, left, rfl, hcalled, hcalled'⟩⟩ :=
      h.mirrors.callNode alike free free' hook node rfl
    · exact Prod.ext hreply hlast
    · exact Prod.ext hreply (by rw [hcalled', hcalled, Roster.map_putBack])

lemma callSequence (h : Imaged f nested nested')
    (alike : behaviour.Alike f (fun _ => True) Eq other) (visitor : Nat) (hook : SequenceHook)
    (nodes : List (Tree ρ α)) :
    (roster.map f).callSequence other nested' visitor hook nodes =
      ((roster.callSequence behaviour nested visitor hook nodes).1,
        (roster.callSequence behaviour nested visitor hook nodes).2.map f) := by
  rcases free : roster.takeForCall visitor with _ | ⟨state, taken⟩
  · have free' : (roster.map f).takeForCall visitor = none := by
      rw [Roster.takeForCall_map, free]
      rfl
    simp only [Roster.callSequence, free, free']
  · have free' : (roster.map f).takeForCall visitor = some (f state, taken.map f) := by
      rw [Roster.takeForCall_map, free]
      rfl
    obtain ⟨hreply, ⟨-, hlast⟩ | ⟨-, last, _, left, rfl, hcalled, hcalled'⟩⟩ :=
      h.mirrors.callSequence alike free free' hook nodes rfl
    · exact Prod.ext hreply hlast
    · exact Prod.ext hreply (by rw [hcalled', hcalled, Roster.map_putBack])

lemma does (h : Imaged f nested nested') (alike : behaviour.Alike f (fun _ => True) Eq other)
    {act : Act ρ α} (hdoes : (traverser.walker behaviour nested).Does act roster final) :
    (traverser.walker other nested').Does act (roster.map f) (final.map f) := by
  cases act with
  | event event =>
    obtain rfl : roster.note (.event event) = final := hdoes
    rfl
  | node index name hook node reply =>
    obtain ⟨visitor, hvisitor, hcalled, hname⟩ := Traverser.does_node_iff.1 hdoes
    refine Traverser.does_node_iff.2 ⟨visitor, hvisitor, ?_, ?_⟩
    · rw [h.callNode alike, hcalled]
    · rw [Roster.name_map f final visitor alike.name, hname]
  | sequence index name hook nodes reply =>
    obtain ⟨visitor, hvisitor, hcalled, hname⟩ := Traverser.does_sequence_iff.1 hdoes
    refine Traverser.does_sequence_iff.2 ⟨visitor, hvisitor, ?_, ?_⟩
    · rw [h.callSequence alike, hcalled]
    · rw [Roster.name_map f final visitor alike.name, hname]

lemma doesAll (h : Imaged f nested nested') (alike : behaviour.Alike f (fun _ => True) Eq other)
    {acts : List (Act ρ α)}
    (hdoes : (traverser.walker behaviour nested).DoesAll acts roster final) :
    (traverser.walker other nested').DoesAll acts (roster.map f) (final.map f) := by
  induction acts generalizing roster with
  | nil =>
    obtain rfl := hdoes
    rfl
  | cons act rest ih =>
    obtain ⟨mid, hact, hrest⟩ := hdoes
    exact ⟨mid.map f, h.does alike hact, ih hrest⟩

variable [Admission ρ α]

/-- On the image of a roster the visitors of a traverser do the same acts. -/
lemma acts_map (h : Imaged f nested nested') (alike : behaviour.Alike f (fun _ => True) Eq other)
    (stack : Nat) (nodes : List (Tree ρ α)) (roster : Roster ρ α V) :
    (traverser.walker other nested').acts stack nodes (roster.map f) =
      (traverser.walker behaviour nested).acts stack nodes roster := by
  obtain ⟨-, -, hdoes⟩ := (traverser.walker behaviour nested).recorded_traverse stack nodes roster
  exact Walker.acts_of_doesAll (by simp) (by simp) (h.doesAll alike hdoes)

end Imaged

/-- Traversals go on the image of a roster as on the roster, however deep they nest. -/
theorem Traverser.nest_imaged [Admission ρ α] {f : V → W} {behaviour : Behaviour ρ α V}
    {other : Behaviour ρ α W} (alike : behaviour.Alike f (fun _ => True) Eq other)
    (stack nesting : Nat) :
    Imaged f (nest (ρ := ρ) (α := α) behaviour stack nesting) (nest other stack nesting) := by
  induction nesting with
  | zero => exact ⟨fun _ _ _ => rfl⟩
  | succ nesting ih =>
    constructor
    intro traverser nodes roster
    let walker := traverser.walker behaviour (nest behaviour stack nesting)
    obtain ⟨-, -, hdoes⟩ := walker.recorded_traverse stack nodes roster
    exact Walker.traverse_of_doesAll (by simp) (by simp) (ih.doesAll alike hdoes)

end ForestWalk
