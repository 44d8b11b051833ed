import ForestWalk.Proofs.Reentrancy
/-!
Two traversers with the same visitors and different options, where hooks that start traversals of
the one may start traversals of the other instead. As long as a visitor of theirs is busy they
cannot be told apart, since both are turned away before their options come into play. So their
visitors reply alike.
-/

namespace ForestWalk

variable {ρ α V : Type}

/-- Of two traversers the second is the same as the first, or it stands where the first one is a
given traverser. -/
def Traverser.Exchanged (here there : Traverser) (traverser traverser' : Traverser) : Prop :=
  traverser' = traverser ∨ (traverser = here ∧ traverser' = there)

/-- The second behaviour is the first one, but that it may start traversals of another traverser
where the first starts those of a given one. -/
def Behaviour.Exchanges (here there : Traverser) (behaviour other : Behaviour ρ α V) : Prop :=
  behaviour.Alike id (fun _ => True) (Traverser.Exchanged here there) other

/-- A visitor that is on the list of the traverser is busy. -/
def Roster.Engaged (traverser : Traverser) (roster : Roster ρ α V) : Prop :=
  ∃ visitor ∈ traverser.visitors, roster.lease visitor = some .hook

section Engaged

variable {here : Traverser} {roster final : Roster ρ α V} {nested : Traversal ρ α V}

lemma Roster.Engaged.mono (h : roster.Engaged here) (hsubset : roster.running ⊆ final.running) :
    final.Engaged here := by
  obtain ⟨visitor, hmem, busy⟩ := h
  exact ⟨visitor, hmem, Roster.mem_running.1 (hsubset (Roster.mem_running.2 busy))⟩

lemma Roster.Engaged.note (h : roster.Engaged here) (entry : Entry ρ α) :
    (roster.note entry).Engaged here :=
  h

lemma Roster.Engaged.taken (h : roster.Engaged here) {visitor : Nat} {state : V}
    {taken : Roster ρ α V} (free : roster.takeForCall visitor = some (state, taken)) :
    taken.Engaged here := by
  obtain ⟨busy, hmem, hbusy⟩ := h
  exact ⟨busy, hmem, (lease_taken_eq_hook_iff free busy).2 (.inr hbusy)⟩

lemma Roster.engaged_of_taken {visitor : Nat} (hmem : visitor ∈ here.visitors) {state : V}
    {taken : Roster ρ α V} (free : roster.takeForCall visitor = some (state, taken)) :
    taken.Engaged here :=
  ⟨visitor, hmem, (lease_taken_eq_hook_iff free visitor).2 (.inl rfl)⟩

/-- No traversal ends a call that was under way when it began. -/
lemma Stepped.engaged (h : Stepped nested) (traverser : Traverser) (nodes : List (Tree ρ α))
    (engaged : roster.Engaged here) : (nested traverser nodes roster).state.Engaged here := by
  obtain ⟨deeds, later, hsteps, -⟩ := h.steps traverser nodes roster [] (by simp)
  exact engaged.mono (hsteps.running_subset (Scene.sound_running roster))

end Engaged

section Exchange

variable {here there : Traverser} {behaviour other : Behaviour ρ α V}
  {nested nested' : Traversal ρ α V} {roster final : Roster ρ α V}

/-- Traversals that cannot be told apart while a visitor of the given traverser is busy. -/
structure Indistinct (here there : Traverser) (nested nested' : Traversal ρ α V) : Prop where
  eq : ∀ {traverser traverser'} nodes {roster},
    Traverser.Exchanged here there traverser traverser' → roster.Engaged here →
    nested' traverser' nodes roster = nested traverser nodes roster

lemma Indistinct.mirrors (h : Indistinct here there nested nested') (hsteps : Stepped nested) :
    Mirrors (Roster.SameWith (Roster.Engaged here)) (fun _ => True)
      (Traverser.Exchanged here there) nested nested' where
  note := by
    rintro entry roster _ - ⟨rfl, engaged⟩
    exact ⟨rfl, engaged.note entry⟩
  hold := by
    rintro target roster _ mode - ⟨rfl, visitor, hmem, busy⟩
    exact ⟨rfl, rfl, visitor, hmem, (Roster.lease_hold_eq_hook_iff target mode _ visitor).2 busy⟩
  release := by
    rintro target roster _ - ⟨rfl, visitor, hmem, busy⟩
    exact ⟨rfl, rfl, visitor, hmem, (Roster.lease_release_eq_hook_iff target _ visitor).2 busy⟩
  traverse := by
    rintro traverser traverser' roster _ nodes tied ⟨rfl, engaged⟩
    rw [h.eq nodes tied engaged]
    exact ⟨rfl, rfl, rfl, hsteps.engaged traverser nodes engaged⟩

variable [Admission ρ α]

/-- A traversal whose visitors are shown the sequence first ends there if one of them is busy, and
so it does under any options. -/
lemma TraversalRun.exchange {options : Options} {room : Nat} {nodes items : List (Tree ρ α)}
    {acts : List (Act ρ α)} {halt : Option Halt}
    (hrun : TraversalRun options here.count room nodes acts items halt) (options' : Options)
    (room' : Nat) (hsteps : Stepped nested)
    (hdoes : (here.walker behaviour nested).DoesAll acts roster final)
    (engaged : roster.Engaged here) :
    TraversalRun options' here.count room' nodes acts items halt := by
  obtain ⟨visitor, hmem, busy⟩ := engaged
  obtain ⟨first, why, rfl, rfl, shown⟩ :=
    hrun.unready_of_busy hsteps (List.getElem?_idxOf hmem) hdoes busy
  exact .unready shown

/-- Traversals that nest so many deep cannot be told apart while a visitor of the two traversers is
busy. -/
theorem nest_indistinct (hvisitors : there.visitors = here.visitors)
    (exchanges : behaviour.Exchanges here there other) (stack nesting : Nat) :
    Indistinct here there (Traverser.nest (ρ := ρ) (α := α) behaviour stack nesting)
      (Traverser.nest other stack nesting) := by
  induction nesting with
  | zero => exact ⟨fun _ _ _ _ => rfl⟩
  | succ nesting ih =>
    constructor
    intro traverser traverser' nodes roster tied engaged
    have hsteps := Traverser.nest_steps behaviour stack nesting
    have hsame : traverser'.visitors = traverser.visitors := by
      obtain rfl | ⟨rfl, rfl⟩ := tied
      · rfl
      · exact hvisitors
    obtain ⟨-, hrun, hdoes⟩ :=
      (traverser.walker behaviour (Traverser.nest behaviour stack nesting)).recorded_traverse stack
        nodes roster
    have hdoes' := (ih.mirrors hsteps).doesAll exchanges hsame
      (fun engaged free entry => (engaged.taken free).note entry)
      (fun engaged hact => engaged.mono (hsteps.does_running hact).2) engaged hdoes
    obtain rfl | ⟨rfl, rfl⟩ := tied
    · exact Walker.traverse_of_doesAll (by simp) (by simp) hdoes'
    · rw [Traverser.length_walker] at hrun
      let walker' := traverser'.walker other (Traverser.nest other stack nesting)
      have hrun' := hrun.exchange traverser'.options (walker'.room stack) hsteps hdoes engaged
      have hcount : traverser.count = walker'.visitors.length := by
        simp [walker', Traverser.count, hsame]
      rw [hcount] at hrun'
      exact walker'.traverse_determined hrun' hdoes'

namespace Traverser

/-- The visitors of two traversers that may be exchanged are the same registrations, whatever they
start. -/
theorem walker_exchange (hvisitors : there.visitors = here.visitors)
    (exchanges : behaviour.Exchanges here there other) (stack nesting : Nat) :
    there.walker other (nest (ρ := ρ) (α := α) other stack nesting) =
      { here.walker behaviour (nest behaviour stack nesting) with options := there.options } := by
  have hmirrors := (nest_indistinct hvisitors exchanges stack nesting).mirrors
    (nest_steps behaviour stack nesting)
  have hregistration : ∀ visitor ∈ here.visitors,
      registration other (nest other stack nesting) visitor =
        registration behaviour (nest behaviour stack nesting) visitor := by
    intro visitor hmem
    have hnode : ∀ hook node (roster : Roster ρ α V),
        roster.callNode other (nest other stack nesting) visitor hook node =
          roster.callNode behaviour (nest behaviour stack nesting) visitor hook node :=
      fun hook node roster => hmirrors.callNode_eq exchanges
        (fun free entry => (Roster.engaged_of_taken hmem free).note entry) hook node
    have hsequence : ∀ hook nodes (roster : Roster ρ α V),
        roster.callSequence other (nest other stack nesting) visitor hook nodes =
          roster.callSequence behaviour (nest behaviour stack nesting) visitor hook nodes :=
      fun hook nodes roster => hmirrors.callSequence_eq exchanges
        (fun free entry => (Roster.engaged_of_taken hmem free).note entry) hook nodes
    simp only [registration, hnode, hsequence, exchanges.name_eq]
  simp only [walker, hvisitors]
  rw [List.map_congr_left hregistration]

end Traverser

end Exchange

end ForestWalk
