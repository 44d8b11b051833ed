import ForestWalk.Proofs.Refusals
/-!
Visitors that are spared. Whatever a hook does, and whatever the traversals do that it starts, a
visitor that nobody borrows or calls stays in its state, and stays free if it is.
-/

namespace ForestWalk

variable {ρ α V W : Type}

/-- The routine does not borrow a visitor, nor start a traversal that would call it, and its answer
has a property. It may give the visitor back. -/
def Routine.Spares {β : Type} (number : Nat) (ends : β → Prop) : Routine ρ α β → Prop
  | .finish answer => ends answer
  | .hold target _ next => target ≠ number ∧ ∀ granted, (next granted).Spares number ends
  | .release _ next => ∀ count, (next count).Spares number ends
  | .traverse traverser _ next =>
    number ∉ traverser.visitors ∧ ∀ result, (next result).Spares number ends

/-- Visitors in states of a certain kind spare a given one, and remain in such states. -/
structure Behaviour.Spares (number : Nat) (P : Nat → V → Prop) (behaviour : Behaviour ρ α V) :
    Prop where
  node : ∀ {visitor state}, P visitor state → ∀ hook node,
    (behaviour.node hook state node).Spares number fun result => P visitor result.state
  sequence : ∀ {visitor state}, P visitor state → ∀ hook nodes,
    (behaviour.sequence hook state nodes).Spares number fun result => P visitor result.state

lemma Routine.Spares.map {β γ : Type} {number : Nat} {ends : β → Prop} {ends' : γ → Prop}
    {f : β → γ} (hends : ∀ answer, ends answer → ends' (f answer)) {routine : Routine ρ α β}
    (spares : routine.Spares number ends) : (routine.map f).Spares number ends' := by
  induction routine with
  | finish answer => exact hends answer spares
  | hold target mode next ih => exact ⟨spares.1, fun granted => ih granted (spares.2 granted)⟩
  | release target next ih => exact fun count => ih count (spares count)
  | traverse traverser nodes next ih => exact ⟨spares.1, fun result => ih result (spares.2 result)⟩

lemma Behaviour.Spares.sum {number : Nat} {P : Nat → V → Prop} {Q : Nat → W → Prop}
    {behaviour : Behaviour ρ α V} {other : Behaviour ρ α W} (h : behaviour.Spares number P)
    (h' : other.Spares number Q) :
    (behaviour.sum other).Spares number fun visitor => Sum.elim (P visitor) (Q visitor) where
  node := by
    rintro visitor (state | state) hstate hook node
    · exact (h.node hstate hook node).map (f := NodeResult.mapState Sum.inl) fun _ hends => hends
    · exact (h'.node hstate hook node).map (f := NodeResult.mapState Sum.inr) fun _ hends => hends
  sequence := by
    rintro visitor (state | state) hstate hook nodes
    · exact (h.sequence hstate hook nodes).map (f := SequenceResult.mapState Sum.inl)
        fun _ hends => hends
    · exact (h'.sequence hstate hook nodes).map (f := SequenceResult.mapState Sum.inr)
        fun _ hends => hends

/-- All visitors are in states of a certain kind. -/
def Roster.Conforms (P : Nat → V → Prop) (roster : Roster ρ α V) : Prop :=
  ∀ ⦃visitor : Nat⦄ ⦃cell : Cell V⦄, roster.cells[visitor]? = some cell → P visitor cell.state

namespace Roster.Conforms

variable {P : Nat → V → Prop} {roster taken : Roster ρ α V} {visitor : Nat} {state : V}

lemma note (h : roster.Conforms P) (entry : Entry ρ α) : (roster.note entry).Conforms P :=
  h

lemma setLease (h : roster.Conforms P) (visitor : Nat) (lease : Lease) :
    (roster.setLease visitor lease).Conforms P := by
  intro other cell hcell
  simp only [Roster.setLease, List.getElem?_modify, Option.map_eq_map,
    Option.map_eq_some_iff] at hcell
  obtain ⟨kept, hkept, rfl⟩ := hcell
  have hstate := h hkept
  split
  · exact hstate
  · exact hstate

lemma hold (h : roster.Conforms P) (visitor : Nat) (mode : Mode) :
    (roster.hold visitor mode).2.Conforms P := by
  rw [Roster.hold]
  split
  · exact h.setLease visitor _
  · exact h

lemma release (h : roster.Conforms P) (visitor : Nat) :
    (roster.release visitor).2.Conforms P := by
  rw [Roster.release]
  split
  · exact h.setLease visitor _
  · exact h

lemma takeForCall (h : roster.Conforms P)
    (free : roster.takeForCall visitor = some (state, taken)) :
    P visitor state ∧ taken.Conforms P := by
  obtain ⟨⟨cell, hcell, -, rfl⟩, rfl⟩ := takeForCall_eq_some_iff.1 free
  exact ⟨h hcell, h.setLease visitor .hook⟩

lemma putBack (h : roster.Conforms P) (hstate : P visitor state) :
    (roster.putBack visitor state).Conforms P := by
  intro other cell hcell
  simp only [Roster.putBack, cells_note, List.getElem?_set] at hcell
  split at hcell
  · rename_i heq
    subst heq
    split at hcell
    · obtain rfl := Option.some.inj hcell
      exact hstate
    · cases hcell
  · exact h hcell

end Roster.Conforms

/-- A roster on which all visitors are in states of a certain kind, and one of them as it was on
another roster: in the same state, and free if it was. -/
structure Undisturbed (number : Nat) (P : Nat → V → Prop)
    (before roster : Roster ρ α V) : Prop where
  conforms : roster.Conforms P
  kept : ∀ {cell : Cell V}, before.cells[number]? = some cell →
    ∃ lease, roster.cells[number]? = some { state := cell.state, lease := lease } ∧
      (cell.lease = .free → lease = .free)

namespace Undisturbed

variable {number : Nat} {P : Nat → V → Prop} {before roster taken : Roster ρ α V}
  {visitor : Nat} {state : V}

lemma refl (h : roster.Conforms P) : Undisturbed number P roster roster :=
  ⟨h, fun hcell => ⟨_, hcell, id⟩⟩

lemma note (h : Undisturbed number P before roster) (entry : Entry ρ α) :
    Undisturbed number P before (roster.note entry) :=
  ⟨h.conforms.note entry, h.kept⟩

/-- Another visitor may get any lease, and this one too unless it is free. -/
lemma setLease (h : Undisturbed number P before roster) {lease : Lease}
    (hfree : visitor = number → roster.lease number = some .free → lease = .free) :
    Undisturbed number P before (roster.setLease visitor lease) := by
  refine ⟨h.conforms.setLease visitor lease, fun {cell} hcell => ?_⟩
  obtain ⟨kept, hkept, hsame⟩ := h.kept hcell
  by_cases heq : visitor = number
  · subst heq
    refine ⟨lease, by simp [Roster.setLease, hkept], fun hcellFree => hfree rfl ?_⟩
    exact Roster.lease_eq_some_iff.2 ⟨_, hkept, hsame hcellFree⟩
  · exact ⟨kept, by simp [Roster.setLease, heq, hkept], hsame⟩

lemma hold (h : Undisturbed number P before roster) (hother : visitor ≠ number) (mode : Mode) :
    Undisturbed number P before (roster.hold visitor mode).2 := by
  rw [Roster.hold]
  split
  · exact h.setLease fun heq => absurd heq hother
  · exact h

lemma release (h : Undisturbed number P before roster) (visitor : Nat) :
    Undisturbed number P before (roster.release visitor).2 := by
  rw [Roster.release]
  split
  · rename_i cell hcell
    refine h.setLease fun heq hfree => ?_
    subst heq
    obtain ⟨_, hcell', hlease⟩ := Roster.lease_eq_some_iff.1 hfree
    obtain rfl := Option.some.inj (hcell.symm.trans hcell')
    rw [hlease]
    rfl
  · exact h

lemma takeForCall (h : Undisturbed number P before roster) (hother : visitor ≠ number)
    (free : roster.takeForCall visitor = some (state, taken)) :
    P visitor state ∧ Undisturbed number P before taken := by
  obtain ⟨-, rfl⟩ := Roster.takeForCall_eq_some_iff.1 free
  exact ⟨(h.conforms.takeForCall free).1, h.setLease fun heq => absurd heq hother⟩

lemma putBack (h : Undisturbed number P before roster) (hother : visitor ≠ number)
    (hstate : P visitor state) : Undisturbed number P before (roster.putBack visitor state) := by
  refine ⟨h.conforms.putBack hstate, fun {cell} hcell => ?_⟩
  obtain ⟨lease, hkept, hsame⟩ := h.kept hcell
  exact ⟨lease, by simp [Roster.putBack, List.getElem?_set_ne hother, hkept], hsame⟩

end Undisturbed

/-- A way to run traversals that leaves a visitor undisturbed, as long as it is not on the list. -/
structure Considerate (number : Nat) (P : Nat → V → Prop) (nested : Traversal ρ α V) :
    Prop where
  traverse : ∀ {traverser : Traverser} {before roster : Roster ρ α V} nodes,
    number ∉ traverser.visitors → Undisturbed number P before roster →
    Undisturbed number P before (nested traverser nodes roster).state

namespace Considerate

variable {number : Nat} {P : Nat → V → Prop} {nested : Traversal ρ α V}
  {before roster final : Roster ρ α V} {visitor : Nat}

lemma perform {β : Type} (h : Considerate number P nested) (visitor : Nat) {ends : β → Prop}
    {routine : Routine ρ α β} (spares : routine.Spares number ends)
    (alone : Undisturbed number P before roster) :
    (∀ answer ∈ (routine.perform nested visitor roster).1, ends answer) ∧
      Undisturbed number P before (routine.perform nested visitor roster).2 := by
  induction routine generalizing roster with
  | finish answer => exact ⟨by rintro _ ⟨⟩; exact spares, alone⟩
  | hold target mode next ih =>
    exact ih _ (spares.2 _) ((alone.hold spares.1 mode).note _)
  | release target next ih => exact ih _ (spares _) ((alone.release target).note _)
  | traverse traverser nodes next ih =>
    have hnested := h.traverse nodes spares.1 alone
    simp only [Routine.perform]
    rcases (nested traverser nodes roster).result with _ | result
    · exact ⟨nofun, hnested⟩
    · exact ih result (spares.2 result) (hnested.note _)

variable {behaviour : Behaviour ρ α V}

lemma called (h : Considerate number P nested) (spares : behaviour.Spares number P)
    (hother : visitor ≠ number) (alone : Undisturbed number P before roster) {act : Act ρ α}
    (hcalled : roster.Called behaviour nested visitor act final) :
    Undisturbed number P before final := by
  have begun : ∀ {state} entry, roster.cells[visitor]? = some { state := state } →
      P visitor state ∧
        Undisturbed number P before ((roster.setLease visitor .hook).note entry) :=
    fun entry free => (alone.takeForCall hother (Roster.takeForCall_of_free free)).imp_right
      fun htaken => htaken.note entry
  cases hcalled with
  | lentForNode | lentForSequence => exact alone
  | @nodeAnswered _ _ hook node _ _ _ _ _ free ended
  | @nodeFailed _ _ hook node _ _ _ _ _ free ended =>
    obtain ⟨hstate, htaken⟩ := begun (.nodeCall visitor hook node) free
    obtain ⟨hends, hlast⟩ := h.perform visitor (spares.node hstate hook node) htaken
    rw [ended] at hends hlast
    exact hlast.putBack hother (hends _ rfl)
  | @nodeOverflows _ _ hook node _ _ free endless =>
    obtain ⟨hstate, htaken⟩ := begun (.nodeCall visitor hook node) free
    obtain ⟨-, hlast⟩ := h.perform visitor (spares.node hstate hook node) htaken
    rwa [endless] at hlast
  | @sequenceAnswered _ _ hook nodes _ _ _ _ free ended
  | @sequenceFailed _ _ hook nodes _ _ _ _ free ended =>
    obtain ⟨hstate, htaken⟩ := begun (.sequenceCall visitor hook nodes) free
    obtain ⟨hends, hlast⟩ := h.perform visitor (spares.sequence hstate hook nodes) htaken
    rw [ended] at hends hlast
    exact hlast.putBack hother (hends _ rfl)
  | @sequenceOverflows _ _ hook nodes _ _ free endless =>
    obtain ⟨hstate, htaken⟩ := begun (.sequenceCall visitor hook nodes) free
    obtain ⟨-, hlast⟩ := h.perform visitor (spares.sequence hstate hook nodes) htaken
    rwa [endless] at hlast

variable {traverser : Traverser}

lemma does (h : Considerate number P nested) (spares : behaviour.Spares number P)
    (alone : Undisturbed number P before roster) {act : Act ρ α}
    (hother : ∀ index hook tag, act.call? = some (index, hook, tag) →
      traverser.visitors[index]? ≠ some number)
    (hdoes : (traverser.walker behaviour nested).Does act roster final) :
    Undisturbed number P before final := by
  cases act with
  | event event =>
    obtain rfl : roster.note (.event event) = final := hdoes
    exact alone.note _
  | node | sequence =>
    obtain ⟨visitor, hvisitor, hcalled, -⟩ := (Traverser.does_call_iff rfl).1 hdoes
    exact h.called spares (fun heq => hother _ _ _ rfl (heq ▸ hvisitor)) alone hcalled

end Considerate

/-- Traversals leave a visitor undisturbed that everybody spares, however deep they nest. -/
theorem Traverser.nest_considerate [Admission ρ α] {number : Nat} {P : Nat → V → Prop}
    {behaviour : Behaviour ρ α V} (spares : behaviour.Spares number P) (stack nesting : Nat) :
    Considerate number P (nest (ρ := ρ) (α := α) behaviour stack nesting) := by
  induction nesting with
  | zero => exact ⟨fun _ _ alone => alone⟩
  | succ nesting ih =>
    constructor
    intro traverser before roster nodes unlisted alone
    let walker := traverser.walker behaviour (nest behaviour stack nesting)
    obtain ⟨-, -, hdoes⟩ := walker.recorded_traverse stack nodes roster
    refine (hdoes.invariant (P := fun _ => True) (fun alone hact => ⟨trivial, ?_⟩) alone).2
    exact ih.does spares alone
      (fun _ _ _ _ hlisted => unlisted (List.mem_of_getElem? hlisted)) hact

end ForestWalk
