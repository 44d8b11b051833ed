import ForestWalk.Proofs.Nesting
/-!
What traversals do to the leases of a roster. A hook has its visitor to itself for the length of
one call, and apart from that the leases change by nothing but what hooks expressly borrow and give
back.
-/

namespace ForestWalk

variable {ρ α V : Type}

section Scenes

variable {held : List Nat} {roster : Roster ρ α V} {deeds : List (Deed ρ α)}
  {scene : Scene ρ α V}

/-- The lease of every visitor at any moment: a hook that is under way has its visitor to itself. -/
theorem Scene.Kept.lease_eq (h : scene.Kept roster deeds) (hsound : scene.Sound held)
    (visitor : Nat) :
    scene.roster.lease visitor =
      if visitor ∈ Frame.hooks scene.stack then some .hook
      else roster.leaseAfter deeds visitor := by
  split
  · rename_i hmem
    exact (hsound.hooked visitor).2 (List.mem_append_left held hmem)
  · rename_i hmem
    exact h.idle visitor hmem

/-- Only a free visitor is called. -/
lemma Scene.Step.lease_of_call {visitor : Nat} {request : Request ρ α} {final : Scene ρ α V}
    (h : Scene.Step (.call visitor request) scene final) :
    scene.roster.lease visitor = some .free := by
  cases h with
  | call free => exact Roster.lease_of_takeForCall free

/-- A visitor that is busy cannot be borrowed. -/
lemma Scene.Step.refused_of_busy {visitor target : Nat} {mode : Mode} {granted : Bool}
    {final : Scene ρ α V} (h : Scene.Step (.hold visitor target mode granted) scene final)
    (hsound : scene.Sound held) (hbusy : target ∈ scene.busy held) : granted = false := by
  have hhook := (hsound.hooked target).2 hbusy
  cases h with
  | hold => exact congrArg Prod.fst (Roster.hold_hook target mode _ hhook)

end Scenes

namespace Traverser

section Acts

variable {behaviour : Behaviour ρ α V} {nested : Traversal ρ α V} {traverser : Traverser}
  {roster final : Roster ρ α V}

lemma cells_of_events {acts : List (Act ρ α)}
    (hdoes : (traverser.walker behaviour nested).DoesAll acts roster final)
    (events : ∀ act ∈ acts, act.isCall = false) : final.cells = roster.cells := by
  induction acts generalizing roster with
  | nil =>
    obtain rfl := hdoes
    rfl
  | cons act rest ih =>
    obtain ⟨mid, hact, hrest⟩ := hdoes
    obtain ⟨hevent, hevents⟩ := List.forall_mem_cons.1 events
    cases act with
    | event event =>
      obtain rfl := hact
      rw [ih hrest hevents]
      rfl
    | node | sequence => cases hevent

variable [Admission ρ α]

/-- A traversal that comes to a visitor which is lent does not call it, nor any other from then on.
It fails for this visitor. -/
theorem walker_refused {room : Nat} {nodes : List (Tree ρ α)} {before after : List (Act ρ α)}
    {act : Act ρ α} {mid : Roster ρ α V} {index visitor : Nat} {hook : Hook} {tag : Option String}
    {cell : Cell V}
    (hacts : (traverser.walker behaviour nested).acts room nodes roster = before ++ act :: after)
    (hbefore : (traverser.walker behaviour nested).DoesAll before roster mid)
    (call : act.call? = some (index, hook, tag))
    (listed : traverser.visitors[index]? = some visitor)
    (hcell : mid.cells[visitor]? = some cell) (lent : cell.lease ≠ .free) :
    let sweep := (traverser.walker behaviour nested).traverse room nodes roster
    let name :=
      if cell.lease.readable then behaviour.name cell.state else namelessVisitor index
    (traverser.walker behaviour nested).DoesAll (before ++ [act]) roster mid ∧
      (∀ later ∈ after, later.isCall = false) ∧ sweep.state.cells = mid.cells ∧
      sweep.halt = some (.failed (.visitorFailed ⟨hook, index, name⟩ tag .unavailable)) := by
  intro sweep name
  obtain ⟨trail, hleaves⟩ :=
    (traverser.walker behaviour nested).exists_leaves room nodes roster
  obtain ⟨front, spot, back, rfl, rfl, rfl⟩ :=
    Moment.exists_of_acts_eq (hleaves.acts_eq.trans hacts)
  obtain ⟨-, -, hdoes⟩ :=
    (traverser.walker behaviour nested).recorded_traverse room nodes roster
  rw [hacts, Walker.doesAll_append] at hdoes
  obtain ⟨_, hbefore', next, hact, hafter⟩ := hdoes
  obtain rfl := hbefore.unique hbefore'
  -- The visitor is lent, so the call is refused and the roster stays as it is.
  have hlease : mid.lease visitor ≠ some .free := by
    intro hfree
    obtain ⟨_, hcell', hfree'⟩ := Roster.lease_eq_some_iff.1 hfree
    obtain rfl := Option.some.inj (hcell.symm.trans hcell')
    exact lent hfree'
  have hrefused := (does_isRefused_iff hact call listed).2 hlease
  obtain ⟨rfl, hname⟩ := does_refused hact hrefused call listed
  have hnamed : act.name? = some name := by
    rw [hname, Roster.name_eq behaviour hcell]
    simp only [name]
    split <;> rfl
  -- A fault is the last thing of a traversal that matters.
  have fails : (Moment.acted spot act).Fails traverser.options 0 _ _ :=
    Moment.fails_of_isRefused hrefused call hnamed
  obtain ⟨-, hfailed, hfree⟩ := hleaves.trodden.outcome
  obtain ⟨error, herror⟩ : ∃ error, sweep.halt = some (.failed error) := by
    by_contra hnone
    have hfaultless := hfree fun error he => hnone ⟨error, he⟩
    exact hfaultless _ (by simp) _ _ fails
  obtain ⟨fault, hlast⟩ := hfailed error herror
  obtain ⟨-, rfl, events⟩ := hlast.of_fails fails
  have hevents := Moment.isCall_of_events events
  refine ⟨?_, hevents, cells_of_events hafter hevents, herror⟩
  exact (Walker.doesAll_append _).2 ⟨_, hbefore, _, hact, rfl⟩

end Acts

variable [Admission ρ α]

/-- A traversal with all that it brings about is a sequence of deeds. At every moment the lease of a
visitor is that of a running hook if one of its hooks is under way, and else what hooks have
expressly left of the lease it had at first; only a free visitor is called, and nobody can borrow a
visitor that is busy. When the traversal has come to an end, no call is under way any more.

Where a visitor on the list is lent when its turn comes, it is not called and the roster stays as it
is. The traversal fails for this visitor, under the name that it goes by while it is lent to readers
only, and calls nobody else. -/
theorem nest_borrowing (behaviour : Behaviour ρ α V) (room nesting : Nat) (traverser : Traverser)
    (nodes : List (Tree ρ α)) (roster : Roster ρ α V) :
    let walker := traverser.walker behaviour (nest behaviour room nesting)
    let sweep := nest behaviour room (nesting + 1) traverser nodes roster
    (∃ deeds later, Scene.Steps deeds (⟨roster, []⟩ : Scene ρ α V) ⟨sweep.state, later⟩ ∧
      sweep.state.journal.toList = roster.journal.toList ++ deeds.map Deed.entry ∧
      (∀ before after scene, deeds = before ++ after → Scene.Steps before ⟨roster, []⟩ scene →
        Scene.Steps after scene ⟨sweep.state, later⟩ →
          (∀ visitor, scene.roster.lease visitor =
            if visitor ∈ Frame.hooks scene.stack then some .hook
            else roster.leaseAfter before visitor) ∧
          (∀ visitor request rest, after = .call visitor request :: rest →
            scene.roster.lease visitor = some .free) ∧
          ∀ borrower visitor mode granted rest,
            after = .hold borrower visitor mode granted :: rest →
              visitor ∈ Frame.hooks scene.stack → granted = false) ∧
      (sweep.result ≠ none →
        ∀ visitor, sweep.state.lease visitor = roster.leaseAfter deeds visitor)) ∧
    ∀ before act after mid, walker.acts room nodes roster = before ++ act :: after →
      walker.DoesAll before roster mid → ∀ index hook tag visitor cell,
        act.call? = some (index, hook, tag) → traverser.visitors[index]? = some visitor →
          mid.cells[visitor]? = some cell → cell.lease ≠ .free →
            walker.DoesAll (before ++ [act]) roster mid ∧
              (∀ later ∈ after, later.isCall = false) ∧ sweep.state.cells = mid.cells ∧
              sweep.halt = some (.failed (.visitorFailed ⟨hook, index,
                if cell.lease.readable then behaviour.name cell.state
                else namelessVisitor index⟩ tag .unavailable)) := by
  intro walker sweep
  refine ⟨?_, fun before act after mid hacts hbefore index hook tag visitor cell call listed hcell
    lent => walker_refused hacts hbefore call listed hcell lent⟩
  have hstart := Scene.sound_running roster
  obtain ⟨deeds, later, hsteps, hlater⟩ :=
    (nest_steps behaviour room (nesting + 1)).steps traverser nodes roster [] (by simp)
  refine ⟨deeds, later, hsteps, hsteps.journal, ?_, ?_⟩
  · intro before after scene hdeeds hbefore hafter
    have hsound := hbefore.sound hstart
    have hkept := hbefore.kept hstart (Scene.kept_nil roster)
    refine ⟨fun visitor => hkept.lease_eq hsound visitor, ?_, ?_⟩
    · rintro visitor request rest rfl
      obtain ⟨next, hcall, -⟩ := hafter
      exact hcall.lease_of_call
    · rintro borrower visitor mode granted rest rfl hmem
      obtain ⟨next, hhold, -⟩ := hafter
      exact hhold.refused_of_busy hsound (List.mem_append_left _ hmem)
  · intro hreturned visitor
    obtain rfl := hlater hreturned
    have hkept := hsteps.kept hstart (Scene.kept_nil roster)
    exact hkept.idle visitor List.not_mem_nil

end Traverser

end ForestWalk
