import ForestWalk.Proofs.Leases
import ForestWalk.Traverser.Run
import Mathlib.Data.List.Nodup
import Mathlib.Data.List.Perm.Subperm
/-!
Traversals that nest, as the steps of a machine. A scene is a roster with all that is under way on
it, and a step is one thing that happens: a traversal starts or ends, a visitor is called or
returns, or a hook borrows a visitor or gives it back. The invariants say which visitors are busy,
how deep traversals nest, and what is lent of each visitor.
-/

namespace ForestWalk

variable {ρ α V : Type}

/-- Something that is under way: a traversal, or a hook of a visitor. -/
inductive Frame where
  | traversal
  | hook (visitor : Nat)
deriving Repr, DecidableEq

namespace Frame

def visitor? : Frame → Option Nat
  | .traversal => none
  | .hook visitor => some visitor

/-- The visitors of which a hook is under way, the innermost first. -/
def hooks (stack : List Frame) : List Nat :=
  stack.filterMap visitor?

/-- How many traversals are under way. -/
def traversals (stack : List Frame) : Nat :=
  stack.count .traversal

@[simp] theorem hooks_traversal (stack : List Frame) : hooks (.traversal :: stack) = hooks stack :=
  rfl

@[simp] theorem hooks_hook (visitor : Nat) (stack : List Frame) :
    hooks (.hook visitor :: stack) = visitor :: hooks stack :=
  rfl

@[simp] theorem traversals_traversal (stack : List Frame) :
    traversals (.traversal :: stack) = traversals stack + 1 :=
  List.count_cons_self

@[simp] theorem traversals_hook (visitor : Nat) (stack : List Frame) :
    traversals (.hook visitor :: stack) = traversals stack :=
  List.count_cons_of_ne (by simp)

/-- Hooks are called by traversals, and a traversal that is not the first was started by a hook. -/
inductive Alternate : List Frame → Prop
  | nil : Alternate []
  | traversal {stack : List Frame} (below : Alternate stack)
      (idle : stack.head? ≠ some .traversal) : Alternate (.traversal :: stack)
  | hook {visitor : Nat} {stack : List Frame} (below : Alternate (.traversal :: stack)) :
      Alternate (.hook visitor :: .traversal :: stack)

lemma Alternate.traversals_eq {stack : List Frame} (h : Alternate stack) :
    traversals stack =
      (hooks stack).length + if stack.head? = some .traversal then 1 else 0 := by
  induction h with
  | nil => rfl
  | traversal below idle ih => simpa [idle] using ih
  | hook below ih => simpa using ih

/-- There is a hook between any two traversals. -/
theorem Alternate.traversals_le {stack : List Frame} (h : Alternate stack) :
    traversals stack ≤ (hooks stack).length + 1 := by
  rw [h.traversals_eq]
  split <;> omega

end Frame

/-- What a visitor is called with. -/
inductive Request (ρ α : Type) where
  | node (hook : NodeHook) (node : Tree ρ α)
  | sequence (hook : SequenceHook) (nodes : List (Tree ρ α))

def Request.entry (visitor : Nat) : Request ρ α → Entry ρ α
  | .node hook shown => .nodeCall visitor hook shown
  | .sequence hook shown => .sequenceCall visitor hook shown

/-- What happens while traversals run. It is what the journal tells, and besides it the mode in
which a hook tries to borrow a visitor. -/
inductive Deed (ρ α : Type) where
  | event (event : Event)
  | call (visitor : Nat) (request : Request ρ α)
  | returned (visitor : Nat)
  | hold (visitor target : Nat) (mode : Mode) (granted : Bool)
  | release (visitor target count : Nat)
  | nested (visitor : Nat) (result : Except WalkError (List (Tree ρ α)))

namespace Deed

/-- What the journal tells of it. -/
def entry : Deed ρ α → Entry ρ α
  | .event made => .event made
  | .call visitor request => request.entry visitor
  | .returned visitor => .returned visitor
  | .hold visitor target _ granted => .hold visitor target granted
  | .release visitor target count => .release visitor target count
  | .nested visitor result => .nested visitor result

/-- What becomes of the lease of a visitor by what hooks expressly borrow and give back. -/
def lend (target : Nat) : Deed ρ α → Lease → Lease
  | .hold _ borrowed mode true, lease => if borrowed = target then lease.tryLend mode else lease
  | .release _ borrowed _, lease => if borrowed = target then lease.giveBack else lease
  | _, lease => lease

/-- What is lent of a visitor after all that hooks have expressly borrowed and given back. -/
def lent (target : Nat) (deeds : List (Deed ρ α)) (lease : Lease) : Lease :=
  deeds.foldl (fun lease deed => deed.lend target lease) lease

@[simp] theorem lent_append (target : Nat) (deeds more : List (Deed ρ α)) (lease : Lease) :
    lent target (deeds ++ more) lease = lent target more (lent target deeds lease) :=
  List.foldl_append

end Deed

namespace Roster

variable (deeds : List (Deed ρ α)) (visitor : Nat) (roster : Roster ρ α V)

/-- What would be lent of a visitor if nothing had changed it but what hooks expressly borrowed and
gave back. -/
def leaseAfter : Option Lease :=
  (roster.lease visitor).map (Deed.lent visitor deeds)

@[simp] theorem leaseAfter_nil :
    roster.leaseAfter ([] : List (Deed ρ α)) visitor = roster.lease visitor := by
  rw [leaseAfter]
  exact congrFun Option.map_id _

@[simp] theorem leaseAfter_snoc (deed : Deed ρ α) :
    roster.leaseAfter (deeds ++ [deed]) visitor =
      (roster.leaseAfter deeds visitor).map (deed.lend visitor) := by
  rw [leaseAfter, leaseAfter, Option.map_map]
  congr 1
  funext lease
  exact Deed.lent_append visitor deeds [deed] lease

variable {deeds visitor roster}

/-- A deed that lends nothing of a visitor. -/
lemma leaseAfter_snoc_of_lend {deed : Deed ρ α} {visitor : Nat} (h : deed.lend visitor = id) :
    roster.leaseAfter (deeds ++ [deed]) visitor = roster.leaseAfter deeds visitor := by
  rw [leaseAfter_snoc, h, Option.map_id, id]

end Roster

/-- A roster with all that is under way on it, the innermost first. -/
structure Scene (ρ α V : Type) where
  roster : Roster ρ α V
  stack : List Frame

/-- Whether a traversal makes known that it starts. -/
def Event.isStart : Event → Bool
  | .started .. => true
  | _ => false

namespace Scene

/-- One thing that happens. -/
inductive Step : Deed ρ α → Scene ρ α V → Scene ρ α V → Prop
  /-- A traversal starts: at first, or while a hook runs. -/
  | start {roster : Roster ρ α V} {stack : List Frame} {event : Event}
      (starts : event.isStart = true) (idle : stack.head? ≠ some .traversal) :
      Step (.event event) ⟨roster, stack⟩ ⟨roster.note (.event event), .traversal :: stack⟩
  /-- A traversal makes something else known. -/
  | tell {roster : Roster ρ α V} {stack : List Frame} {event : Event}
      (goesOn : event.isStart = false) :
      Step (.event event) ⟨roster, stack⟩ ⟨roster.note (.event event), stack⟩
  /-- The innermost traversal calls a visitor that is free. -/
  | call {roster taken : Roster ρ α V} {stack : List Frame} {visitor : Nat} {state : V}
      {request : Request ρ α} (free : roster.takeForCall visitor = some (state, taken)) :
      Step (.call visitor request) ⟨roster, .traversal :: stack⟩
        ⟨taken.note (request.entry visitor), .hook visitor :: .traversal :: stack⟩
  /-- The innermost hook ends, and leaves its visitor in some state. -/
  | returned {roster : Roster ρ α V} {stack : List Frame} {visitor : Nat} {state : V} :
      Step (.returned visitor) ⟨roster, .hook visitor :: stack⟩
        ⟨roster.putBack visitor state, stack⟩
  | hold (roster : Roster ρ α V) (stack : List Frame) (visitor target : Nat) (mode : Mode) :
      Step (.hold visitor target mode (roster.hold target mode).1)
        ⟨roster, .hook visitor :: stack⟩
        ⟨(roster.hold target mode).2.note (.hold visitor target (roster.hold target mode).1),
          .hook visitor :: stack⟩
  | release (roster : Roster ρ α V) (stack : List Frame) (visitor target : Nat) :
      Step (.release visitor target (roster.release target).1) ⟨roster, .hook visitor :: stack⟩
        ⟨(roster.release target).2.note (.release visitor target (roster.release target).1),
          .hook visitor :: stack⟩
  /-- A traversal that a hook has started ends. -/
  | nested {roster : Roster ρ α V} {stack : List Frame} {visitor : Nat}
      {result : Except WalkError (List (Tree ρ α))} :
      Step (.nested visitor result) ⟨roster, .traversal :: .hook visitor :: stack⟩
        ⟨roster.note (.nested visitor result), .hook visitor :: stack⟩

/-- Steps one after the other. -/
def Steps : List (Deed ρ α) → Scene ρ α V → Scene ρ α V → Prop
  | [], scene, final => scene = final
  | deed :: rest, scene, final => ∃ mid, Step deed scene mid ∧ Steps rest mid final

section Steps

variable {deeds more : List (Deed ρ α)} {scene mid final : Scene ρ α V}

@[simp] theorem steps_append :
    Steps (deeds ++ more) scene final ↔ ∃ mid, Steps deeds scene mid ∧ Steps more mid final := by
  induction deeds generalizing scene with
  | nil => simp [Steps]
  | cons deed rest ih =>
    simp only [List.cons_append, Steps, ih]
    constructor
    · rintro ⟨first, hstep, mid, hrest, hmore⟩
      exact ⟨mid, ⟨first, hstep, hrest⟩, hmore⟩
    · rintro ⟨mid, ⟨first, hstep, hrest⟩, hmore⟩
      exact ⟨first, hstep, mid, hrest, hmore⟩

lemma Steps.cons {deed : Deed ρ α} (hstep : Step deed scene mid) (h : Steps deeds mid final) :
    Steps (deed :: deeds) scene final :=
  ⟨mid, hstep, h⟩

lemma Steps.trans (h : Steps deeds scene mid) (h' : Steps more mid final) :
    Steps (deeds ++ more) scene final :=
  steps_append.2 ⟨mid, h, h'⟩

lemma Step.journal {deed : Deed ρ α} (h : Step deed scene final) :
    final.roster.journal.toList = scene.roster.journal.toList ++ [deed.entry] := by
  cases h with
  | start | tell | nested | returned => simp [Roster.note, Roster.putBack, Deed.entry]
  | call free => simp [Roster.note, Deed.entry, Roster.journal_taken free]
  | hold => simp [Roster.note, Deed.entry, Roster.journal_hold]
  | release => simp [Roster.note, Deed.entry, Roster.journal_release]

/-- The journal tells what happens, and nothing else. -/
theorem Steps.journal (h : Steps deeds scene final) :
    final.roster.journal.toList = scene.roster.journal.toList ++ deeds.map Deed.entry := by
  induction deeds generalizing scene with
  | nil =>
    obtain rfl := h
    simp
  | cons deed rest ih =>
    obtain ⟨mid, hstep, hrest⟩ := h
    rw [ih hrest, hstep.journal]
    simp

lemma Step.length_cells {deed : Deed ρ α} (h : Step deed scene final) :
    final.roster.cells.length = scene.roster.cells.length := by
  cases h with
  | start | tell | nested => rfl
  | @call _ taken _ _ _ request free =>
    rw [Roster.cells_note, Roster.length_taken free]
  | returned => exact Roster.length_putBack ..
  | hold => exact Roster.length_hold ..
  | release => exact Roster.length_release ..

theorem Steps.length_cells (h : Steps deeds scene final) :
    final.roster.cells.length = scene.roster.cells.length := by
  induction deeds generalizing scene with
  | nil =>
    obtain rfl := h
    rfl
  | cons deed rest ih =>
    obtain ⟨mid, hstep, hrest⟩ := h
    rw [ih hrest, hstep.length_cells]

end Steps

/-- The visitors of which a hook is under way, where `held` are those called before. -/
def busy (held : List Nat) (scene : Scene ρ α V) : List Nat :=
  Frame.hooks scene.stack ++ held

/-- No visitor is busy twice, the busy visitors are those that their calls hold, and traversals nest
through hooks. -/
structure Sound (held : List Nat) (scene : Scene ρ α V) : Prop where
  distinct : (scene.busy held).Nodup
  hooked : ∀ visitor, scene.roster.lease visitor = some .hook ↔ visitor ∈ scene.busy held
  alternate : Frame.Alternate scene.stack

/-- Before a traversal starts, the visitors that their calls hold are the busy ones. -/
theorem sound_running (roster : Roster ρ α V) :
    Sound roster.running (⟨roster, []⟩ : Scene ρ α V) where
  distinct := roster.nodup_running
  hooked := fun _ => Roster.mem_running.symm
  alternate := .nil

section Sound

variable {held : List Nat} {scene final : Scene ρ α V}

lemma Sound.notMem_busy (h : Sound held scene) {visitor : Nat}
    (free : scene.roster.lease visitor = some .free) : visitor ∉ scene.busy held := by
  intro hbusy
  rw [(h.hooked visitor).2 hbusy] at free
  cases free

theorem Step.sound {deed : Deed ρ α} (hstep : Step deed scene final) (h : Sound held scene) :
    Sound held final := by
  cases hstep with
  | start starts idle => exact ⟨h.distinct, h.hooked, .traversal h.alternate idle⟩
  | tell goesOn => exact ⟨h.distinct, h.hooked, h.alternate⟩
  | @call roster taken stack visitor state request free =>
    have hfree := Roster.lease_of_takeForCall free
    have hnot : visitor ∉ Frame.hooks stack ++ held := h.notMem_busy hfree
    refine ⟨List.nodup_cons.2 ⟨hnot, h.distinct⟩, fun other => ?_, .hook h.alternate⟩
    have htaken := Roster.lease_taken_eq_hook_iff free other
    rw [h.hooked other] at htaken
    exact htaken.trans List.mem_cons.symm
  | @returned roster stack visitor state =>
    obtain ⟨hnot, hdistinct⟩ : visitor ∉ Frame.hooks stack ++ held ∧
        (Frame.hooks stack ++ held).Nodup := List.nodup_cons.1 h.distinct
    have halternate : Frame.Alternate stack := by
      cases h.alternate with
      | hook below => exact below
    refine ⟨hdistinct, fun other => ?_, halternate⟩
    have hother : roster.lease other = some .hook ↔
        other = visitor ∨ other ∈ Frame.hooks stack ++ held :=
      (h.hooked other).trans List.mem_cons
    refine (Roster.lease_putBack_eq_hook_iff visitor other state roster).trans ?_
    rw [hother]
    constructor
    · rintro ⟨hne, rfl | hmem⟩
      · exact absurd rfl hne
      · exact hmem
    · intro hmem
      exact ⟨fun heq => hnot (heq ▸ hmem), .inr hmem⟩
  | hold roster stack visitor target mode =>
    refine ⟨h.distinct, fun other => ?_, h.alternate⟩
    exact (roster.lease_hold_eq_hook_iff target mode other).trans (h.hooked other)
  | release roster stack visitor target =>
    refine ⟨h.distinct, fun other => ?_, h.alternate⟩
    exact (roster.lease_release_eq_hook_iff target other).trans (h.hooked other)
  | nested =>
    cases h.alternate with
    | traversal below idle => exact ⟨h.distinct, h.hooked, below⟩

theorem Steps.sound {deeds : List (Deed ρ α)} (hsteps : Steps deeds scene final)
    (h : Sound held scene) : Sound held final := by
  induction deeds generalizing scene with
  | nil =>
    obtain rfl := hsteps
    exact h
  | cons deed rest ih =>
    obtain ⟨mid, hstep, hrest⟩ := hsteps
    exact ih hrest (hstep.sound h)

/-- The busy visitors are all different and on the roster, so there is at most one traversal more
than there are visitors that were not busy before. -/
theorem Sound.traversals_le (h : Sound held scene) :
    Frame.traversals scene.stack + held.length ≤ scene.roster.cells.length + 1 := by
  have hbusy : scene.busy held ⊆ List.range scene.roster.cells.length := by
    intro visitor hmem
    exact List.mem_range.2 (Roster.lt_of_lease_eq_some ((h.hooked visitor).2 hmem))
  have hle : (scene.busy held).length ≤ scene.roster.cells.length := by
    simpa using (List.subperm_of_subset h.distinct hbusy).length_le
  have htraversals := h.alternate.traversals_le
  simp only [busy, List.length_append] at hle
  omega

end Sound

section Kept

/-- Apart from calls under way, the leases have changed by nothing but what hooks expressly borrowed
and gave back; and a visitor that was called was free. -/
structure Kept (roster : Roster ρ α V) (deeds : List (Deed ρ α)) (scene : Scene ρ α V) : Prop where
  idle : ∀ visitor ∉ Frame.hooks scene.stack,
    scene.roster.lease visitor = roster.leaseAfter deeds visitor
  called : ∀ visitor ∈ Frame.hooks scene.stack, roster.leaseAfter deeds visitor = some .free

lemma kept_nil (roster : Roster ρ α V) : Kept roster [] (⟨roster, []⟩ : Scene ρ α V) where
  idle := fun visitor _ => (roster.leaseAfter_nil visitor).symm
  called := fun _ hmem => absurd hmem List.not_mem_nil

variable {held : List Nat} {roster : Roster ρ α V} {deeds : List (Deed ρ α)}
  {scene final : Scene ρ α V}

/-- A deed that lends nothing, and that begins and ends no hook. -/
lemma Kept.snoc_of_lend {deed : Deed ρ α} (h : Kept roster deeds scene)
    (hlend : ∀ visitor, deed.lend visitor = id)
    (hhooks : Frame.hooks final.stack = Frame.hooks scene.stack)
    (hlease : ∀ visitor, final.roster.lease visitor = scene.roster.lease visitor) :
    Kept roster (deeds ++ [deed]) final := by
  refine ⟨fun visitor hmem => ?_, fun visitor hmem => ?_⟩
  · rw [Roster.leaseAfter_snoc_of_lend (hlend visitor), hlease]
    exact h.idle visitor (hhooks ▸ hmem)
  · rw [Roster.leaseAfter_snoc_of_lend (hlend visitor)]
    exact h.called visitor (hhooks ▸ hmem)

theorem Step.kept {deed : Deed ρ α} (hstep : Step deed scene final) (hsound : Sound held scene)
    (h : Kept roster deeds scene) : Kept roster (deeds ++ [deed]) final := by
  cases hstep with
  | start | tell | nested => exact h.snoc_of_lend (fun _ => rfl) rfl (fun _ => rfl)
  | @call now taken stack visitor state request free =>
    have hfree := Roster.lease_of_takeForCall free
    have hnot : visitor ∉ Frame.hooks stack := fun hmem =>
      hsound.notMem_busy hfree (List.mem_append_left held hmem)
    refine ⟨fun other hmem => ?_, fun other hmem => ?_⟩
    · obtain ⟨hne, hother⟩ : other ≠ visitor ∧ other ∉ Frame.hooks stack := by simpa using hmem
      rw [Roster.leaseAfter_snoc_of_lend rfl, ← h.idle other hother, Roster.lease_note,
        Roster.lease_taken free]
      simp [hne.symm]
    · rw [Roster.leaseAfter_snoc_of_lend rfl]
      rcases List.mem_cons.1 hmem with rfl | hother
      · rw [← h.idle other hnot, hfree]
      · exact h.called other hother
  | @returned now stack visitor state =>
    refine ⟨fun other hmem => ?_, fun other hmem => ?_⟩
    · rw [Roster.leaseAfter_snoc_of_lend rfl, Roster.lease_putBack]
      by_cases heq : visitor = other
      · subst heq
        have hhook : now.lease visitor = some .hook := (hsound.hooked visitor).2 List.mem_cons_self
        rw [h.called visitor List.mem_cons_self, hhook]
        simp
      · have hother : other ∉ visitor :: Frame.hooks stack := by
          simpa [Ne.symm heq] using hmem
        rw [← h.idle other hother]
        simp [heq]
    · rw [Roster.leaseAfter_snoc_of_lend rfl]
      exact h.called other (List.mem_cons_of_mem visitor hmem)
  | hold now stack visitor target mode =>
    rcases hgranted : (now.hold target mode).1 with _ | _
    · rw [Roster.hold_eq_of_refused target mode now hgranted]
      exact h.snoc_of_lend (fun _ => rfl) rfl (fun _ => rfl)
    · refine ⟨fun other hmem => ?_, fun other hmem => ?_⟩
      · rw [Roster.leaseAfter_snoc, ← h.idle other hmem, Roster.lease_note, Roster.lease_hold]
        rfl
      · -- A visitor that is busy cannot be borrowed.
        have hne : target ≠ other := by
          rintro rfl
          have hhook := (hsound.hooked target).2 (List.mem_append_left held hmem)
          rw [Roster.hold_hook target mode now hhook] at hgranted
          cases hgranted
        rw [Roster.leaseAfter_snoc, h.called other hmem]
        simp [Deed.lend, hne]
  | release now stack visitor target =>
    refine ⟨fun other hmem => ?_, fun other hmem => ?_⟩
    · rw [Roster.leaseAfter_snoc, ← h.idle other hmem, Roster.lease_note, Roster.lease_release]
      rfl
    · rw [Roster.leaseAfter_snoc, h.called other hmem]
      simp only [Deed.lend, Option.map_some]
      split <;> rfl

theorem Steps.kept {more : List (Deed ρ α)} (hsteps : Steps more scene final)
    (hsound : Sound held scene) (h : Kept roster deeds scene) :
    Kept roster (deeds ++ more) final := by
  induction more generalizing scene deeds with
  | nil =>
    obtain rfl := hsteps
    rwa [List.append_nil]
  | cons deed rest ih =>
    obtain ⟨mid, hstep, hrest⟩ := hsteps
    rw [List.append_cons]
    exact ih hrest (hstep.sound hsound) (hstep.kept hsound h)

end Kept

end Scene

end ForestWalk
