import ForestWalk.Roster.Basic
import Mathlib.Tactic.Lemma
/-!
The leases of a roster: for each operation, what it does to the lease of every visitor. While a hook
of a visitor runs, nothing but the end of that call changes its lease.
-/

namespace ForestWalk

namespace Lease

lemma isFree_iff {lease : Lease} : lease.isFree = true ↔ lease = .free := by
  match lease with
  | .readers 0 => exact ⟨fun _ => rfl, fun _ => rfl⟩
  | .readers (count + 1) | .writer | .hook => simp [isFree, free]

@[simp] theorem free_ne_hook : Lease.free ≠ .hook :=
  nofun

@[simp] theorem lend_hook (mode : Mode) : Lease.hook.lend mode = none := by
  cases mode <;> rfl

lemma lend_ne_hook {mode : Mode} {lease lent : Lease} (h : lease.lend mode = some lent) :
    lent ≠ .hook := by
  rintro rfl
  match mode, lease with
  | .shared, .readers count | .exclusive, .readers 0 | .exclusive, .readers (count + 1)
  | .shared, .writer | .exclusive, .writer | .shared, .hook | .exclusive, .hook => cases h

lemma giveBack_eq_hook_iff {lease : Lease} : lease.giveBack = .hook ↔ lease = .hook := by
  cases lease <;> simp [giveBack]

/-- What is lent after an attempt to borrow. -/
def tryLend (mode : Mode) (lease : Lease) : Lease :=
  (lease.lend mode).getD lease

@[simp] theorem tryLend_hook (mode : Mode) : Lease.hook.tryLend mode = .hook := by
  simp [tryLend]

lemma tryLend_eq_hook_iff {mode : Mode} {lease : Lease} :
    lease.tryLend mode = .hook ↔ lease = .hook := by
  rcases h : lease.lend mode with _ | lent
  · simp [tryLend, h]
  · constructor
    · intro hlent
      simp only [tryLend, h, Option.getD_some] at hlent
      exact absurd hlent (lend_ne_hook h)
    · rintro rfl
      exact tryLend_hook mode

end Lease

namespace Roster

variable {ρ α V : Type}

/-- What is lent of a visitor; none if there is no such visitor. -/
def lease (visitor : Nat) (roster : Roster ρ α V) : Option Lease :=
  roster.cells[visitor]?.map (·.lease)

@[simp] theorem cells_note (entry : Entry ρ α) (roster : Roster ρ α V) :
    (roster.note entry).cells = roster.cells :=
  rfl

@[simp] theorem lease_note (visitor : Nat) (entry : Entry ρ α) (roster : Roster ρ α V) :
    (roster.note entry).lease visitor = roster.lease visitor :=
  rfl

lemma lease_eq_some_iff {visitor : Nat} {lease : Lease} {roster : Roster ρ α V} :
    roster.lease visitor = some lease ↔
      ∃ cell, roster.cells[visitor]? = some cell ∧ cell.lease = lease := by
  simp [Roster.lease]

lemma lt_of_lease_eq_some {visitor : Nat} {lease : Lease} {roster : Roster ρ α V}
    (h : roster.lease visitor = some lease) : visitor < roster.cells.length := by
  obtain ⟨cell, hcell, -⟩ := lease_eq_some_iff.1 h
  exact (List.getElem?_eq_some_iff.1 hcell).1

theorem lease_setLease (visitor other : Nat) (lease : Lease) (roster : Roster ρ α V) :
    (roster.setLease visitor lease).lease other =
      (roster.lease other).map fun kept => if visitor = other then lease else kept := by
  simp only [Roster.lease, setLease, List.getElem?_modify, Option.map_eq_map, Option.map_map]
  congr 1
  funext cell
  simp only [Function.comp_apply]
  split <;> rfl

@[simp] theorem length_setLease (visitor : Nat) (lease : Lease) (roster : Roster ρ α V) :
    (roster.setLease visitor lease).cells.length = roster.cells.length := by
  simp [setLease]

section Hold

variable (target : Nat) (mode : Mode) (roster : Roster ρ α V)

theorem lease_hold (other : Nat) :
    (roster.hold target mode).2.lease other =
      (roster.lease other).map fun lease =>
        if target = other then lease.tryLend mode else lease := by
  rcases hcell : roster.cells[target]? with _ | cell
  · have hnone : roster.lease target = none := by rw [Roster.lease, hcell]; rfl
    simp only [hold, hcell, Option.bind_none]
    by_cases h : target = other
    · subst h
      rw [hnone]
      rfl
    · simp [h]
  · have hsome : roster.lease target = some cell.lease := lease_eq_some_iff.2 ⟨cell, hcell, rfl⟩
    simp only [hold, hcell, Option.bind_some]
    rcases hlent : cell.lease.lend mode with _ | lent
    · by_cases h : target = other
      · subst h
        simp [hsome, Lease.tryLend, hlent]
      · simp [h]
    · rw [lease_setLease]
      by_cases h : target = other
      · subst h
        simp [hsome, Lease.tryLend, hlent]
      · simp [h]

/-- To borrow a visitor does not start or end a hook. -/
lemma lease_hold_eq_hook_iff (other : Nat) :
    (roster.hold target mode).2.lease other = some .hook ↔ roster.lease other = some .hook := by
  rw [lease_hold]
  by_cases h : target = other
  · simp [h, Lease.tryLend_eq_hook_iff]
  · simp [h]

@[simp] theorem length_hold :
    (roster.hold target mode).2.cells.length = roster.cells.length := by
  rw [hold]
  split <;> simp

lemma journal_hold : (roster.hold target mode).2.journal = roster.journal := by
  rw [hold]
  split <;> rfl

/-- A visitor cannot be borrowed while one of its hooks runs. -/
lemma hold_hook (h : roster.lease target = some .hook) :
    roster.hold target mode = (false, roster) := by
  obtain ⟨cell, hcell, hlease⟩ := lease_eq_some_iff.1 h
  simp [hold, hcell, hlease]

/-- An attempt that is not granted changes nothing. -/
lemma hold_eq_of_refused (h : (roster.hold target mode).1 = false) :
    (roster.hold target mode).2 = roster := by
  revert h
  rw [hold]
  split
  · nofun
  · exact fun _ => rfl

end Hold

section Release

variable (target : Nat) (roster : Roster ρ α V)

theorem lease_release (other : Nat) :
    (roster.release target).2.lease other =
      (roster.lease other).map fun lease => if target = other then lease.giveBack else lease := by
  rcases hcell : roster.cells[target]? with _ | cell
  · have hnone : roster.lease target = none := by rw [Roster.lease, hcell]; rfl
    simp only [release, hcell]
    by_cases h : target = other
    · subst h
      rw [hnone]
      rfl
    · simp [h]
  · have hsome : roster.lease target = some cell.lease := lease_eq_some_iff.2 ⟨cell, hcell, rfl⟩
    simp only [release, hcell, lease_setLease]
    by_cases h : target = other
    · subst h
      simp [hsome]
    · simp [h]

/-- To give a visitor back does not start or end a hook. -/
lemma lease_release_eq_hook_iff (other : Nat) :
    (roster.release target).2.lease other = some .hook ↔ roster.lease other = some .hook := by
  rw [lease_release]
  by_cases h : target = other
  · simp [h, Lease.giveBack_eq_hook_iff]
  · simp [h]

@[simp] theorem length_release :
    (roster.release target).2.cells.length = roster.cells.length := by
  rw [release]
  split <;> simp

lemma journal_release : (roster.release target).2.journal = roster.journal := by
  rw [release]
  split <;> rfl

end Release

section Call

variable {visitor : Nat} {state : V} {roster taken : Roster ρ α V}

theorem takeForCall_eq_some_iff :
    roster.takeForCall visitor = some (state, taken) ↔
      (∃ cell, roster.cells[visitor]? = some cell ∧ cell.lease = .free ∧ cell.state = state) ∧
        taken = roster.setLease visitor .hook := by
  simp only [takeForCall, Option.map_eq_some_iff, Option.filter_eq_some_iff, Lease.isFree_iff,
    Prod.mk.injEq]
  constructor
  · rintro ⟨cell, ⟨hcell, hfree⟩, rfl, rfl⟩
    exact ⟨⟨cell, hcell, hfree, rfl⟩, rfl⟩
  · rintro ⟨⟨cell, hcell, hfree, rfl⟩, rfl⟩
    exact ⟨cell, ⟨hcell, hfree⟩, rfl, rfl⟩

/-- A visitor is taken in the state in which it is free. -/
lemma exists_free_of_takeForCall (h : roster.takeForCall visitor = some (state, taken)) :
    roster.cells[visitor]? = some { state := state } ∧ taken = roster.setLease visitor .hook := by
  obtain ⟨⟨⟨_, _⟩, hcell, rfl, rfl⟩, htaken⟩ := takeForCall_eq_some_iff.1 h
  exact ⟨hcell, htaken⟩

lemma takeForCall_of_free (free : roster.cells[visitor]? = some { state := state }) :
    roster.takeForCall visitor = some (state, roster.setLease visitor .hook) :=
  takeForCall_eq_some_iff.2 ⟨⟨_, free, rfl, rfl⟩, rfl⟩

lemma lease_of_takeForCall (h : roster.takeForCall visitor = some (state, taken)) :
    roster.lease visitor = some .free := by
  obtain ⟨⟨cell, hcell, hfree, -⟩, -⟩ := takeForCall_eq_some_iff.1 h
  exact lease_eq_some_iff.2 ⟨cell, hcell, hfree⟩

/-- A visitor is taken for a call just if it is free. -/
theorem takeForCall_eq_none_iff :
    roster.takeForCall visitor = none ↔ roster.lease visitor ≠ some .free := by
  rw [Ne, lease_eq_some_iff]
  constructor
  · rintro hnone ⟨cell, hcell, hfree⟩
    have htaken := takeForCall_eq_some_iff.2 ⟨⟨cell, hcell, hfree, rfl⟩, rfl⟩
    rw [hnone] at htaken
    cases htaken
  · intro hlent
    rcases htake : roster.takeForCall visitor with _ | ⟨state, taken⟩
    · rfl
    · obtain ⟨⟨cell, hcell, hfree, -⟩, -⟩ := takeForCall_eq_some_iff.1 htake
      exact absurd ⟨cell, hcell, hfree⟩ hlent

lemma lease_taken (h : roster.takeForCall visitor = some (state, taken)) (other : Nat) :
    taken.lease other =
      (roster.lease other).map fun lease => if visitor = other then .hook else lease := by
  obtain ⟨-, rfl⟩ := takeForCall_eq_some_iff.1 h
  exact lease_setLease visitor other .hook roster

/-- In a call the visitor is busy, and those that were busy before. -/
lemma lease_taken_eq_hook_iff (h : roster.takeForCall visitor = some (state, taken)) (other : Nat) :
    taken.lease other = some .hook ↔ other = visitor ∨ roster.lease other = some .hook := by
  rw [lease_taken h]
  by_cases heq : visitor = other
  · subst heq
    simp [lease_of_takeForCall h]
  · simp [heq, Ne.symm heq]

lemma length_taken (h : roster.takeForCall visitor = some (state, taken)) :
    taken.cells.length = roster.cells.length := by
  obtain ⟨-, rfl⟩ := takeForCall_eq_some_iff.1 h
  exact length_setLease visitor .hook roster

lemma journal_taken (h : roster.takeForCall visitor = some (state, taken)) :
    taken.journal = roster.journal := by
  obtain ⟨-, rfl⟩ := takeForCall_eq_some_iff.1 h
  rfl

end Call

theorem lease_putBack (visitor other : Nat) (state : V) (roster : Roster ρ α V) :
    (roster.putBack visitor state).lease other =
      (roster.lease other).map fun lease => if visitor = other then .free else lease := by
  simp only [Roster.lease, putBack, cells_note, List.getElem?_set, Option.map_map]
  by_cases h : visitor = other
  · subst h
    by_cases hlt : visitor < roster.cells.length <;> simp [hlt]
  · simp [h, Function.comp_def]

/-- After a call its visitor is not busy any more. -/
lemma lease_putBack_eq_hook_iff (visitor other : Nat) (state : V) (roster : Roster ρ α V) :
    (roster.putBack visitor state).lease other = some .hook ↔
      other ≠ visitor ∧ roster.lease other = some .hook := by
  rw [lease_putBack]
  by_cases h : visitor = other
  · simp [h]
  · simp [h, Ne.symm h]

@[simp] theorem length_putBack (visitor : Nat) (state : V) (roster : Roster ρ α V) :
    (roster.putBack visitor state).cells.length = roster.cells.length := by
  simp [putBack]

/-- The visitors of which a hook is running. -/
def running (roster : Roster ρ α V) : List Nat :=
  (List.range roster.cells.length).filter fun visitor => roster.lease visitor = some .hook

theorem mem_running {visitor : Nat} {roster : Roster ρ α V} :
    visitor ∈ roster.running ↔ roster.lease visitor = some .hook := by
  simp only [running, List.mem_filter, List.mem_range, decide_eq_true_eq]
  exact ⟨And.right, fun h => ⟨lt_of_lease_eq_some h, h⟩⟩

lemma nodup_running (roster : Roster ρ α V) : roster.running.Nodup :=
  List.nodup_range.filter _

end Roster

end ForestWalk
