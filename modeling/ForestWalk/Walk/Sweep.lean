import ForestWalk.Walk.Registration
/-!
Passing over a list from left to right while a state is handed along. A sweep that is broken off
leaves the rest of the list as it was.
-/

namespace ForestWalk

/-- A list after a pass over it, with the reason if the pass was broken off, and the state. -/
structure Sweep (τ σ : Type) where
  items : List τ
  halt : Option Halt
  state : σ

namespace Sweep

variable {τ σ : Type}

/-- Goes on with a second pass unless the first was broken off. -/
def andThen (first : Sweep τ σ) (second : List τ → σ → Sweep τ σ) : Sweep τ σ :=
  match first.halt with
  | none => second first.items first.state
  | some _ => first

/-- Puts items in front. -/
def prepend (front : List τ) (sweep : Sweep τ σ) : Sweep τ σ :=
  { sweep with items := front ++ sweep.items }

@[simp] theorem prepend_nil (sweep : Sweep τ σ) : sweep.prepend [] = sweep :=
  rfl

@[simp] theorem prepend_prepend (front more : List τ) (sweep : Sweep τ σ) :
    (sweep.prepend more).prepend front = sweep.prepend (front ++ more) := by
  simp [prepend]

/-- A pass that a visitor stopped counts as completed, after a last change of the state. -/
def absorbStop (note : σ → σ) (sweep : Sweep τ σ) : Sweep τ σ :=
  match sweep.halt with
  | some .stopped => { sweep with halt := none, state := note sweep.state }
  | _ => sweep

@[simp] theorem andThen_none (items : List τ) (state : σ) (second : List τ → σ → Sweep τ σ) :
    (Sweep.mk items none state).andThen second = second items state :=
  rfl

@[simp] theorem andThen_some (items : List τ) (why : Halt) (state : σ)
    (second : List τ → σ → Sweep τ σ) :
    (Sweep.mk items (some why) state).andThen second = ⟨items, some why, state⟩ :=
  rfl

@[simp] theorem absorbStop_none (items : List τ) (state : σ) (note : σ → σ) :
    (Sweep.mk items none state).absorbStop note = ⟨items, none, state⟩ :=
  rfl

@[simp] theorem absorbStop_stopped (items : List τ) (state : σ) (note : σ → σ) :
    (Sweep.mk items (some .stopped) state).absorbStop note = ⟨items, none, note state⟩ :=
  rfl

theorem absorbStop_of_ne {why : Halt} (h : why ≠ .stopped) (items : List τ) (state : σ)
    (note : σ → σ) :
    (Sweep.mk items (some why) state).absorbStop note = ⟨items, some why, state⟩ := by
  cases why with
  | stopped => exact absurd rfl h
  | _ => rfl

end Sweep

/-- What becomes of a node in the place where it stands. -/
inductive Fate (τ : Type) where
  | keep (node : τ)
  | remove
  | splice (nodes : List τ)
  /-- The walk is broken off with the node as it is. -/
  | halt (node : τ) (why : Halt)

end ForestWalk
