import ForestWalk.Walk.Visit
import Mathlib.Tactic.Lemma
/-!
Walking a list in place. The loop changes the list that it goes through, and its index moves with
the changes. It amounts to one pass: every node is visited once, from left to right, and gives its
contribution to the result.
-/

namespace ForestWalk

namespace Fate

variable {τ : Type}

/-- The nodes that take the place of a visited node in its list. There are none to tell of when the
walk was broken off. -/
def contribution : Fate τ → Option (List τ)
  | .keep node => some [node]
  | .remove => some []
  | .splice nodes => some nodes
  | .halt _ _ => none

/-- The event that tells what became of the node at an index of a list. -/
def event (slot : String) (index : Nat) : Fate τ → Option Event
  | .remove => some (.removed slot index)
  | .splice nodes => some (.spliced slot index nodes.length)
  | .keep _ | .halt _ _ => none

theorem contribution_eq_none_iff {fate : Fate τ} :
    fate.contribution = none ↔ ∃ node why, fate = .halt node why := by
  cases fate <;> simp [contribution]

end Fate

namespace Walker

variable {ρ α σ : Type} (walker : Walker ρ α σ)

/-- One pass over a list, each node of which is replaced by its contribution. The number counts the
nodes that the pass has left behind. -/
def passFrom (visit : Tree ρ α → σ → Fate (Tree ρ α) × σ) (slot : String) :
    Nat → List (Tree ρ α) → σ → Sweep (Tree ρ α) σ
  | _, [], state => ⟨[], none, state⟩
  | emitted, node :: rest, state =>
    match visit node state with
    | (.halt node why, state) => ⟨node :: rest, some why, state⟩
    | (fate, state) =>
      let given := fate.contribution.getD []
      (passFrom visit slot (emitted + given.length) rest
        (walker.tell (fate.event slot emitted) state)).prepend given

variable (visit : Tree ρ α → σ → Fate (Tree ρ α) × σ) (slot : String)

variable {visit slot} in
lemma passFrom_cons {emitted : Nat} {node : Tree ρ α} {rest given : List (Tree ρ α)}
    {state after : σ} {fate : Fate (Tree ρ α)} (visited : visit node state = (fate, after))
    (part : fate.contribution = some given) :
    walker.passFrom visit slot emitted (node :: rest) state =
      (walker.passFrom visit slot (emitted + given.length) rest
        (walker.tell (fate.event slot emitted) after)).prepend given := by
  cases fate with
  | halt left why => simp [Fate.contribution] at part
  | _ => simp [passFrom, visited, part]

lemma spliceAt_append {τ : Type} (front rest new : List τ) (item : τ)
    (inRange : front.length < (front ++ item :: rest).toArray.size) :
    spliceAt (front ++ item :: rest).toArray front.length new inRange =
      (front ++ new ++ rest).toArray := by
  have hrest : List.take (front.length + (rest.length + 1) - (front.length + 1)) rest = rest := by
    rw [List.take_of_length_le]
    omega
  apply Array.toList_inj.1
  simp [spliceAt, hrest]

/-- Wherever the loop stands, what lies before its index is final and what lies from there on is
untouched. -/
theorem walkFrom_append (front ahead : List (Tree ρ α)) (state : σ) :
    walker.walkFrom visit slot front.length (front ++ ahead).toArray state =
      (walker.passFrom visit slot front.length ahead state).prepend front := by
  induction ahead generalizing front state with
  | nil =>
    rw [walkFrom]
    simp [passFrom, Sweep.prepend]
  | cons node rest ih =>
    have inRange : front.length < (front ++ node :: rest).toArray.size := by simp
    have hget : (front ++ node :: rest).toArray[front.length] = node := by simp
    rcases hv : visit node state with ⟨fate, after⟩
    rw [walkFrom, dif_pos inRange, hget, hv]
    cases fate with
    | keep left =>
      have hset : (front ++ node :: rest).toArray.set front.length left inRange =
          (front ++ [left] ++ rest).toArray := by simp
      have hi := ih (front ++ [left]) after
      rw [List.length_append, List.length_singleton] at hi
      rw [passFrom_cons walker hv rfl, Sweep.prepend_prepend]
      simp only [hset]
      exact hi
    | remove =>
      have herase : (front ++ node :: rest).toArray.eraseIdx front.length inRange =
          (front ++ rest).toArray := by simp [List.eraseIdx_append_of_length_le]
      rw [passFrom_cons walker hv rfl, Sweep.prepend_nil]
      simp only [herase]
      exact ih front (walker.emit (.removed slot front.length) after)
    | splice new =>
      have hi := ih (front ++ new) (walker.emit (.spliced slot front.length new.length) after)
      rw [List.length_append] at hi
      rw [passFrom_cons walker hv rfl, Sweep.prepend_prepend]
      simp only [spliceAt_append]
      exact hi
    | halt left why => simp [passFrom, hv, Sweep.prepend]

theorem walkList_eq_passFrom (nodes : List (Tree ρ α)) (state : σ) :
    walker.walkList visit slot nodes state = walker.passFrom visit slot 0 nodes state := by
  rw [walkList]
  simpa using walker.walkFrom_append visit slot [] nodes state

/-- The nodes of a list are visited, each once and in order, and none of the visits breaks the walk
off. Every visit begins in the state that was left by what came before, and gives a part of the
result. The event that tells of it bears the number of nodes in the parts before. -/
inductive Handed : Nat → List (Tree ρ α) → σ → List (List (Tree ρ α)) → σ → Prop
  | nil (emitted : Nat) (state : σ) : Handed emitted [] state [] state
  | cons {emitted : Nat} {node : Tree ρ α} {rest : List (Tree ρ α)} {state after final : σ}
      {fate : Fate (Tree ρ α)} {given : List (Tree ρ α)} {parts : List (List (Tree ρ α))}
      (visited : visit node state = (fate, after)) (part : fate.contribution = some given)
      (others : Handed (emitted + given.length) rest (walker.tell (fate.event slot emitted) after)
        parts final) :
      Handed emitted (node :: rest) state (given :: parts) final

variable {visit slot}

lemma passFrom_append {emitted : Nat} {front ahead : List (Tree ρ α)} {state mid : σ}
    {parts : List (List (Tree ρ α))} (h : walker.Handed visit slot emitted front state parts mid) :
    walker.passFrom visit slot emitted (front ++ ahead) state =
      (walker.passFrom visit slot (emitted + parts.flatten.length) ahead mid).prepend
        parts.flatten := by
  induction h with
  | nil emitted state => simp
  | cons visited part others ih =>
    rw [List.cons_append, passFrom_cons walker visited part, ih]
    simp [Nat.add_assoc]

/-- A pass either visits all nodes or is broken off at one of them. -/
theorem passFrom_hands_over (emitted : Nat) (nodes : List (Tree ρ α)) (state : σ) :
    (∃ parts final, walker.Handed visit slot emitted nodes state parts final ∧
      walker.passFrom visit slot emitted nodes state = ⟨parts.flatten, none, final⟩) ∨
    ∃ front node rest parts before left why final, nodes = front ++ node :: rest ∧
      walker.Handed visit slot emitted front state parts before ∧
      visit node before = (.halt left why, final) ∧
      walker.passFrom visit slot emitted nodes state =
        ⟨parts.flatten ++ left :: rest, some why, final⟩ := by
  induction nodes generalizing emitted state with
  | nil => exact .inl ⟨[], state, .nil emitted state, rfl⟩
  | cons node rest ih =>
    rcases hv : visit node state with ⟨fate, after⟩
    rcases hf : fate.contribution with _ | given
    · obtain ⟨left, why, rfl⟩ := Fate.contribution_eq_none_iff.1 hf
      refine .inr ⟨[], node, rest, [], state, left, why, after, rfl, .nil emitted state, hv, ?_⟩
      simp [passFrom, hv]
    · rw [passFrom_cons walker hv hf]
      rcases ih (emitted + given.length) (walker.tell (fate.event slot emitted) after) with
        ⟨parts, final, hd, hp⟩ |
        ⟨front, node', rest', parts, before, left, why, final, hn, hd, hv', hp⟩
      · exact .inl ⟨given :: parts, final, .cons hv hf hd, by simp [hp, Sweep.prepend]⟩
      · refine .inr ⟨node :: front, node', rest', given :: parts, before, left, why, final,
          by simp [hn], .cons hv hf hd, hv', ?_⟩
        simp [hp, Sweep.prepend]

/-- The walk of a list at any depth and in any place, and of the top-level sequence, comes to the
same as one pass. Once the nodes of `front` have been handed over, the loop stands right behind the
parts that they gave, and what lies ahead is untouched; so its index is in range as long as there
are nodes ahead. The walk ends with the parts of all nodes, or it is broken off at a node and leaves
it as the hooks did. -/
theorem walkList_hands_over [Admission ρ α] (room depth : Nat) (place : Place ρ)
    (nodes : List (Tree ρ α)) (state : σ) :
    let visit := walker.visit room depth place
    let slot := place.rule.name
    let sweep := walker.walkList visit slot nodes state
    sweep = walker.passFrom visit slot 0 nodes state ∧
    (∀ front ahead parts mid, nodes = front ++ ahead →
      walker.Handed visit slot 0 front state parts mid →
      sweep =
        walker.walkFrom visit slot parts.flatten.length (parts.flatten ++ ahead).toArray mid) ∧
    ((∃ parts final, walker.Handed visit slot 0 nodes state parts final ∧
        sweep = ⟨parts.flatten, none, final⟩) ∨
      ∃ front node rest parts before left why final, nodes = front ++ node :: rest ∧
        walker.Handed visit slot 0 front state parts before ∧
        visit node before = (.halt left why, final) ∧
        sweep = ⟨parts.flatten ++ left :: rest, some why, final⟩) := by
  intro visit slot sweep
  have hsweep : sweep = walker.passFrom visit slot 0 nodes state :=
    walker.walkList_eq_passFrom visit slot nodes state
  refine ⟨hsweep, ?_, ?_⟩
  · rintro front ahead parts mid rfl hd
    rw [hsweep, walkFrom_append, walker.passFrom_append hd, Nat.zero_add]
  · rw [hsweep]
    exact walker.passFrom_hands_over 0 nodes state

end Walker

end ForestWalk
