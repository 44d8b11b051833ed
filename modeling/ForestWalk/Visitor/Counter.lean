import ForestWalk.Visitor.Behaviour
/-!
A visitor that counts the nodes it leaves, by their tags. Each traversal begins to count anew, and
a node that is removed before it is left is not counted.
-/

namespace ForestWalk

/-- How often each tag was seen, in the order in which the tags were first seen. -/
structure Counter where
  counts : List (String × Nat) := []
deriving Repr, DecidableEq

namespace Counter

/-- Adds one to the number that goes with a tag. -/
def bump (tag : String) : List (String × Nat) → List (String × Nat)
  | [] => [(tag, 1)]
  | (other, n) :: rest =>
    if other = tag then (other, n + 1) :: rest else (other, n) :: bump tag rest

def see (tag : String) (counter : Counter) : Counter where
  counts := bump tag counter.counts

/-- How many nodes with the tag were seen. -/
def count (tag : String) (counter : Counter) : Nat :=
  (counter.counts.lookup tag).getD 0

/-- How many nodes were seen. -/
def total (counter : Counter) : Nat :=
  (counter.counts.map (·.2)).foldr (· + ·) 0

theorem count_see (tag seen : String) (counter : Counter) :
    (counter.see seen).count tag = counter.count tag + if seen = tag then 1 else 0 := by
  simp only [count, see]
  induction counter.counts with
  | nil =>
    by_cases h : tag = seen
    · simp [bump, h]
    · simp [bump, List.lookup_cons, Ne.symm h, beq_eq_false_iff_ne.2 h]
  | cons entry rest ih =>
    obtain ⟨other, n⟩ := entry
    by_cases h : other = seen
    · subst h
      by_cases ht : tag = other
      · simp [bump, ht]
      · simp [bump, List.lookup_cons, Ne.symm ht, beq_eq_false_iff_ne.2 ht]
    · by_cases ht : tag = other
      · subst ht
        simp [bump, h, Ne.symm h]
      · simp only [bump, h, if_false, List.lookup_cons, beq_eq_false_iff_ne.2 ht, ih]

theorem total_see (seen : String) (counter : Counter) :
    (counter.see seen).total = counter.total + 1 := by
  simp only [total, see]
  induction counter.counts with
  | nil => simp [bump]
  | cons entry rest ih =>
    obtain ⟨other, n⟩ := entry
    by_cases h : other = seen
    · simp only [bump, h, if_true, List.map_cons, List.foldr_cons]
      omega
    · simp only [bump, h, if_false, List.map_cons, List.foldr_cons, ih]
      omega

def behaviour {ρ α : Type} : Behaviour ρ α Counter where
  name := fun _ => "NodeCounter"
  node := fun hook counter node =>
    match hook with
    | .enter => .finish { state := counter, node := node }
    | .leave => .finish { state := counter.see node.tag, node := node }
  sequence := fun hook counter _ =>
    match hook with
    | .before => .finish { state := {} }
    | .after => .finish { state := counter }

end Counter

end ForestWalk
