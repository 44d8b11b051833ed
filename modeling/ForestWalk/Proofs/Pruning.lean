import ForestWalk.Proofs.Sifting
import ForestWalk.Proofs.Tours
import Mathlib.Data.List.Basic
/-!
Visitors that have nodes with certain tags and labels removed. It makes no difference to the forest
whether they ask for it when a node is entered, so that what is below it is not walked, or when it
is left, after all below it was pruned for nothing.
-/

namespace ForestWalk

variable {ρ α V : Type}

section Pruned

variable {p : String → Option String → Bool}

/-- The tree without the nodes that have certain tags and labels, and without all that is below
them; nothing if its root is such a node. -/
def Tree.pruned (p : String → Option String → Bool) : Tree ρ α → Option (Tree ρ α) :=
  fold fun tag label slots =>
    if p tag label then none
    else some { tag := tag, label := label, slots := slots.map Slot.sifted }

theorem Tree.pruned_eq (p : String → Option String → Bool) (node : Tree ρ α) :
    node.pruned p = if p node.tag node.label then none else some (node.sifted (pruned p)) := by
  rw [pruned, fold_eq, List.map_map]
  rfl

/-- The node that is left, out of what is shown on a tour. -/
def Showing.left? : Showing ρ α → Option (Tree ρ α)
  | .node .leave shown => some shown
  | .node .enter _ | .sequence .. => none

/-- The node that a visitor is shown when it is left. -/
def Act.left? (act : Act ρ α) : Option (Tree ρ α) :=
  act.showing?.bind fun (_, showing) => showing.left?

/-- The nodes of a tree in the order in which they are left on its tour. -/
def Tree.departures (node : Tree ρ α) : List (Tree ρ α) :=
  node.tour.filterMap Showing.left?

/-- A node is left after those below it. -/
theorem Tree.departures_eq (node : Tree ρ α) :
    node.departures = node.children.flatMap departures ++ [node] := by
  rw [departures, tour_eq, List.filterMap_append, List.filterMap_cons_none (by rfl),
    List.filterMap_flatMap]
  rfl

/-- The nodes that stay in a forest are those that stay in its trees. -/
lemma Tree.departures_pruned (p : String → Option String → Bool) (nodes : List (Tree ρ α)) :
    (nodes.filterMap (pruned p)).flatMap departures =
      nodes.flatMap fun node => (node.pruned p).toList.flatMap departures := by
  rw [List.filterMap_eq_flatMap_toList, List.flatMap_assoc]

end Pruned

section Runs

variable {p : String → Option String → Bool} {time : NodeHook}

/-- What a visitor answers that has nodes removed in one of the hooks. -/
def Directive.removal (time : NodeHook) (p : String → Option String → Bool) (hook : NodeHook)
    (node : Tree ρ α) : Directive (Tree ρ α) :=
  if hook = time ∧ p node.tag node.label then .remove else .keep

/-- The visitor that the act calls keeps what it is shown, but that it has certain nodes removed in
one of the hooks. -/
def Act.Removes (time : NodeHook) (p : String → Option String → Bool) : Act ρ α → Prop
  | .node _ _ hook shown reply => reply = .answered shown (.removal time p hook shown)
  | act => act.Keeps

variable [Admission ρ α] {options : Options}

omit [Admission ρ α] in
/-- No node is left while the sequence is shown. -/
lemma ShowRun.filterMap_left? {hook : SequenceHook} {count index : Nat}
    {nodes items : List (Tree ρ α)} {acts : List (Act ρ α)} {halt : Option Halt}
    (hrun : ShowRun count hook index nodes acts items halt) : acts.filterMap Act.left? = [] := by
  have htelling : ∀ event, (Act.telling event : List (Act ρ α)).filterMap Act.left? = [] :=
    filterMap_telling fun _ => rfl
  induction hrun with
  | done => rfl
  | pass inRange judged others ih =>
    rw [List.filterMap_cons_none rfl, List.filterMap_append, htelling, ih, List.append_nil]
  | halt inRange judged => rw [List.filterMap_cons_none rfl, htelling]

/-- A single visitor that has nodes removed is asked about a node. -/
lemma ConsultRun.of_removes {hook : NodeHook} {place : Place ρ} {node : Tree ρ α}
    {acts : List (Act ρ α)} {verdict : Verdict (Tree ρ α)}
    (hrun : ConsultRun options 1 hook place 0 node acts verdict)
    (hacts : ∀ act ∈ acts, act.Removes time p) :
    verdict = (if hook = time ∧ p node.tag node.label then .remove else .proceed node) ∧
      acts.filterMap Act.left? = (Showing.node hook node).left?.toList := by
  have hjudge : ∀ place site, options.judge hook place site node
      (.answered node (.removal time p hook node)) =
        (if hook = time ∧ p node.tag node.label then .remove else .proceed node, none) := by
    intro place site
    rw [Directive.removal]
    split <;> simp
  cases hrun with
  | @pass _ name _ next reply event acts _ inRange judged others =>
    obtain rfl : reply = _ := hacts _ List.mem_cons_self
    rw [hjudge] at judged
    obtain ⟨hnext, rfl⟩ := Prod.mk.inj judged
    cases others with
    | done => 
      refine ⟨hnext.symm, ?_⟩
      cases hook <;> rfl
    | pass inRange | settle inRange => exact absurd inRange (Nat.lt_irrefl 1)
  | @settle _ name _ reply event _ inRange judged settled =>
    obtain rfl : reply = _ := hacts _ List.mem_cons_self
    rw [hjudge] at judged
    obtain ⟨hverdict, rfl⟩ := Prod.mk.inj judged
    refine ⟨hverdict.symm, ?_⟩
    cases hook <;> rfl

/-- Nodes that are removed when they are entered are missing from the forest, and the visitor is
asked on leaving about those that stay. -/
lemma sieve_of_removes_enter :
    Sieve options 1 (Act.Removes .enter p : Act ρ α → Prop) (Tree.pruned p) Act.left?
      fun node => (node.pruned p).toList.flatMap Tree.departures where
  event := fun _ => rfl
  sequence := id
  enter := by
    intro place node acts verdict entered hacts
    obtain ⟨hverdict, hleft⟩ := entered.of_removes hacts
    rw [Tree.pruned_eq]
    by_cases hp : p node.tag node.label
    · rw [if_pos ⟨rfl, hp⟩] at hverdict
      exact .inr ⟨hverdict, if_pos hp, by rw [hleft, if_pos hp]; rfl⟩
    · rw [if_neg fun hcond => hp hcond.2] at hverdict
      exact .inl hverdict
  leave := by
    intro place node first last verdict entered hfirst left hlast
    obtain ⟨hmid, hentered⟩ := entered.of_removes hfirst
    obtain ⟨hverdict, hleft⟩ := left.of_removes hlast
    have hp : ¬p node.tag node.label := fun hp => by simp [hp] at hmid
    rw [if_neg fun hcond => by cases hcond.1] at hverdict
    rw [Tree.pruned_eq, if_neg hp, hverdict]
    refine ⟨rfl, ?_⟩
    rw [hentered, hleft, Option.toList_some, List.flatMap_singleton, Tree.departures_eq,
      Tree.children_sifted, Tree.departures_pruned]
    rfl

/-- Nodes that are removed when they are left are missing from the forest too. -/
lemma sieve_of_removes_leave :
    Sieve options 1 (Act.Removes .leave p : Act ρ α → Prop) (Tree.pruned p)
      (fun _ => (none : Option Unit)) fun _ => [] where
  event := fun _ => rfl
  sequence := id
  enter := by
    intro place node acts verdict entered hacts
    obtain ⟨hverdict, -⟩ := entered.of_removes hacts
    rw [if_neg fun hcond => by cases hcond.1] at hverdict
    exact .inl hverdict
  leave := by
    intro place node first last verdict entered hfirst left hlast
    obtain ⟨hverdict, -⟩ := left.of_removes hlast
    refine ⟨?_, by simp⟩
    rw [hverdict, Tree.pruned_eq]
    -- What is below a node plays no part in whether it is removed.
    have hsame : p (node.sifted (Tree.pruned p)).tag (node.sifted (Tree.pruned p)).label =
        p node.tag node.label := rfl
    by_cases hp : p node.tag node.label
    · rw [if_pos ⟨rfl, hsame ▸ hp⟩, if_pos hp]
      rfl
    · rw [if_neg fun hcond => hp hcond.2, if_neg hp]
      rfl

end Runs

/-- In the states in which it is and stays, a visitor keeps what it is shown, but that it has
certain nodes removed in one of the hooks. -/
structure Behaviour.Removes (behaviour : Behaviour ρ α V) (time : NodeHook)
    (p : String → Option String → Bool) (steady : V → Prop) : Prop where
  node : ∀ hook {state}, steady state → ∀ node, ∃ left, steady left ∧
    behaviour.node hook state node =
      .finish { state := left, node := node, answer := .ok (.removal time p hook node) }
  sequence : ∀ hook {state}, steady state → ∀ nodes, ∃ left, steady left ∧
    behaviour.sequence hook state nodes = .finish { state := left }

/-- A visitor is free, and in one of certain states. -/
def Roster.Steady (steady : V → Prop) (visitor : Nat) (roster : Roster ρ α V) : Prop :=
  ∃ state, steady state ∧ roster.cells[visitor]? = some { state := state }

section Visitors

variable {behaviour : Behaviour ρ α V} {nested : Traversal ρ α V} {time : NodeHook}
  {p : String → Option String → Bool} {steady : V → Prop} {visitor : Nat} {options : Options}
  {roster final : Roster ρ α V}

lemma Behaviour.Removes.does (h : behaviour.Removes time p steady) {act : Act ρ α}
    (hsteady : roster.Steady steady visitor)
    (hdoes : (Traverser.walker behaviour nested { visitors := [visitor], options := options }).Does
      act roster final) :
    act.Removes time p ∧ final.Steady steady visitor := by
  obtain ⟨state, hstate, free⟩ := hsteady
  cases act with
  | event event =>
    obtain rfl : roster.note (.event event) = final := hdoes
    exact ⟨trivial, state, hstate, free⟩
  | node index called hook shown reply =>
    obtain ⟨number, hnumber, hcalled, rfl⟩ := Traverser.does_node_iff.1 hdoes
    obtain rfl : number = visitor := List.mem_singleton.1 (List.mem_of_getElem? hnumber)
    obtain ⟨left, hleft, hfinish⟩ := h.node hook hstate shown
    obtain ⟨rfl, hcells⟩ := Roster.callNode_finished free hfinish hcalled
    exact ⟨rfl, left, hleft, Roster.getElem?_of_called free hcells⟩
  | sequence index called hook shown reply =>
    obtain ⟨number, hnumber, hcalled, rfl⟩ := Traverser.does_sequence_iff.1 hdoes
    obtain rfl : number = visitor := List.mem_singleton.1 (List.mem_of_getElem? hnumber)
    obtain ⟨left, hleft, hfinish⟩ := h.sequence hook hstate shown
    obtain ⟨rfl, hcells⟩ := Roster.callSequence_finished free hfinish hcalled
    exact ⟨rfl, left, hleft, Roster.getElem?_of_called free hcells⟩

lemma Behaviour.Removes.acts [Admission ρ α] (h : behaviour.Removes time p steady)
    (hsteady : roster.Steady steady visitor) (stack : Nat) (nodes : List (Tree ρ α)) :
    ∀ act ∈ (Traverser.walker behaviour nested { visitors := [visitor], options := options }).acts
      stack nodes roster, act.Removes time p := by
  obtain ⟨-, -, hdoes⟩ := (Traverser.walker behaviour nested
    { visitors := [visitor], options := options }).recorded_traverse stack nodes roster
  exact (hdoes.invariant h.does hsteady).1

end Visitors

namespace Traverser

variable [Admission ρ α]

/-- A visitor that has certain nodes removed may do so when they are entered or when they are left.
Either way the traversal succeeds with the forest without these nodes and all below them. In the
first case the visitor is asked on leaving about just those nodes that stay in the forest, each once
and after those below it. -/
theorem traverse_pruned {behaviour : Behaviour ρ α V} {p : String → Option String → Bool}
    {prompt late : V → Prop} (prompts : behaviour.Removes .enter p prompt)
    (waits : behaviour.Removes .leave p late) {first second : Nat} {roster : Roster ρ α V}
    (hfirst : roster.Steady prompt first) (hsecond : roster.Steady late second)
    {options : Options} (unlimited : options.maxDepth = none) {stack : Nat}
    {nodes : List (Tree ρ α)} (shallow : ∀ node ∈ nodes, node.depth < stack) :
    let early : Traverser := { visitors := [first], options := options }
    let forest := nodes.filterMap (Tree.pruned p)
    (traverse behaviour stack early nodes roster).1 = some (.ok forest) ∧
      (traverse behaviour stack { visitors := [second], options := options } nodes roster).1 =
        some (.ok forest) ∧
      ((early.walker behaviour (nest behaviour stack roster.cells.length)).acts stack nodes
        roster).filterMap Act.left? = forest.flatMap Tree.departures := by
  intro early forest
  let nested := nest behaviour stack roster.cells.length
  obtain ⟨hearly, _, _, shown, shownAgain, -, hleft⟩ :=
    (early.walker behaviour nested).traverse_sifts sieve_of_removes_enter unlimited shallow
      (prompts.acts hfirst stack nodes)
  obtain ⟨hlate, -⟩ :=
    (Traverser.walker behaviour nested { visitors := [second], options := options }).traverse_sifts
      sieve_of_removes_leave unlimited shallow (waits.acts hsecond stack nodes)
  refine ⟨hearly, hlate, ?_⟩
  rw [hleft, shown.filterMap_left?, shownAgain.filterMap_left?, List.nil_append, List.append_nil,
    Tree.departures_pruned]

/-- Echoes, and what has the label `debug`. -/
def chatty (tag : String) (label : Option String) : Bool :=
  tag == "Stmt_Echo" || label == some "debug"

/-- Has all that is chatty removed in the hook that is its state. -/
def hushing : Behaviour Shape Unit NodeHook where
  name := fun _ => "hushing"
  node := fun hook time node =>
    .finish { state := time, node := node, answer := .ok (.removal time chatty hook node) }

lemma hushing_removes (time : NodeHook) : hushing.Removes time chatty (· = time) where
  node := by
    rintro hook _ rfl node
    exact ⟨_, rfl, rfl⟩
  sequence := by
    rintro hook _ rfl nodes
    exact ⟨_, rfl, rfl⟩

/-- Nodes to be removed one after the other, one below another, and in a single slot. -/
theorem hushing_pruned :
    let roster : Roster Shape Unit NodeHook := .ofList [.enter, .leave]
    let echo : Tree Shape Unit := { tag := "Stmt_Echo" }
    let loop (label : String) (cond : Option (Tree Shape Unit)) (stmts : List (Tree Shape Unit)) :
        Tree Shape Unit :=
      { tag := "Stmt_While", label := some label
        slots := [⟨{ name := "cond" }, .single cond⟩, ⟨{ name := "stmts" }, .list stmts⟩] }
    let nodes :=
      [echo, echo, loop "a" (some echo) [loop "debug" none [echo], loop "b" none [], echo]]
    let early : Traverser := { visitors := [0] }
    let forest := [loop "a" none [loop "b" none []]]
    (traverse hushing 3 early nodes roster).1 = some (.ok forest) ∧
      (traverse hushing 3 { visitors := [1] } nodes roster).1 = some (.ok forest) ∧
      ((early.walker hushing (nest hushing 3 2)).acts 3 nodes roster).filterMap Act.left? =
        [loop "b" none [], loop "a" none [loop "b" none []]] := by
  intro roster echo loop nodes early forest
  have hfirst : roster.Steady (· = .enter) 0 := ⟨.enter, rfl, rfl⟩
  have hsecond : roster.Steady (· = .leave) 1 := ⟨.leave, rfl, rfl⟩
  have shallow : ∀ node ∈ nodes, node.depth < 3 := by decide
  exact traverse_pruned (hushing_removes .enter) (hushing_removes .leave) hfirst hsecond rfl shallow

end Traverser

end ForestWalk
