import ForestWalk.Proofs.Observers
import ForestWalk.Proofs.Sifting
import ForestWalk.Proofs.Tours
/-!
Visitors that only read. The traversal goes on a tour of the forest, and at each stop all visitors
are called in order. The forest stays as it is, and those who write down or count what they are
shown end up with the whole tour.
-/

namespace ForestWalk

variable {ρ α V W : Type}

section Runs

variable {options : Options} {count : Nat} {acts : List (Act ρ α)}

lemma ConsultRun.tours [Admission ρ α] {hook : NodeHook} {place : Place ρ} {node : Tree ρ α}
    {verdict : Verdict (Tree ρ α)} (hrun : ConsultRun options count hook place 0 node acts verdict)
    (keeps : ∀ act ∈ acts, act.Keeps) :
    verdict = .proceed node ∧
      acts.filterMap Act.showing? = Showing.round count (.node hook node) := by
  obtain ⟨hverdict, hcalls⟩ := hrun.of_keeps fun _ _ _ _ hmem => keeps _ hmem
  rw [Nat.sub_zero, ← List.range_eq_range'] at hcalls
  exact ⟨hverdict, hcalls⟩

lemma ShowRun.tours {hook : SequenceHook} {nodes items : List (Tree ρ α)} {halt : Option Halt}
    (hrun : ShowRun count hook 0 nodes acts items halt) (keeps : ∀ act ∈ acts, act.Keeps) :
    acts.filterMap Act.showing? = Showing.round count (.sequence hook nodes) := by
  obtain ⟨-, -, hcalls⟩ := hrun.of_keeps fun _ _ _ _ hmem => keeps _ hmem
  rw [Nat.sub_zero, ← List.range_eq_range'] at hcalls
  exact hcalls

/-- A node is visited with a round of calls at each stop of its tour, and stays as it is. -/
lemma sieve_of_keeps [Admission ρ α] (options : Options) (count : Nat) :
    Sieve options count (Act.Keeps : Act ρ α → Prop) some Act.showing?
      fun node => node.tour.flatMap (Showing.round count) where
  event := fun _ => rfl
  sequence := id
  enter := fun entered keeps => .inl (entered.tours keeps).1
  leave := by
    intro place node first last verdict entered hfirst left hlast
    rw [Tree.sifted_some] at left
    obtain ⟨-, hentered⟩ := entered.tours hfirst
    obtain ⟨rfl, hleft⟩ := left.tours hlast
    refine ⟨rfl, ?_⟩
    rw [hentered, hleft, Tree.tour_eq, List.flatMap_append, List.flatMap_cons, List.flatMap_assoc,
      List.flatMap_singleton]

/-- A traversal in which nobody asks for anything leaves the forest as it is, and all visitors are
called in order at each stop of its tour. -/
theorem TraversalRun.tours [Admission ρ α] {room : Nat} {nodes items : List (Tree ρ α)}
    {halt : Option Halt} (hrun : TraversalRun options count room nodes acts items halt)
    (keeps : ∀ act ∈ acts, act.Keeps) (hallows : ∀ node ∈ nodes, options.Allows room 0 node) :
    items = nodes ∧ halt = none ∧
      acts.filterMap Act.showing? =
        (Showing.ofTraversal nodes).flatMap (Showing.round count) := by
  obtain ⟨hitems, hhalt, first, last, shown, shownAgain, hends, hcalls⟩ :=
    hrun.sifts (sieve_of_keeps options count) keeps hallows
  obtain ⟨hfirst, hlast⟩ := List.forall_mem_append.1 hends
  rw [List.filterMap_some] at hitems
  refine ⟨hitems, hhalt, ?_⟩
  rw [hcalls, shown.tours hfirst, shownAgain.tours hlast, hitems, Showing.ofTraversal,
    List.flatMap_append, List.flatMap_cons, List.flatMap_assoc, List.flatMap_singleton]

end Runs

section Visitors

variable {behaviour : Behaviour ρ α V} {nested : Traversal ρ α V} {traverser : Traverser}
  {calm : Roster ρ α V → Prop} {roster final : Roster ρ α V}

/-- The visitors of a traverser only read: on a roster that is calm each of them can be called,
keeps what it is shown, and leaves the roster calm. -/
structure Traverser.Reads (behaviour : Behaviour ρ α V) (nested : Traversal ρ α V)
    (traverser : Traverser) (calm : Roster ρ α V → Prop) : Prop where
  note : ∀ {roster : Roster ρ α V} (event : Event), calm roster →
    calm (roster.note (.event event))
  node : ∀ {roster : Roster ρ α V} {visitor : Nat}, calm roster → visitor ∈ traverser.visitors →
    ∀ hook node, ∃ final, calm final ∧
      roster.callNode behaviour nested visitor hook node = (.answered node .keep, final)
  sequence : ∀ {roster : Roster ρ α V} {visitor : Nat}, calm roster →
    visitor ∈ traverser.visitors → ∀ hook nodes, ∃ final, calm final ∧
      roster.callSequence behaviour nested visitor hook nodes = (.answered none, final)

/-- The visitors of a traverser leave one visitor alone: it does not change while another is
called. -/
structure Traverser.LeavesAlone (behaviour : Behaviour ρ α V) (nested : Traversal ρ α V)
    (traverser : Traverser) (calm : Roster ρ α V → Prop) (number : Nat) : Prop where
  node : ∀ {roster : Roster ρ α V} {visitor : Nat}, calm roster → visitor ∈ traverser.visitors →
    visitor ≠ number → ∀ hook node,
      (roster.callNode behaviour nested visitor hook node).2.cells[number]? =
        roster.cells[number]?
  sequence : ∀ {roster : Roster ρ α V} {visitor : Nat}, calm roster →
    visitor ∈ traverser.visitors → visitor ≠ number → ∀ hook nodes,
      (roster.callSequence behaviour nested visitor hook nodes).2.cells[number]? =
        roster.cells[number]?

/-- No visitor of a traverser is lent. -/
def Traverser.AllFree (traverser : Traverser) (roster : Roster ρ α V) : Prop :=
  ∀ visitor ∈ traverser.visitors, roster.lease visitor = some .free

section LooksOn

variable {visitor : Nat}

lemma Traverser.AllFree.exists_state (free : traverser.AllFree roster)
    (hmem : visitor ∈ traverser.visitors) :
    ∃ state, roster.cells[visitor]? = some { state := state } := by
  obtain ⟨⟨state, lease⟩, hcell, rfl⟩ := Roster.lease_eq_some_iff.1 (free visitor hmem)
  exact ⟨state, hcell⟩

lemma Traverser.AllFree.called {seen : V} (free : traverser.AllFree roster)
    (hcells : final.cells = roster.cells.set visitor { state := seen }) :
    traverser.AllFree final := by
  intro other hmem
  have hother := free other hmem
  rw [Roster.lease, hcells, List.getElem?_set]
  split
  · rename_i heq
    subst heq
    rw [if_pos (Roster.lt_of_lease_eq_some hother)]
    rfl
  · exact hother

/-- Visitors that only look on read, as long as none of them is lent. -/
lemma Behaviour.LooksOn.reads (h : behaviour.LooksOn) (nested : Traversal ρ α V)
    (traverser : Traverser) : traverser.Reads behaviour nested traverser.AllFree where
  note := fun _ free => free
  node := by
    intro roster visitor free hmem hook node
    obtain ⟨state, hcell⟩ := free.exists_state hmem
    obtain ⟨seen, hseen⟩ := h.node hook state node
    obtain ⟨final, hcall, hcells⟩ := Roster.callNode_of_finish nested hcell hseen
    exact ⟨final, free.called hcells, hcall⟩
  sequence := by
    intro roster visitor free hmem hook nodes
    obtain ⟨state, hcell⟩ := free.exists_state hmem
    obtain ⟨seen, hseen⟩ := h.sequence hook state nodes
    obtain ⟨final, hcall, hcells⟩ := Roster.callSequence_of_finish nested hcell hseen
    exact ⟨final, free.called hcells, hcall⟩

/-- Visitors that only look on leave each other alone. -/
lemma Behaviour.LooksOn.leavesAlone (h : behaviour.LooksOn) (nested : Traversal ρ α V)
    (traverser : Traverser) (number : Nat) :
    traverser.LeavesAlone behaviour nested traverser.AllFree number where
  node := by
    intro roster visitor free hmem hne hook node
    obtain ⟨state, hcell⟩ := free.exists_state hmem
    obtain ⟨seen, hseen⟩ := h.node hook state node
    obtain ⟨final, hcall, hcells⟩ := Roster.callNode_of_finish nested hcell hseen
    rw [hcall, hcells, List.getElem?_set_ne hne]
  sequence := by
    intro roster visitor free hmem hne hook nodes
    obtain ⟨state, hcell⟩ := free.exists_state hmem
    obtain ⟨seen, hseen⟩ := h.sequence hook state nodes
    obtain ⟨final, hcall, hcells⟩ := Roster.callSequence_of_finish nested hcell hseen
    rw [hcall, hcells, List.getElem?_set_ne hne]

end LooksOn

/-- Visitors of one type, standing among others, finish at once, and what they are shown changes
their states in a known way. -/
structure Behaviour.Watches (behaviour : Behaviour ρ α V) (embed : W → V)
    (watch : W → Showing ρ α → W) : Prop where
  node : ∀ hook state node, behaviour.node hook (embed state) node =
    .finish { state := embed (watch state (.node hook node)), node := node }
  sequence : ∀ hook state nodes, behaviour.sequence hook (embed state) nodes =
    .finish { state := embed (watch state (.sequence hook nodes)) }

lemma Recorder.watches (behaviour : Behaviour ρ α V) :
    (behaviour.sum Observer.behaviour).Watches (fun recorder => .inr (.inr (.inl recorder)))
      Recorder.watch :=
  ⟨fun _ _ _ => rfl, fun hook _ _ => by cases hook <;> rfl⟩

lemma Counter.watches (behaviour : Behaviour ρ α V) :
    (behaviour.sum Observer.behaviour).Watches (fun counter => .inr (.inr (.inr counter)))
      Counter.watch :=
  ⟨fun hook _ _ => by cases hook <;> rfl, fun hook _ _ => by cases hook <;> rfl⟩

/-- The place of a visitor that stands on a list once. -/
lemma exists_place_of_count_eq_one {visitors : List Nat} {number : Nat}
    (once : visitors.count number = 1) :
    ∃ place : Nat, visitors[place]? = some number ∧
      ∀ other : Nat, visitors[other]? = some number → other = place := by
  have hmem : number ∈ visitors := List.count_pos_iff.1 (by omega)
  obtain ⟨front, back, rfl, hfront⟩ := List.eq_append_cons_of_mem hmem
  have hback : number ∉ back := by
    rw [List.count_append, List.count_cons_self] at once
    exact List.count_eq_zero.1 (by omega)
  refine ⟨front.length, by simp, fun other hother => ?_⟩
  rcases Nat.lt_trichotomy other front.length with hlt | heq | hgt
  · rw [List.getElem?_append_left hlt] at hother
    exact absurd (List.mem_of_getElem? hother) hfront
  · exact heq
  · rw [List.getElem?_append_right (by omega), List.getElem?_cons, if_neg (by omega)] at hother
    exact absurd (List.mem_of_getElem? hother) hback

namespace Traverser.Reads

variable {act : Act ρ α} {acts : List (Act ρ α)}

lemma does (h : traverser.Reads behaviour nested calm) (hcalm : calm roster)
    (hdoes : (traverser.walker behaviour nested).Does act roster final) :
    act.Keeps ∧ calm final := by
  cases act with
  | event event =>
    obtain rfl : roster.note (.event event) = final := hdoes
    exact ⟨trivial, h.note event hcalm⟩
  | node index name hook shown reply =>
    obtain ⟨visitor, hvisitor, hcalled, -⟩ := does_node_iff.1 hdoes
    obtain ⟨_, hfinal, hcall⟩ := h.node hcalm (List.mem_of_getElem? hvisitor) hook shown
    cases hcall.symm.trans hcalled
    exact ⟨rfl, hfinal⟩
  | sequence index name hook shown reply =>
    obtain ⟨visitor, hvisitor, hcalled, -⟩ := does_sequence_iff.1 hdoes
    obtain ⟨_, hfinal, hcall⟩ := h.sequence hcalm (List.mem_of_getElem? hvisitor) hook shown
    cases hcall.symm.trans hcalled
    exact ⟨rfl, hfinal⟩

lemma doesAll (h : traverser.Reads behaviour nested calm) (hcalm : calm roster)
    (hdoes : (traverser.walker behaviour nested).DoesAll acts roster final) :
    ∀ act ∈ acts, act.Keeps :=
  (hdoes.invariant h.does hcalm).1

end Traverser.Reads

section Watched

variable {act : Act ρ α} {acts : List (Act ρ α)} {embed : W → V} {watch : W → Showing ρ α → W}
  {place number : Nat} {state : W}

/-- What a visitor is shown in a call changes it accordingly, and a call of another visitor does not
change it. -/
lemma Traverser.LeavesAlone.does (alone : traverser.LeavesAlone behaviour nested calm number)
    (watches : behaviour.Watches embed watch) (listed : traverser.visitors[place]? = some number)
    (once : ∀ other : Nat, traverser.visitors[other]? = some number → other = place)
    (hcalm : calm roster) (free : roster.cells[number]? = some { state := embed state })
    (hdoes : (traverser.walker behaviour nested).Does act roster final) :
    let seen := Showing.shownAt place act.showing?.toList
    final.cells[number]? = some { state := embed (seen.foldl watch state) } := by
  cases act with
  | event event =>
    obtain rfl : roster.note (.event event) = final := hdoes
    exact free
  | node index name hook shown reply =>
    obtain ⟨visitor, hvisitor, hcalled, -⟩ := does_node_iff.1 hdoes
    by_cases heq : index = place
    · subst heq
      obtain rfl := Option.some.inj (hvisitor.symm.trans listed)
      obtain ⟨rfl, hcells⟩ := Roster.callNode_finished free (watches.node hook state shown) hcalled
      simpa [Act.showing?, Showing.shownAt] using Roster.getElem?_of_called free hcells
    · have hne : visitor ≠ number := fun hv => heq (once index (hv ▸ hvisitor))
      have hkept := alone.node hcalm (List.mem_of_getElem? hvisitor) hne hook shown
      rw [hcalled] at hkept
      simpa [Act.showing?, Showing.shownAt, heq] using hkept.trans free
  | sequence index name hook shown reply =>
    obtain ⟨visitor, hvisitor, hcalled, -⟩ := does_sequence_iff.1 hdoes
    by_cases heq : index = place
    · subst heq
      obtain rfl := Option.some.inj (hvisitor.symm.trans listed)
      obtain ⟨rfl, hcells⟩ :=
        Roster.callSequence_finished free (watches.sequence hook state shown) hcalled
      simpa [Act.showing?, Showing.shownAt] using Roster.getElem?_of_called free hcells
    · have hne : visitor ≠ number := fun hv => heq (once index (hv ▸ hvisitor))
      have hkept := alone.sequence hcalm (List.mem_of_getElem? hvisitor) hne hook shown
      rw [hcalled] at hkept
      simpa [Act.showing?, Showing.shownAt, heq] using hkept.trans free

/-- What a visitor is shown changes it accordingly, as long as the roster remains calm. -/
lemma Traverser.LeavesAlone.watched (alone : traverser.LeavesAlone behaviour nested calm number)
    (kept : ∀ {roster final : Roster ρ α V} {act : Act ρ α}, calm roster →
      (traverser.walker behaviour nested).Does act roster final → calm final)
    (watches : behaviour.Watches embed watch) (listed : traverser.visitors[place]? = some number)
    (once : ∀ other : Nat, traverser.visitors[other]? = some number → other = place)
    (hcalm : calm roster) (free : roster.cells[number]? = some { state := embed state })
    (hdoes : (traverser.walker behaviour nested).DoesAll acts roster final) :
    let seen := Showing.shownAt place (acts.filterMap Act.showing?)
    final.cells[number]? = some { state := embed (seen.foldl watch state) } := by
  induction acts generalizing roster state with
  | nil =>
    obtain rfl : roster = final := hdoes
    exact free
  | cons act rest ih =>
    obtain ⟨mid, hact, hrest⟩ := hdoes
    have hmid := alone.does watches listed once hcalm free hact
    have hfinal := ih (kept hcalm hact) hmid hrest
    have hcons : (act :: rest).filterMap Act.showing? =
        act.showing?.toList ++ rest.filterMap Act.showing? := by
      cases act <;> rfl
    intro seen
    have hseen : seen = Showing.shownAt place act.showing?.toList ++
        Showing.shownAt place (rest.filterMap Act.showing?) := by
      simp only [seen, hcons, Showing.shownAt_append]
    rw [hseen, List.foldl_append]
    exact hfinal

/-- What a visitor is shown in a traversal changes it accordingly. -/
lemma Traverser.LeavesAlone.doesAll
    (alone : traverser.LeavesAlone behaviour nested calm number)
    (reads : traverser.Reads behaviour nested calm) (watches : behaviour.Watches embed watch)
    (listed : traverser.visitors[place]? = some number)
    (once : ∀ other : Nat, traverser.visitors[other]? = some number → other = place)
    (hcalm : calm roster) (free : roster.cells[number]? = some { state := embed state })
    (hdoes : (traverser.walker behaviour nested).DoesAll acts roster final) :
    let seen := Showing.shownAt place (acts.filterMap Act.showing?)
    final.cells[number]? = some { state := embed (seen.foldl watch state) } :=
  alone.watched (fun hcalm hact => (reads.does hcalm hact).2) watches listed once hcalm free hdoes

end Watched

end Visitors

namespace Traverser

variable [Admission ρ α]

/-- A traversal whose visitors only read succeeds and leaves the forest as it is. Whatever there is
to show, it goes from visitor to visitor in the order of the list: first the forest, then every stop
of a tour on which each node is entered, the tours of its children follow, and it is left, and at
last the forest again. So a recorder that is on the list once, and is left alone by the others, ends
with the tags in pre-order and in post-order, and such a counter has counted every node. -/
theorem traverse_reads {behaviour : Behaviour ρ α V} {stack : Nat} {traverser : Traverser}
    {roster : Roster ρ α (V ⊕ Observer)} {calm : Roster ρ α (V ⊕ Observer) → Prop}
    (reads : traverser.Reads (behaviour.sum Observer.behaviour)
      (nest (behaviour.sum Observer.behaviour) stack roster.cells.length) calm)
    (start : calm roster) {nodes : List (Tree ρ α)}
    (allowed : ∀ limit ∈ traverser.options.maxDepth, ∀ node ∈ nodes, node.depth ≤ limit)
    (fits : traverser.options.maxDepth = none → ∀ node ∈ nodes, node.depth < stack) :
    let both := behaviour.sum Observer.behaviour
    let nested := nest both stack roster.cells.length
    let traversed := traverse both stack traverser nodes roster
    traversed.1 = some (.ok nodes) ∧
    ((traverser.walker both nested).acts stack nodes roster).filterMap Act.showing? =
      (Showing.ofTraversal nodes).flatMap (Showing.round traverser.count) ∧
    ∀ number, traverser.visitors.count number = 1 →
      traverser.LeavesAlone both nested calm number →
      (∀ recorder : Recorder,
        roster.cells[number]? = some { state := .inr (.inr (.inl recorder)) } →
        traversed.2.cells[number]? = some { state := .inr (.inr (.inl {
          entered := nodes.flatMap Tree.preorder
          left := nodes.flatMap Tree.postorder
          runs := recorder.runs + 1 })) }) ∧
      ∀ counter : Counter,
        roster.cells[number]? = some { state := .inr (.inr (.inr counter)) } →
        ∃ counted : Counter,
          traversed.2.cells[number]? = some { state := .inr (.inr (.inr counted)) } ∧
          (∀ tag, counted.count tag = Tree.tally (fun node => node.tag = tag) nodes) ∧
          counted.total = (nodes.map Tree.size).foldr (· + ·) 0 := by
  intro both nested traversed
  let walker := traverser.walker both nested
  obtain ⟨-, hrun, hdoes⟩ := walker.recorded_traverse stack nodes roster
  have hallows : ∀ node ∈ nodes, traverser.options.Allows (walker.room stack) 0 node := by
    intro node hmem
    refine ⟨?_, fun limit hlimit => ?_⟩
    · rcases hmax : traverser.options.maxDepth with _ | limit
      · rw [walker.room_of_unlimited hmax]
        exact fits hmax node hmem
      · have hle := allowed limit hmax node hmem
        rw [walker.room_of_limit hmax]
        omega
    · rw [Nat.zero_add]
      exact allowed limit hlimit node hmem
  obtain ⟨hitems, hhalt, hcalls⟩ := hrun.tours (reads.doesAll start hdoes) hallows
  have hcount : walker.visitors.length = traverser.count := length_walker
  rw [hcount] at hcalls
  refine ⟨?_, hcalls, fun number once alone => ?_⟩
  · have hresult : traversed.1 = (walker.traverse stack nodes roster).result := rfl
    simp only [hresult, Sweep.result, hhalt, hitems]
  · obtain ⟨place, listed, hplace⟩ := exists_place_of_count_eq_one once
    have hrange : place < traverser.count := (List.getElem?_eq_some_iff.1 listed).1
    -- What the visitor becomes, given what it makes of what it is shown.
    have hwatched : ∀ {W : Type} {embed : W → V ⊕ Observer} {watch : W → Showing ρ α → W}
        {state : W}, both.Watches embed watch →
        roster.cells[number]? = some { state := embed state } →
        traversed.2.cells[number]? =
          some { state := embed ((Showing.ofTraversal nodes).foldl watch state) } := by
      intro W embed watch state watches free
      have hfinal := alone.doesAll reads watches listed hplace start free hdoes
      rw [hcalls, Showing.shownAt_rounds hrange] at hfinal
      exact hfinal
    constructor
    · intro recorder free
      rw [hwatched (Recorder.watches behaviour) free, Recorder.foldl_ofTraversal]
    · intro counter free
      exact ⟨_, hwatched (Counter.watches behaviour) free,
        Counter.foldl_ofTraversal nodes counter⟩

/-- Counts its calls. -/
def pacing : Behaviour Shape Unit Nat where
  name := fun _ => "pacing"
  node := fun _ calls node => .finish { state := calls + 1, node := node }
  sequence := fun _ calls _ => .finish { state := calls + 1 }

lemma pacing_looksOn : pacing.LooksOn :=
  ⟨fun _ _ _ => ⟨_, rfl⟩, fun _ _ _ => ⟨_, rfl⟩⟩

/-- A recorder and a counter beside a visitor that is on the list twice. -/
theorem pacing_reads :
    let both := pacing.sum Observer.behaviour
    let roster : Roster Shape Unit (Nat ⊕ Observer) :=
      .ofList [.inr (.inr (.inl {})), .inl 0, .inr (.inr (.inr {}))]
    let condition : Tree Shape Unit := { tag := "Expr_Variable" }
    let echo : Tree Shape Unit := { tag := "Stmt_Echo" }
    let nodes : List (Tree Shape Unit) :=
      [{ tag := "Stmt_If"
         slots := [⟨{ name := "cond" }, .single (some condition)⟩, ⟨{ name := "line" }, .value ()⟩,
           ⟨{ name := "stmts" }, .list [echo, echo]⟩] }, echo]
    let traversed := traverse both 2 { visitors := [0, 1, 1, 2] } nodes roster
    traversed.1 = some (.ok nodes) ∧
    traversed.2.cells[0]? = some { state := .inr (.inr (.inl {
      entered := ["Stmt_If", "Expr_Variable", "Stmt_Echo", "Stmt_Echo", "Stmt_Echo"]
      left := ["Expr_Variable", "Stmt_Echo", "Stmt_Echo", "Stmt_If", "Stmt_Echo"]
      runs := 1 })) } ∧
    ∃ counted : Counter, traversed.2.cells[2]? = some { state := .inr (.inr (.inr counted)) } ∧
      counted.count "Stmt_Echo" = 3 ∧ counted.total = 5 := by
  intro both roster condition echo nodes traversed
  have looksOn : both.LooksOn := pacing_looksOn.sum .observer
  let traverser : Traverser := { visitors := [0, 1, 1, 2] }
  let nested := nest both 2 roster.cells.length
  have free : traverser.AllFree roster := by
    simp [AllFree, traverser, roster, Roster.ofList, Roster.lease, Lease.free]
  have shallow : ∀ node ∈ nodes, node.depth < 2 := by decide
  obtain ⟨hok, -, hwatched⟩ := traverse_reads (looksOn.reads nested traverser) free
    (by simp) (fun _ => shallow)
  obtain ⟨hrecorder, -⟩ := hwatched 0 rfl (looksOn.leavesAlone nested traverser 0)
  obtain ⟨-, hcounter⟩ := hwatched 2 rfl (looksOn.leavesAlone nested traverser 2)
  obtain ⟨counted, hcounted, hcount, htotal⟩ := hcounter {} rfl
  refine ⟨hok, hrecorder {} rfl, counted, hcounted, ?_, ?_⟩
  · rw [hcount]
    decide +kernel
  · rw [htotal]
    decide

end Traverser

end ForestWalk
