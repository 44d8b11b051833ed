import ForestWalk.Proofs.Nesting
import ForestWalk.Proofs.Sparing
/-!
Detours: traversals among visitors of their own, which a hook starts and whose result it ignores.
Whatever becomes of a detour, that it stops, fails or changes its forest, it leaves no trace but in
the visitors that it calls. So without it the enclosing traversals do just the same.
-/

namespace ForestWalk

variable {ρ α V : Type}

section Outside

namespace Roster

/-- The second roster has the same leases as the first, and the same visitors apart from some inner
ones. -/
structure SameOutside (inner : List Nat) (roster roster' : Roster ρ α V) : Prop where
  outside : ∀ visitor ∉ inner, roster'.cells[visitor]? = roster.cells[visitor]?
  lease : ∀ visitor, roster'.lease visitor = roster.lease visitor

namespace SameOutside

variable {inner : List Nat} {roster roster' last : Roster ρ α V} {visitor : Nat} {state : V}

lemma refl (inner : List Nat) (roster : Roster ρ α V) : roster.SameOutside inner roster :=
  ⟨fun _ _ => rfl, fun _ => rfl⟩

lemma symm (h : roster.SameOutside inner roster') : roster'.SameOutside inner roster :=
  ⟨fun visitor hvisitor => (h.outside visitor hvisitor).symm, fun visitor => (h.lease visitor).symm⟩

lemma trans (h : roster.SameOutside inner roster') (h' : roster'.SameOutside inner last) :
    roster.SameOutside inner last :=
  ⟨fun visitor hvisitor => (h'.outside visitor hvisitor).trans (h.outside visitor hvisitor),
    fun visitor => (h'.lease visitor).trans (h.lease visitor)⟩

lemma note_left (h : roster.SameOutside inner roster') (entry : Entry ρ α) :
    (roster.note entry).SameOutside inner roster' :=
  ⟨h.outside, h.lease⟩

lemma note_right (h : roster.SameOutside inner roster') (entry : Entry ρ α) :
    roster.SameOutside inner (roster'.note entry) :=
  (h.symm.note_left entry).symm

lemma setLease (h : roster.SameOutside inner roster') (visitor : Nat) (lease : Lease) :
    (roster.setLease visitor lease).SameOutside inner (roster'.setLease visitor lease) := by
  constructor
  · intro other hother
    simp only [Roster.setLease, List.getElem?_modify, h.outside other hother]
  · intro other
    rw [lease_setLease, lease_setLease, h.lease]

/-- Whether a visitor can be borrowed does not depend on its state. -/
lemma hold (h : roster.SameOutside inner roster') (target : Nat) (mode : Mode) :
    (roster'.hold target mode).1 = (roster.hold target mode).1 ∧
      (roster.hold target mode).2.SameOutside inner (roster'.hold target mode).2 := by
  have hlent : ∀ roster : Roster ρ α V, (roster.cells[target]?.bind fun cell =>
      cell.lease.lend mode) = (roster.lease target).bind fun lease => lease.lend mode := by
    intro roster
    rw [Roster.lease, Option.bind_map]
    rfl
  simp only [Roster.hold, hlent, h.lease]
  rcases (roster.lease target).bind fun lease => lease.lend mode with _ | lent
  · exact ⟨rfl, h⟩
  · exact ⟨rfl, h.setLease target lent⟩

lemma release (h : roster.SameOutside inner roster') (target : Nat) :
    (roster'.release target).1 = (roster.release target).1 ∧
      (roster.release target).2.SameOutside inner (roster'.release target).2 := by
  have hlease := h.lease target
  simp only [Roster.lease] at hlease
  simp only [Roster.release]
  rcases hcell : roster.cells[target]? with _ | cell
  · rw [hcell, Option.map_none, Option.map_eq_none_iff] at hlease
    simp only [hlease]
    exact ⟨trivial, h⟩
  · rw [hcell, Option.map_some, Option.map_eq_some_iff] at hlease
    obtain ⟨cell', hcell', heq⟩ := hlease
    simp only [hcell', heq]
    exact ⟨trivial, h.setLease target _⟩

lemma takeForCall {taken : Roster ρ α V} (h : roster.SameOutside inner roster')
    (hvisitor : visitor ∉ inner) (free : roster.takeForCall visitor = some (state, taken)) :
    ∃ taken', roster'.takeForCall visitor = some (state, taken') ∧
      taken.SameOutside inner taken' := by
  obtain ⟨⟨cell, hcell, hfree, hstate⟩, rfl⟩ := takeForCall_eq_some_iff.1 free
  exact ⟨_, takeForCall_eq_some_iff.2
    ⟨⟨cell, (h.outside visitor hvisitor).trans hcell, hfree, hstate⟩, rfl⟩,
    h.setLease visitor .hook⟩

lemma putBack (h : roster.SameOutside inner roster') (hvisitor : visitor ∉ inner) (left : V) :
    (roster.putBack visitor left).SameOutside inner (roster'.putBack visitor left) := by
  constructor
  · intro other hother
    by_cases heq : visitor = other
    · subst heq
      simp only [Roster.putBack, cells_note, List.getElem?_set_self', h.outside visitor hvisitor]
    · simp [Roster.putBack, List.getElem?_set_ne heq, h.outside other hother]
  · intro other
    rw [lease_putBack, lease_putBack, h.lease]

/-- A call of an inner visitor, as long as it is free, changes nothing outside. -/
lemma called (hvisitor : visitor ∈ inner) (free : roster.lease visitor = some .free)
    (entry : Entry ρ α) (left : V) :
    roster.SameOutside inner
      (((roster.setLease visitor .hook).note entry).putBack visitor left) := by
  constructor
  · intro other hother
    have hne : visitor ≠ other := fun heq => hother (heq ▸ hvisitor)
    simp [Roster.putBack, Roster.setLease, List.getElem?_set_ne hne, hne]
  · intro other
    rw [lease_putBack, lease_note, lease_setLease, Option.map_map]
    by_cases heq : visitor = other
    · subst heq
      simp [free]
    · simp [heq, Function.comp_def]

lemma name_eq {behaviour other : Behaviour ρ α V} (h : roster.SameOutside inner roster')
    (hvisitor : visitor ∉ inner)
    (hname : ∀ cell, roster.cells[visitor]? = some cell →
      other.name cell.state = behaviour.name cell.state) :
    roster'.name other visitor = roster.name behaviour visitor := by
  simp only [Roster.name, read, h.outside visitor hvisitor]
  rcases hcell : roster.cells[visitor]? with _ | cell
  · rfl
  · simp only [Option.filter_some]
    split
    · exact congrArg some (hname cell hcell)
    · rfl

end SameOutside

end Roster

end Outside

section Journals

/-- The entry tells of an event, or of a call of an inner visitor. -/
def Entry.Aside (inner : List Nat) : Entry ρ α → Prop
  | .event _ => True
  | .nodeCall visitor _ _ | .sequenceCall visitor _ _ | .returned visitor => visitor ∈ inner
  | .hold .. | .release .. | .nested .. => False

/-- The second journal is the first one without some detours. What is noted of a detour are its
events, the calls of inner visitors, and at last the result that the hook which started it has got
and ignores. -/
inductive Shortened (inner : List Nat) : List (Entry ρ α) → List (Entry ρ α) → Prop
  | refl (journal : List (Entry ρ α)) : Shortened inner journal journal
  | entry {journal journal' : List (Entry ρ α)} (h : Shortened inner journal journal')
      (entry : Entry ρ α) : Shortened inner (journal ++ [entry]) (journal' ++ [entry])
  | detour {journal journal' walked : List (Entry ρ α)} (h : Shortened inner journal journal')
      (aside : ∀ entry ∈ walked, entry.Aside inner) (visitor : Nat)
      (result : Except WalkError (List (Tree ρ α))) :
      Shortened inner (journal ++ (walked ++ [.nested visitor result])) journal'

lemma Roster.toList_journal_note (entry : Entry ρ α) (roster : Roster ρ α V) :
    (roster.note entry).journal.toList = roster.journal.toList ++ [entry] :=
  Array.toList_push

end Journals

section Routines

/-- The first routine takes the steps of the second, with detours between them: traversals that call
inner visitors only, and whose result makes no difference to what follows. All other traversals call
no inner visitor. The answer has a property. -/
inductive Routine.Detours {β : Type} (inner : List Nat) (ends : β → Prop) :
    Routine ρ α β → Routine ρ α β → Prop
  | finish {answer : β} (ended : ends answer) : Detours inner ends (.finish answer) (.finish answer)
  | hold {target : Nat} {mode : Mode} {next next' : Bool → Routine ρ α β}
      (later : ∀ granted, Detours inner ends (next granted) (next' granted)) :
      Detours inner ends (.hold target mode next) (.hold target mode next')
  | release {target : Nat} {next next' : Nat → Routine ρ α β}
      (later : ∀ count, Detours inner ends (next count) (next' count)) :
      Detours inner ends (.release target next) (.release target next')
  | traverse {traverser : Traverser} {nodes : List (Tree ρ α)}
      {next next' : Except WalkError (List (Tree ρ α)) → Routine ρ α β}
      (outside : ∀ visitor ∈ traverser.visitors, visitor ∉ inner)
      (later : ∀ result, Detours inner ends (next result) (next' result)) :
      Detours inner ends (.traverse traverser nodes next) (.traverse traverser nodes next')
  | detour {traverser : Traverser} {nodes : List (Tree ρ α)}
      {next : Except WalkError (List (Tree ρ α)) → Routine ρ α β} {routine : Routine ρ α β}
      (inside : ∀ visitor ∈ traverser.visitors, visitor ∈ inner)
      (ignored : ∀ result, Detours inner ends (next result) routine) :
      Detours inner ends (.traverse traverser nodes next) routine

/-- The visitors of the first behaviour do as those of the second, with detours. The inner visitors
that they call on these finish at once: they start no traversal, and neither borrow a visitor nor
give one back. All this holds in states of a certain kind, in which the visitors remain. -/
structure Behaviour.Detours (inner : List Nat) (P : Nat → V → Prop)
    (behaviour direct : Behaviour ρ α V) : Prop where
  name : ∀ {visitor state}, visitor ∉ inner → P visitor state →
    direct.name state = behaviour.name state
  node : ∀ {visitor state}, visitor ∉ inner → P visitor state → ∀ hook node,
    (behaviour.node hook state node).Detours inner (fun result => P visitor result.state)
      (direct.node hook state node)
  sequence : ∀ {visitor state}, visitor ∉ inner → P visitor state → ∀ hook nodes,
    (behaviour.sequence hook state nodes).Detours inner (fun result => P visitor result.state)
      (direct.sequence hook state nodes)
  innerNode : ∀ {visitor state}, visitor ∈ inner → P visitor state → ∀ hook node,
    ∃ result, behaviour.node hook state node = .finish result ∧ P visitor result.state
  innerSequence : ∀ {visitor state}, visitor ∈ inner → P visitor state → ∀ hook nodes,
    ∃ result, behaviour.sequence hook state nodes = .finish result ∧ P visitor result.state

end Routines

section Inside

namespace Roster

/-- What has become of a roster is the work of inner visitors only. -/
structure WithinInner (inner : List Nat) (P : Nat → V → Prop) (roster final : Roster ρ α V) :
    Prop where
  same : roster.SameOutside inner final
  conforms : final.Conforms P
  noted : ∃ walked, final.journal.toList = roster.journal.toList ++ walked ∧
    ∀ entry ∈ walked, entry.Aside inner

namespace WithinInner

variable {inner : List Nat} {P : Nat → V → Prop} {roster mid final : Roster ρ α V}

lemma refl (conforms : roster.Conforms P) : roster.WithinInner inner P roster :=
  ⟨.refl inner roster, conforms, [], by simp, by simp⟩

lemma trans (h : roster.WithinInner inner P mid) (h' : mid.WithinInner inner P final) :
    roster.WithinInner inner P final := by
  obtain ⟨walked, hmid, hwalked⟩ := h.noted
  obtain ⟨more, hfinal, hmore⟩ := h'.noted
  refine ⟨h.same.trans h'.same, h'.conforms, walked ++ more, ?_,
    List.forall_mem_append.2 ⟨hwalked, hmore⟩⟩
  rw [hfinal, hmid, List.append_assoc]

variable {behaviour direct : Behaviour ρ α V} {nested : Traversal ρ α V} {visitor : Nat}

/-- A call of a free inner visitor, which finishes at once. -/
lemma called {state left : V} {taken : Roster ρ α V} (conforms : roster.Conforms P)
    (hvisitor : visitor ∈ inner) (free : roster.takeForCall visitor = some (state, taken))
    {entry : Entry ρ α} (hentry : entry.Aside inner) (hleft : P visitor left) :
    roster.WithinInner inner P ((taken.note entry).putBack visitor left) := by
  have hlease := lease_of_takeForCall free
  obtain ⟨-, htaken⟩ := conforms.takeForCall free
  have hjournal := journal_taken free
  obtain ⟨-, rfl⟩ := takeForCall_eq_some_iff.1 free
  refine ⟨.called hvisitor hlease entry left, (htaken.note entry).putBack hleft,
    [entry, .returned visitor], ?_, ?_⟩
  · simp [Roster.putBack, Roster.note, hjournal]
  · exact List.forall_mem_cons.2 ⟨hentry, List.forall_mem_singleton.2 hvisitor⟩

lemma callNode (nested : Traversal ρ α V) (detours : behaviour.Detours inner P direct)
    (conforms : roster.Conforms P) (hvisitor : visitor ∈ inner) (hook : NodeHook)
    (node : Tree ρ α) :
    roster.WithinInner inner P (roster.callNode behaviour nested visitor hook node).2 := by
  rcases free : roster.takeForCall visitor with _ | ⟨state, taken⟩
  · simp only [Roster.callNode, free]
    exact .refl conforms
  · obtain ⟨hstate, -⟩ := conforms.takeForCall free
    obtain ⟨result, hfinish, hresult⟩ := detours.innerNode hvisitor hstate hook node
    simp only [Roster.callNode, free, hfinish, Routine.perform]
    exact called conforms hvisitor free hvisitor hresult

lemma callSequence (nested : Traversal ρ α V) (detours : behaviour.Detours inner P direct)
    (conforms : roster.Conforms P) (hvisitor : visitor ∈ inner) (hook : SequenceHook)
    (nodes : List (Tree ρ α)) :
    roster.WithinInner inner P (roster.callSequence behaviour nested visitor hook nodes).2 := by
  rcases free : roster.takeForCall visitor with _ | ⟨state, taken⟩
  · simp only [Roster.callSequence, free]
    exact .refl conforms
  · obtain ⟨hstate, -⟩ := conforms.takeForCall free
    obtain ⟨result, hfinish, hresult⟩ := detours.innerSequence hvisitor hstate hook nodes
    simp only [Roster.callSequence, free, hfinish, Routine.perform]
    exact called conforms hvisitor free hvisitor hresult

variable {traverser : Traverser}

lemma does (detours : behaviour.Detours inner P direct) (conforms : roster.Conforms P)
    (inside : ∀ visitor ∈ traverser.visitors, visitor ∈ inner) {act : Act ρ α}
    (hdoes : (traverser.walker behaviour nested).Does act roster final) :
    roster.WithinInner inner P final := by
  cases act with
  | event event =>
    obtain rfl : roster.note (.event event) = final := hdoes
    exact ⟨(SameOutside.refl inner roster).note_right _, conforms, [.event event],
      toList_journal_note _ _, List.forall_mem_singleton.2 trivial⟩
  | node index name hook node reply =>
    obtain ⟨visitor, hvisitor, hcalled, -⟩ := Traverser.does_node_iff.1 hdoes
    have hfinal := callNode nested detours conforms
      (inside visitor (List.mem_of_getElem? hvisitor)) hook node
    rwa [hcalled] at hfinal
  | sequence index name hook nodes reply =>
    obtain ⟨visitor, hvisitor, hcalled, -⟩ := Traverser.does_sequence_iff.1 hdoes
    have hfinal := callSequence nested detours conforms
      (inside visitor (List.mem_of_getElem? hvisitor)) hook nodes
    rwa [hcalled] at hfinal

lemma doesAll (detours : behaviour.Detours inner P direct) (conforms : roster.Conforms P)
    (inside : ∀ visitor ∈ traverser.visitors, visitor ∈ inner) {acts : List (Act ρ α)}
    (hdoes : (traverser.walker behaviour nested).DoesAll acts roster final) :
    roster.WithinInner inner P final := by
  induction acts generalizing roster with
  | nil =>
    obtain rfl : roster = final := hdoes
    exact .refl conforms
  | cons act rest ih =>
    obtain ⟨mid, hact, hrest⟩ := hdoes
    have hmid := does detours conforms inside hact
    exact hmid.trans (ih hmid.conforms hrest)

end WithinInner

end Roster

/-- A detour is the work of inner visitors only. -/
theorem Traverser.nest_withinInner [Admission ρ α] {inner : List Nat} {P : Nat → V → Prop}
    {behaviour direct : Behaviour ρ α V} (detours : behaviour.Detours inner P direct)
    (stack nesting : Nat) {traverser : Traverser}
    (inside : ∀ visitor ∈ traverser.visitors, visitor ∈ inner) {roster : Roster ρ α V}
    (conforms : roster.Conforms P) (nodes : List (Tree ρ α)) :
    roster.WithinInner inner P (nest behaviour stack nesting traverser nodes roster).state := by
  cases nesting with
  | zero => exact .refl conforms
  | succ nesting =>
    obtain ⟨-, -, hdoes⟩ :=
      (traverser.walker behaviour (nest behaviour stack nesting)).recorded_traverse stack nodes
        roster
    exact .doesAll detours conforms inside hdoes

end Inside

section Alongside

variable {inner : List Nat} {P : Nat → V → Prop}

/-- Two rosters, on the first of which detours were made. -/
structure Roster.Bypassed (inner : List Nat) (P : Nat → V → Prop) (roster roster' : Roster ρ α V) :
    Prop where
  same : roster.SameOutside inner roster'
  conforms : roster.Conforms P
  journal : Shortened inner roster.journal.toList roster'.journal.toList

namespace Roster.Bypassed

variable {roster roster' final : Roster ρ α V} {visitor : Nat}

lemma note (h : roster.Bypassed inner P roster') (entry : Entry ρ α) :
    (roster.note entry).Bypassed inner P (roster'.note entry) := by
  refine ⟨(h.same.note_left entry).note_right entry, h.conforms.note entry, ?_⟩
  rw [toList_journal_note, toList_journal_note]
  exact h.journal.entry entry

lemma hold (h : roster.Bypassed inner P roster') (target : Nat) (mode : Mode) :
    (roster'.hold target mode).1 = (roster.hold target mode).1 ∧
      (roster.hold target mode).2.Bypassed inner P (roster'.hold target mode).2 := by
  obtain ⟨hgranted, hsame⟩ := h.same.hold target mode
  refine ⟨hgranted, hsame, h.conforms.hold target mode, ?_⟩
  rw [journal_hold, journal_hold]
  exact h.journal

lemma release (h : roster.Bypassed inner P roster') (target : Nat) :
    (roster'.release target).1 = (roster.release target).1 ∧
      (roster.release target).2.Bypassed inner P (roster'.release target).2 := by
  obtain ⟨hcount, hsame⟩ := h.same.release target
  refine ⟨hcount, hsame, h.conforms.release target, ?_⟩
  rw [journal_release, journal_release]
  exact h.journal

lemma takeForCall {state : V} {taken : Roster ρ α V} (h : roster.Bypassed inner P roster')
    (hvisitor : visitor ∉ inner) (free : roster.takeForCall visitor = some (state, taken)) :
    P visitor state ∧ ∃ taken', roster'.takeForCall visitor = some (state, taken') ∧
      taken.Bypassed inner P taken' := by
  obtain ⟨taken', free', hsame⟩ := h.same.takeForCall hvisitor free
  obtain ⟨hstate, htaken⟩ := h.conforms.takeForCall free
  refine ⟨hstate, taken', free', hsame, htaken, ?_⟩
  rw [journal_taken free, journal_taken free']
  exact h.journal

lemma putBack {left : V} (h : roster.Bypassed inner P roster') (hvisitor : visitor ∉ inner)
    (hleft : P visitor left) :
    (roster.putBack visitor left).Bypassed inner P (roster'.putBack visitor left) := by
  refine ⟨h.same.putBack hvisitor left, h.conforms.putBack hleft, ?_⟩
  simp only [Roster.putBack, toList_journal_note]
  exact h.journal.entry _

/-- A detour from the first roster. -/
lemma detour (h : roster.Bypassed inner P roster') (within : roster.WithinInner inner P final)
    (result : Except WalkError (List (Tree ρ α))) :
    (final.note (.nested visitor result)).Bypassed inner P roster' := by
  obtain ⟨walked, hjournal, hwalked⟩ := within.noted
  refine ⟨(within.same.symm.trans h.same).note_left _, within.conforms, ?_⟩
  rw [toList_journal_note, hjournal, List.append_assoc]
  exact h.journal.detour hwalked visitor result

end Roster.Bypassed

/-- Two ways to run traversals: the first with detours, the second without them. -/
structure Bypassing (inner : List Nat) (P : Nat → V → Prop) (nested nested' : Traversal ρ α V) :
    Prop where
  inside : ∀ {traverser : Traverser} {roster : Roster ρ α V} nodes,
    (∀ visitor ∈ traverser.visitors, visitor ∈ inner) → roster.Conforms P →
    roster.WithinInner inner P (nested traverser nodes roster).state
  outside : ∀ {traverser : Traverser} {roster roster' : Roster ρ α V} nodes,
    (∀ visitor ∈ traverser.visitors, visitor ∉ inner) → roster.Bypassed inner P roster' →
    (nested traverser nodes roster).halt ≠ some .overflowed →
    let sweep := nested traverser nodes roster
    let sweep' := nested' traverser nodes roster'
    sweep'.items = sweep.items ∧ sweep'.halt = sweep.halt ∧
      sweep.state.Bypassed inner P sweep'.state

namespace Bypassing

variable {nested nested' : Traversal ρ α V} {behaviour direct : Behaviour ρ α V}
  {roster roster' final : Roster ρ α V} {visitor : Nat}

/-- A routine with detours, and one without, end alike. -/
lemma perform {β : Type} (h : Bypassing inner P nested nested') (visitor : Nat)
    {ends : β → Prop} {routine routine' : Routine ρ α β}
    (detours : routine.Detours inner ends routine') (bypassed : roster.Bypassed inner P roster')
    {answer : β} (ended : routine.perform nested visitor roster = (some answer, final)) :
    ends answer ∧ ∃ final', routine'.perform nested' visitor roster' = (some answer, final') ∧
      final.Bypassed inner P final' := by
  induction detours generalizing roster roster' with
  | finish hends =>
    cases ended
    exact ⟨hends, roster', rfl, bypassed⟩
  | @hold target mode next next' later ih =>
    obtain ⟨hgranted, hheld⟩ := bypassed.hold target mode
    simp only [Routine.perform, hgranted] at ended ⊢
    exact ih _ (hheld.note _) ended
  | @release target next next' later ih =>
    obtain ⟨hcount, hreleased⟩ := bypassed.release target
    simp only [Routine.perform, hcount] at ended ⊢
    exact ih _ (hreleased.note _) ended
  | @traverse traverser nodes next next' outside later ih =>
    simp only [Routine.perform] at ended ⊢
    rcases hresult : (nested traverser nodes roster).result with _ | result
    · rw [hresult] at ended
      cases ended
    · have hreturned : (nested traverser nodes roster).halt ≠ some .overflowed := by
        rw [Ne, ← Sweep.result_eq_none_iff, hresult]
        simp
      obtain ⟨hitems, hhalt, hstate⟩ := h.outside nodes outside bypassed hreturned
      have hresult' : (nested' traverser nodes roster').result = some result := by
        rw [← hresult]
        simp only [Sweep.result, hitems, hhalt]
      rw [hresult] at ended
      rw [hresult']
      exact ih result (hstate.note _) ended
  | @detour traverser nodes next routine inside ignored ih =>
    -- The run without detours stays where it is, and the other goes on whatever comes of this one.
    simp only [Routine.perform] at ended
    rcases hresult : (nested traverser nodes roster).result with _ | result
    · rw [hresult] at ended
      cases ended
    · rw [hresult] at ended
      have hwithin := h.inside nodes inside bypassed.conforms
      exact ih result (bypassed.detour hwithin result) ended

/-- A call of a visitor that is not inside. -/
lemma callNode (h : Bypassing inner P nested nested') (detours : behaviour.Detours inner P direct)
    (hvisitor : visitor ∉ inner) (bypassed : roster.Bypassed inner P roster') {hook : NodeHook}
    {node : Tree ρ α} {reply : NodeReply ρ α} (returned : reply ≠ .overflowed)
    (called : roster.callNode behaviour nested visitor hook node = (reply, final)) :
    ∃ final', roster'.callNode direct nested' visitor hook node = (reply, final') ∧
      final.Bypassed inner P final' := by
  rcases free : roster.takeForCall visitor with _ | ⟨state, taken⟩
  · have lent := Roster.takeForCall_eq_none_iff.1 free
    rw [Roster.callNode_of_lent behaviour nested lent] at called
    cases called
    rw [← bypassed.same.lease visitor] at lent
    exact ⟨roster', Roster.callNode_of_lent direct nested' lent hook node, bypassed⟩
  · obtain ⟨hstate, taken', free', htaken⟩ := bypassed.takeForCall hvisitor free
    rcases hended : (behaviour.node hook state node).perform nested visitor
        (taken.note (.nodeCall visitor hook node)) with ⟨_ | result, last⟩
    all_goals
      simp only [Roster.callNode, free, hended, Prod.mk.injEq] at called
      obtain ⟨hreply, rfl⟩ := called
    · exact absurd hreply.symm returned
    · obtain ⟨hends, last', hended', hlast⟩ := h.perform visitor
        (detours.node hvisitor hstate hook node) (htaken.note _) hended
      refine ⟨last'.putBack visitor result.state, ?_, hlast.putBack hvisitor hends⟩
      simp only [Roster.callNode, free', hended', hreply]

lemma callSequence (h : Bypassing inner P nested nested')
    (detours : behaviour.Detours inner P direct) (hvisitor : visitor ∉ inner)
    (bypassed : roster.Bypassed inner P roster') {hook : SequenceHook} {nodes : List (Tree ρ α)}
    {reply : SequenceReply ρ α} (returned : reply ≠ .overflowed)
    (called : roster.callSequence behaviour nested visitor hook nodes = (reply, final)) :
    ∃ final', roster'.callSequence direct nested' visitor hook nodes = (reply, final') ∧
      final.Bypassed inner P final' := by
  rcases free : roster.takeForCall visitor with _ | ⟨state, taken⟩
  · have lent := Roster.takeForCall_eq_none_iff.1 free
    rw [Roster.callSequence_of_lent behaviour nested lent] at called
    cases called
    rw [← bypassed.same.lease visitor] at lent
    exact ⟨roster', Roster.callSequence_of_lent direct nested' lent hook nodes, bypassed⟩
  · obtain ⟨hstate, taken', free', htaken⟩ := bypassed.takeForCall hvisitor free
    rcases hended : (behaviour.sequence hook state nodes).perform nested visitor
        (taken.note (.sequenceCall visitor hook nodes)) with ⟨_ | result, last⟩
    all_goals
      simp only [Roster.callSequence, free, hended, Prod.mk.injEq] at called
      obtain ⟨hreply, rfl⟩ := called
    · exact absurd hreply.symm returned
    · obtain ⟨hends, last', hended', hlast⟩ := h.perform visitor
        (detours.sequence hvisitor hstate hook nodes) (htaken.note _) hended
      refine ⟨last'.putBack visitor result.state, ?_, hlast.putBack hvisitor hends⟩
      simp only [Roster.callSequence, free', hended', hreply]

lemma name_eq (detours : behaviour.Detours inner P direct) (hvisitor : visitor ∉ inner)
    (bypassed : roster.Bypassed inner P roster') :
    roster'.name direct visitor = roster.name behaviour visitor :=
  bypassed.same.name_eq hvisitor fun _ hcell => detours.name hvisitor (bypassed.conforms hcell)

variable {traverser : Traverser}

/-- What a traversal outside does with detours it does without them. -/
lemma does (h : Bypassing inner P nested nested') (detours : behaviour.Detours inner P direct)
    (outside : ∀ visitor ∈ traverser.visitors, visitor ∉ inner)
    (bypassed : roster.Bypassed inner P roster') {act : Act ρ α} (returned : act.overflows = false)
    (hdoes : (traverser.walker behaviour nested).Does act roster final) :
    ∃ final', (traverser.walker direct nested').Does act roster' final' ∧
      final.Bypassed inner P final' := by
  cases act with
  | event event =>
    obtain rfl : roster.note (.event event) = final := hdoes
    exact ⟨_, rfl, bypassed.note _⟩
  | node index name hook node reply =>
    obtain ⟨visitor, hvisitor, hcalled, hname⟩ := Traverser.does_node_iff.1 hdoes
    have hreply : reply ≠ .overflowed := by
      rintro rfl
      cases returned
    have hother := outside visitor (List.mem_of_getElem? hvisitor)
    obtain ⟨final', hcalled', hfinal⟩ := h.callNode detours hother bypassed hreply hcalled
    refine ⟨final', Traverser.does_node_iff.2 ⟨visitor, hvisitor, hcalled', ?_⟩, hfinal⟩
    rw [name_eq detours hother hfinal, hname]
  | sequence index name hook nodes reply =>
    obtain ⟨visitor, hvisitor, hcalled, hname⟩ := Traverser.does_sequence_iff.1 hdoes
    have hreply : reply ≠ .overflowed := by
      rintro rfl
      cases returned
    have hother := outside visitor (List.mem_of_getElem? hvisitor)
    obtain ⟨final', hcalled', hfinal⟩ := h.callSequence detours hother bypassed hreply hcalled
    refine ⟨final', Traverser.does_sequence_iff.2 ⟨visitor, hvisitor, hcalled', ?_⟩, hfinal⟩
    rw [name_eq detours hother hfinal, hname]

lemma doesAll (h : Bypassing inner P nested nested') (detours : behaviour.Detours inner P direct)
    (outside : ∀ visitor ∈ traverser.visitors, visitor ∉ inner)
    (bypassed : roster.Bypassed inner P roster') {acts : List (Act ρ α)}
    (returned : ∀ act ∈ acts, act.overflows = false)
    (hdoes : (traverser.walker behaviour nested).DoesAll acts roster final) :
    ∃ final', (traverser.walker direct nested').DoesAll acts roster' final' ∧
      final.Bypassed inner P final' := by
  induction acts generalizing roster roster' with
  | nil =>
    obtain rfl : roster = final := hdoes
    exact ⟨roster', rfl, bypassed⟩
  | cons act rest ih =>
    obtain ⟨mid, hact, hrest⟩ := hdoes
    obtain ⟨hreturned, hreturned'⟩ := List.forall_mem_cons.1 returned
    obtain ⟨mid', hact', hmid⟩ := h.does detours outside bypassed hreturned hact
    obtain ⟨final', hrest', hfinal⟩ := ih hmid hreturned' hrest
    exact ⟨final', ⟨mid', hact', hrest'⟩, hfinal⟩

variable [Admission ρ α]

/-- A whole traversal outside, given how the traversals run that hooks start. -/
lemma traverse (h : Bypassing inner P nested nested') (detours : behaviour.Detours inner P direct)
    (outside : ∀ visitor ∈ traverser.visitors, visitor ∉ inner)
    (bypassed : roster.Bypassed inner P roster') (stack : Nat) (nodes : List (Tree ρ α)) :
    let sweep := (traverser.walker behaviour nested).traverse stack nodes roster
    let sweep' := (traverser.walker direct nested').traverse stack nodes roster'
    sweep.halt ≠ some .overflowed →
    (traverser.walker direct nested').acts stack nodes roster' =
        (traverser.walker behaviour nested).acts stack nodes roster ∧
      sweep'.items = sweep.items ∧ sweep'.halt = sweep.halt ∧
      sweep.state.Bypassed inner P sweep'.state := by
  intro sweep sweep' returned
  obtain ⟨-, hrun, hdoes⟩ :=
    (traverser.walker behaviour nested).recorded_traverse stack nodes roster
  obtain ⟨final', hdoes', hfinal⟩ :=
    h.doesAll detours outside bypassed (hrun.spills.halted returned) hdoes
  have hsweep' : sweep' = ⟨sweep.items, sweep.halt, final'⟩ :=
    Walker.traverse_of_doesAll (by simp) (by simp) hdoes'
  rw [hsweep']
  exact ⟨Walker.acts_of_doesAll (by simp) (by simp) hdoes', rfl, rfl, hfinal⟩

end Bypassing

end Alongside

/-- Another run of a traversal comes to the same: the same becomes of the sequence, it ends in the
same way, and all visitors but the inner ones are left the same, with the same leases. -/
structure Sweep.SameOutside (inner : List Nat) (sweep sweep' : Sweep (Tree ρ α) (Roster ρ α V)) :
    Prop where
  items : sweep'.items = sweep.items
  halt : sweep'.halt = sweep.halt
  state : sweep.state.SameOutside inner sweep'.state

lemma Sweep.SameOutside.join {inner : List Nat}
    {sweep sweep' common : Sweep (Tree ρ α) (Roster ρ α V)} (h : sweep.SameOutside inner common)
    (h' : sweep'.SameOutside inner common) : sweep.SameOutside inner sweep' :=
  ⟨h'.items.symm.trans h.items, h'.halt.symm.trans h.halt, h.state.trans h'.state.symm⟩

namespace Traverser

lemma nest_bypassing [Admission ρ α] {inner : List Nat} {P : Nat → V → Prop}
    {behaviour direct : Behaviour ρ α V} (detours : behaviour.Detours inner P direct)
    (stack nesting : Nat) :
    Bypassing (ρ := ρ) (α := α) inner P (nest behaviour stack nesting)
      (nest direct stack nesting) := by
  induction nesting with
  | zero =>
    exact ⟨fun nodes inside conforms => nest_withinInner detours stack 0 inside conforms nodes,
      fun _ _ _ returned => absurd rfl returned⟩
  | succ nesting ih =>
    constructor
    · intro traverser roster nodes inside conforms
      exact nest_withinInner detours stack (nesting + 1) inside conforms nodes
    · intro traverser roster roster' nodes outside bypassed returned
      exact (ih.traverse detours outside bypassed stack nodes returned).2

/-- A traversal goes on as it would without the detours that hooks make on the way, whatever becomes
of these. The visitors on its list do the same acts, it comes to the same, and what is noted is the
same apart from the detours. So it makes no difference either if only some of the detours are left
out. -/
theorem nest_detours [Admission ρ α] {inner : List Nat} {P : Nat → V → Prop}
    {behaviour direct : Behaviour ρ α V} (detours : behaviour.Detours inner P direct)
    (stack nesting : Nat) {traverser : Traverser}
    (outside : ∀ visitor ∈ traverser.visitors, visitor ∉ inner) {roster : Roster ρ α V}
    (conforms : roster.Conforms P) (nodes : List (Tree ρ α)) :
    let acts := fun behaviour =>
      (traverser.walker behaviour (nest behaviour stack nesting)).acts stack nodes roster
    let swept := fun behaviour => nest behaviour stack (nesting + 1) traverser nodes roster
    (swept behaviour).result ≠ none →
    acts direct = acts behaviour ∧ (swept behaviour).SameOutside inner (swept direct) ∧
      Shortened inner (swept behaviour).state.journal.toList (swept direct).state.journal.toList ∧
      ∀ other : Behaviour ρ α V, other.Detours inner P direct → (swept other).result ≠ none →
        acts other = acts behaviour ∧ (swept behaviour).SameOutside inner (swept other) := by
  intro acts swept returned
  have start : roster.Bypassed inner P roster := ⟨.refl inner roster, conforms, .refl _⟩
  have hdirect : ∀ behaviour : Behaviour ρ α V, behaviour.Detours inner P direct →
      (swept behaviour).result ≠ none →
      acts direct = acts behaviour ∧ (swept behaviour).SameOutside inner (swept direct) ∧
        (swept behaviour).state.Bypassed inner P (swept direct).state := by
    intro behaviour detours returned
    rw [Ne, Sweep.result_eq_none_iff] at returned
    obtain ⟨hacts, hitems, hhalt, hstate⟩ :=
      (nest_bypassing detours stack nesting).traverse detours outside start stack nodes returned
    exact ⟨hacts, ⟨hitems, hhalt, hstate.same⟩, hstate⟩
  obtain ⟨hacts, hsame, hstate⟩ := hdirect behaviour detours returned
  refine ⟨hacts, hsame, hstate.journal, fun other detours' returned' => ?_⟩
  obtain ⟨hacts', hsame', -⟩ := hdirect other detours' returned'
  exact ⟨hacts'.symm.trans hacts, hsame.join hsame'⟩

/-- Two who ask an oracle, and the oracle itself, which was asked a number of times. -/
inductive Envoy where
  | scout
  | herald
  | oracle (asked : Nat)
deriving DecidableEq

/-- Scouts and heralds ask the visitor with number 2 when they are shown a node, but scouts only if
they are allowed to. A scout ignores the answer, a herald does not. An oracle answers no more than
once. -/
def consulting (scouting : Bool) : Behaviour Shape Unit Envoy where
  name := fun
    | .scout => "scout"
    | .herald => "herald"
    | .oracle _ => "oracle"
  node := fun
    | .leave, state, node => .finish { state := state, node := node }
    | .enter, .scout, node =>
      if scouting then
        .traverse { visitors := [2] } [{ tag := "Omen" }] fun _ =>
          .finish { state := .scout, node := node }
      else .finish { state := .scout, node := node }
    | .enter, .herald, node =>
      .traverse { visitors := [2] } [{ tag := "Omen" }] fun
        | .ok _ => .finish { state := .herald, node := node }
        | .error error =>
          .finish { state := .herald, node := node, answer := .error (.traversal error) }
    | .enter, .oracle asked, node => .finish
      { state := .oracle (asked + 1)
        node := node
        answer := if asked = 0 then .ok .keep else .error (.message "asked before") }

/-- The visitor with number 2 is an oracle, and all others are scouts. -/
def Envoy.Scouting (visitor : Nat) : Envoy → Prop
  | .scout => visitor ≠ 2
  | .herald => False
  | .oracle _ => visitor = 2

/-- A scout makes a detour when it asks the oracle. -/
lemma consulting_scouts : (consulting true).Detours [2] Envoy.Scouting (consulting false) where
  name := fun _ _ => rfl
  node := by
    rintro visitor (_ | _ | asked) hvisitor hstate (_ | _) node
    · exact .detour (fun _ => id) fun _ => .finish hstate
    · exact .finish hstate
    · cases hstate
    · cases hstate
    · exact absurd (List.mem_singleton.2 hstate) hvisitor
    · exact absurd (List.mem_singleton.2 hstate) hvisitor
  sequence := fun _ hstate _ _ => .finish hstate
  innerNode := by
    rintro visitor (_ | _ | asked) hvisitor hstate (_ | _) node
    · exact absurd (List.mem_singleton.1 hvisitor) hstate
    · exact absurd (List.mem_singleton.1 hvisitor) hstate
    · cases hstate
    · cases hstate
    · exact ⟨_, rfl, hstate⟩
    · exact ⟨_, rfl, hstate⟩
  innerSequence := fun _ hstate _ _ => ⟨_, rfl, hstate⟩

/-- Two scouts, whose detours make no difference even though the second one fails. -/
theorem consulting_detours :
    let roster : Roster Shape Unit Envoy := .ofList [.scout, .scout, .oracle 0]
    let swept := fun scouting =>
      nest (consulting scouting) 2 2 { visitors := [0, 1] } [{ tag := "Stmt_Echo" }] roster
    (swept true).SameOutside [2] (swept false) ∧
      (swept true).state.cells[2]?.map Cell.state = some (.oracle 2) ∧
      (swept false).state.cells[2]?.map Cell.state = some (.oracle 0) := by
  intro roster swept
  have conforms : roster.Conforms Envoy.Scouting := by
    intro visitor cell hcell
    rcases visitor with _ | _ | _ | visitor
    · obtain rfl := Option.some.inj hcell
      exact (by decide : 0 ≠ 2)
    · obtain rfl := Option.some.inj hcell
      exact (by decide : 1 ≠ 2)
    · obtain rfl := Option.some.inj hcell
      rfl
    · cases hcell
  let traverser : Traverser := { visitors := [0, 1] }
  have outside : ∀ visitor ∈ traverser.visitors, visitor ∉ [2] := by decide
  have returned : (swept true).result.isSome = true := by decide +kernel
  obtain ⟨-, hsame, -⟩ := nest_detours consulting_scouts 2 1 outside conforms
    [{ tag := "Stmt_Echo" }] (Option.isSome_iff_ne_none.1 returned)
  exact ⟨hsame, by decide +kernel, by decide +kernel⟩

/-- An oracle remembers that a scout has asked it. So the detour of a scout makes a difference,
though the scout ignores what comes of it, if afterwards a herald asks the oracle and does not. -/
theorem consulting_differs :
    let traverser : Traverser := { visitors := [0, 1] }
    let inner : Traverser := { visitors := [2] }
    let roster : Roster Shape Unit Envoy := .ofList [.scout, .herald, .oracle 0]
    let swept := fun scouting =>
      nest (consulting scouting) 2 2 traverser [{ tag := "Stmt_Echo" }] roster
    (∀ node, (consulting true).node .enter .scout node =
      .traverse inner [{ tag := "Omen" }] fun _ => (consulting false).node .enter .scout node) ∧
    (∀ hook state node, (hook, state) ≠ (.enter, .scout) →
      (consulting true).node hook state node = (consulting false).node hook state node) ∧
    (consulting true).sequence = (consulting false).sequence ∧
    (∀ scouting hook asked node, ∃ result,
      (consulting scouting).node hook (.oracle asked) node = .finish result) ∧
    (∀ visitor ∈ inner.visitors, visitor ∉ traverser.visitors ∧
      roster.lease visitor = some .free) ∧
    ((swept true).result.map Except.isOk, (swept false).result.map Except.isOk) =
      (some false, some true) := by
  intro traverser inner roster swept
  refine ⟨fun _ => rfl, ?_, rfl, ?_, by decide, by decide +kernel⟩
  · rintro (_ | _) (_ | _ | asked) node hother
    · exact absurd rfl hother
    all_goals rfl
  · rintro scouting (_ | _) asked node
    · exact ⟨_, rfl⟩
    · exact ⟨_, rfl⟩

end Traverser

end ForestWalk
