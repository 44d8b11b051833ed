import ForestWalk.Proofs.Ledger
import ForestWalk.Proofs.Visits
/-!
The log of a traversal tells where the nodes of the top-level sequence are. A mark is put on each
node that the walk starts from, and the removals and splices of the log are done again with the
marks alone. Every index is in range, and in the end each mark stands where the node stands in what
the walk has left, if the node is still there.
-/

namespace ForestWalk

variable {ρ α σ τ ι : Type}

namespace Event

/-- The name of the list of whose nodes the event tells that one was removed or spliced. -/
def list? : Event → Option String
  | .removed slot _ | .spliced slot _ _ => some slot
  | _ => none

/-- Does again with the entries of a list what the event tells of the nodes of the list with a name.
Nothing can be done where the index is out of range. What is put in has no mark. -/
def redo (slot : String) : Event → List (Option ι) → Option (List (Option ι))
  | .removed name index, entries =>
    if name ≠ slot then some entries
    else if index < entries.length then some (entries.eraseIdx index)
    else none
  | .spliced name index count, entries =>
    if name ≠ slot then some entries
    else if index < entries.length then
      some (entries.take index ++ List.replicate count none ++ entries.drop (index + 1))
    else none
  | _, entries => some entries

/-- Does the events of a log again, one after the other. -/
def replay (slot : String) (log : List Event) (entries : List (Option ι)) :
    Option (List (Option ι)) :=
  log.foldlM (fun entries event => event.redo slot entries) entries

variable {slot : String} {event : Event} {log more : List Event} {entries : List (Option ι)}

@[simp] theorem replay_nil : replay slot [] entries = some entries :=
  rfl

@[simp] theorem replay_append :
    replay slot (log ++ more) entries = (replay slot log entries).bind (replay slot more) :=
  List.foldlM_append

lemma redo_of_elsewhere (h : event.list? ≠ some slot) (entries : List (Option ι)) :
    event.redo slot entries = some entries := by
  cases event with
  | removed name index => exact if_pos fun hname => h (congrArg some hname)
  | spliced name index count => exact if_pos fun hname => h (congrArg some hname)
  | _ => rfl

/-- What happens in other lists does not matter. -/
lemma replay_of_elsewhere (h : ∀ event ∈ log, event.list? ≠ some slot)
    (entries : List (Option ι)) : replay slot log entries = some entries := by
  induction log with
  | nil => rfl
  | cons event rest ih =>
    obtain ⟨hevent, hrest⟩ := List.forall_mem_cons.1 h
    rw [replay, List.foldlM_cons, redo_of_elsewhere hevent]
    exact ih hrest

end Event

namespace Fate

/-- The node, where it is left in its place. -/
def left? : Fate τ → Option τ
  | .keep left | .halt left _ => some left
  | .remove | .splice _ => none

/-- The entries that take the place of that of a node with a mark. -/
def entries (mark : ι) : Fate τ → List (Option ι)
  | .keep _ | .halt _ _ => [some mark]
  | .remove => []
  | .splice new => List.replicate new.length none

lemma length_entries {fate : Fate τ} {given : List τ} (part : fate.contribution = some given)
    (mark : ι) : (fate.entries mark).length = given.length := by
  cases fate with
  | halt left why => cases part
  | _ =>
    obtain rfl := Option.some.inj part
    simp [entries]

/-- What is told of a node is done to its entry. -/
lemma replay_event {fate : Fate τ} {given : List τ} (part : fate.contribution = some given)
    (slot : String) (front rest : List (Option ι)) (mark : ι) :
    Event.replay slot (fate.event slot front.length).toList (front ++ some mark :: rest) =
      some (front ++ fate.entries mark ++ rest) := by
  cases fate with
  | keep left => simp [event, entries]
  | remove =>
    simp [event, entries, Event.replay, Event.redo, List.eraseIdx_append_of_length_le]
  | splice new =>
    simp [event, entries, Event.replay, Event.redo]
  | halt left why => cases part

end Fate

section Standing

/-- The marks of a list with the items that they stand at. -/
def standing (marks : List (Option ι)) (items : List τ) : List (ι × τ) :=
  (marks.zip items).filterMap fun (mark, item) => mark.map (·, item)

/-- The items that are left of a list, with their marks. -/
def staying (marks : List ι) (left : List (Option τ)) : List (ι × τ) :=
  (marks.zip left).filterMap fun (mark, item) => item.map (mark, ·)

@[simp] theorem standing_append {marks more : List (Option ι)} {items others : List τ}
    (h : marks.length = items.length) :
    standing (marks ++ more) (items ++ others) = standing marks items ++ standing more others := by
  rw [standing, List.zip_append h, List.filterMap_append]
  rfl

@[simp] theorem standing_map_some (marks : List ι) (items : List τ) :
    standing (marks.map some) items = marks.zip items := by
  simp [standing, List.zip_map_left, List.filterMap_map]

@[simp] theorem staying_map_some (marks : List ι) (items : List τ) :
    staying marks (items.map some) = marks.zip items := by
  simp [staying, List.zip_map_right, List.filterMap_map]

@[simp] theorem staying_cons (mark : ι) (marks : List ι) (item : Option τ)
    (left : List (Option τ)) :
    staying (mark :: marks) (item :: left) =
      (item.map (mark, ·)).toList ++ staying marks left := by
  cases item <;> simp [staying]

/-- The entries of a node stand at what it gives. -/
lemma standing_entries {fate : Fate τ} {given : List τ} (part : fate.contribution = some given)
    (mark : ι) : standing (fate.entries mark) given = (fate.left?.map (mark, ·)).toList := by
  cases fate with
  | halt left why => cases part
  | keep left =>
    obtain rfl := Option.some.inj part
    rfl
  | remove => rfl
  | splice new =>
    refine List.filterMap_eq_nil_iff.2 ?_
    rintro ⟨mark, item⟩ hmem
    obtain rfl := List.eq_of_mem_replicate (List.of_mem_zip hmem).1
    rfl

lemma mem_standing {marks : List (Option ι)} {items : List τ} {mark : ι} {item : τ} :
    (mark, item) ∈ standing marks items ↔
      ∃ index : Nat, marks[index]? = some (some mark) ∧ items[index]? = some item := by
  rw [standing, List.mem_filterMap]
  simp only [Prod.exists, List.mem_iff_getElem?, List.getElem?_zip_eq_some]
  constructor
  · rintro ⟨found, other, ⟨index, hmark, hitem⟩, hfound⟩
    obtain ⟨other, rfl, hpair⟩ := Option.map_eq_some_iff.1 hfound
    obtain ⟨rfl, rfl⟩ := Prod.mk.inj hpair
    exact ⟨index, hmark, hitem⟩
  · rintro ⟨index, hmark, hitem⟩
    exact ⟨some mark, item, ⟨index, hmark, hitem⟩, rfl⟩

lemma mem_staying_range {left : List (Option τ)} {index : Nat} {item : τ} :
    (index, item) ∈ staying (List.range left.length) left ↔ left[index]? = some (some item) := by
  rw [staying, List.mem_filterMap]
  simp only [Prod.exists, List.mem_iff_getElem?, List.getElem?_zip_eq_some]
  constructor
  · rintro ⟨mark, found, ⟨place, hmark, hitem⟩, hfound⟩
    obtain ⟨other, rfl, hpair⟩ := Option.map_eq_some_iff.1 hfound
    obtain ⟨rfl, rfl⟩ := Prod.mk.inj hpair
    obtain ⟨hlt, rfl⟩ := List.getElem?_eq_some_iff.1 hmark
    rwa [List.getElem_range]
  · intro hitem
    obtain ⟨hlt, -⟩ := List.getElem?_eq_some_iff.1 hitem
    exact ⟨index, some item, ⟨index, List.getElem?_range hlt, hitem⟩, rfl⟩

end Standing

namespace Walker

variable (walker : Walker ρ α σ)

/-- What is left of each node of a list when it is walked. A node that is removed or spliced is not
left, and after a node at which the walk is broken off all are left. -/
def leftovers (visit : Tree ρ α → σ → Fate (Tree ρ α) × σ) (slot : String) :
    Nat → List (Tree ρ α) → σ → List (Option (Tree ρ α))
  | _, [], _ => []
  | emitted, node :: rest, state =>
    match visit node state with
    | (.halt left _, _) => some left :: rest.map some
    | (fate, state) =>
      fate.left? :: leftovers visit slot (emitted + (fate.contribution.getD []).length) rest
        (walker.tell (fate.event slot emitted) state)

/-- What is left of each node of the top-level sequence. -/
def leftoversTop [Admission ρ α] (stack : Nat) (nodes : List (Tree ρ α)) (state : σ) :
    List (Option (Tree ρ α)) :=
  walker.leftovers (walker.visit (walker.room stack) 0 .topLevel) topLevelName 0 nodes state

variable {walker} {visit : Tree ρ α → σ → Fate (Tree ρ α) × σ} {slot : String}

lemma leftovers_cons {emitted : Nat} {node : Tree ρ α} {rest given : List (Tree ρ α)}
    {state after : σ} {fate : Fate (Tree ρ α)} (visited : visit node state = (fate, after))
    (part : fate.contribution = some given) :
    walker.leftovers visit slot emitted (node :: rest) state =
      fate.left? :: walker.leftovers visit slot (emitted + given.length) rest
        (walker.tell (fate.event slot emitted) after) := by
  cases fate with
  | halt left why => cases part
  | _ => simp [leftovers, visited, part]

lemma length_leftovers (emitted : Nat) (nodes : List (Tree ρ α)) (state : σ) :
    (walker.leftovers visit slot emitted nodes state).length = nodes.length := by
  induction nodes generalizing emitted state with
  | nil => rfl
  | cons node rest ih =>
    rcases hvisit : visit node state with ⟨fate, after⟩
    cases fate <;> simp [leftovers, hvisit, ih]

end Walker

/-- No slot of the node in hand after the call goes by the name. -/
def Act.Shuns (name : String) : Act ρ α → Prop
  | .node _ _ _ shown reply => ∀ slot ∈ (reply.inHand shown).slots, slot.rule.name ≠ name
  | .event _ | .sequence .. => True

instance (name : String) (act : Act ρ α) : Decidable (act.Shuns name) :=
  match act with
  | .node _ _ _ shown reply =>
    inferInstanceAs (Decidable (∀ slot ∈ (reply.inHand shown).slots, slot.rule.name ≠ name))
  | .event _ | .sequence .. => inferInstanceAs (Decidable True)

section Elsewhere

variable {name : String}

/-- If the nodes in hand have no slots that go by the name, then all that is told of lists is of
other lists. -/
def Elsewhere (name : String) (run : Tree ρ α → List (Act ρ α) → Fate (Tree ρ α) → Prop) : Prop :=
  ∀ {node acts fate}, run node acts fate → (∀ act ∈ acts, act.Shuns name) →
    ∀ event ∈ Act.log acts, event.list? ≠ some name

lemma Fate.list?_of_event {fate : Fate τ} {slot : String} {number : Nat} {event : Event}
    (h : fate.event slot number = some event) : event.list? = some slot := by
  cases fate with
  | keep | halt => cases h
  | remove | splice =>
    cases h
    rfl

lemma ListRun.elsewhere {run : Tree ρ α → List (Act ρ α) → Fate (Tree ρ α) → Prop}
    (h : Elsewhere name run) {slot : String} (other : slot ≠ name) {emitted : Nat}
    {nodes items : List (Tree ρ α)} {acts : List (Act ρ α)} {halt : Option Halt}
    (hrun : ListRun run slot emitted nodes acts items halt)
    (shuns : ∀ act ∈ acts, act.Shuns name) :
    ∀ event ∈ Act.log acts, event.list? ≠ some name := by
  induction hrun with
  | nil emitted => simp
  | cons visited part others ih =>
    simp only [List.forall_mem_append] at shuns
    simp only [Act.log_append, Act.log_telling, List.forall_mem_append]
    refine ⟨⟨h visited shuns.1.1, fun event hevent => ?_⟩, ih shuns.2⟩
    rw [Fate.list?_of_event (Option.mem_toList.1 hevent)]
    exact fun heq => other (Option.some.inj heq)
  | halt visited => exact h visited shuns

variable {run : Place ρ → Tree ρ α → List (Act ρ α) → Fate (Tree ρ α) → Prop}

lemma ContentRun.elsewhere (h : ∀ place, Elsewhere name (run place)) {rule : Rule ρ}
    (other : rule.name ≠ name) {content left : Content α (Tree ρ α)} {acts : List (Act ρ α)}
    {halt : Option Halt} (hrun : ContentRun run rule content acts left halt)
    (shuns : ∀ act ∈ acts, act.Shuns name) :
    ∀ event ∈ Act.log acts, event.list? ≠ some name := by
  cases hrun with
  | vacant | value => simp
  | kept visited | spliced visited | halt visited => exact h _ visited shuns
  | cleared visited =>
    rw [Act.log_append]
    exact List.forall_mem_append.2
      ⟨h _ visited (List.forall_mem_append.1 shuns).1, by simp [Event.list?]⟩
  | list walked => exact walked.elsewhere (h _) other shuns

lemma SlotsRun.elsewhere (h : ∀ place, Elsewhere name (run place))
    {slots items : List (Slot ρ α (Tree ρ α))} (other : ∀ slot ∈ slots, slot.rule.name ≠ name)
    {acts : List (Act ρ α)} {halt : Option Halt} (hrun : SlotsRun run slots acts items halt)
    (shuns : ∀ act ∈ acts, act.Shuns name) :
    ∀ event ∈ Act.log acts, event.list? ≠ some name := by
  induction hrun with
  | nil => simp
  | cons walked others ih =>
    obtain ⟨hslot, hrest⟩ := List.forall_mem_cons.1 other
    obtain ⟨hwalk, hothers⟩ := List.forall_mem_append.1 shuns
    rw [Act.log_append]
    exact List.forall_mem_append.2 ⟨walked.elsewhere h hslot hwalk, ih hrest hothers⟩
  | halt walked => exact walked.elsewhere h (List.forall_mem_cons.1 other).1 shuns

variable [Admission ρ α] {options : Options} {count : Nat}

/-- A node that is walked into is the one in hand after the last call. -/
lemma ConsultRun.shuns {hook : NodeHook} {place : Place ρ} {index : Nat} {node mid : Tree ρ α}
    {acts : List (Act ρ α)}
    (hrun : ConsultRun options count hook place index node acts (.proceed mid))
    (called : index < count) (shuns : ∀ act ∈ acts, act.Shuns name) :
    ∀ slot ∈ mid.slots, slot.rule.name ≠ name := by
  generalize proceeds : Verdict.proceed mid = verdict at hrun
  induction hrun with
  | done node => exact absurd called (Nat.lt_irrefl _)
  | @pass index caller node next reply event acts verdict inRange judged others ih =>
    obtain ⟨hcall, hrest⟩ := List.forall_mem_cons.1 shuns
    obtain ⟨-, hothers⟩ := List.forall_mem_append.1 hrest
    by_cases hnext : index + 1 < count
    · exact ih hnext hothers proceeds
    · cases others with
      | done =>
        obtain rfl := Verdict.proceed.inj proceeds
        rw [← NodeReply.inHand_eq rfl judged]
        exact hcall
      | pass inRange | settle inRange => exact absurd inRange hnext
  | settle inRange judged settled => exact absurd proceeds.symm (settled _)

/-- While visitors are asked about a node nothing is told of a list. -/
lemma ConsultRun.list?_eq_none {hook : NodeHook} {place : Place ρ} {index : Nat}
    {node : Tree ρ α} {acts : List (Act ρ α)} {verdict : Verdict (Tree ρ α)}
    (hrun : ConsultRun options count hook place index node acts verdict) :
    ∀ event ∈ Act.log acts, event.list? = none := by
  have hjudge : ∀ {index name} {node : Tree ρ α} {reply verdict event},
      options.judge hook place ⟨.node hook, index, name⟩ node reply = (verdict, event) →
      ∀ told ∈ event.toList, told.list? = none := by
    intro index name node reply verdict event judged told htold
    rw [Option.mem_toList] at htold
    obtain ⟨left, directive, -, -, -, -, rfl⟩ | ⟨-, -, rfl⟩ | ⟨error, -, -, hwarn, -⟩ :=
      Options.judge_cases rfl judged
    · cases directive with
      | replace new =>
        cases htold
        rfl
      | _ => cases htold
    · cases htold
    · have hlevel := hwarn told htold
      cases told with
      | removed | spliced => cases hlevel
      | _ => rfl
  induction hrun with
  | done node => simp
  | pass inRange judged others ih =>
    rw [Act.log_node, Act.log_append, Act.log_telling]
    exact List.forall_mem_append.2 ⟨hjudge judged, ih⟩
  | settle inRange judged settled =>
    rw [Act.log_node, Act.log_telling]
    exact hjudge judged

lemma VisitRun.elsewhere {below : Place ρ → Tree ρ α → List (Act ρ α) → Fate (Tree ρ α) → Prop}
    (h : ∀ place, Elsewhere name (below place)) (called : 0 < count) (depth : Nat)
    (place : Place ρ) : Elsewhere name (VisitRun options count below depth place) := by
  intro node acts fate hrun shuns
  have hconsult : ∀ {hook} {node : Tree ρ α} {acts verdict},
      ConsultRun options count hook place 0 node acts verdict →
      ∀ event ∈ Act.log acts, event.list? ≠ some name := by
    intro hook node acts verdict hrun event hevent
    simp [hrun.list?_eq_none event hevent]
  cases hrun with
  | tooDeep exceeded => simp [Event.list?]
  | walked allowed entered descended left =>
    simp only [List.forall_mem_append] at shuns
    simp only [Act.log_append, List.forall_mem_append]
    have hslots := entered.shuns called shuns.1.1
    exact ⟨⟨hconsult entered, descended.elsewhere h hslots shuns.1.2⟩, hconsult left⟩
  | broken allowed entered descended =>
    simp only [List.forall_mem_append] at shuns
    simp only [Act.log_append, List.forall_mem_append]
    have hslots := entered.shuns called shuns.1
    exact ⟨hconsult entered, descended.elsewhere h hslots shuns.2⟩
  | skipped allowed entered left =>
    simp only [Act.log_append, List.forall_mem_append]
    exact ⟨hconsult entered, hconsult left⟩
  | settled allowed entered proceeds skips => exact hconsult entered

lemma NodeRun.elsewhere (called : 0 < count) (room depth : Nat) (place : Place ρ) :
    Elsewhere (α := α) name (NodeRun options count room depth place) := by
  induction room generalizing depth place with
  | zero =>
    rintro node acts fate ⟨rfl, -⟩ -
    simp
  | succ room ih => exact VisitRun.elsewhere (fun place => ih (depth + 1) place) called depth place

end Elsewhere

section Tracking

variable {walker : Walker ρ α σ} {visit : Tree ρ α → σ → Fate (Tree ρ α) × σ} {slot : String}

open Moment

/-- The trails of a node tell what visiting it does, and what is told in them is of other lists. -/
structure Trackable (walker : Walker ρ α σ) (visit : Tree ρ α → σ → Fate (Tree ρ α) × σ)
    (slot : String) (trail : Nat → Tree ρ α → List (Moment ρ α) → Fate (Tree ρ α) → Prop) :
    Prop where
  determined : ∀ {number node moments fate}, trail number node moments fate →
    ∀ {state final}, walker.DoesAll (acts moments) state final → visit node state = (fate, final)
  elsewhere : ∀ {number node moments fate}, trail number node moments fate →
    (∀ act ∈ acts moments, act.Shuns slot) →
    ∀ event ∈ Act.log (acts moments), event.list? ≠ some slot

/-- While a list is walked, what the log tells can be done with the entries of the list, of which
those in front are of nodes that the walk has left behind. Then the marks of the nodes that are left
stand at these. -/
lemma ListTrail.tracked {trail : Nat → Tree ρ α → List (Moment ρ α) → Fate (Tree ρ α) → Prop}
    (h : Trackable walker visit slot trail) {emitted : Nat} {nodes items : List (Tree ρ α)}
    {moments : List (Moment ρ α)} {halt : Option Halt}
    (htrail : ListTrail trail slot emitted nodes moments items halt)
    (shuns : ∀ act ∈ acts moments, act.Shuns slot) {state final : σ}
    (hdoes : walker.DoesAll (acts moments) state final) {marks : List ι}
    (marked : marks.length = nodes.length) {front : List (Option ι)}
    (passed : front.length = emitted) :
    ∃ entries, Event.replay slot (Act.log (acts moments)) (front ++ marks.map some) =
        some (front ++ entries) ∧ entries.length = items.length ∧
      standing entries items = staying marks (walker.leftovers visit slot emitted nodes state) := by
  induction htrail generalizing state marks front with
  | nil emitted =>
    obtain rfl := List.length_eq_zero_iff.1 marked
    exact ⟨[], rfl, rfl, rfl⟩
  | @cons emitted node rest given items fate moments more halt visited part others ih =>
    obtain _ | ⟨mark, marks⟩ := marks
    · cases marked
    rw [acts_append, acts_append, acts_telling] at hdoes shuns ⊢
    simp only [List.forall_mem_append] at shuns
    obtain ⟨⟨hmoments, -⟩, hmore⟩ := shuns
    obtain ⟨_, hfirst, hlater⟩ := walker.doesAll_append.1 hdoes
    obtain ⟨mid, hvisit, htell⟩ := walker.doesAll_append.1 hfirst
    obtain rfl := walker.doesAll_telling.1 htell
    -- The entries of the node join the front, whose length is the index that is told next.
    have hlength : (front ++ fate.entries mark).length = emitted + given.length := by
      rw [List.length_append, passed, Fate.length_entries part]
    obtain ⟨entries, hreplay, hentries, hstanding⟩ :=
      ih hmore hlater (Nat.succ.inj marked) hlength
    refine ⟨fate.entries mark ++ entries, ?_, ?_, ?_⟩
    · subst passed
      rw [Act.log_append, Act.log_append, Act.log_telling, Event.replay_append,
        Event.replay_append, List.map_cons,
        Event.replay_of_elsewhere (h.elsewhere visited hmoments), Option.bind_some,
        Fate.replay_event part, Option.bind_some, hreplay, List.append_assoc]
    · rw [List.length_append, List.length_append, Fate.length_entries part, hentries]
    · rw [standing_append (Fate.length_entries part mark), standing_entries part, hstanding,
        Walker.leftovers_cons (h.determined visited hvisit) part, staying_cons]
  | @halt emitted node left rest moments why visited =>
    obtain _ | ⟨mark, marks⟩ := marks
    · cases marked
    refine ⟨some mark :: marks.map some, ?_, ?_, ?_⟩
    · rw [Event.replay_of_elsewhere (h.elsewhere visited shuns), List.map_cons]
    · simpa using marked
    · have hleft : walker.leftovers visit slot emitted (node :: rest) state =
          some left :: rest.map some := by
        simp only [Walker.leftovers, h.determined visited hdoes]
      rw [hleft, staying_cons, staying_map_some, ← List.map_cons, standing_map_some]
      rfl

section Walks

variable [Admission ρ α] {options : Options} {count : Nat}

/-- An entry that is of nodes in a list is due at a call with a node of this list. -/
lemma Moment.exists_call_of_due {base : Nat} {moment : Moment ρ α} {event : Event} {name : String}
    (h : moment.due options base = some event) (listed : event.list? = some name) :
    ∃ spot act, moment = .acted (some spot) act ∧ act.callsNode = true ∧
      spot.place.rule.name = name := by
  have hedit : moment.edit options = some event := by
    have hlevel : event.level = .trace := by
      cases event with
      | removed | spliced => rfl
      | _ => cases listed
    rw [← moment.filter_due_trace, h]
    simp [hlevel]
  obtain ⟨spot, index, caller, hook, shown, left, directive, rfl, -, -, hentry⟩ |
      ⟨_, _, _, _, _, _, -, rfl⟩ := edit_cases hedit
  · refine ⟨spot, _, rfl, rfl, ?_⟩
    cases directive with
    | keep | skipChildren | stop => cases hentry
    | replace new =>
      cases hentry
      cases listed
    | splice new =>
      cases hentry
      exact Option.some.inj listed
    | remove =>
      obtain rfl := Option.some.inj hentry
      cases hposition : spot.place.position with
      | single => simp [Place.removal, hposition, Event.list?] at listed
      | topLevel | list => simpa [Place.removal, hposition, Event.list?] using listed
  · cases listed

/-- Where nobody is called with a node nothing falls due of a list. -/
lemma Moment.list?_eq_none_of_quiet {base : Nat} {moments : List (Moment ρ α)}
    (quiet : ∀ act ∈ acts moments, act.callsNode = false) :
    ∀ event ∈ moments.filterMap (due options base), event.list? = none := by
  intro event hevent
  obtain ⟨moment, hmem, hdue⟩ := List.mem_filterMap.1 hevent
  rcases listed : event.list? with _ | name
  · rfl
  · obtain ⟨spot, act, rfl, hcalls, -⟩ := exists_call_of_due hdue listed
    rw [quiet act (mem_acts.2 ⟨_, hmem⟩)] at hcalls
    cases hcalls

omit [Admission ρ α] in
/-- The end of a traversal tells of no list. -/
lemma list?_of_mem_closing {halt : Option Halt} {items : List (Tree ρ α)} :
    ∀ event ∈ closing halt items, event.list? = none := by
  intro event hevent
  obtain ⟨-, rfl⟩ := mem_closing.1 hevent
  rfl

lemma NodeTrail.elsewhere {slot : String} {room depth : Nat} {place : Place ρ} {number : Nat}
    {node : Tree ρ α} {moments : List (Moment ρ α)} {fate : Fate (Tree ρ α)}
    (htrail : NodeTrail options count room depth place number node moments fate)
    (shuns : ∀ act ∈ acts moments, act.Shuns slot) :
    ∀ event ∈ Act.log (acts moments), event.list? ≠ some slot := by
  have hrun := (NodeRun.trodden room depth place).run_acts htrail
  rcases Nat.eq_zero_or_pos count with rfl | called
  -- Where there are no visitors nothing becomes of any node.
  · have hquiet : ∀ act ∈ acts moments, act.callsNode = false :=
      hrun.forall_walking (fun _ _ => rfl) fun inRange => absurd inRange (Nat.not_lt_zero _)
    intro event hevent
    have hdue : event ∈ moments.filterMap (Moment.due options depth) := by
      rw [(NodeTrail.booked room depth place).due htrail]
      exact List.mem_append_left _ hevent
    simp [list?_eq_none_of_quiet hquiet event hdue]
  · exact NodeRun.elsewhere called room depth place hrun shuns

lemma NodeTrail.trackable {walker : Walker ρ α σ} (room depth : Nat) (place : Place ρ)
    (slot : String) :
    Trackable walker (walker.visit room depth place) slot
      (NodeTrail walker.options walker.visitors.length room depth place) where
  determined := fun htrail _ _ hdoes =>
    (walker.visit_obeys room depth place).determined
      ((NodeRun.trodden room depth place).run_acts htrail) hdoes
  elsewhere := NodeTrail.elsewhere

namespace Walker

variable {walker : Walker ρ α σ} {stack : Nat} {nodes : List (Tree ρ α)} {state : σ}
  {trail : List (Moment ρ α)}

/-- Where a visitor objects at once nothing is told of a list. -/
lemma Leaves.list?_eq_none (h : walker.Leaves stack nodes state trail)
    (objected : (walker.opening nodes state).halt ≠ none) :
    ∀ event ∈ Act.log (Moment.acts trail), event.list? = none := by
  obtain ⟨-, hquiet⟩ | ⟨opened, -⟩ := h.walk
  · rw [h.trodden.log]
    exact List.forall_mem_cons.2 ⟨rfl, List.forall_mem_append.2
      ⟨Moment.list?_eq_none_of_quiet hquiet, list?_of_mem_closing⟩⟩
  · exact absurd opened objected

/-- The walk in the trail of a traversal that no visitor objects to at once, and its part of the
log. In the other parts nothing is told of a list. -/
lemma Leaves.exists_walk (h : walker.Leaves stack nodes state trail)
    (opened : (walker.opening nodes state).halt = none) :
    let start := walker.opening nodes state
    let walked := walker.walkTop stack start.items start.state
    ∃ walk before later, (∀ act ∈ Moment.acts walk, act ∈ Moment.acts trail) ∧
      TopTrail walker.options walker.visitors.length (walker.room stack) start.items walk
        walked.items walked.halt ∧
      walker.DoesAll (Moment.acts walk) start.state walked.state ∧
      Act.log (Moment.acts trail) = before ++ (Act.log (Moment.acts walk) ++ later) ∧
      (∀ event ∈ before, event.list? = none) ∧ ∀ event ∈ later, event.list? = none := by
  obtain ⟨shown, start, halted, hshown, hparts⟩ := h.trodden.parts
  obtain ⟨hobjected, hacts⟩ |
      ⟨rfl, front, walk, last, mid, halt, rfl, hfront, htop, hquiet, -⟩ := hparts
  · have hall := h.acts_eq
    rw [hacts, ← List.append_nil (_ :: _)] at hall
    obtain ⟨final, hopen, -⟩ := exists_opening_eq hshown hall.symm
    rw [hopen] at opened
    exact absurd opened hobjected
  · have hall := h.acts_eq
    rw [Moment.acts_append, Moment.acts_append, hfront, List.append_assoc] at hall
    obtain ⟨final, hopen, hrest⟩ := exists_opening_eq hshown hall.symm
    obtain ⟨after, hdoes, -⟩ := walker.doesAll_append.1 hrest
    have hrun := ListTrail.run_acts (NodeRun.trodden _ 0 .topLevel) htop
    simp only [hopen, walker.walkTop_determined hrun hdoes]
    refine ⟨walk, .started nodes.length walker.visitors.length ::
        front.filterMap (Moment.due walker.options 0),
      (halt.bind Halt.due).toList ++ (last.filterMap (Moment.due walker.options 0) ++
        closing (walker.traverse stack nodes state).halt (walker.traverse stack nodes state).items),
      fun act hact => by simp [hact], htop, hdoes, ?_, ?_, ?_⟩
    · rw [h.trodden.log]
      simp [TopTrail.due htop]
    · refine List.forall_mem_cons.2 ⟨rfl, Moment.list?_eq_none_of_quiet ?_⟩
      rw [hfront]
      exact List.forall_mem_cons.2 ⟨rfl, hshown.callsNode⟩
    · refine List.forall_mem_append.2 ⟨fun event hevent => ?_, List.forall_mem_append.2
        ⟨Moment.list?_eq_none_of_quiet hquiet, list?_of_mem_closing⟩⟩
      obtain ⟨why, -, hdue⟩ := Option.bind_eq_some_iff.1 (Option.mem_toList.1 hevent)
      cases why with
      | stopped =>
        cases hdue
        rfl
      | failed | overflowed => cases hdue

/-- The log of a traversal tells where the nodes of the sequence are that the walk starts from,
provided that no slot of a node goes by the name of the sequence. All removals and splices of the
log can be done again with marks in the place of the nodes. In the end each mark is in the place of
the node in what the walk has left, and the marks are those of the nodes that are left. -/
theorem Leaves.tracked (h : walker.Leaves stack nodes state trail)
    (shuns : ∀ act ∈ Moment.acts trail, act.Shuns topLevelName) :
    let start := walker.opening nodes state
    let walked := walker.walkTop stack start.items start.state
    let left := walker.leftoversTop stack start.items start.state
    ∃ entries, Event.replay topLevelName (Act.log (Moment.acts trail))
        ((List.range start.items.length).map some) = some entries ∧
      (start.halt = none → entries.length = walked.items.length ∧
        ∀ mark item, left[mark]? = some (some item) ↔ ∃ index : Nat,
          entries[index]? = some (some mark) ∧ walked.items[index]? = some item) := by
  intro start walked left
  have helsewhere : ∀ {events : List Event}, (∀ event ∈ events, event.list? = none) →
      ∀ event ∈ events, event.list? ≠ some topLevelName := by
    intro events hevents event hevent
    simp [hevents event hevent]
  rcases opened : start.halt with _ | why
  · obtain ⟨walk, before, later, hwalk, htop, hdoes, hlog, hbefore, hlater⟩ :=
      h.exists_walk opened
    obtain ⟨entries, hreplay, hlength, hstanding⟩ := ListTrail.tracked
      (NodeTrail.trackable (walker.room stack) 0 .topLevel topLevelName) htop
      (fun act hact => shuns act (hwalk act hact)) hdoes
      (List.length_range : (List.range start.items.length).length = start.items.length)
      (rfl : ([] : List (Option Nat)).length = 0)
    rw [List.nil_append, List.nil_append] at hreplay
    refine ⟨entries, ?_, fun _ => ⟨hlength, fun mark item => ?_⟩⟩
    · rw [hlog, Event.replay_append, Event.replay_of_elsewhere (helsewhere hbefore),
        Option.bind_some, Event.replay_append, hreplay, Option.bind_some,
        Event.replay_of_elsewhere (helsewhere hlater)]
    · have hrange : left.length = start.items.length := length_leftovers _ _ _
      rw [← mem_standing, hstanding, ← hrange]
      exact mem_staying_range.symm
  · have hquiet := h.list?_eq_none (opened ▸ Option.some_ne_none why)
    exact ⟨_, Event.replay_of_elsewhere (helsewhere hquiet) _,
      fun he => absurd he (Option.some_ne_none why)⟩

end Walker

end Walks

end Tracking

end ForestWalk
