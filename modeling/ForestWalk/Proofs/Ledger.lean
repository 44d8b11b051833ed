import ForestWalk.Proofs.Refusals
import ForestWalk.Proofs.Stopping
/-!
The log of a traversal as a ledger of its trail. At a moment at most one entry falls due: that of an
edit which is applied, the warning of a failure which the traversal finds itself, or that a visitor
has stopped the walk. What is made known from the start of the traversal to its end is just what
falls due, in the same order, although a removal, a splice or a stop is made known only when the
walk is back at the list.
-/

namespace ForestWalk

variable {ρ α σ : Type}

namespace Act

/-- What an act makes known. -/
def told? : Act ρ α → Option Event
  | .event told => some told
  | .node .. | .sequence .. => none

/-- What acts make known, in order. -/
def log (acts : List (Act ρ α)) : List Event :=
  acts.filterMap told?

@[simp] theorem log_nil : log ([] : List (Act ρ α)) = [] :=
  rfl

@[simp] theorem log_event (event : Event) (acts : List (Act ρ α)) :
    log (.event event :: acts) = event :: log acts :=
  rfl

@[simp] theorem log_node (index : Nat) (name : String) (hook : NodeHook) (shown : Tree ρ α)
    (reply : NodeReply ρ α) (acts : List (Act ρ α)) :
    log (.node index name hook shown reply :: acts) = log acts :=
  rfl

@[simp] theorem log_sequence (index : Nat) (name : String) (hook : SequenceHook)
    (nodes : List (Tree ρ α)) (reply : SequenceReply ρ α) (acts : List (Act ρ α)) :
    log (.sequence index name hook nodes reply :: acts) = log acts :=
  rfl

@[simp] theorem log_append (acts more : List (Act ρ α)) :
    log (acts ++ more) = log acts ++ log more :=
  List.filterMap_append

@[simp] theorem log_telling (event : Option Event) :
    log (telling event : List (Act ρ α)) = event.toList := by
  cases event <;> rfl

end Act

/-- Tells that the node with a number was taken out of a place. -/
def Place.removal (place : Place ρ) (number : Nat) : Event :=
  match place.position with
  | .single => .cleared place.rule.name
  | .topLevel | .list => .removed place.rule.name number

/-- Tells of the edit that a directive asks for, given for the node with a number in a place. -/
def Directive.edit (hook : NodeHook) (place : Place ρ) (number : Nat) (left : Tree ρ α) :
    Directive (Tree ρ α) → Option Event
  | .replace new => some (.nodeReplaced hook left.tag new.tag)
  | .remove => some (place.removal number)
  | .splice new => some (.spliced place.rule.name number new.length)
  | .keep | .skipChildren | .stop => none

namespace Act

section Entries

variable [Admission ρ α] (options : Options)

/-- The entry for the edit of the node with a number in a place. It is applied if the directive is
legal and the slot accepts the nodes that are brought along. -/
def nodeEdit (place : Place ρ) (number : Nat) : Act ρ α → Option Event
  | .node _ _ hook _ (.answered left directive) =>
    if directive.legal hook place.position ∧
        (options.firstRefused place.rule directive.carried).isNone then
      directive.edit hook place number left
    else none
  | _ => none

omit [Admission ρ α] in
/-- The entry for the replacement of the top-level sequence. -/
def sequenceEdit : Act ρ α → Option Event
  | .sequence index _ hook nodes (.answered (some new)) =>
    some (.sequenceReplaced hook index nodes.length new.length)
  | _ => none

omit [Admission ρ α] in
/-- Warns that the visitor is lent. -/
def refusal : Act ρ α → Option Event
  | .node index _ hook _ .unavailable => some (.unavailable index (.node hook))
  | .sequence index _ hook _ .unavailable => some (.unavailable index (.sequence hook))
  | _ => none

omit [Admission ρ α] in
/-- Warns that the directive is not legal. -/
def misuse (place : Place ρ) : Act ρ α → Option Event
  | .node _ _ hook _ (.answered left directive) =>
    if directive.legal hook place.position then none
    else some (.illegalDirective directive.name hook place.position left.tag)
  | _ => none

end Entries

end Act

namespace Moment

section Entries

variable [Admission ρ α] (options : Options)

/-- The entry for the edit that is applied at a moment. -/
def edit : Moment ρ α → Option Event
  | .reached _ _ => none
  | .acted spot act =>
    (spot.bind fun spot => act.nodeEdit options spot.place spot.address.number).or act.sequenceEdit

omit [Admission ρ α] in
/-- The warning of a failure that the traversal finds itself: a node is too deep, where depth is
counted from a base, or a visitor is lent, or a directive is not legal. -/
def warning (base : Nat) : Moment ρ α → Option Event
  | .reached spot node =>
    (options.exceededAt (base + spot.address.depth)).map fun limit => .tooDeep limit node.tag
  | .acted spot act => act.refusal.or (spot.bind fun spot => act.misuse spot.place)

omit [Admission ρ α] in
/-- The entry for the answer of a visitor that asks to walk no further. -/
def stopping : Moment ρ α → Option Event
  | .reached _ _ => none
  | .acted _ act => if act.stops then some .stopped else none

/-- The entry that falls due at a moment. -/
def due (base : Nat) (moment : Moment ρ α) : Option Event :=
  (moment.edit options).or ((moment.warning options base).or moment.stopping)

end Entries

variable [Admission ρ α] {options : Options} {base : Nat}

@[simp] theorem due_below (number slot : Nat) (moment : Moment ρ α) :
    (moment.below number slot).due options base = moment.due options (base + 1) := by
  match moment with
  | .reached spot node =>
    have hdepth :
        base + (spot.below number slot).address.depth = base + 1 + spot.address.depth := by
      rw [depth_below]
      omega
    simp only [due, below, edit, warning, hdepth, stopping]
  | .acted none act => rfl
  | .acted (some spot) act => rfl

@[simp] theorem due_event (spot : Option (Spot ρ)) (event : Event) :
    (Moment.acted spot (.event event) : Moment ρ α).due options base = none := by
  cases spot <;> rfl

@[simp] theorem due_telling (spot : Option (Spot ρ)) (event : Option Event) :
    (ofActs spot (Act.telling event) : List (Moment ρ α)).filterMap (due options base) = [] := by
  cases event <;> simp [ofActs, Act.telling]

variable (options base) in
/-- What is told of a call does not fall due once more. -/
lemma filterMap_due_call (spot : Option (Spot ρ)) (act : Act ρ α) (event : Option Event)
    (rest : List (Act ρ α)) :
    (ofActs spot (act :: (Act.telling event ++ rest))).filterMap (due options base) =
      ((Moment.acted spot act).due options base).toList ++
        (ofActs spot rest).filterMap (due options base) := by
  have htold : ((Act.telling event).map (acted spot : Act ρ α → Moment ρ α)).filterMap
      (due options base) = [] := due_telling spot event
  rw [ofActs, List.map_cons, List.map_append, List.filterMap_cons, List.filterMap_append, htold]
  cases (Moment.acted spot act).due options base <;> rfl

@[simp] theorem filterMap_due_map_below (number slot : Nat) (moments : List (Moment ρ α)) :
    (moments.map (below number slot)).filterMap (due options base) =
      moments.filterMap (due options (base + 1)) := by
  rw [List.filterMap_map]
  congr 1
  funext moment
  exact due_below number slot moment

end Moment

/-- Tells that a walk was stopped, if this is why it was broken off. -/
def Halt.due : Halt → Option Event
  | .stopped => some .stopped
  | .failed _ | .overflowed => none

/-- Tells what becomes of the node with a number in a place, as far as it is still to be told when
the visit of the node has ended. -/
def Fate.due {τ : Type} (place : Place ρ) (number : Nat) : Fate τ → Option Event
  | .keep _ => none
  | .remove => some (place.removal number)
  | .splice new =>
    if place.position = .single then none
    else some (.spliced place.rule.name number new.length)
  | .halt _ why => why.due

section Booking

variable [Admission ρ α] {options : Options} {count : Nat}

open Moment

section Answers

variable {base index : Nat} {name : String} {hook : NodeHook} {spot : Spot ρ} {node left : Tree ρ α}
  {directive : Directive (Tree ρ α)}

lemma Moment.due_of_illegal (illegal : directive.legal hook spot.place.position = false) :
    (Moment.acted (some spot) (.node index name hook node (.answered left directive))).due
        options base =
      some (.illegalDirective directive.name hook spot.place.position left.tag) := by
  simp [Moment.due, edit, warning, Act.nodeEdit, Act.sequenceEdit, Act.refusal, Act.misuse, illegal]

/-- What a slot refuses was brought along for an edit, and the edit is not applied. -/
lemma Moment.due_of_refused {refused : Tree ρ α}
    (legal : directive.legal hook spot.place.position = true)
    (refuses : options.firstRefused spot.place.rule directive.carried = some refused) :
    (Moment.acted (some spot) (.node index name hook node (.answered left directive))).due
      options base = none := by
  have hedit : (Moment.acted (some spot)
      (.node index name hook node (.answered left directive))).edit options = none := by
    simp [edit, Act.nodeEdit, Act.sequenceEdit, refuses]
  have hwarning : (Moment.acted (some spot)
      (.node index name hook node (.answered left directive))).warning options base = none := by
    simp [warning, Act.refusal, Act.misuse, legal]
  rw [Moment.due, hedit, hwarning]
  cases directive with
  | stop => simp [Directive.carried, Options.firstRefused] at refuses
  | _ => rfl

lemma Moment.due_of_followed (legal : directive.legal hook spot.place.position = true)
    (accepted : options.firstRefused spot.place.rule directive.carried = none) :
    (Moment.acted (some spot) (.node index name hook node (.answered left directive))).due
        options base =
      (directive.edit hook spot.place spot.address.number left).or
        (Moment.acted (some spot)
          (.node index name hook node (.answered left directive))).stopping := by
  simp [Moment.due, edit, warning, Act.nodeEdit, Act.sequenceEdit, Act.refusal, Act.misuse, legal,
    accepted]

/-- What falls due at a call with a node is what is told of the call at once, and then what is to be
told of the node. -/
lemma Options.due_of_judge (base : Nat) {reply : NodeReply ρ α} {verdict : Verdict (Tree ρ α)}
    {event : Option Event}
    (judged : options.judge hook spot.place ⟨.node hook, index, name⟩ node reply =
      (verdict, event)) :
    ((Moment.acted (some spot) (.node index name hook node reply)).due options base).toList =
      event.toList ++ (verdict.fate.due spot.place spot.address.number).toList := by
  cases reply with
  | unavailable | failed | overflowed =>
    obtain ⟨rfl, rfl⟩ := Prod.mk.inj judged
    rfl
  | answered left directive =>
    simp only [judge, follow] at judged
    rcases hlegal : directive.legal hook spot.place.position with _ | _
    · simp only [hlegal, Bool.false_eq_true, if_false] at judged
      obtain ⟨rfl, rfl⟩ := Prod.mk.inj judged
      rw [Moment.due_of_illegal hlegal]
      rfl
    · simp only [hlegal, if_true] at judged
      rcases hr : options.firstRefused spot.place.rule directive.carried with _ | refused
      · simp only [hr] at judged
        obtain ⟨rfl, rfl⟩ := Prod.mk.inj judged
        rw [Moment.due_of_followed hlegal hr]
        cases directive with
        | keep | skipChildren | stop | replace | remove => rfl
        | splice new =>
          -- A splice in a single slot would not be told, but it is not legal there.
          have hposition : spot.place.position ≠ .single := by
            intro hsingle
            rw [hsingle] at hlegal
            cases hook <;> cases hlegal
          simp [hposition, Directive.edit, Directive.verdict, Directive.event, Verdict.fate,
            Fate.due]
      · simp only [hr] at judged
        obtain ⟨rfl, rfl⟩ := Prod.mk.inj judged
        rw [Moment.due_of_refused hlegal hr]
        rfl

end Answers

/-- What falls due while visitors are asked about a node is told, but for what becomes of the
node. -/
lemma ConsultRun.due (base : Nat) (spot : Spot ρ) {hook : NodeHook} {index : Nat}
    {node : Tree ρ α} {acts : List (Act ρ α)} {verdict : Verdict (Tree ρ α)}
    (hrun : ConsultRun options count hook spot.place index node acts verdict) :
    (ofActs (some spot) acts).filterMap (Moment.due options base) =
      Act.log acts ++ (verdict.fate.due spot.place spot.address.number).toList := by
  induction hrun with
  | done node => rfl
  | pass inRange judged others ih =>
    rw [filterMap_due_call, Options.due_of_judge base judged, ih]
    simp [Verdict.fate, Fate.due]
  | @settle index name node reply event verdict inRange judged settled =>
    have hlast := filterMap_due_call options base (some spot)
      (.node index name hook node reply) event []
    rw [List.append_nil] at hlast
    rw [hlast, Options.due_of_judge base judged]
    simp [ofActs]

/-- What falls due at a call with the sequence is told at once. -/
lemma SequenceReply.due_of_judge (base : Nat) {hook : SequenceHook} {index : Nat} {name : String}
    {nodes next : List (Tree ρ α)} {reply : SequenceReply ρ α} {halt : Option Halt}
    {event : Option Event}
    (judged : reply.judge hook ⟨.sequence hook, index, name⟩ nodes = ((next, halt), event)) :
    (Moment.acted none (.sequence index name hook nodes reply)).due options base = event := by
  match reply with
  | .unavailable | .answered none | .answered (some _) | .failed _ | .overflowed =>
    cases judged
    rfl

/-- What falls due while the sequence is shown is told. -/
lemma ShowRun.due (base : Nat) {hook : SequenceHook} {index : Nat} {nodes items : List (Tree ρ α)}
    {acts : List (Act ρ α)} {halt : Option Halt}
    (hrun : ShowRun count hook index nodes acts items halt) :
    (ofActs none acts).filterMap (Moment.due options base) = Act.log acts := by
  induction hrun with
  | done nodes => rfl
  | pass inRange judged others ih =>
    rw [filterMap_due_call, SequenceReply.due_of_judge base judged, ih]
    simp
  | @halt index name nodes items reply event why inRange judged =>
    have hlast := filterMap_due_call options base none
      (.sequence index name hook nodes reply) event []
    rw [List.append_nil] at hlast
    rw [hlast, SequenceReply.due_of_judge base judged]
    simp [ofActs]

/-- The trails of a node in a place are told, but for what becomes of the node: all else that falls
due is made known in the trail itself. -/
structure Booked (options : Options) (base : Nat) (place : Place ρ)
    (trail : Nat → Tree ρ α → List (Moment ρ α) → Fate (Tree ρ α) → Prop) : Prop where
  due : ∀ {number node moments fate}, trail number node moments fate →
    moments.filterMap (Moment.due options base) =
      Act.log (acts moments) ++ (fate.due place number).toList

lemma Fate.due_eq_event {τ : Type} {fate : Fate τ} {given : List τ} {place : Place ρ}
    (part : fate.contribution = some given) (listed : place.position ≠ .single) (number : Nat) :
    fate.due place number = fate.event place.rule.name number := by
  cases fate with
  | keep left => rfl
  | remove =>
    cases hposition : place.position with
    | single => exact absurd hposition listed
    | topLevel | list => simp [due, event, Place.removal, hposition]
  | splice new => simp [due, event, listed]
  | halt left why => cases part

lemma ListTrail.due {base : Nat} {place : Place ρ}
    {trail : Nat → Tree ρ α → List (Moment ρ α) → Fate (Tree ρ α) → Prop}
    (h : Booked options base place trail) (listed : place.position ≠ .single) {emitted : Nat}
    {nodes items : List (Tree ρ α)} {moments : List (Moment ρ α)} {halt : Option Halt}
    (htrail : ListTrail trail place.rule.name emitted nodes moments items halt) :
    moments.filterMap (Moment.due options base) =
      Act.log (acts moments) ++ (halt.bind Halt.due).toList := by
  induction htrail with
  | nil emitted => rfl
  | cons visited part others ih =>
    rw [List.filterMap_append, List.filterMap_append, h.due visited, ih, telling, due_telling,
      Fate.due_eq_event part listed]
    simp
  | halt visited => exact h.due visited

section Slots

variable {base : Nat}
  {trail : Place ρ → Nat → Tree ρ α → List (Moment ρ α) → Fate (Tree ρ α) → Prop}

lemma ContentTrail.due (h : ∀ place, Booked options base place (trail place)) {rule : Rule ρ}
    {content left : Content α (Tree ρ α)} {moments : List (Moment ρ α)} {halt : Option Halt}
    (htrail : ContentTrail trail rule content moments left halt) :
    moments.filterMap (Moment.due options base) =
      Act.log (acts moments) ++ (halt.bind Halt.due).toList := by
  cases htrail with
  | vacant | value => rfl
  | kept visited | spliced visited | halt visited => exact (h _).due visited
  | cleared visited =>
    rw [List.filterMap_append, (h _).due visited, telling, due_telling]
    simp [Fate.due, Place.removal]
  | list walked => exact ListTrail.due (h ⟨.list, rule⟩) (by simp) walked

lemma SlotsTrail.due (h : ∀ place, Booked options (base + 1) place (trail place))
    {number slot : Nat} {slots items : List (Slot ρ α (Tree ρ α))} {moments : List (Moment ρ α)}
    {halt : Option Halt} (htrail : SlotsTrail trail number slot slots moments items halt) :
    moments.filterMap (Moment.due options base) =
      Act.log (acts moments) ++ (halt.bind Halt.due).toList := by
  induction htrail with
  | nil slot => rfl
  | cons walked others ih =>
    rw [List.filterMap_append, filterMap_due_map_below, walked.due h, ih]
    simp
  | halt walked =>
    rw [filterMap_due_map_below, walked.due h, acts_map_below]

end Slots

lemma VisitTrail.booked {depth : Nat}
    {below : Place ρ → Nat → Tree ρ α → List (Moment ρ α) → Fate (Tree ρ α) → Prop}
    (h : ∀ place, Booked options (depth + 1) place (below place)) (place : Place ρ) :
    Booked options depth place (VisitTrail options count below depth place) := by
  constructor
  intro number node moments fate htrail
  let spot : Spot ρ := .here place number
  have hreached : (Moment.reached spot node).due options depth =
      (options.exceededAt depth).map fun limit => .tooDeep limit node.tag := by
    simp [Moment.due, edit, warning, stopping, spot, Spot.here, Address.depth]
  cases htrail with
  | tooDeep exceeded =>
    rw [List.filterMap_cons, hreached, exceeded]
    simp [ofActs, Fate.due, Halt.due]
  | walked allowed entered descended left =>
    rw [List.filterMap_cons, hreached, allowed, List.filterMap_append, List.filterMap_append,
      entered.due depth spot, descended.due h, left.due depth spot]
    simp [Verdict.fate, Fate.due, spot, Spot.here, Address.number]
  | broken allowed entered descended =>
    rw [List.filterMap_cons, hreached, allowed, List.filterMap_append, entered.due depth spot,
      descended.due h]
    simp [Verdict.fate, Fate.due]
  | skipped allowed entered left =>
    rw [List.filterMap_cons, hreached, allowed, List.filterMap_append, entered.due depth spot,
      left.due depth spot]
    simp [Verdict.fate, Fate.due, spot, Spot.here, Address.number]
  | settled allowed entered proceeds skips =>
    rw [List.filterMap_cons, hreached, allowed, entered.due depth spot]
    simp [spot, Spot.here, Address.number]

theorem NodeTrail.booked (room depth : Nat) (place : Place ρ) :
    Booked (α := α) options depth place (NodeTrail options count room depth place) := by
  induction room generalizing depth place with
  | zero =>
    constructor
    rintro number node moments fate ⟨rfl, rfl⟩
    rfl
  | succ room ih => exact VisitTrail.booked (fun place => ih (depth + 1) place) place

variable {room : Nat} {nodes items : List (Tree ρ α)}

lemma TopTrail.due {moments : List (Moment ρ α)} {halt : Option Halt}
    (htrail : TopTrail options count room nodes moments items halt) :
    moments.filterMap (Moment.due options 0) =
      Act.log (acts moments) ++ (halt.bind Halt.due).toList :=
  ListTrail.due (NodeTrail.booked room 0 .topLevel) (by simp [Place.topLevel]) htrail

lemma WalkTrail.due {moments : List (Moment ρ α)}
    (htrail : WalkTrail options count room nodes moments items) :
    moments.filterMap (Moment.due options 0) = Act.log (acts moments) := by
  cases htrail with
  | through walked =>
    rw [TopTrail.due walked]
    simp
  | stopped walked =>
    rw [List.filterMap_append, TopTrail.due walked, telling, due_telling]
    simp [Halt.due]

/-- Tells of the end of a traversal that was not broken off. -/
def closing (halt : Option Halt) (nodes : List (Tree ρ α)) : List Event :=
  match halt with
  | none => [.finished nodes.length]
  | some _ => []

omit [Admission ρ α] in
@[simp] theorem mem_closing {halt : Option Halt} {event : Event} :
    event ∈ closing halt items ↔ halt = none ∧ event = .finished items.length := by
  cases halt <;> simp [closing]

/-- The log of a traversal: it begins with the start, the entries stand in the order in which they
fall due, and the end is told of a traversal that was not broken off. -/
theorem TraversalTrail.log {trail : List (Moment ρ α)} {halt : Option Halt}
    (htrail : TraversalTrail options count room nodes trail items halt) :
    Act.log (acts trail) =
      .started nodes.length count ::
        (trail.filterMap (Moment.due options 0) ++ closing halt items) := by
  cases htrail with
  | unready shown =>
    rw [List.filterMap_append, shown.due, telling, due_telling]
    simp [closing]
  | @broken start items acts moments why shown walked unstopped =>
    have hwhy : why.due = none := by
      cases why with
      | stopped => exact absurd rfl unstopped
      | failed | overflowed => rfl
    rw [List.filterMap_append, List.filterMap_append, shown.due, TopTrail.due walked, telling,
      due_telling]
    simp [hwhy, closing]
  | unfinished shown walked shownAgain =>
    rw [List.filterMap_append, List.filterMap_append, List.filterMap_append, shown.due, walked.due,
      shownAgain.due, telling, due_telling]
    simp [closing]
  | finished shown walked shownAgain =>
    simp only [List.filterMap_append, shown.due, walked.due, shownAgain.due, telling, due_telling]
    simp [closing]

end Booking

/-- Whether a warning tells of the fault. -/
def Fault.warns : Fault → Bool
  | .unavailable | .tooDeep | .illegal => true
  | .hookFailed | .refused => false

namespace Moment

variable [Admission ρ α] {options : Options} {base : Nat} {moment : Moment ρ α} {event : Event}

/-- The entry of an edit is that of a directive which is followed, or of another sequence. -/
lemma edit_cases (h : moment.edit options = some event) :
    (∃ spot index name hook shown left directive,
      moment = .acted (some spot) (.node index name hook shown (.answered left directive)) ∧
        directive.legal hook spot.place.position = true ∧
        options.firstRefused spot.place.rule directive.carried = none ∧
        directive.edit hook spot.place spot.address.number left = some event) ∨
    ∃ spot index name hook nodes new,
      moment = .acted spot (.sequence index name hook nodes (.answered (some new))) ∧
        event = .sequenceReplaced hook index nodes.length new.length := by
  match moment with
  | .acted (some spot) (.node index name hook shown (.answered left directive)) =>
    obtain ⟨⟨hlegal, haccepted⟩, hedit⟩ : (_ ∧ _) ∧ _ := by
      simpa [edit, Act.nodeEdit, Act.sequenceEdit] using h
    exact .inl ⟨spot, index, name, hook, shown, left, directive, rfl, hlegal, haccepted, hedit⟩
  | .acted none (.sequence index name hook nodes (.answered (some new)))
  | .acted (some spot) (.sequence index name hook nodes (.answered (some new))) =>
    exact .inr ⟨_, index, name, hook, nodes, new, rfl, (Option.some.inj h).symm⟩
  | .reached _ _ | .acted none (.event _) | .acted (some _) (.event _) | .acted none (.node ..)
  | .acted (some _) (.node _ _ _ _ .unavailable) | .acted (some _) (.node _ _ _ _ (.failed ..))
  | .acted (some _) (.node _ _ _ _ .overflowed)
  | .acted none (.sequence _ _ _ _ .unavailable) | .acted (some _) (.sequence _ _ _ _ .unavailable)
  | .acted none (.sequence _ _ _ _ (.failed _)) | .acted (some _) (.sequence _ _ _ _ (.failed _))
  | .acted none (.sequence _ _ _ _ .overflowed) | .acted (some _) (.sequence _ _ _ _ .overflowed)
  | .acted none (.sequence _ _ _ _ (.answered none))
  | .acted (some _) (.sequence _ _ _ _ (.answered none)) => cases h

lemma level_of_edit (h : moment.edit options = some event) : event.level = .trace := by
  obtain ⟨spot, _, _, hook, _, left, directive, -, -, -, hedit⟩ | ⟨_, _, _, _, _, _, -, rfl⟩ :=
    edit_cases h
  · cases directive with
    | keep | skipChildren | stop => cases hedit
    | replace | splice =>
      cases hedit
      rfl
    | remove =>
      obtain rfl := Option.some.inj hedit
      cases hposition : spot.place.position <;> simp [Place.removal, hposition, Event.level]
  · rfl

omit [Admission ρ α] in
/-- A stop is the answer to a call with a node. -/
lemma stopping_cases (h : moment.stopping = some event) :
    event = .stopped ∧ ∃ spot index name hook shown left,
      moment = .acted spot (.node index name hook shown (.answered left .stop)) := by
  match moment with
  | .acted spot (.node index name hook shown (.answered left .stop)) =>
    exact ⟨(Option.some.inj h).symm, spot, index, name, hook, shown, left, rfl⟩
  | .reached _ _ | .acted _ (.event _) | .acted _ (.sequence ..)
  | .acted _ (.node _ _ _ _ .unavailable) | .acted _ (.node _ _ _ _ (.failed ..))
  | .acted _ (.node _ _ _ _ .overflowed) | .acted _ (.node _ _ _ _ (.answered _ .keep))
  | .acted _ (.node _ _ _ _ (.answered _ (.replace _)))
  | .acted _ (.node _ _ _ _ (.answered _ .remove))
  | .acted _ (.node _ _ _ _ (.answered _ (.splice _)))
  | .acted _ (.node _ _ _ _ (.answered _ .skipChildren)) => cases h

/-- A warning is of a fault. -/
lemma warning_cases (h : moment.warning options base = some event) :
    event.level = .warn ∧
      ∃ fault error, moment.Fails options base fault error ∧ fault.warns = true := by
  match moment with
  | .reached spot node =>
    obtain ⟨limit, hlimit, rfl⟩ := Option.map_eq_some_iff.1 h
    obtain ⟨limited, beyond⟩ := Options.exceededAt_eq_some_iff.1 hlimit
    exact ⟨rfl, _, _, .tooDeep limited beyond, rfl⟩
  | .acted none (.node _ _ _ _ .unavailable) | .acted (some _) (.node _ _ _ _ .unavailable) =>
    obtain rfl := Option.some.inj h
    exact ⟨rfl, _, _, .lentForNode, rfl⟩
  | .acted none (.sequence _ _ _ _ .unavailable)
  | .acted (some _) (.sequence _ _ _ _ .unavailable) =>
    obtain rfl := Option.some.inj h
    exact ⟨rfl, _, _, .lentForSequence, rfl⟩
  | .acted (some spot) (.node index name hook shown (.answered left directive)) =>
    rcases hlegal : directive.legal hook spot.place.position with _ | _
    · simp only [warning, Act.refusal, Option.bind_some, Act.misuse, hlegal, Bool.false_eq_true,
        if_false, Option.none_or] at h
      obtain rfl := Option.some.inj h
      obtain ⟨rfl, new, rfl⟩ | ⟨rfl, rfl⟩ | ⟨rfl, single, new, rfl⟩ :=
        Directive.legal_eq_false_iff.1 hlegal
      · exact ⟨rfl, _, _, .splicedOnEnter, rfl⟩
      · exact ⟨rfl, _, _, .skippedOnLeave, rfl⟩
      · exact ⟨rfl, _, _, .splicedInSingle single, rfl⟩
    · simp [warning, Act.refusal, Act.misuse, hlegal] at h
  | .acted none (.event _) | .acted (some _) (.event _) | .acted none (.node _ _ _ _ (.failed ..))
  | .acted (some _) (.node _ _ _ _ (.failed ..)) | .acted none (.node _ _ _ _ .overflowed)
  | .acted (some _) (.node _ _ _ _ .overflowed) | .acted none (.node _ _ _ _ (.answered ..))
  | .acted none (.sequence _ _ _ _ (.failed _)) | .acted (some _) (.sequence _ _ _ _ (.failed _))
  | .acted none (.sequence _ _ _ _ .overflowed) | .acted (some _) (.sequence _ _ _ _ .overflowed)
  | .acted none (.sequence _ _ _ _ (.answered _))
  | .acted (some _) (.sequence _ _ _ _ (.answered _)) => cases h

/-- A fault is warned of if it is one of those. -/
lemma Fails.warning {fault : Fault} {error : WalkError}
    (h : moment.Fails options base fault error) (warns : fault.warns = true) :
    ∃ event, moment.warning options base = some event := by
  cases h with
  | lentForNode | lentForSequence => exact ⟨_, rfl⟩
  | nodeHook | sequenceHook | replacementRefused | splicedRefused => cases warns
  | @tooDeep spot node limit limited beyond =>
    have hexceeded := Options.exceededAt_eq_some_iff.2 ⟨limited, beyond⟩
    exact ⟨_, by rw [Moment.warning, hexceeded]; rfl⟩
  | splicedOnEnter | skippedOnLeave => exact ⟨_, rfl⟩
  | splicedInSingle single =>
    simp [Moment.warning, Act.refusal, Act.misuse, Directive.legal, single, Position.allowsSplice]

/-- An edit with a fault is not applied. -/
lemma Fails.edit {fault : Fault} {error : WalkError} (h : moment.Fails options base fault error) :
    moment.edit options = none := by
  rcases hedit : moment.edit options with _ | event
  · rfl
  · obtain ⟨spot, _, _, hook, _, left, directive, rfl, hlegal, haccepted, hentry⟩ |
        ⟨_, _, _, _, _, _, rfl, -⟩ := edit_cases hedit
    · have hwhy := (Options.why_judge_eq_some_iff base).2 (.fails h)
      rw [Options.why_judge_of_followed hlegal haccepted] at hwhy
      cases directive with
      | keep | skipChildren | stop => cases hentry
      | replace | remove | splice => cases hwhy
    · cases h

variable (options base) in
/-- Where a visitor asks to walk no further nothing else falls due. -/
lemma due_of_stopping (h : moment.stopping = some event) :
    moment.edit options = none ∧ moment.warning options base = none := by
  obtain ⟨-, spot, _, _, _, _, _, rfl⟩ := stopping_cases h
  cases spot <;> simp [edit, Moment.warning, Act.nodeEdit, Act.sequenceEdit, Act.refusal,
    Act.misuse, Directive.legal, Directive.edit]

/-- The entries of edits are those at the level of traces. -/
lemma filter_due_trace (moment : Moment ρ α) :
    (moment.due options base).filter (fun event => event.level = .trace) =
      moment.edit options := by
  rcases hedit : moment.edit options with _ | event
  · rw [due, hedit, Option.none_or]
    rcases hwarning : moment.warning options base with _ | event
    · rw [Option.none_or]
      rcases hstopping : moment.stopping with _ | event
      · rfl
      · obtain ⟨rfl, -⟩ := stopping_cases hstopping
        rfl
    · obtain ⟨hlevel, -⟩ := warning_cases hwarning
      simp [hlevel]
  · rw [due, hedit, Option.some_or]
    simp [level_of_edit hedit]

/-- The warnings are the entries at their level. -/
lemma filter_due_warn (moment : Moment ρ α) :
    (moment.due options base).filter (fun event => event.level = .warn) =
      moment.warning options base := by
  rcases hwarning : moment.warning options base with _ | event
  · rw [due, hwarning, Option.none_or]
    rcases hedit : moment.edit options with _ | event
    · rw [Option.none_or]
      rcases hstopping : moment.stopping with _ | event
      · rfl
      · obtain ⟨rfl, -⟩ := stopping_cases hstopping
        rfl
    · rw [Option.some_or]
      simp [level_of_edit hedit]
  · obtain ⟨hlevel, fault, error, fails, -⟩ := warning_cases hwarning
    rw [due, fails.edit, hwarning]
    simp [hlevel]

/-- What falls due is an edit, a warning or a stop. -/
lemma due_cases (h : moment.due options base = some event) :
    event.level = .trace ∨ moment.warning options base = some event ∨
      event = .stopped ∧ moment.stopping = some event := by
  rcases hedit : moment.edit options with _ | entry
  · rw [due, hedit, Option.none_or] at h
    rcases hwarning : moment.warning options base with _ | entry
    · rw [hwarning, Option.none_or] at h
      exact .inr (.inr ⟨(stopping_cases h).1, h⟩)
    · rw [hwarning, Option.some_or] at h
      exact .inr (.inl h)
  · rw [due, hedit, Option.some_or] at h
    obtain rfl := Option.some.inj h
    exact .inl (level_of_edit hedit)

lemma mem_due_stopped {moments : List (Moment ρ α)} :
    .stopped ∈ moments.filterMap (due options base) ↔
      ∃ act ∈ acts moments, act.stops = true := by
  simp only [List.mem_filterMap, mem_acts]
  constructor
  · rintro ⟨moment, hmem, hdue⟩
    obtain hlevel | hwarning | ⟨-, hstopping⟩ := due_cases hdue
    · cases hlevel
    · cases (warning_cases hwarning).1
    · obtain ⟨-, spot, _, _, _, _, _, rfl⟩ := stopping_cases hstopping
      exact ⟨_, ⟨spot, hmem⟩, rfl⟩
  · rintro ⟨act, ⟨spot, hmem⟩, hstops⟩
    have hstopping : (Moment.acted spot act).stopping = some .stopped := if_pos hstops
    obtain ⟨hedit, hwarning⟩ := due_of_stopping options base hstopping
    exact ⟨_, hmem, by rw [due, hedit, hwarning, hstopping]; rfl⟩

/-- The end of a traversal does not fall due at any moment. -/
lemma notMem_due_finished {moments : List (Moment ρ α)} {number : Nat} :
    .finished number ∉ moments.filterMap (due options base) := by
  intro hmem
  obtain ⟨moment, -, hdue⟩ := List.mem_filterMap.1 hmem
  obtain hlevel | hwarning | ⟨hstopped, -⟩ := due_cases hdue
  · cases hlevel
  · cases (warning_cases hwarning).1
  · cases hstopped

/-- Nothing falls due where something is made known. -/
lemma due_of_events {moments : List (Moment ρ α)}
    (h : ∀ moment ∈ moments, moment.isEvent = true) :
    moments.filterMap (due options base) = [] := by
  refine List.filterMap_eq_nil_iff.2 fun moment hmem => ?_
  have hevent := h moment hmem
  match moment with
  | .acted spot (.event event) => exact due_event spot event
  | .reached _ _ | .acted _ (.node ..) | .acted _ (.sequence ..) => cases hevent

end Moment

section Ledger

variable [Admission ρ α]

/-- The log of a traversal is an exact ledger of what its trail tells. -/
structure Ledger (options : Options) (count : Nat) (nodes : List (Tree ρ α))
    (trail : List (Moment ρ α)) (sweep : Sweep (Tree ρ α) σ) (log : List Event) : Prop where
  /-- It begins with the start of the traversal. -/
  starts : log.head? = some (.started nodes.length count)
  /-- Each edit that is applied has one entry, in order, and there is no other such entry. -/
  edits : log.filter (fun event => event.level = .trace) = trail.filterMap (Moment.edit options)
  /-- It says that the walk was stopped just if a visitor asked for it. -/
  stops : .stopped ∈ log ↔ ∃ act ∈ Moment.acts trail, act.stops = true
  /-- It says that the traversal has finished just if it succeeds. -/
  finishes : ∀ number, .finished number ∈ log ↔
    sweep.result = some (.ok sweep.items) ∧ number = sweep.items.length
  finished_last : ∀ before number after, log = before ++ .finished number :: after → after = []
  /-- It warns just if the traversal fails for a fault that there are warnings of. -/
  warns : (∃ event ∈ log, event.level = .warn) ↔
    ∃ fault error, sweep.result = some (.error error) ∧
      Moment.FirstFault options trail fault error ∧ fault.warns = true
  warned_last : ∀ before event after, log = before ++ event :: after → event.level = .warn →
    after = [] ∧ ∀ earlier ∈ before, earlier.level ≠ .warn

variable {options : Options} {count room : Nat} {nodes items : List (Tree ρ α)}
  {trail : List (Moment ρ α)} {halt : Option Halt}

/-- A traversal with a warning fails for a fault that there are warnings of, and nothing falls due
after that. -/
lemma TraversalTrail.warned {before after : List (Moment ρ α)} {moment : Moment ρ α} {event : Event}
    (htrail : TraversalTrail options count room nodes (before ++ moment :: after) items halt)
    (hwarning : moment.warning options 0 = some event) :
    ∃ fault error, halt = some (.failed error) ∧
      Moment.FirstFault options (before ++ moment :: after) fault error ∧ fault.warns = true ∧
      after.filterMap (Moment.due options 0) = [] := by
  obtain ⟨-, fault, error, fails, warns⟩ := Moment.warning_cases hwarning
  obtain ⟨-, hfailed, hfree⟩ := htrail.outcome
  obtain ⟨another, rfl⟩ : ∃ another, halt = some (.failed another) := by
    refine Classical.byContradiction fun unfailed => ?_
    have hfaultless := hfree fun another hhalt => unfailed ⟨another, hhalt⟩
    exact hfaultless moment (by simp) fault error fails
  obtain ⟨other, hlast⟩ := hfailed another rfl
  obtain ⟨hbefore, rfl, events⟩ := hlast.of_fails fails
  exact ⟨fault, error, rfl, ⟨before, moment, after, rfl, hbefore, fails⟩, warns,
    Moment.due_of_events events⟩

/-- A traversal whose log has a warning fails for a fault that there are warnings of, and nothing is
told after that. -/
lemma TraversalTrail.exists_fault
    (htrail : TraversalTrail options count room nodes trail items halt) {before after : List Event}
    {event : Event} (hsplit : Act.log (Moment.acts trail) = before ++ event :: after)
    (hlevel : event.level = .warn) :
    ∃ fault error, halt = some (.failed error) ∧
      Moment.FirstFault options trail fault error ∧ fault.warns = true ∧ after = [] := by
  have hstart : event ∉ [Event.started nodes.length count] := by
    rintro hmem
    obtain rfl := List.mem_singleton.1 hmem
    cases hlevel
  have hclosing : event ∉ closing halt items := by
    intro hmem
    obtain ⟨-, rfl⟩ := mem_closing.1 hmem
    cases hlevel
  rw [htrail.log, ← List.singleton_append] at hsplit
  obtain ⟨front, -, hrest⟩ := exists_of_notMem_left hsplit.symm hstart
  obtain ⟨back, rfl, hdues⟩ := exists_of_notMem_right hrest hclosing
  obtain ⟨first, last, rfl, -, hlast⟩ := List.filterMap_eq_append_iff.1 hdues.symm
  obtain ⟨quiet, moment, rest, rfl, -, hdue, rfl⟩ := List.filterMap_eq_cons_iff.1 hlast
  have hwarning : moment.warning options 0 = some event := by
    rw [← Moment.filter_due_warn, hdue]
    simp [hlevel]
  rw [← List.append_assoc] at htrail ⊢
  obtain ⟨fault, error, rfl, hfirst, warns, hrest⟩ := htrail.warned hwarning
  exact ⟨fault, error, rfl, hfirst, warns, by simp [hrest, closing]⟩

/-- A fault that there are warnings of has its warning in the log. -/
lemma TraversalTrail.exists_warning
    (htrail : TraversalTrail options count room nodes trail items halt) {fault : Fault}
    {error : WalkError} (hfirst : Moment.FirstFault options trail fault error)
    (warns : fault.warns = true) : ∃ event ∈ Act.log (Moment.acts trail), event.level = .warn := by
  obtain ⟨before, moment, after, rfl, -, fails⟩ := hfirst
  obtain ⟨event, hwarning⟩ := fails.warning warns
  have hdue := Option.filter_eq_some_iff.1 (moment.filter_due_warn.trans hwarning)
  refine ⟨event, ?_, (Moment.warning_cases hwarning).1⟩
  rw [htrail.log, List.mem_cons, List.mem_append]
  exact .inr (.inl (List.mem_filterMap.2 ⟨moment, by simp, hdue.1⟩))

/-- The entries of edits are in the log, and no others at their level. -/
lemma TraversalTrail.filter_log
    (htrail : TraversalTrail options count room nodes trail items halt) :
    (Act.log (Moment.acts trail)).filter (fun event => event.level = .trace) =
      trail.filterMap (Moment.edit options) := by
  have hclosing : (closing halt items).filter (fun event => event.level = .trace) = [] := by
    cases halt <;> rfl
  rw [htrail.log, List.filter_cons_of_neg (by simp [Event.level]), List.filter_append, hclosing,
    List.append_nil, List.filter_filterMap]
  congr 1
  funext moment
  exact moment.filter_due_trace

/-- Nothing is told after the end of the traversal. -/
lemma TraversalTrail.finished_last
    (htrail : TraversalTrail options count room nodes trail items halt) {before after : List Event}
    {number : Nat} (hsplit : Act.log (Moment.acts trail) = before ++ .finished number :: after) :
    after = [] := by
  have hnot : .finished number ∉
      .started nodes.length count :: trail.filterMap (Moment.due options 0) :=
    List.not_mem_cons_of_ne_of_not_mem (by simp) Moment.notMem_due_finished
  rw [htrail.log, ← List.cons_append] at hsplit
  obtain ⟨front, -, hclosing⟩ := exists_of_notMem_left hsplit.symm hnot
  cases halt with
  | none =>
    obtain ⟨-, -, hafter⟩ : front = [] ∧ number = items.length ∧ after = [] := by
      simpa [closing, List.append_eq_singleton_iff] using hclosing
    exact hafter
  | some why => simp [closing] at hclosing

/-- The trail of a traversal is what its log is a ledger of. -/
theorem TraversalTrail.ledger {sweep : Sweep (Tree ρ α) σ}
    (htrail : TraversalTrail options count room nodes trail sweep.items sweep.halt) :
    Ledger options count nodes trail sweep (Act.log (Moment.acts trail)) := by
  have hlog := htrail.log
  have hlast : ∀ before event after, Act.log (Moment.acts trail) = before ++ event :: after →
      event.level = .warn → after = [] := by
    intro before event after hsplit hlevel
    obtain ⟨-, -, -, -, -, hafter⟩ := htrail.exists_fault hsplit hlevel
    exact hafter
  constructor
  case starts =>
    rw [hlog]
    rfl
  case edits => exact htrail.filter_log
  case stops =>
    rw [hlog, List.mem_cons, List.mem_append, Moment.mem_due_stopped]
    simp
  case finishes =>
    intro number
    have hnot : .finished number ∉ trail.filterMap (Moment.due options 0) :=
      Moment.notMem_due_finished
    rw [hlog, Sweep.result_eq_ok_iff htrail.outcome.1, List.mem_cons, List.mem_append, mem_closing]
    simp only [hnot, reduceCtorEq, false_or, Event.finished.injEq]
  case finished_last => exact fun before number after => htrail.finished_last
  case warns =>
    constructor
    · rintro ⟨event, hmem, hlevel⟩
      obtain ⟨before, after, hsplit⟩ := List.append_of_mem hmem
      obtain ⟨fault, error, hhalt, hfirst, warns, -⟩ := htrail.exists_fault hsplit hlevel
      exact ⟨fault, error, Sweep.result_eq_error_iff.2 hhalt, hfirst, warns⟩
    · rintro ⟨fault, error, -, hfirst, warns⟩
      exact htrail.exists_warning hfirst warns
  case warned_last =>
    intro before event after hsplit hlevel
    refine ⟨hlast before event after hsplit hlevel, fun earlier hearlier hwarn => ?_⟩
    obtain ⟨front, back, rfl⟩ := List.append_of_mem hearlier
    have hafter := hlast front earlier (back ++ event :: after) (by simpa using hsplit) hwarn
    simp at hafter

end Ledger

end ForestWalk
