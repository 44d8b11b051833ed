import ForestWalk.Proofs.Adequacy
import ForestWalk.Proofs.Faults
/-!
Two walkers that walk the same forest side by side. What ties them is stated for the calls of all
visitors, for the events and for the depth at which a node is visited; that whole traversals are
tied follows. The walks either go together to the end or part at a moment when only the first is
broken off, and then it is known how far the second has come.
-/

namespace ForestWalk

variable {ρ α σ τ : Type}

/-- Whether an event tells how many visitors there are, or which of them it is about. -/
def Event.ofVisitors : Event → Bool
  | .started .. | .sequenceReplaced .. | .unavailable .. => true
  | _ => false

lemma Fate.exists_contribution {β : Type} {fate : Fate β} (h : fate.why? = none) :
    ∃ given, fate.contribution = some given := by
  cases fate with
  | halt left why => cases h
  | _ => exact ⟨_, rfl⟩

/-- How the states of two walks are tied, by how the walks have gone so far. -/
structure Ties (σ τ : Type) where
  /-- Both walks go on, and they are together. -/
  sync : σ → τ → Prop
  /-- Both were broken off at once, each for its own reason. -/
  broken : Halt → Halt → σ → τ → Prop
  /-- The first was broken off for a reason that is not one for the other, which has by now come to
  a state of its own. -/
  parted : Halt → σ → τ → Prop

namespace Ties

variable {β : Type} (ties : Ties σ τ)

/-- Two walks after their visitors were asked about a node. -/
inductive Asks : Verdict β × σ → Verdict β × τ → Prop
  | on {verdict : Verdict β} {state : σ} {state' : τ} (goesOn : verdict.why? = none)
      (synced : ties.sync state state') : Asks (verdict, state) (verdict, state')
  | broken {left : β} {why why' : Halt} {state : σ} {state' : τ}
      (halted : ties.broken why why' state state') :
      Asks (.halt left why, state) (.halt left why', state')
  | parted {left : β} {why : Halt} {verdict : Verdict β} {state : σ} {state' : τ}
      (halted : ties.parted why state state') : Asks (.halt left why, state) (verdict, state')

/-- Two walks after a visit to a node. -/
inductive Visits : Fate β × σ → Fate β × τ → Prop
  | on {fate : Fate β} {state : σ} {state' : τ} (goesOn : fate.why? = none)
      (synced : ties.sync state state') : Visits (fate, state) (fate, state')
  | broken {left : β} {why why' : Halt} {state : σ} {state' : τ}
      (halted : ties.broken why why' state state') :
      Visits (.halt left why, state) (.halt left why', state')
  | parted {left : β} {why : Halt} {fate : Fate β} {state : σ} {state' : τ}
      (halted : ties.parted why state state') : Visits (.halt left why, state) (fate, state')

/-- Two walks after something was walked, with what was made of it. -/
inductive Walks : β × Option Halt × σ → β × Option Halt × τ → Prop
  | on {made : β} {state : σ} {state' : τ} (synced : ties.sync state state') :
      Walks (made, none, state) (made, none, state')
  | broken {made : β} {why why' : Halt} {state : σ} {state' : τ}
      (halted : ties.broken why why' state state') :
      Walks (made, some why, state) (made, some why', state')
  | parted {made made' : β} {why : Halt} {halt : Option Halt} {state : σ} {state' : τ}
      (halted : ties.parted why state state') : Walks (made, some why, state) (made', halt, state')

/-- Two walks after a sweep. -/
def Sweeps (sweep : Sweep β σ) (sweep' : Sweep β τ) : Prop :=
  ties.Walks (sweep.items, sweep.halt, sweep.state) (sweep'.items, sweep'.halt, sweep'.state)

variable {ties}

lemma Asks.visits {asked : Verdict β × σ} {asked' : Verdict β × τ} (h : ties.Asks asked asked') :
    ties.Visits (asked.1.fate, asked.2) (asked'.1.fate, asked'.2) := by
  cases h with
  | on goesOn synced => exact .on goesOn synced
  | broken halted => exact .broken halted
  | parted halted => exact .parted halted

lemma Walks.map {γ : Type} (f : β → γ) {walked : β × Option Halt × σ}
    {walked' : β × Option Halt × τ} (h : ties.Walks walked walked') :
    ties.Walks (f walked.1, walked.2) (f walked'.1, walked'.2) := by
  cases h with
  | on synced => exact .on synced
  | broken halted => exact .broken halted
  | parted halted => exact .parted halted

lemma Sweeps.prepend {sweep : Sweep β σ} {sweep' : Sweep β τ} (front : List β)
    (h : ties.Sweeps sweep sweep') : ties.Sweeps (sweep.prepend front) (sweep'.prepend front) :=
  h.map (front ++ ·)

/-- Walks that are the same as long as they are together. -/
def same (parted : Halt → σ → σ → Prop) : Ties σ σ where
  sync := Eq
  broken := fun why why' state state' => why = why' ∧ state = state'
  parted := parted

section Same

variable {apart : Halt → σ → σ → Prop}

lemma Asks.self (asked : Verdict β × σ) : (same apart).Asks asked asked := by
  obtain ⟨verdict, state⟩ := asked
  cases verdict with
  | halt left why => exact .broken ⟨rfl, rfl⟩
  | _ => exact .on rfl rfl

lemma Sweeps.self (sweep : Sweep β σ) : (same apart).Sweeps sweep sweep := by
  obtain ⟨items, halt, state⟩ := sweep
  cases halt with
  | none => exact .on rfl
  | some why => exact .broken ⟨rfl, rfl⟩

lemma same_stops {why why' : Halt} {state state' : σ}
    (h : (same apart).broken why why' state state') :
    (why = .stopped ∧ why' = .stopped ∧ state = state') ∨ (why ≠ .stopped ∧ why' ≠ .stopped) := by
  obtain ⟨rfl, rfl⟩ := h
  by_cases hstopped : why = .stopped
  · exact .inl ⟨hstopped, hstopped, rfl⟩
  · exact .inr ⟨hstopped, hstopped⟩

/-- The walks are the same unless the first one was broken off for a reason of its own. -/
lemma Sweeps.eq_or_parted {sweep sweep' : Sweep β σ} (h : (same apart).Sweeps sweep sweep') :
    sweep' = sweep ∨ ∃ why, sweep.halt = some why ∧ apart why sweep.state sweep'.state := by
  obtain ⟨items, halt, state⟩ := sweep
  obtain ⟨items', halt', state'⟩ := sweep'
  cases h with
  | on synced =>
    obtain rfl := synced
    exact .inl rfl
  | broken halted =>
    obtain ⟨rfl, rfl⟩ := halted
    exact .inl rfl
  | parted halted => exact .inr ⟨_, rfl, halted⟩

end Same

end Ties

/-- What ties two walkers to each other. -/
structure Tandem [Admission ρ α] (walker : Walker ρ α σ) (other : Walker ρ α τ) extends
    Ties σ τ where
  /-- The rooms that the walks may have left at a depth. -/
  rooms : Nat → Nat → Nat → Prop
  starts : ∀ {nodes : Nat} {state : σ} {state' : τ}, sync state state' →
    sync (walker.emit (.started nodes walker.visitors.length) state)
      (other.emit (.started nodes other.visitors.length) state')
  tells : ∀ {event : Event} {state : σ} {state' : τ}, event.ofVisitors = false →
    sync state state' → sync (walker.emit event state) (other.emit event state')
  shows : ∀ (hook : SequenceHook) (nodes : List (Tree ρ α)) {state : σ} {state' : τ},
    sync state state' →
    toTies.Sweeps (walker.showAll hook nodes state) (other.showAll hook nodes state')
  asks : ∀ (hook : NodeHook) (place : Place ρ) (node : Tree ρ α) {state : σ} {state' : τ},
    sync state state' →
    toTies.Asks (walker.consultAll hook place node state)
      (other.consultAll hook place node state')
  stops : ∀ {why why' : Halt} {state : σ} {state' : τ}, broken why why' state state' →
    (why = .stopped ∧ why' = .stopped ∧ sync state state') ∨ (why ≠ .stopped ∧ why' ≠ .stopped)
  unstopped : ∀ {state : σ} {state' : τ}, ¬ parted .stopped state state'
  stays : ∀ {why : Halt} {act : Act ρ α} {state : σ} {state' final : τ},
    parted why state state' → other.Does act state' final → parted why state final
  tooDeep : ∀ {depth limit : Nat} (tag : String) {state : σ} {state' : τ},
    walker.options.exceededAt depth = some limit → sync state state' →
    (other.options.exceededAt depth = some limit ∧
        broken (.failed (.tooDeep limit tag)) (.failed (.tooDeep limit tag))
          (walker.emit (.tooDeep limit tag) state) (other.emit (.tooDeep limit tag) state')) ∨
      parted (.failed (.tooDeep limit tag)) (walker.emit (.tooDeep limit tag) state) state'
  descends : ∀ {room room' depth : Nat}, rooms (room + 1) (room' + 1) depth →
    walker.options.exceededAt depth = none →
    other.options.exceededAt depth = none ∧ rooms room room' (depth + 1)
  noRoom : ∀ {room' depth : Nat} {state : σ} {state' : τ}, rooms 0 room' depth →
    sync state state' →
    (room' = 0 ∧ broken .overflowed .overflowed state state') ∨ parted .overflowed state state'
  someRoom : ∀ {room depth : Nat}, ¬ rooms (room + 1) 0 depth

namespace Walker

/-- Doing acts brings the walker from one state to the other. -/
def Reaches (walker : Walker ρ α σ) (state final : σ) : Prop :=
  ∃ acts, walker.DoesAll acts state final

namespace Reaches

variable {walker : Walker ρ α σ} {state mid final : σ}

lemma refl (state : σ) : walker.Reaches state state :=
  ⟨[], rfl⟩

lemma trans (h : walker.Reaches state mid) (h' : walker.Reaches mid final) :
    walker.Reaches state final := by
  obtain ⟨acts, hacts⟩ := h
  obtain ⟨more, hmore⟩ := h'
  exact ⟨acts ++ more, (walker.doesAll_append).2 ⟨mid, hacts, hmore⟩⟩

lemma tell (event : Option Event) (state : σ) : walker.Reaches state (walker.tell event state) :=
  ⟨Act.telling event, walker.doesAll_telling.2 rfl⟩

/-- Of what a walker has written down nothing is crossed out. -/
lemma isPrefix {state final : σ × List (Act ρ α)} (h : walker.recorded.Reaches state final) :
    state.2 <+: final.2 := by
  obtain ⟨acts, hdoes⟩ := h
  obtain ⟨hacts, -⟩ := walker.doesAll_recorded_iff.1 hdoes
  exact ⟨acts, hacts.symm⟩

end Reaches

variable (walker : Walker ρ α σ)

/-- The walker with other options. -/
def withOptions (options : Options) : Walker ρ α σ :=
  { walker with options := options }

section WithOptions

variable (options : Options)

lemma recorded_withOptions :
    (walker.withOptions options).recorded = walker.recorded.withOptions options :=
  rfl

/-- The options play no part in what the visitors do. -/
lemma doesAll_withOptions {acts : List (Act ρ α)} {state final : σ} :
    (walker.withOptions options).DoesAll acts state final ↔ walker.DoesAll acts state final := by
  have hdoes : ∀ {act : Act ρ α} {state final : σ},
      (walker.withOptions options).Does act state final ↔ walker.Does act state final := by
    intro act state final
    cases act <;> rfl
  induction acts generalizing state with
  | nil => rfl
  | cons act rest ih => simp only [doesAll_cons, hdoes, ih]

/-- The options play no part when the sequence is shown. -/
lemma showAll_withOptions (hook : SequenceHook) (nodes : List (Tree ρ α)) (state : σ) :
    (walker.withOptions options).showAll hook nodes state = walker.showAll hook nodes state := by
  have hshow : ∀ (index : Nat) (visitors : List (Registration ρ α σ)) (nodes : List (Tree ρ α))
      (state : σ), (walker.withOptions options).showFrom hook index visitors nodes state =
        walker.showFrom hook index visitors nodes state := by
    intro index visitors nodes state
    induction visitors generalizing index nodes state with
    | nil => rfl
    | cons visitor rest ih =>
      have htell : (walker.withOptions options).tell = walker.tell := rfl
      simp only [showFrom, htell, ih]
  exact hshow 0 walker.visitors nodes state

end WithOptions

/-- The walk of a list goes on from where the visit of its first node ends. -/
lemma reaches_passFrom_cons {visit : Tree ρ α → σ → Fate (Tree ρ α) × σ}
    {run : Tree ρ α → List (Act ρ α) → Fate (Tree ρ α) → Prop} (h : walker.Obeys visit run)
    (slot : String) (emitted : Nat) (node : Tree ρ α) (rest : List (Tree ρ α)) (state : σ) :
    walker.Reaches (visit node state).2
      (walker.passFrom visit slot emitted (node :: rest) state).state := by
  rcases hv : visit node state with ⟨fate, after⟩
  rcases hf : fate.contribution with _ | given
  · obtain ⟨left, why, rfl⟩ := Fate.contribution_eq_none_iff.1 hf
    simp only [passFrom, hv]
    exact .refl after
  · rw [passFrom_cons walker hv hf]
    obtain ⟨acts, -, hdoes⟩ := passFrom_runs slot h (emitted + given.length) rest
      (walker.tell (fate.event slot emitted) after)
    exact (Reaches.tell _ after).trans ⟨acts, hdoes⟩

section Slots

variable {visit : Place ρ → Tree ρ α → σ → Fate (Tree ρ α) × σ}
  {run : Place ρ → Tree ρ α → List (Act ρ α) → Fate (Tree ρ α) → Prop}

variable (visit) in
/-- The walk of a single slot goes on from where the visit of its node ends. -/
lemma reaches_walkContent_single (rule : Rule ρ) (child : Tree ρ α) (state : σ) :
    walker.Reaches (visit ⟨.single, rule⟩ child state).2
      (walker.walkContent visit rule (.single (some child)) state).2.2 := by
  rcases hv : visit ⟨.single, rule⟩ child state with ⟨fate, after⟩
  simp only [walkContent, hv]
  cases fate with
  | remove => exact .tell (some (.cleared rule.name)) after
  | _ => exact .refl after

/-- The walk of slots goes on from where the walk of the first one ends. -/
lemma reaches_walkSlots_cons (h : ∀ place, walker.Obeys (visit place) (run place)) (rule : Rule ρ)
    (content : Content α (Tree ρ α)) (rest : List (Slot ρ α (Tree ρ α))) (state : σ) :
    walker.Reaches (walker.walkContent visit rule content state).2.2
      (walker.walkSlots visit (⟨rule, content⟩ :: rest) state).state := by
  rcases hc : walker.walkContent visit rule content state with ⟨left, halt, after⟩
  simp only [walkSlots, hc]
  cases halt with
  | none =>
    obtain ⟨acts, -, hdoes⟩ := walkSlots_runs h rest after
    exact ⟨acts, hdoes⟩
  | some why => exact .refl after

end Slots

section Visit

variable [Admission ρ α]

lemma reaches_leave (place : Place ρ) (node : Tree ρ α) (state : σ) :
    walker.Reaches state (walker.leave place node state).2 := by
  obtain ⟨acts, -, hdoes⟩ := walker.consultAll_runs .leave place node state
  exact ⟨acts, hdoes⟩

lemma reaches_walkSlots (room depth : Nat) (slots : List (Slot ρ α (Tree ρ α))) (state : σ) :
    walker.Reaches state (walker.walkSlots (walker.visit room depth) slots state).state := by
  obtain ⟨acts, -, hdoes⟩ := walkSlots_runs (walker.visit_obeys room depth) slots state
  exact ⟨acts, hdoes⟩

lemma reaches_visit (room depth : Nat) (place : Place ρ) (node : Tree ρ α) (state : σ) :
    walker.Reaches state (walker.visit room depth place node state).2 := by
  obtain ⟨acts, -, hdoes⟩ := (walker.visit_obeys room depth place).runs node state
  exact ⟨acts, hdoes⟩

/-- What a visit makes of a node for which the walk goes on below it: its slots are walked, and it
is left. -/
def descend (room depth : Nat) (place : Place ρ) (node : Tree ρ α) (state : σ) :
    Fate (Tree ρ α) × σ :=
  let swept := walker.walkSlots (walker.visit room depth) node.slots state
  let node := { node with slots := swept.items }
  match swept.halt with
  | none => walker.leave place node swept.state
  | some why => (.halt node why, swept.state)

/-- What a visit does after the visitors were asked for the first time. -/
def proceed (room depth : Nat) (place : Place ρ) : Verdict (Tree ρ α) → σ → Fate (Tree ρ α) × σ
  | .proceed node, state => walker.descend room depth place node state
  | .skipChildren node, state => walker.leave place node state
  | verdict, state => (verdict.fate, state)

lemma visit_of_allowed {depth : Nat} (allowed : walker.options.exceededAt depth = none)
    (room : Nat) (place : Place ρ) (node : Tree ρ α) (state : σ) :
    walker.visit (room + 1) depth place node state =
      let asked := walker.consultAll .enter place node state
      walker.proceed room (depth + 1) place asked.1 asked.2 := by
  simp only [visit, allowed]
  rcases walker.consultAll .enter place node state with ⟨verdict, after⟩
  cases verdict <;> rfl

lemma visit_of_exceeded {depth limit : Nat}
    (exceeded : walker.options.exceededAt depth = some limit) (room : Nat) (place : Place ρ)
    (node : Tree ρ α) (state : σ) :
    walker.visit (room + 1) depth place node state =
      (.halt node (.failed (.tooDeep limit node.tag)),
        walker.emit (.tooDeep limit node.tag) state) := by
  simp only [visit, exceeded]

/-- A visit goes on from where the walk of the slots ends. -/
lemma reaches_descend (room depth : Nat) (place : Place ρ) (node : Tree ρ α) (state : σ) :
    walker.Reaches (walker.walkSlots (walker.visit room depth) node.slots state).state
      (walker.descend room depth place node state).2 := by
  rcases hs : walker.walkSlots (walker.visit room depth) node.slots state with
    ⟨slots, halt, after⟩
  simp only [descend, hs]
  cases halt with
  | none => exact walker.reaches_leave place _ after
  | some why => exact .refl after

lemma reaches_proceed (room depth : Nat) (place : Place ρ) (verdict : Verdict (Tree ρ α))
    (state : σ) : walker.Reaches state (walker.proceed room depth place verdict state).2 := by
  cases verdict with
  | proceed node =>
    exact (walker.reaches_walkSlots room depth node.slots state).trans
      (walker.reaches_descend room depth place node state)
  | skipChildren node => exact walker.reaches_leave place node state
  | remove | splice | halt => exact .refl state

lemma reaches_walkTop (stack : Nat) (nodes : List (Tree ρ α)) (state : σ) :
    walker.Reaches state (walker.walkTop stack nodes state).state := by
  obtain ⟨acts, -, hdoes⟩ := walker.walkTop_runs stack nodes state
  exact ⟨acts, hdoes⟩

end Visit

lemma reaches_showAll (hook : SequenceHook) (nodes : List (Tree ρ α)) (state : σ) :
    walker.Reaches state (walker.showAll hook nodes state).state := by
  obtain ⟨acts, -, hdoes⟩ := walker.showAll_runs hook nodes state
  exact ⟨acts, hdoes⟩

lemma reaches_absorbStop {β : Type} (sweep : Sweep β σ) :
    walker.Reaches sweep.state (sweep.absorbStop (walker.emit .stopped)).state := by
  obtain ⟨items, _ | why, after⟩ := sweep
  · exact .refl after
  · by_cases hstopped : why = .stopped
    · subst hstopped
      exact .tell (some .stopped) after
    · rw [Sweep.absorbStop_of_ne hstopped]
      exact .refl after

end Walker

namespace Tandem

variable [Admission ρ α] {walker : Walker ρ α σ} {other : Walker ρ α τ}
  {tandem : Tandem walker other} {state : σ} {state' : τ}

/-- The first walk stays where it was broken off. -/
lemma parted_of_reaches {why : Halt} {final : τ} (h : tandem.parted why state state')
    (hreaches : other.Reaches state' final) : tandem.parted why state final := by
  obtain ⟨acts, hdoes⟩ := hreaches
  induction acts generalizing state' with
  | nil =>
    obtain rfl := hdoes
    exact h
  | cons act rest ih =>
    obtain ⟨mid, hact, hrest⟩ := hdoes
    exact ih (tandem.stays h hact) hrest

lemma sync_tell {event : Option Event} (hevent : ∀ told ∈ event, told.ofVisitors = false)
    (h : tandem.sync state state') :
    tandem.sync (walker.tell event state) (other.tell event state') := by
  cases event with
  | none => exact h
  | some event => exact tandem.tells (hevent event rfl) h

section Lists

variable {visit : Tree ρ α → σ → Fate (Tree ρ α) × σ}
  {visit' : Tree ρ α → τ → Fate (Tree ρ α) × τ}
  {run : Tree ρ α → List (Act ρ α) → Fate (Tree ρ α) → Prop}

lemma passFrom (slot : String) (hobeys : other.Obeys visit' run)
    (hvisit : ∀ node {state state'}, tandem.sync state state' →
      tandem.Visits (visit node state) (visit' node state'))
    (emitted : Nat) (nodes : List (Tree ρ α)) (h : tandem.sync state state') :
    tandem.Sweeps (walker.passFrom visit slot emitted nodes state)
      (other.passFrom visit' slot emitted nodes state') := by
  induction nodes generalizing emitted state state' with
  | nil => exact .on h
  | cons node rest ih =>
    have hreaches := other.reaches_passFrom_cons hobeys slot emitted node rest state'
    have hfirst := hvisit node h
    rcases hv : visit node state with ⟨fate, after⟩
    rcases hv' : visit' node state' with ⟨fate', after'⟩
    rw [hv, hv'] at hfirst
    rw [hv'] at hreaches
    cases hfirst with
    | on goesOn synced =>
      obtain ⟨given, hgiven⟩ := Fate.exists_contribution goesOn
      have htold : ∀ told ∈ fate.event slot emitted, told.ofVisitors = false := by
        cases fate <;> simp [Fate.event, Event.ofVisitors]
      rw [walker.passFrom_cons hv hgiven, other.passFrom_cons hv' hgiven]
      exact (ih (emitted + given.length) (sync_tell htold synced)).prepend given
    | broken halted =>
      simp only [Walker.passFrom, hv, hv']
      exact .broken halted
    | parted halted =>
      simp only [Walker.passFrom, hv]
      exact .parted (parted_of_reaches halted hreaches)

end Lists

section Slots

variable {visit : Place ρ → Tree ρ α → σ → Fate (Tree ρ α) × σ}
  {visit' : Place ρ → Tree ρ α → τ → Fate (Tree ρ α) × τ}
  {run : Place ρ → Tree ρ α → List (Act ρ α) → Fate (Tree ρ α) → Prop}

lemma walkContent (hobeys : ∀ place, other.Obeys (visit' place) (run place))
    (hvisit : ∀ place node {state state'}, tandem.sync state state' →
      tandem.Visits (visit place node state) (visit' place node state'))
    (rule : Rule ρ) (content : Content α (Tree ρ α)) (h : tandem.sync state state') :
    tandem.Walks (walker.walkContent visit rule content state)
      (other.walkContent visit' rule content state') := by
  match content with
  | .single none | .value _ => exact .on h
  | .list children =>
    simp only [Walker.walkContent, Walker.walkList_eq_passFrom]
    exact (passFrom rule.name (hobeys ⟨.list, rule⟩) (hvisit ⟨.list, rule⟩) 0 children h).map
      Content.list
  | .single (some child) =>
    have hreaches := other.reaches_walkContent_single visit' rule child state'
    have hchild := hvisit ⟨.single, rule⟩ child h
    rcases hv : visit ⟨.single, rule⟩ child state with ⟨fate, after⟩
    rcases hv' : visit' ⟨.single, rule⟩ child state' with ⟨fate', after'⟩
    rw [hv, hv'] at hchild
    rw [hv'] at hreaches
    cases hchild with
    | on goesOn synced =>
      simp only [Walker.walkContent, hv, hv']
      cases fate with
      | keep left => exact .on synced
      | remove => exact .on (tandem.tells rfl synced)
      | splice new => exact .on synced
      | halt left why => cases goesOn
    | broken halted =>
      simp only [Walker.walkContent, hv, hv']
      exact .broken halted
    | parted halted =>
      simp only [Walker.walkContent, hv]
      exact .parted (parted_of_reaches halted hreaches)

lemma walkSlots (hobeys : ∀ place, other.Obeys (visit' place) (run place))
    (hvisit : ∀ place node {state state'}, tandem.sync state state' →
      tandem.Visits (visit place node state) (visit' place node state'))
    (slots : List (Slot ρ α (Tree ρ α))) (h : tandem.sync state state') :
    tandem.Sweeps (walker.walkSlots visit slots state) (other.walkSlots visit' slots state') := by
  induction slots generalizing state state' with
  | nil => exact .on h
  | cons slot rest ih =>
    obtain ⟨rule, content⟩ := slot
    have hreaches := other.reaches_walkSlots_cons hobeys rule content rest state'
    have hfirst := walkContent hobeys hvisit rule content h
    rcases hc : walker.walkContent visit rule content state with ⟨left, halt, after⟩
    rcases hc' : other.walkContent visit' rule content state' with ⟨left', halt', after'⟩
    rw [hc, hc'] at hfirst
    rw [hc'] at hreaches
    cases hfirst with
    | on synced =>
      simp only [Walker.walkSlots, hc, hc']
      exact (ih synced).prepend [⟨rule, left⟩]
    | broken halted =>
      simp only [Walker.walkSlots, hc, hc']
      exact .broken halted
    | parted halted =>
      simp only [Walker.walkSlots, hc]
      exact .parted (parted_of_reaches halted hreaches)

end Slots

lemma leave (place : Place ρ) (node : Tree ρ α) (h : tandem.sync state state') :
    tandem.Visits (walker.leave place node state) (other.leave place node state') :=
  (tandem.asks .leave place node h).visits

section Visit

variable {room room' depth : Nat}

lemma descend
    (hvisit : ∀ place node {state state'}, tandem.sync state state' →
      tandem.Visits (walker.visit room depth place node state)
        (other.visit room' depth place node state'))
    (place : Place ρ) (node : Tree ρ α) (h : tandem.sync state state') :
    tandem.Visits (walker.descend room depth place node state)
      (other.descend room' depth place node state') := by
  have hreaches := other.reaches_descend room' depth place node state'
  have hslots := walkSlots (other.visit_obeys room' depth) hvisit node.slots h
  rcases hs : walker.walkSlots (walker.visit room depth) node.slots state with
    ⟨slots, halt, after⟩
  rcases hs' : other.walkSlots (other.visit room' depth) node.slots state' with
    ⟨slots', halt', after'⟩
  rw [hs, hs'] at hslots
  rw [hs'] at hreaches
  cases hslots with
  | on synced =>
    simp only [Walker.descend, hs, hs']
    exact leave place _ synced
  | broken halted =>
    simp only [Walker.descend, hs, hs']
    exact .broken halted
  | parted halted =>
    simp only [Walker.descend, hs]
    exact .parted (parted_of_reaches halted hreaches)

/-- Two visits of one node at one depth. -/
theorem visit (hrooms : tandem.rooms room room' depth) (place : Place ρ) (node : Tree ρ α)
    (h : tandem.sync state state') :
    tandem.Visits (walker.visit room depth place node state)
      (other.visit room' depth place node state') := by
  induction room generalizing room' depth place node state state' with
  | zero =>
    rcases tandem.noRoom hrooms h with ⟨rfl, halted⟩ | halted
    · exact .broken halted
    · exact .parted (parted_of_reaches halted (other.reaches_visit room' depth place node state'))
  | succ room ih =>
    obtain _ | room' := room'
    · exact absurd hrooms tandem.someRoom
    rcases hdepth : walker.options.exceededAt depth with _ | limit
    · obtain ⟨hdepth', hbelow⟩ := tandem.descends hrooms hdepth
      rw [walker.visit_of_allowed hdepth, other.visit_of_allowed hdepth']
      have hentered := tandem.asks .enter place node h
      rcases hasked : walker.consultAll .enter place node state with ⟨verdict, after⟩
      rcases hasked' : other.consultAll .enter place node state' with ⟨verdict', after'⟩
      rw [hasked, hasked'] at hentered
      cases hentered with
      | on goesOn synced =>
        cases verdict with
        | proceed node =>
          exact descend (fun place node _ _ => ih hbelow place node) place node synced
        | skipChildren node => exact leave place node synced
        | remove | splice | halt => exact .on goesOn synced
      | broken halted => exact .broken halted
      | parted halted =>
        exact .parted
          (parted_of_reaches halted (other.reaches_proceed room' (depth + 1) place verdict' after'))
    · rw [walker.visit_of_exceeded hdepth]
      rcases tandem.tooDeep node.tag hdepth h with ⟨hdepth', halted⟩ | halted
      · rw [other.visit_of_exceeded hdepth']
        exact .broken halted
      · exact .parted
          (parted_of_reaches halted (other.reaches_visit (room' + 1) depth place node state'))

end Visit

section Sweeps

variable {β : Type}

lemma andThen {first : Sweep β σ} {first' : Sweep β τ} {second : List β → σ → Sweep β σ}
    {second' : List β → τ → Sweep β τ} (hfirst : tandem.Sweeps first first')
    (hsecond : ∀ items {state state'}, tandem.sync state state' →
      tandem.Sweeps (second items state) (second' items state'))
    (hreaches : ∀ items state', other.Reaches state' (second' items state').state) :
    tandem.Sweeps (first.andThen second) (first'.andThen second') := by
  obtain ⟨items, halt, after⟩ := first
  obtain ⟨items', halt', after'⟩ := first'
  cases hfirst with
  | on synced => exact hsecond items synced
  | broken halted => exact .broken halted
  | parted halted =>
    refine .parted (parted_of_reaches halted ?_)
    cases halt' with
    | none => exact hreaches items' after'
    | some why' => exact .refl after'

lemma absorbStop {sweep : Sweep β σ} {sweep' : Sweep β τ} (h : tandem.Sweeps sweep sweep') :
    tandem.Sweeps (sweep.absorbStop (walker.emit .stopped))
      (sweep'.absorbStop (other.emit .stopped)) := by
  obtain ⟨items, halt, after⟩ := sweep
  obtain ⟨items', halt', after'⟩ := sweep'
  cases h with
  | on synced => exact .on synced
  | broken halted =>
    rcases tandem.stops halted with ⟨rfl, rfl, synced⟩ | ⟨unstopped, unstopped'⟩
    · exact .on (tandem.tells rfl synced)
    · rw [Sweep.absorbStop_of_ne unstopped, Sweep.absorbStop_of_ne unstopped']
      exact .broken halted
  | @parted _ _ why _ _ _ halted =>
    have unstopped : why ≠ .stopped := by
      rintro rfl
      exact tandem.unstopped halted
    rw [Sweep.absorbStop_of_ne unstopped]
    exact .parted (parted_of_reaches halted (other.reaches_absorbStop _))

end Sweeps

/-- Two traversals of one sequence. -/
theorem traverse {stack stack' : Nat}
    (hrooms : tandem.rooms (walker.room stack) (other.room stack') 0) (nodes : List (Tree ρ α))
    (h : tandem.sync state state') :
    tandem.Sweeps (walker.traverse stack nodes state) (other.traverse stack' nodes state') := by
  have hwalk : ∀ nodes {state state'}, tandem.sync state state' →
      tandem.Sweeps (walker.walkTop stack nodes state) (other.walkTop stack' nodes state') := by
    intro nodes state state' h
    rw [Walker.walkTop, Walker.walkTop, Walker.walkList_eq_passFrom,
      Walker.walkList_eq_passFrom]
    exact passFrom topLevelName (other.visit_obeys _ 0 .topLevel)
      (fun node _ _ => visit hrooms .topLevel node) 0 nodes h
  refine andThen (andThen (andThen (tandem.shows .before nodes (tandem.starts h)) ?_ ?_) ?_ ?_)
    ?_ ?_
  · exact fun nodes _ _ h => absorbStop (hwalk nodes h)
  · exact fun nodes after =>
      (other.reaches_walkTop stack' nodes after).trans (other.reaches_absorbStop _)
  · exact fun nodes _ _ h => tandem.shows .after nodes h
  · exact fun nodes after => other.reaches_showAll .after nodes after
  · exact fun nodes _ _ h => .on (tandem.tells rfl h)
  · exact fun nodes after => .tell (some (.finished nodes.length)) after

end Tandem

end ForestWalk
