import ForestWalk.Proofs.Tandem
import Mathlib.Data.List.Forall2
/-!
A visitor that only looks on, put into the list of a walker. Those behind it stand one place further
on, and wherever a place is told, in events and in errors, the new place is. Apart from that the two
walkers go together to the end.
-/

namespace ForestWalk

variable {ρ α σ τ : Type}

/-- Where a registration stands after another one was put into the list at a gap. -/
def shiftIndex (gap index : Nat) : Nat :=
  if index < gap then index else index + 1

/-- The event as a traversal with one visitor more makes it known. -/
def Event.shifted (gap : Nat) : Event → Event
  | .started nodes visitors => .started nodes (visitors + 1)
  | .sequenceReplaced hook visitor oldLength newLength =>
    .sequenceReplaced hook (shiftIndex gap visitor) oldLength newLength
  | .unavailable visitor hook => .unavailable (shiftIndex gap visitor) hook
  | event => event

lemma Event.shifted_of_ofVisitors {gap : Nat} {event : Event} (h : event.ofVisitors = false) :
    event.shifted gap = event := by
  cases event with
  | started | sequenceReplaced | unavailable => cases h
  | _ => rfl

/-- The same call, of a visitor that stands at its new place. What stands for the name of a visitor
that cannot be asked tells the new place too. -/
structure CallSite.Shifted (gap : Nat) (site site' : CallSite) : Prop where
  hook : site'.hook = site.hook
  index : site'.index = shiftIndex gap site.index
  visitor : ∃ name : Option String, site.visitor = name.getD (namelessVisitor site.index) ∧
    site'.visitor = name.getD (namelessVisitor site'.index)

/-- The same error, but for the place of the visitor it speaks of. -/
inductive WalkError.Shifted (gap : Nat) : WalkError → WalkError → Prop
  | illegalDirective {site site' : CallSite} (shifted : site.Shifted gap site')
      (directive tag : String) (position : Position) :
      Shifted gap (.illegalDirective site directive tag position)
        (.illegalDirective site' directive tag position)
  | visitorFailed {site site' : CallSite} (shifted : site.Shifted gap site') (tag : Option String)
      (cause : Cause WalkError) :
      Shifted gap (.visitorFailed site tag cause) (.visitorFailed site' tag cause)
  | tooDeep (limit : Nat) (tag : String) : Shifted gap (.tooDeep limit tag) (.tooDeep limit tag)

inductive Halt.Shifted (gap : Nat) : Halt → Halt → Prop
  | stopped : Shifted gap .stopped .stopped
  | failed {error error' : WalkError} (shifted : error.Shifted gap error') :
      Shifted gap (.failed error) (.failed error')
  | overflowed : Shifted gap .overflowed .overflowed

inductive Verdict.Shifted {β : Type} (gap : Nat) : Verdict β → Verdict β → Prop
  | on {verdict : Verdict β} (goesOn : verdict.why? = none) : Shifted gap verdict verdict
  | halted {left : β} {why why' : Halt} (shifted : why.Shifted gap why') :
      Shifted gap (.halt left why) (.halt left why')

section Judging

variable {gap : Nat} {site site' : CallSite}

/-- The same reply is judged alike at the new place. -/
lemma Options.judge_shifted [Admission ρ α] (options : Options) (h : site.Shifted gap site')
    (hook : NodeHook) (place : Place ρ) (node : Tree ρ α) (reply : NodeReply ρ α) :
    let judged := options.judge hook place site node reply
    let judged' := options.judge hook place site' node reply
    judged.1.Shifted gap judged'.1 ∧ judged'.2 = judged.2.map (Event.shifted gap) := by
  cases reply with
  | unavailable =>
    refine ⟨.halted (.failed (.visitorFailed h _ _)), ?_⟩
    simp [judge, Event.shifted, h.index]
  | failed node cause => exact ⟨.halted (.failed (.visitorFailed h _ _)), rfl⟩
  | overflowed => exact ⟨.halted .overflowed, rfl⟩
  | answered node directive =>
    simp only [judge, follow]
    split
    · split
      · exact ⟨.halted (.failed (.visitorFailed h _ _)), rfl⟩
      · cases directive with
        | stop => exact ⟨.halted .stopped, rfl⟩
        | _ => exact ⟨.on rfl, rfl⟩
    · exact ⟨.halted (.failed (.illegalDirective h _ _ _)), rfl⟩

lemma SequenceReply.judge_shifted (h : site.Shifted gap site') (hook : SequenceHook)
    (nodes : List (Tree ρ α)) (reply : SequenceReply ρ α) :
    let judged := reply.judge hook site nodes
    let judged' := reply.judge hook site' nodes
    judged'.1.1 = judged.1.1 ∧ Option.Rel (Halt.Shifted gap) judged.1.2 judged'.1.2 ∧
      judged'.2 = judged.2.map (Event.shifted gap) := by
  match reply with
  | .unavailable =>
    refine ⟨rfl, .some (.failed (.visitorFailed h _ _)), ?_⟩
    simp [judge, Event.shifted, h.index]
  | .answered none => exact ⟨rfl, .none, rfl⟩
  | .answered (some new) =>
    refine ⟨rfl, .none, ?_⟩
    simp [judge, Event.shifted, h.index]
  | .failed cause => exact ⟨rfl, .some (.failed (.visitorFailed h _ _)), rfl⟩
  | .overflowed => exact ⟨rfl, .some .overflowed, rfl⟩

end Judging

/-- Visitors that reply alike as long as the states are in sync, and keep them so. A call that
overflows may leave the states torn. -/
structure Registration.Tied (sync torn : σ → τ → Prop) (visitor : Registration ρ α σ)
    (visitor' : Registration ρ α τ) : Prop where
  name : ∀ {state state'}, sync state state' → visitor'.name state' = visitor.name state
  node : ∀ hook node {state state'}, sync state state' →
    let called := visitor.callNode hook node state
    let called' := visitor'.callNode hook node state'
    called'.1 = called.1 ∧
      (sync called.2 called'.2 ∨ called.1 = .overflowed ∧ torn called.2 called'.2)
  sequence : ∀ hook nodes {state state'}, sync state state' →
    let called := visitor.callSequence hook nodes state
    let called' := visitor'.callSequence hook nodes state'
    called'.1 = called.1 ∧
      (sync called.2 called'.2 ∨ called.1 = .overflowed ∧ torn called.2 called'.2)

/-- A visitor that keeps whatever it is shown, and of whom the first of two walks knows nothing. -/
structure Registration.LooksOn (sync : σ → τ → Prop) (watcher : Registration ρ α τ) : Prop where
  node : ∀ hook node {state state'}, sync state state' →
    ∃ seen, watcher.callNode hook node state' = (.answered node .keep, seen) ∧ sync state seen
  sequence : ∀ hook nodes {state state'}, sync state state' →
    ∃ seen, watcher.callSequence hook nodes state' = (.answered none, seen) ∧ sync state seen

/-- The second walker is the first one with a visitor put into its list that looks on. -/
structure Insertion (walker : Walker ρ α σ) (other : Walker ρ α τ) where
  sync : σ → τ → Prop
  torn : σ → τ → Prop
  front : List (Registration ρ α σ)
  back : List (Registration ρ α σ)
  front' : List (Registration ρ α τ)
  watcher : Registration ρ α τ
  back' : List (Registration ρ α τ)
  visitors : walker.visitors = front ++ back
  visitors' : other.visitors = front' ++ watcher :: back'
  options : other.options = walker.options
  fronts : List.Forall₂ (Registration.Tied sync torn) front front'
  looksOn : watcher.LooksOn sync
  backs : List.Forall₂ (Registration.Tied sync torn) back back'
  tells : ∀ event {state state'}, sync state state' →
    sync (walker.emit event state) (other.emit (event.shifted front.length) state')

namespace Insertion

variable {walker : Walker ρ α σ} {other : Walker ρ α τ} (insertion : Insertion walker other)
  {state : σ} {state' : τ}

/-- The place of the visitor that looks on. -/
def gap : Nat :=
  insertion.front.length

/-- The walks are in sync until both are broken off. -/
def ties : Ties σ τ where
  sync := insertion.sync
  broken := fun why why' state state' => why.Shifted insertion.gap why' ∧
    (insertion.sync state state' ∨ why = .overflowed ∧ insertion.torn state state')
  parted := fun _ _ _ => False

lemma sync_tell (event : Option Event) (h : insertion.sync state state') :
    insertion.sync (walker.tell event state)
      (other.tell (event.map (Event.shifted insertion.gap)) state') := by
  cases event with
  | none => exact h
  | some event => exact insertion.tells event h

variable {index : Nat} {visitor : Registration ρ α σ} {visitor' : Registration ρ α τ}
  {rest : List (Registration ρ α σ)} {rest' : List (Registration ρ α τ)}

lemma site_shifted {insertion : Insertion walker other}
    (tied : visitor.Tied insertion.sync insertion.torn visitor')
    (h : insertion.sync state state') (hook : Hook) (index : Nat) :
    (visitor.site hook index state).Shifted insertion.gap
      (visitor'.site hook (shiftIndex insertion.gap index) state') where
  hook := rfl
  index := rfl
  visitor := ⟨visitor.name state, rfl, by rw [Registration.site, tied.name h]⟩

section Asking

variable [Admission ρ α] {hook : NodeHook} {place : Place ρ}

/-- One visitor is asked about a node, at its old and at its new place. -/
lemma consult {insertion : Insertion walker other}
    (tied : visitor.Tied insertion.sync insertion.torn visitor')
    (hook : NodeHook) (place : Place ρ) (index : Nat) (node : Tree ρ α)
    (h : insertion.sync state state') :
    insertion.ties.Asks (walker.consult hook place index visitor node state)
      (other.consult hook place (shiftIndex insertion.gap index) visitor' node state') := by
  obtain ⟨hreply, hstate⟩ := tied.node hook node h
  rcases hc : visitor.callNode hook node state with ⟨reply, after⟩
  rcases hc' : visitor'.callNode hook node state' with ⟨reply', after'⟩
  simp only [hc, hc'] at hreply hstate
  obtain rfl := hreply.symm
  simp only [Walker.consult, hc, hc', insertion.options]
  rcases hstate with synced | ⟨rfl, torn⟩
  · obtain ⟨hverdict, hevent⟩ := walker.options.judge_shifted
      (site_shifted tied synced (.node hook) index) hook place node reply
    rcases hj : walker.options.judge hook place (visitor.site (.node hook) index after) node
      reply with ⟨verdict, event⟩
    rcases hj' : walker.options.judge hook place
      (visitor'.site (.node hook) (shiftIndex insertion.gap index) after') node reply with
      ⟨verdict', event'⟩
    rw [hj, hj'] at hverdict hevent
    obtain rfl : event' = event.map (Event.shifted insertion.gap) := hevent
    have told := insertion.sync_tell event synced
    cases hverdict with
    | on goesOn => exact .on goesOn told
    | halted shifted => exact .broken ⟨shifted, .inl told⟩
  · exact .broken ⟨.overflowed, .inr ⟨rfl, torn⟩⟩

lemma consultFrom_cons {insertion : Insertion walker other}
    (tied : visitor.Tied insertion.sync insertion.torn visitor')
    (node : Tree ρ α) (h : insertion.sync state state')
    (hrest : ∀ node {state state'}, insertion.sync state state' →
      insertion.ties.Asks (walker.consultFrom hook place (index + 1) rest node state)
        (other.consultFrom hook place (shiftIndex insertion.gap index + 1) rest' node state')) :
    insertion.ties.Asks (walker.consultFrom hook place index (visitor :: rest) node state)
      (other.consultFrom hook place (shiftIndex insertion.gap index) (visitor' :: rest') node
        state') := by
  have hfirst := consult tied hook place index node h
  rcases hc : walker.consult hook place index visitor node state with ⟨verdict, after⟩
  rcases hc' : other.consult hook place (shiftIndex insertion.gap index) visitor' node state' with
    ⟨verdict', after'⟩
  rw [hc, hc'] at hfirst
  simp only [Walker.consultFrom, hc, hc']
  cases hfirst with
  | on goesOn synced =>
    cases verdict with
    | proceed node => exact hrest node synced
    | halt left why => cases goesOn
    | _ => exact .on rfl synced
  | broken halted => exact .broken halted
  | parted halted => exact halted.elim

/-- The visitors behind the gap are asked. -/
lemma consultFrom_back {insertion : Insertion walker other}
    (hrest : List.Forall₂ (Registration.Tied insertion.sync insertion.torn) rest rest')
    (hindex : insertion.gap ≤ index) (node : Tree ρ α) (h : insertion.sync state state') :
    insertion.ties.Asks (walker.consultFrom hook place index rest node state)
      (other.consultFrom hook place (index + 1) rest' node state') := by
  induction hrest generalizing index node state state' with
  | nil => exact .on rfl h
  | cons tied _ ih =>
    have hshift : shiftIndex insertion.gap index = index + 1 := if_neg (by omega)
    rw [← hshift]
    refine consultFrom_cons tied node h fun node _ _ h => ?_
    rw [hshift]
    exact ih (by omega) node h

/-- The visitor that looks on is asked, and then those behind it. -/
lemma consultFrom_watcher (index : Nat) (node : Tree ρ α)
    (h : insertion.sync state state') :
    ∃ seen, insertion.sync state seen ∧
      other.consultFrom hook place index (insertion.watcher :: insertion.back') node state' =
        other.consultFrom hook place (index + 1) insertion.back' node seen := by
  obtain ⟨seen, hseen, hsync⟩ := insertion.looksOn.node hook node h
  refine ⟨seen, hsync, ?_⟩
  have hnone : other.options.firstRefused (α := α) place.rule [] = none := by
    simp [Options.firstRefused]
  simp [Walker.consultFrom, Walker.consult, hseen, Options.judge, Options.follow, Directive.legal,
    Directive.carried, Directive.verdict, Directive.event, hnone]

/-- The visitors before the gap are asked, and then the others. -/
lemma consultFrom_front {insertion : Insertion walker other}
    (hrest : List.Forall₂ (Registration.Tied insertion.sync insertion.torn) rest rest')
    (hindex : index + rest.length = insertion.gap) (node : Tree ρ α)
    (h : insertion.sync state state') :
    insertion.ties.Asks
      (walker.consultFrom hook place index (rest ++ insertion.back) node state)
      (other.consultFrom hook place index (rest' ++ insertion.watcher :: insertion.back') node
        state') := by
  induction hrest generalizing index node state state' with
  | nil =>
    obtain ⟨seen, hseen, heq⟩ := insertion.consultFrom_watcher index node h
    rw [List.nil_append, List.nil_append, heq]
    exact consultFrom_back insertion.backs (Nat.le_of_eq hindex.symm) node hseen
  | @cons visitor visitor' rest rest' tied _ ih =>
    rw [List.length_cons] at hindex
    have hshift : shiftIndex insertion.gap index = index := if_pos (by omega)
    have hrest : ∀ node {state state'}, insertion.sync state state' →
        insertion.ties.Asks
          (walker.consultFrom hook place (index + 1) (rest ++ insertion.back) node state)
          (other.consultFrom hook place (shiftIndex insertion.gap index + 1)
            (rest' ++ insertion.watcher :: insertion.back') node state') := by
      intro node _ _ h
      rw [hshift]
      exact ih (by omega) node h
    have hcons := consultFrom_cons tied node h hrest
    rwa [hshift] at hcons

lemma consultAll (hook : NodeHook) (place : Place ρ) (node : Tree ρ α)
    (h : insertion.sync state state') :
    insertion.ties.Asks (walker.consultAll hook place node state)
      (other.consultAll hook place node state') := by
  rw [Walker.consultAll, Walker.consultAll, insertion.visitors, insertion.visitors']
  exact consultFrom_front insertion.fronts (Nat.zero_add _) node h

end Asking

section Showing

variable {hook : SequenceHook}

lemma showFrom_cons {insertion : Insertion walker other}
    (tied : visitor.Tied insertion.sync insertion.torn visitor')
    (nodes : List (Tree ρ α)) (h : insertion.sync state state')
    (hrest : ∀ nodes {state state'}, insertion.sync state state' →
      insertion.ties.Sweeps (walker.showFrom hook (index + 1) rest nodes state)
        (other.showFrom hook (shiftIndex insertion.gap index + 1) rest' nodes state')) :
    insertion.ties.Sweeps (walker.showFrom hook index (visitor :: rest) nodes state)
      (other.showFrom hook (shiftIndex insertion.gap index) (visitor' :: rest') nodes state') := by
  obtain ⟨hreply, hstate⟩ := tied.sequence hook nodes h
  rcases hc : visitor.callSequence hook nodes state with ⟨reply, after⟩
  rcases hc' : visitor'.callSequence hook nodes state' with ⟨reply', after'⟩
  simp only [hc, hc'] at hreply hstate
  obtain rfl := hreply.symm
  simp only [Walker.showFrom, hc, hc']
  rcases hstate with synced | ⟨rfl, torn⟩
  · obtain ⟨hnodes, hhalt, hevent⟩ := reply.judge_shifted
      (site_shifted tied synced (.sequence hook) index) hook nodes
    rcases hj : reply.judge hook (visitor.site (.sequence hook) index after) nodes with
      ⟨⟨made, halt⟩, event⟩
    rcases hj' : reply.judge hook
      (visitor'.site (.sequence hook) (shiftIndex insertion.gap index) after') nodes with
      ⟨⟨made', halt'⟩, event'⟩
    rw [hj, hj'] at hnodes hhalt hevent
    obtain rfl : made' = made := hnodes
    obtain rfl : event' = event.map (Event.shifted insertion.gap) := hevent
    have told := insertion.sync_tell event synced
    cases hhalt with
    | none => exact hrest made' told
    | some shifted => exact .broken ⟨shifted, .inl told⟩
  · exact .broken ⟨.overflowed, .inr ⟨rfl, torn⟩⟩

lemma showFrom_back {insertion : Insertion walker other}
    (hrest : List.Forall₂ (Registration.Tied insertion.sync insertion.torn) rest rest')
    (hindex : insertion.gap ≤ index) (nodes : List (Tree ρ α)) (h : insertion.sync state state') :
    insertion.ties.Sweeps (walker.showFrom hook index rest nodes state)
      (other.showFrom hook (index + 1) rest' nodes state') := by
  induction hrest generalizing index nodes state state' with
  | nil => exact .on h
  | cons tied _ ih =>
    have hshift : shiftIndex insertion.gap index = index + 1 := if_neg (by omega)
    rw [← hshift]
    refine showFrom_cons tied nodes h fun nodes _ _ h => ?_
    rw [hshift]
    exact ih (by omega) nodes h

lemma showFrom_watcher (index : Nat) (nodes : List (Tree ρ α)) (h : insertion.sync state state') :
    ∃ seen, insertion.sync state seen ∧
      other.showFrom hook index (insertion.watcher :: insertion.back') nodes state' =
        other.showFrom hook (index + 1) insertion.back' nodes seen := by
  obtain ⟨seen, hseen, hsync⟩ := insertion.looksOn.sequence hook nodes h
  refine ⟨seen, hsync, ?_⟩
  simp [Walker.showFrom, hseen, SequenceReply.judge]

lemma showFrom_front {insertion : Insertion walker other}
    (hrest : List.Forall₂ (Registration.Tied insertion.sync insertion.torn) rest rest')
    (hindex : index + rest.length = insertion.gap) (nodes : List (Tree ρ α))
    (h : insertion.sync state state') :
    insertion.ties.Sweeps (walker.showFrom hook index (rest ++ insertion.back) nodes state)
      (other.showFrom hook index (rest' ++ insertion.watcher :: insertion.back') nodes
        state') := by
  induction hrest generalizing index nodes state state' with
  | nil =>
    obtain ⟨seen, hseen, heq⟩ := insertion.showFrom_watcher index nodes h
    rw [List.nil_append, List.nil_append, heq]
    exact showFrom_back insertion.backs (Nat.le_of_eq hindex.symm) nodes hseen
  | @cons visitor visitor' rest rest' tied _ ih =>
    rw [List.length_cons] at hindex
    have hshift : shiftIndex insertion.gap index = index := if_pos (by omega)
    have hrest : ∀ nodes {state state'}, insertion.sync state state' →
        insertion.ties.Sweeps
          (walker.showFrom hook (index + 1) (rest ++ insertion.back) nodes state)
          (other.showFrom hook (shiftIndex insertion.gap index + 1)
            (rest' ++ insertion.watcher :: insertion.back') nodes state') := by
      intro nodes _ _ h
      rw [hshift]
      exact ih (by omega) nodes h
    have hcons := showFrom_cons tied nodes h hrest
    rwa [hshift] at hcons

lemma showAll (hook : SequenceHook) (nodes : List (Tree ρ α)) (h : insertion.sync state state') :
    insertion.ties.Sweeps (walker.showAll hook nodes state) (other.showAll hook nodes state') := by
  rw [Walker.showAll, Walker.showAll, insertion.visitors, insertion.visitors']
  exact showFrom_front insertion.fronts (Nat.zero_add _) nodes h

end Showing

/-- The number of visitors is told when a traversal starts. -/
lemma starts (nodes : Nat) (h : insertion.sync state state') :
    insertion.sync (walker.emit (.started nodes walker.visitors.length) state)
      (other.emit (.started nodes other.visitors.length) state') := by
  have hlength : other.visitors.length = walker.visitors.length + 1 := by
    rw [insertion.visitors, insertion.visitors', List.length_append, List.length_append,
      List.length_cons, insertion.fronts.length_eq, insertion.backs.length_eq]
    omega
  rw [hlength]
  exact insertion.tells (.started nodes walker.visitors.length) h

lemma tells_same {event : Event} (hevent : event.ofVisitors = false)
    (h : insertion.sync state state') :
    insertion.sync (walker.emit event state) (other.emit event state') := by
  have told := insertion.tells event h
  rwa [Event.shifted_of_ofVisitors hevent] at told

variable [Admission ρ α]

/-- The two walkers never part. -/
def tandem : Tandem walker other where
  toTies := insertion.ties
  rooms := fun room room' _ => room' = room
  starts := insertion.starts _
  tells := insertion.tells_same
  shows := fun hook nodes _ _ => insertion.showAll hook nodes
  asks := fun hook place node _ _ => insertion.consultAll hook place node
  stops := by
    rintro _ _ state state' ⟨_ | _ | _, hstate⟩
    · rcases hstate with synced | ⟨⟨⟩, -⟩
      exact .inl ⟨rfl, rfl, synced⟩
    · exact .inr ⟨nofun, nofun⟩
    · exact .inr ⟨nofun, nofun⟩
  unstopped := id
  stays := fun halted _ => halted
  tooDeep := by
    intro depth limit tag state state' exceeded h
    rw [insertion.options]
    exact .inl ⟨exceeded, .failed (.tooDeep limit tag), .inl (insertion.tells_same rfl h)⟩
  descends := by
    intro room room' depth hrooms allowed
    rw [insertion.options]
    exact ⟨allowed, Nat.succ.inj hrooms⟩
  noRoom := fun hrooms h => .inl ⟨hrooms, .overflowed, .inl h⟩
  someRoom := nofun

/-- Two traversals of one sequence make the same of it and end alike. -/
theorem traverse (stack : Nat) (nodes : List (Tree ρ α)) (h : insertion.sync state state') :
    let sweep := walker.traverse stack nodes state
    let sweep' := other.traverse stack nodes state'
    sweep'.items = sweep.items ∧ Option.Rel (Halt.Shifted insertion.gap) sweep.halt sweep'.halt ∧
      (insertion.sync sweep.state sweep'.state ∨
        sweep.halt = some .overflowed ∧ insertion.torn sweep.state sweep'.state) := by
  have hroom : other.room stack = walker.room stack := by
    simp only [Walker.room, insertion.options]
  have hsweeps : insertion.ties.Sweeps (walker.traverse stack nodes state)
      (other.traverse stack nodes state') :=
    insertion.tandem.traverse hroom nodes h
  rcases hs : walker.traverse stack nodes state with ⟨items, halt, final⟩
  rcases hs' : other.traverse stack nodes state' with ⟨items', halt', final'⟩
  rw [hs, hs'] at hsweeps
  cases hsweeps with
  | on synced => exact ⟨rfl, .none, .inl synced⟩
  | broken halted =>
    obtain ⟨shifted, synced | ⟨rfl, torn⟩⟩ := halted
    · exact ⟨rfl, .some shifted, .inl synced⟩
    · exact ⟨rfl, .some shifted, .inr ⟨rfl, torn⟩⟩
  | parted halted => exact halted.elim

end Insertion

end ForestWalk
