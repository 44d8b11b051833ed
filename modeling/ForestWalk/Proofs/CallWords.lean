import ForestWalk.Proofs.Adequacy
/-!
The grammar of calls. It tells which calls a traversal makes, in which order and with what, if it is
neither stopped nor fails. How deep the walk may go and which shapes slots ask for plays no part in
it, and neither do the visitors: what a word goes on with depends on the replies so far alone.
-/

namespace ForestWalk

variable {ρ α : Type}

namespace Act

/-- The calls among the acts. -/
def calls (acts : List (Act ρ α)) : List (Act ρ α) :=
  acts.filter isCall

/-- Whether a visitor asks to walk no further. -/
def stops : Act ρ α → Bool
  | .node _ _ _ _ (.answered _ .stop) => true
  | _ => false

@[simp] theorem calls_nil : calls ([] : List (Act ρ α)) = [] :=
  rfl

@[simp] theorem calls_event (event : Event) (acts : List (Act ρ α)) :
    calls (.event event :: acts) = calls acts :=
  rfl

@[simp] theorem calls_node (index : Nat) (name : String) (hook : NodeHook) (shown : Tree ρ α)
    (reply : NodeReply ρ α) (acts : List (Act ρ α)) :
    calls (.node index name hook shown reply :: acts) =
      .node index name hook shown reply :: calls acts :=
  rfl

@[simp] theorem calls_sequence (index : Nat) (name : String) (hook : SequenceHook)
    (nodes : List (Tree ρ α)) (reply : SequenceReply ρ α) (acts : List (Act ρ α)) :
    calls (.sequence index name hook nodes reply :: acts) =
      .sequence index name hook nodes reply :: calls acts :=
  rfl

@[simp] theorem calls_append (acts more : List (Act ρ α)) :
    calls (acts ++ more) = calls acts ++ calls more :=
  List.filter_append acts more

@[simp] theorem calls_telling (event : Option Event) :
    calls (telling event : List (Act ρ α)) = [] := by
  cases event <;> rfl

end Act

/-- The calls of one hook with a node, from a registration on, out of `count` in all. They go
through to the last registration, or end early with the visitor that settles what becomes of the
node. Each call is shown the node as the calls before have left it. -/
inductive HookWord (count : Nat) (hook : NodeHook) (position : Position) :
    Nat → Tree ρ α → List (Act ρ α) → Verdict (Tree ρ α) → Prop
  | through (node : Tree ρ α) : HookWord count hook position count node [] (.proceed node)
  | kept {index : Nat} {name : String} {node left : Tree ρ α} {word : List (Act ρ α)}
      {verdict : Verdict (Tree ρ α)} (inRange : index < count)
      (others : HookWord count hook position (index + 1) left word verdict) :
      HookWord count hook position index node
        (.node index name hook node (.answered left .keep) :: word) verdict
  | replaced {index : Nat} {name : String} {node left new : Tree ρ α} {word : List (Act ρ α)}
      {verdict : Verdict (Tree ρ α)} (inRange : index < count)
      (others : HookWord count hook position (index + 1) new word verdict) :
      HookWord count hook position index node
        (.node index name hook node (.answered left (.replace new)) :: word) verdict
  | removed {index : Nat} {name : String} {node left : Tree ρ α} (inRange : index < count) :
      HookWord count hook position index node
        [.node index name hook node (.answered left .remove)] .remove
  | skipped {index : Nat} {name : String} {node left : Tree ρ α} (inRange : index < count)
      (entering : hook = .enter) :
      HookWord count hook position index node
        [.node index name hook node (.answered left .skipChildren)] (.skipChildren left)
  | spliced {index : Nat} {name : String} {node left : Tree ρ α} {new : List (Tree ρ α)}
      (inRange : index < count) (leaving : hook = .leave)
      (allowed : position.allowsSplice = true) :
      HookWord count hook position index node
        [.node index name hook node (.answered left (.splice new))] (.splice new)

mutual

/-- The calls for a node and what is below it, with what becomes of the node. -/
inductive NodeWord (count : Nat) :
    Position → Tree ρ α → List (Act ρ α) → Fate (Tree ρ α) → Prop
  | walked {position : Position} {node mid : Tree ρ α} {slots : List (Slot ρ α (Tree ρ α))}
      {word below last : List (Act ρ α)} {verdict : Verdict (Tree ρ α)}
      (entered : HookWord count .enter position 0 node word (.proceed mid))
      (descended : SlotsWord count mid.slots below slots)
      (left : HookWord count .leave position 0 { mid with slots := slots } last verdict) :
      NodeWord count position node (word ++ below ++ last) verdict.fate
  | skipped {position : Position} {node mid : Tree ρ α} {word last : List (Act ρ α)}
      {verdict : Verdict (Tree ρ α)}
      (entered : HookWord count .enter position 0 node word (.skipChildren mid))
      (left : HookWord count .leave position 0 mid last verdict) :
      NodeWord count position node (word ++ last) verdict.fate
  | removed {position : Position} {node : Tree ρ α} {word : List (Act ρ α)}
      (entered : HookWord count .enter position 0 node word .remove) :
      NodeWord count position node word .remove

/-- The calls for what is in the slots of a node, with what becomes of the slots. -/
inductive SlotsWord (count : Nat) :
    List (Slot ρ α (Tree ρ α)) → List (Act ρ α) → List (Slot ρ α (Tree ρ α)) → Prop
  | nil : SlotsWord count [] [] []
  | vacant {rule : Rule ρ} {rest items : List (Slot ρ α (Tree ρ α))} {word : List (Act ρ α)}
      (others : SlotsWord count rest word items) :
      SlotsWord count (⟨rule, .single none⟩ :: rest) word (⟨rule, .single none⟩ :: items)
  | kept {rule : Rule ρ} {child left : Tree ρ α} {rest items : List (Slot ρ α (Tree ρ α))}
      {word more : List (Act ρ α)} (visited : NodeWord count .single child word (.keep left))
      (others : SlotsWord count rest more items) :
      SlotsWord count (⟨rule, .single (some child)⟩ :: rest) (word ++ more)
        (⟨rule, .single (some left)⟩ :: items)
  | cleared {rule : Rule ρ} {child : Tree ρ α} {rest items : List (Slot ρ α (Tree ρ α))}
      {word more : List (Act ρ α)} (visited : NodeWord count .single child word .remove)
      (others : SlotsWord count rest more items) :
      SlotsWord count (⟨rule, .single (some child)⟩ :: rest) (word ++ more)
        (⟨rule, .single none⟩ :: items)
  | list {rule : Rule ρ} {children left : List (Tree ρ α)}
      {rest items : List (Slot ρ α (Tree ρ α))} {word more : List (Act ρ α)}
      (walked : ListWord count .list children word left)
      (others : SlotsWord count rest more items) :
      SlotsWord count (⟨rule, .list children⟩ :: rest) (word ++ more)
        (⟨rule, .list left⟩ :: items)
  | value {rule : Rule ρ} {content : α} {rest items : List (Slot ρ α (Tree ρ α))}
      {word : List (Act ρ α)} (others : SlotsWord count rest word items) :
      SlotsWord count (⟨rule, .value content⟩ :: rest) word (⟨rule, .value content⟩ :: items)

/-- The calls for the nodes of a list, with what becomes of the list. -/
inductive ListWord (count : Nat) :
    Position → List (Tree ρ α) → List (Act ρ α) → List (Tree ρ α) → Prop
  | nil (position : Position) : ListWord count position [] [] []
  | cons {position : Position} {node : Tree ρ α} {rest given items : List (Tree ρ α)}
      {fate : Fate (Tree ρ α)} {word more : List (Act ρ α)}
      (visited : NodeWord count position node word fate) (part : fate.contribution = some given)
      (others : ListWord count position rest more items) :
      ListWord count position (node :: rest) (word ++ more) (given ++ items)

end

/-- The calls of one hook with the top-level sequence, from a registration on. They always go
through to the last one. -/
inductive SequenceWord (count : Nat) (hook : SequenceHook) :
    Nat → List (Tree ρ α) → List (Act ρ α) → List (Tree ρ α) → Prop
  | through (nodes : List (Tree ρ α)) : SequenceWord count hook count nodes [] nodes
  | kept {index : Nat} {name : String} {nodes items : List (Tree ρ α)} {word : List (Act ρ α)}
      (inRange : index < count)
      (others : SequenceWord count hook (index + 1) nodes word items) :
      SequenceWord count hook index nodes
        (.sequence index name hook nodes (.answered none) :: word) items
  | replaced {index : Nat} {name : String} {nodes new items : List (Tree ρ α)}
      {word : List (Act ρ α)} (inRange : index < count)
      (others : SequenceWord count hook (index + 1) new word items) :
      SequenceWord count hook index nodes
        (.sequence index name hook nodes (.answered (some new)) :: word) items

/-- The calls of a traversal. -/
inductive TraversalWord (count : Nat) (nodes : List (Tree ρ α)) :
    List (Act ρ α) → List (Tree ρ α) → Prop
  | intro {start mid items : List (Tree ρ α)} {first word last : List (Act ρ α)}
      (shown : SequenceWord count .before 0 nodes first start)
      (walked : ListWord count .topLevel start word mid)
      (shownAgain : SequenceWord count .after 0 mid last items) :
      TraversalWord count nodes (first ++ word ++ last) items

section Consult

variable [Admission ρ α] {options : Options} {count : Nat} {hook : NodeHook} {place : Place ρ}

/-- Calls that do not break the walk off spell the word of their hook. -/
theorem ConsultRun.word {index : Nat} {node : Tree ρ α} {acts : List (Act ρ α)}
    {verdict : Verdict (Tree ρ α)}
    (hrun : ConsultRun options count hook place index node acts verdict)
    (unbroken : ∀ left why, verdict ≠ .halt left why) :
    HookWord count hook place.position index node (Act.calls acts) verdict := by
  induction hrun with
  | done node => exact .through node
  | pass inRange judged others ih =>
    simp only [Act.calls_node, Act.calls_append, Act.calls_telling, List.nil_append]
    obtain rfl | ⟨left, rfl⟩ := Options.judge_proceed rfl judged
    · exact .kept inRange (ih unbroken)
    · exact .replaced inRange (ih unbroken)
  | settle inRange judged settled =>
    simp only [Act.calls_node, Act.calls_telling]
    obtain ⟨left, directive, rfl, legal, -, rfl, -⟩ | ⟨-, rfl, -⟩ | ⟨error, rfl, -⟩ :=
      Options.judge_cases rfl judged
    · cases directive with
      | keep | replace => exact absurd rfl (settled _)
      | remove => exact .removed inRange
      | skipChildren => exact .skipped inRange (by simpa [Directive.legal] using legal)
      | splice new =>
        cases hook with
        | enter => cases legal
        | leave => exact .spliced inRange rfl legal
      | stop => exact absurd rfl (unbroken _ _)
    · exact absurd rfl (unbroken _ _)
    · exact absurd rfl (unbroken _ _)

/-- A walk that counts as stopped was stopped by a visitor. -/
lemma ConsultRun.stops {index : Nat} {node left : Tree ρ α} {acts : List (Act ρ α)}
    (hrun : ConsultRun options count hook place index node acts (.halt left .stopped)) :
    ∃ act ∈ acts, act.stops = true := by
  generalize hv : Verdict.halt left Halt.stopped = verdict at hrun
  induction hrun with
  | done node => cases hv
  | pass inRange judged others ih =>
    obtain ⟨act, hact, hstops⟩ := ih hv
    exact ⟨act, by simp [hact], hstops⟩
  | settle inRange judged settled =>
    subst hv
    refine ⟨_, List.mem_cons_self, ?_⟩
    obtain ⟨left, directive, rfl, -, -, hv, -⟩ | ⟨-, hv, -⟩ | ⟨error, hv, -⟩ :=
      Options.judge_cases rfl judged
    · cases directive with
      | stop => rfl
      | _ => cases hv
    · cases hv
    · cases hv

end Consult

/-- A node is spliced when it is left, and where there is room for others. -/
lemma HookWord.of_splice {count : Nat} {hook : NodeHook} {position : Position} {index : Nat}
    {node : Tree ρ α} {word : List (Act ρ α)} {new : List (Tree ρ α)}
    (h : HookWord count hook position index node word (.splice new)) :
    hook = .leave ∧ position.allowsSplice = true := by
  generalize hv : Verdict.splice new = verdict at h
  induction h with
  | kept inRange others ih | replaced inRange others ih => exact ih hv
  | spliced inRange leaving allowed => exact ⟨leaving, allowed⟩
  | _ => cases hv

lemma Verdict.eq_splice {τ : Type} {verdict : Verdict τ} {new : List τ}
    (h : .splice new = verdict.fate) : verdict = .splice new := by
  cases verdict <;> simp_all [fate]

lemma NodeWord.not_spliced {count : Nat} {node : Tree ρ α} {word : List (Act ρ α)}
    {new : List (Tree ρ α)} : ¬ NodeWord count .single node word (.splice new) := by
  generalize hf : Fate.splice new = fate
  intro h
  cases h with
  | walked entered descended left | skipped entered left =>
    obtain rfl := Verdict.eq_splice hf
    cases left.of_splice.2
  | removed entered => cases hf

/-- The runs of a node at a position spell words of the grammar, or they are broken off. -/
structure Spelled (count : Nat) (position : Position)
    (run : Tree ρ α → List (Act ρ α) → Fate (Tree ρ α) → Prop) : Prop where
  word : ∀ {node acts fate given}, run node acts fate → fate.contribution = some given →
    NodeWord count position node (Act.calls acts) fate
  stops : ∀ {node acts left}, run node acts (.halt left .stopped) → ∃ act ∈ acts, act.stops = true

section Lists

variable {count : Nat} {position : Position}
  {run : Tree ρ α → List (Act ρ α) → Fate (Tree ρ α) → Prop} {slot : String}

lemma ListRun.word (h : Spelled count position run) {emitted : Nat} {nodes items : List (Tree ρ α)}
    {acts : List (Act ρ α)} (hrun : ListRun run slot emitted nodes acts items none) :
    ListWord count position nodes (Act.calls acts) items := by
  generalize hh : (none : Option Halt) = halt at hrun
  induction hrun with
  | nil emitted => exact .nil position
  | cons visited part others ih =>
    simpa using ListWord.cons (h.word visited part) part (ih hh)
  | halt visited => cases hh

lemma ListRun.stops (h : Spelled count position run) {emitted : Nat}
    {nodes items : List (Tree ρ α)} {acts : List (Act ρ α)}
    (hrun : ListRun run slot emitted nodes acts items (some .stopped)) :
    ∃ act ∈ acts, act.stops = true := by
  generalize hh : some Halt.stopped = halt at hrun
  induction hrun with
  | nil emitted => cases hh
  | cons visited part others ih =>
    obtain ⟨act, hact, hstops⟩ := ih hh
    exact ⟨act, by simp [hact], hstops⟩
  | halt visited =>
    obtain rfl := Option.some.inj hh
    exact h.stops visited

end Lists

section Slots

variable {count : Nat} {run : Place ρ → Tree ρ α → List (Act ρ α) → Fate (Tree ρ α) → Prop}

lemma ContentRun.word (h : ∀ place, Spelled count place.position (run place)) {rule : Rule ρ}
    {content left : Content α (Tree ρ α)} {rest items : List (Slot ρ α (Tree ρ α))}
    {acts more : List (Act ρ α)} (hrun : ContentRun run rule content acts left none)
    (others : SlotsWord count rest more items) :
    SlotsWord count (⟨rule, content⟩ :: rest) (Act.calls acts ++ more) (⟨rule, left⟩ :: items) := by
  cases hrun with
  | vacant => exact .vacant others
  | kept visited => exact .kept ((h ⟨.single, rule⟩).word visited rfl) others
  | cleared visited =>
    simpa using SlotsWord.cleared ((h ⟨.single, rule⟩).word visited rfl) others
  | spliced visited => exact absurd ((h ⟨.single, rule⟩).word visited rfl) NodeWord.not_spliced
  | list walked => exact .list (ListRun.word (h ⟨.list, rule⟩) walked) others
  | value content => exact .value others

lemma ContentRun.stops (h : ∀ place, Spelled count place.position (run place)) {rule : Rule ρ}
    {content left : Content α (Tree ρ α)} {acts : List (Act ρ α)}
    (hrun : ContentRun run rule content acts left (some .stopped)) :
    ∃ act ∈ acts, act.stops = true := by
  cases hrun with
  | halt visited => exact (h ⟨.single, rule⟩).stops visited
  | list walked => exact ListRun.stops (h ⟨.list, rule⟩) walked

lemma SlotsRun.word (h : ∀ place, Spelled count place.position (run place))
    {slots items : List (Slot ρ α (Tree ρ α))} {acts : List (Act ρ α)}
    (hrun : SlotsRun run slots acts items none) :
    SlotsWord count slots (Act.calls acts) items := by
  generalize hh : (none : Option Halt) = halt at hrun
  induction hrun with
  | nil => exact .nil
  | cons walked others ih => simpa using walked.word h (ih hh)
  | halt walked => cases hh

lemma SlotsRun.stops (h : ∀ place, Spelled count place.position (run place))
    {slots items : List (Slot ρ α (Tree ρ α))} {acts : List (Act ρ α)}
    (hrun : SlotsRun run slots acts items (some .stopped)) : ∃ act ∈ acts, act.stops = true := by
  generalize hh : some Halt.stopped = halt at hrun
  induction hrun with
  | nil => cases hh
  | cons walked others ih =>
    obtain ⟨act, hact, hstops⟩ := ih hh
    exact ⟨act, by simp [hact], hstops⟩
  | halt walked =>
    obtain rfl := Option.some.inj hh
    exact walked.stops h

end Slots

section Traversal

variable [Admission ρ α] {options : Options} {count : Nat}

/-- A hook that lets the visit come to an end has not broken the walk off. -/
lemma Verdict.unbroken {τ : Type} {verdict : Verdict τ} {given : List τ}
    (part : verdict.fate.contribution = some given) (left : τ) (why : Halt) :
    verdict ≠ .halt left why := by
  rintro rfl
  cases part

lemma VisitRun.word {below : Place ρ → Tree ρ α → List (Act ρ α) → Fate (Tree ρ α) → Prop}
    (h : ∀ place, Spelled count place.position (below place)) {depth : Nat} {place : Place ρ}
    {node : Tree ρ α} {acts : List (Act ρ α)} {fate : Fate (Tree ρ α)} {given : List (Tree ρ α)}
    (hrun : VisitRun options count below depth place node acts fate)
    (part : fate.contribution = some given) :
    NodeWord count place.position node (Act.calls acts) fate := by
  cases hrun with
  | tooDeep exceeded => cases part
  | walked allowed entered descended left =>
    rw [Act.calls_append, Act.calls_append]
    exact .walked (entered.word nofun) (descended.word h) (left.word (Verdict.unbroken part))
  | broken allowed entered descended => cases part
  | skipped allowed entered left =>
    rw [Act.calls_append]
    exact .skipped (entered.word nofun) (left.word (Verdict.unbroken part))
  | @settled _ verdict allowed entered proceeds skips =>
    have hword := entered.word (Verdict.unbroken part)
    cases verdict with
    | proceed mid => exact absurd rfl (proceeds mid)
    | skipChildren mid => exact absurd rfl (skips mid)
    | remove => exact .removed hword
    | splice new => cases hword.of_splice.1
    | halt left why => cases part

lemma VisitRun.stops {below : Place ρ → Tree ρ α → List (Act ρ α) → Fate (Tree ρ α) → Prop}
    (h : ∀ place, Spelled count place.position (below place)) {depth : Nat} {place : Place ρ}
    {node left : Tree ρ α} {acts : List (Act ρ α)}
    (hrun : VisitRun options count below depth place node acts (.halt left .stopped)) :
    ∃ act ∈ acts, act.stops = true := by
  generalize hf : Fate.halt left Halt.stopped = fate at hrun
  cases hrun with
  | tooDeep exceeded => cases hf
  | walked allowed entered descended left | skipped allowed entered left =>
    obtain rfl := Verdict.eq_halt hf
    obtain ⟨act, hact, hstops⟩ := left.stops
    exact ⟨act, by simp [hact], hstops⟩
  | broken allowed entered descended =>
    cases hf
    obtain ⟨act, hact, hstops⟩ := descended.stops h
    exact ⟨act, by simp [hact], hstops⟩
  | settled allowed entered proceeds skips =>
    obtain rfl := Verdict.eq_halt hf
    exact entered.stops

theorem nodeRun_spelled (room depth : Nat) (place : Place ρ) :
    Spelled (α := α) count place.position (NodeRun options count room depth place) := by
  induction room generalizing depth place with
  | zero =>
    constructor
    · rintro node acts fate given ⟨rfl, rfl⟩ part
      cases part
    · rintro node acts left ⟨-, hf⟩
      cases hf
  | succ room ih =>
    have below := fun place => ih (depth + 1) place
    exact ⟨fun hrun part => VisitRun.word below hrun part, fun hrun => VisitRun.stops below hrun⟩

omit [Admission ρ α] in
lemma ShowRun.word {hook : SequenceHook} {index : Nat} {nodes items : List (Tree ρ α)}
    {acts : List (Act ρ α)} (hrun : ShowRun count hook index nodes acts items none) :
    SequenceWord count hook index nodes (Act.calls acts) items := by
  generalize hh : (none : Option Halt) = halt at hrun
  induction hrun with
  | done nodes => exact .through nodes
  | @pass index name nodes next items reply event acts halt inRange judged others ih =>
    simp only [Act.calls_sequence, Act.calls_append, Act.calls_telling, List.nil_append]
    match reply with
    | .answered none =>
      obtain rfl : nodes = next := congrArg (fun judged => judged.1.1) judged
      exact .kept inRange (ih hh)
    | .answered (some new) =>
      obtain rfl : new = next := congrArg (fun judged => judged.1.1) judged
      exact .replaced inRange (ih hh)
    | .unavailable | .failed _ | .overflowed => cases judged
  | halt inRange judged => cases hh

theorem TraversalRun.word {room : Nat} {nodes items : List (Tree ρ α)} {acts : List (Act ρ α)}
    (hrun : TraversalRun options count room nodes acts items none)
    (unstopped : ∀ act ∈ acts, act.stops = false) :
    TraversalWord count nodes (Act.calls acts) items := by
  cases hrun with
  | finished shown walked shownAgain =>
    cases walked with
    | through walked =>
      have hwalk := ListRun.word (nodeRun_spelled room 0 .topLevel) walked
      simpa using TraversalWord.intro shown.word hwalk shownAgain.word
    | stopped walked =>
      -- Only a visitor stops a walk, and none did.
      obtain ⟨act, hact, hstops⟩ := ListRun.stops (nodeRun_spelled room 0 .topLevel) walked
      have hgoes := unstopped act (by simp [hact])
      rw [hstops] at hgoes
      cases hgoes

end Traversal

end ForestWalk
