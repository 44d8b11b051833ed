import ForestWalk.Proofs.Acts
import ForestWalk.Proofs.ListWalk
/-!
The runs of a traversal as rules. Each relation ties what is walked to a list of acts and to what
comes of it; the visitors appear only through the replies in the acts. `NodeRun` is the run of one
node with all that is below it, and `TraversalRun` the run of a traversal from start to end.
-/

namespace ForestWalk

variable {ρ α : Type}

/-- The node as a call left it. -/
def NodeReply.left (node : Tree ρ α) : NodeReply ρ α → Tree ρ α
  | .answered left _ => left
  | .failed left _ => left
  | .unavailable | .overflowed => node

/-- The node in hand after a call: the one that takes its place, or else the one that was shown, as
the visitor left it. -/
def NodeReply.inHand (shown : Tree ρ α) : NodeReply ρ α → Tree ρ α
  | .answered _ (.replace new) => new
  | reply => reply.left shown

lemma Verdict.eq_halt {τ : Type} {verdict : Verdict τ} {left : τ} {why : Halt}
    (h : .halt left why = verdict.fate) : verdict = .halt left why := by
  cases verdict <;> simp_all [fate]

/-- A reply gives a directive that is followed, or it is an overflow, or it fails; and a failure
leaves the node as the call did. -/
theorem Options.judge_cases [Admission ρ α] {options : Options} {hook : NodeHook} {place : Place ρ}
    {site : CallSite} {node : Tree ρ α} {reply : NodeReply ρ α} {verdict : Verdict (Tree ρ α)}
    {event : Option Event} (hsite : site.hook = .node hook)
    (judged : options.judge hook place site node reply = (verdict, event)) :
    (∃ left directive, reply = .answered left directive ∧
      directive.legal hook place.position = true ∧
      options.firstRefused place.rule directive.carried = none ∧
      verdict = directive.verdict left ∧ event = directive.event hook left) ∨
    (reply = .overflowed ∧ verdict = .halt node .overflowed ∧ event = none) ∨
    ∃ error, verdict = .halt (reply.left node) (.failed error) ∧ error.hook = some (.node hook) ∧
      (∀ warning ∈ event, warning.level = .warn) ∧ reply ≠ .overflowed := by
  cases reply with
  | unavailable =>
    obtain ⟨rfl, rfl⟩ := Prod.mk.inj judged
    exact .inr (.inr ⟨_, rfl, congrArg some hsite, by simp [Event.level], nofun⟩)
  | overflowed =>
    obtain ⟨rfl, rfl⟩ := Prod.mk.inj judged
    exact .inr (.inl ⟨rfl, rfl, rfl⟩)
  | failed left cause =>
    obtain ⟨rfl, rfl⟩ := Prod.mk.inj judged
    exact .inr (.inr ⟨_, rfl, congrArg some hsite, by simp, nofun⟩)
  | answered left directive =>
    simp only [judge, follow] at judged
    split at judged
    · rename_i hlegal
      rcases hr : options.firstRefused place.rule directive.carried with _ | refused
      · rw [hr] at judged
        obtain ⟨rfl, rfl⟩ := Prod.mk.inj judged
        exact .inl ⟨left, directive, rfl, hlegal, hr, rfl, rfl⟩
      · rw [hr] at judged
        obtain ⟨rfl, rfl⟩ := Prod.mk.inj judged
        exact .inr (.inr ⟨_, rfl, congrArg some hsite, by simp, nofun⟩)
    · obtain ⟨rfl, rfl⟩ := Prod.mk.inj judged
      exact .inr (.inr ⟨_, rfl, congrArg some hsite, by simp [Event.level], nofun⟩)

/-- A node is passed on only by a visitor that keeps or replaces it. -/
lemma Options.judge_proceed [Admission ρ α] {options : Options} {hook : NodeHook}
    {place : Place ρ} {site : CallSite} {node next : Tree ρ α} {reply : NodeReply ρ α}
    {event : Option Event} (hsite : site.hook = .node hook)
    (judged : options.judge hook place site node reply = (.proceed next, event)) :
    reply = .answered next .keep ∨ ∃ left, reply = .answered left (.replace next) := by
  obtain ⟨left, directive, rfl, -, -, hv, -⟩ | ⟨-, hv, -⟩ | ⟨error, hv, -⟩ :=
    judge_cases hsite judged
  · cases directive with
    | keep =>
      obtain rfl := Verdict.proceed.inj hv
      exact .inl rfl
    | replace new =>
      obtain rfl := Verdict.proceed.inj hv
      exact .inr ⟨left, rfl⟩
    | _ => cases hv
  · cases hv
  · cases hv

/-- The next visitor is asked about the node in hand. -/
lemma NodeReply.inHand_eq [Admission ρ α] {options : Options} {hook : NodeHook} {place : Place ρ}
    {site : CallSite} {node next : Tree ρ α} {reply : NodeReply ρ α} {event : Option Event}
    (hsite : site.hook = .node hook)
    (judged : options.judge hook place site node reply = (.proceed next, event)) :
    reply.inHand node = next := by
  obtain rfl | ⟨left, rfl⟩ := Options.judge_proceed hsite judged
  · rfl
  · rfl

@[simp] theorem Options.judge_stop [Admission ρ α] (options : Options) (hook : NodeHook)
    (place : Place ρ) (site : CallSite) (node left : Tree ρ α) :
    options.judge hook place site node (.answered left .stop) = (.halt left .stopped, none) := by
  simp [judge, follow, firstRefused, Directive.legal, Directive.carried, Directive.verdict,
    Directive.event]

/-- Whether an event is made known while nodes are walked. -/
def Event.ofWalk : Event → Bool
  | .tooDeep .. | .nodeReplaced .. | .removed .. | .spliced .. | .cleared .. | .illegalDirective ..
  | .unavailable .. => true
  | .started .. | .sequenceReplaced .. | .stopped | .finished .. => false

/-- Whether an event is made known while the top-level sequence is shown. -/
def Event.ofShow : Event → Bool
  | .sequenceReplaced .. | .unavailable .. => true
  | _ => false

/-- Visitors from a number on are asked about a node, out of `count` in all. -/
inductive ConsultRun [Admission ρ α] (options : Options) (count : Nat) (hook : NodeHook)
    (place : Place ρ) :
    Nat → Tree ρ α → List (Act ρ α) → Verdict (Tree ρ α) → Prop
  | done (node : Tree ρ α) : ConsultRun options count hook place count node [] (.proceed node)
  | pass {index : Nat} {name : String} {node next : Tree ρ α} {reply : NodeReply ρ α}
      {event : Option Event} {acts : List (Act ρ α)} {verdict : Verdict (Tree ρ α)}
      (inRange : index < count)
      (judged : options.judge hook place ⟨.node hook, index, name⟩ node reply =
        (.proceed next, event))
      (others : ConsultRun options count hook place (index + 1) next acts verdict) :
      ConsultRun options count hook place index node
        (.node index name hook node reply :: (Act.telling event ++ acts)) verdict
  | settle {index : Nat} {name : String} {node : Tree ρ α} {reply : NodeReply ρ α}
      {event : Option Event} {verdict : Verdict (Tree ρ α)}
      (inRange : index < count)
      (judged : options.judge hook place ⟨.node hook, index, name⟩ node reply = (verdict, event))
      (settled : ∀ next, verdict ≠ .proceed next) :
      ConsultRun options count hook place index node
        (.node index name hook node reply :: Act.telling event) verdict

/-- The nodes of a list are visited in order, where `run` is the run of one node. -/
inductive ListRun (run : Tree ρ α → List (Act ρ α) → Fate (Tree ρ α) → Prop) (slot : String) :
    Nat → List (Tree ρ α) → List (Act ρ α) → List (Tree ρ α) → Option Halt → Prop
  | nil (emitted : Nat) : ListRun run slot emitted [] [] [] none
  | cons {emitted : Nat} {node : Tree ρ α} {rest given items : List (Tree ρ α)}
      {fate : Fate (Tree ρ α)} {acts more : List (Act ρ α)} {halt : Option Halt}
      (visited : run node acts fate) (part : fate.contribution = some given)
      (others : ListRun run slot (emitted + given.length) rest more items halt) :
      ListRun run slot emitted (node :: rest)
        (acts ++ Act.telling (fate.event slot emitted) ++ more) (given ++ items) halt
  | halt {emitted : Nat} {node left : Tree ρ α} {rest : List (Tree ρ α)} {acts : List (Act ρ α)}
      {why : Halt} (visited : run node acts (.halt left why)) :
      ListRun run slot emitted (node :: rest) acts (left :: rest) (some why)

/-- What a slot holds is walked, where `run` is the run of a node in a place. -/
inductive ContentRun (run : Place ρ → Tree ρ α → List (Act ρ α) → Fate (Tree ρ α) → Prop)
    (rule : Rule ρ) :
    Content α (Tree ρ α) → List (Act ρ α) → Content α (Tree ρ α) → Option Halt → Prop
  | vacant : ContentRun run rule (.single none) [] (.single none) none
  | kept {child left : Tree ρ α} {acts : List (Act ρ α)}
      (visited : run ⟨.single, rule⟩ child acts (.keep left)) :
      ContentRun run rule (.single (some child)) acts (.single (some left)) none
  | cleared {child : Tree ρ α} {acts : List (Act ρ α)}
      (visited : run ⟨.single, rule⟩ child acts .remove) :
      ContentRun run rule (.single (some child)) (acts ++ [.event (.cleared rule.name)])
        (.single none) none
  | spliced {child : Tree ρ α} {new : List (Tree ρ α)} {acts : List (Act ρ α)}
      (visited : run ⟨.single, rule⟩ child acts (.splice new)) :
      ContentRun run rule (.single (some child)) acts (.single (some child)) none
  | halt {child left : Tree ρ α} {acts : List (Act ρ α)} {why : Halt}
      (visited : run ⟨.single, rule⟩ child acts (.halt left why)) :
      ContentRun run rule (.single (some child)) acts (.single (some left)) (some why)
  | list {children items : List (Tree ρ α)} {acts : List (Act ρ α)} {halt : Option Halt}
      (walked : ListRun (run ⟨.list, rule⟩) rule.name 0 children acts items halt) :
      ContentRun run rule (.list children) acts (.list items) halt
  | value (content : α) : ContentRun run rule (.value content) [] (.value content) none

/-- Slots are walked in order, where `run` is the run of a node in a place. -/
inductive SlotsRun (run : Place ρ → Tree ρ α → List (Act ρ α) → Fate (Tree ρ α) → Prop) :
    List (Slot ρ α (Tree ρ α)) → List (Act ρ α) → List (Slot ρ α (Tree ρ α)) → Option Halt → Prop
  | nil : SlotsRun run [] [] [] none
  | cons {rule : Rule ρ} {content left : Content α (Tree ρ α)}
      {rest items : List (Slot ρ α (Tree ρ α))} {acts more : List (Act ρ α)} {halt : Option Halt}
      (walked : ContentRun run rule content acts left none)
      (others : SlotsRun run rest more items halt) :
      SlotsRun run (⟨rule, content⟩ :: rest) (acts ++ more) (⟨rule, left⟩ :: items) halt
  | halt {rule : Rule ρ} {content left : Content α (Tree ρ α)}
      {rest : List (Slot ρ α (Tree ρ α))} {acts : List (Act ρ α)} {why : Halt}
      (walked : ContentRun run rule content acts left (some why)) :
      SlotsRun run (⟨rule, content⟩ :: rest) acts (⟨rule, left⟩ :: rest) (some why)

section NodeRun

variable [Admission ρ α] (options : Options) (count : Nat)

/-- A node is visited, where `below` is the run of a node that is one level deeper. -/
inductive VisitRun (below : Place ρ → Tree ρ α → List (Act ρ α) → Fate (Tree ρ α) → Prop)
    (depth : Nat) (place : Place ρ) : Tree ρ α → List (Act ρ α) → Fate (Tree ρ α) → Prop
  | tooDeep {node : Tree ρ α} {limit : Nat} (exceeded : options.exceededAt depth = some limit) :
      VisitRun below depth place node [.event (.tooDeep limit node.tag)]
        (.halt node (.failed (.tooDeep limit node.tag)))
  | walked {node mid : Tree ρ α} {slots : List (Slot ρ α (Tree ρ α))}
      {acts more last : List (Act ρ α)} {verdict : Verdict (Tree ρ α)}
      (allowed : options.exceededAt depth = none)
      (entered : ConsultRun options count .enter place 0 node acts (.proceed mid))
      (descended : SlotsRun below mid.slots more slots none)
      (left : ConsultRun options count .leave place 0 { mid with slots := slots } last verdict) :
      VisitRun below depth place node (acts ++ more ++ last) verdict.fate
  | broken {node mid : Tree ρ α} {slots : List (Slot ρ α (Tree ρ α))}
      {acts more : List (Act ρ α)} {why : Halt}
      (allowed : options.exceededAt depth = none)
      (entered : ConsultRun options count .enter place 0 node acts (.proceed mid))
      (descended : SlotsRun below mid.slots more slots (some why)) :
      VisitRun below depth place node (acts ++ more) (.halt { mid with slots := slots } why)
  | skipped {node mid : Tree ρ α} {acts last : List (Act ρ α)} {verdict : Verdict (Tree ρ α)}
      (allowed : options.exceededAt depth = none)
      (entered : ConsultRun options count .enter place 0 node acts (.skipChildren mid))
      (left : ConsultRun options count .leave place 0 mid last verdict) :
      VisitRun below depth place node (acts ++ last) verdict.fate
  | settled {node : Tree ρ α} {acts : List (Act ρ α)} {verdict : Verdict (Tree ρ α)}
      (allowed : options.exceededAt depth = none)
      (entered : ConsultRun options count .enter place 0 node acts verdict)
      (proceeds : ∀ mid, verdict ≠ .proceed mid) (skips : ∀ mid, verdict ≠ .skipChildren mid) :
      VisitRun below depth place node acts verdict.fate

/-- A node at a depth is visited with so many levels of room. -/
def NodeRun : Nat → Nat → Place ρ → Tree ρ α → List (Act ρ α) → Fate (Tree ρ α) → Prop
  | 0, _, _, node, acts, fate => acts = [] ∧ fate = .halt node .overflowed
  | room + 1, depth, place, node, acts, fate =>
    VisitRun options count (NodeRun room (depth + 1)) depth place node acts fate

/-- The top-level sequence is walked. -/
def TopRun (room : Nat) :
    List (Tree ρ α) → List (Act ρ α) → List (Tree ρ α) → Option Halt → Prop :=
  ListRun (NodeRun options count room 0 .topLevel) topLevelName 0

end NodeRun

/-- The top-level sequence is shown to visitors from a number on, out of `count` in all. -/
inductive ShowRun (count : Nat) (hook : SequenceHook) :
    Nat → List (Tree ρ α) → List (Act ρ α) → List (Tree ρ α) → Option Halt → Prop
  | done (nodes : List (Tree ρ α)) : ShowRun count hook count nodes [] nodes none
  | pass {index : Nat} {name : String} {nodes next items : List (Tree ρ α)}
      {reply : SequenceReply ρ α} {event : Option Event} {acts : List (Act ρ α)}
      {halt : Option Halt} (inRange : index < count)
      (judged : reply.judge hook ⟨.sequence hook, index, name⟩ nodes = ((next, none), event))
      (others : ShowRun count hook (index + 1) next acts items halt) :
      ShowRun count hook index nodes
        (.sequence index name hook nodes reply :: (Act.telling event ++ acts)) items halt
  | halt {index : Nat} {name : String} {nodes items : List (Tree ρ α)}
      {reply : SequenceReply ρ α} {event : Option Event} {why : Halt} (inRange : index < count)
      (judged : reply.judge hook ⟨.sequence hook, index, name⟩ nodes = ((items, some why), event)) :
      ShowRun count hook index nodes
        (.sequence index name hook nodes reply :: Act.telling event) items (some why)

/-- The walk of the top-level sequence, after which the visitors are shown what is left: all of it
was walked, or a visitor stopped the walk. -/
inductive WalkRun [Admission ρ α] (options : Options) (count room : Nat) :
    List (Tree ρ α) → List (Act ρ α) → List (Tree ρ α) → Prop
  | through {nodes items : List (Tree ρ α)} {acts : List (Act ρ α)}
      (walked : TopRun options count room nodes acts items none) :
      WalkRun options count room nodes acts items
  | stopped {nodes items : List (Tree ρ α)} {acts : List (Act ρ α)}
      (walked : TopRun options count room nodes acts items (some .stopped)) :
      WalkRun options count room nodes (acts ++ [.event .stopped]) items

/-- A traversal from start to end. -/
inductive TraversalRun [Admission ρ α] (options : Options) (count room : Nat) :
    List (Tree ρ α) → List (Act ρ α) → List (Tree ρ α) → Option Halt → Prop
  | unready {nodes items : List (Tree ρ α)} {acts : List (Act ρ α)} {why : Halt}
      (shown : ShowRun count .before 0 nodes acts items (some why)) :
      TraversalRun options count room nodes (.event (.started nodes.length count) :: acts) items
        (some why)
  | broken {nodes start items : List (Tree ρ α)} {acts more : List (Act ρ α)} {why : Halt}
      (shown : ShowRun count .before 0 nodes acts start none)
      (walked : TopRun options count room start more items (some why))
      (unstopped : why ≠ .stopped) :
      TraversalRun options count room nodes
        (.event (.started nodes.length count) :: (acts ++ more)) items (some why)
  | unfinished {nodes start mid items : List (Tree ρ α)} {acts more last : List (Act ρ α)}
      {why : Halt} (shown : ShowRun count .before 0 nodes acts start none)
      (walked : WalkRun options count room start more mid)
      (shownAgain : ShowRun count .after 0 mid last items (some why)) :
      TraversalRun options count room nodes
        (.event (.started nodes.length count) :: (acts ++ more ++ last)) items (some why)
  | finished {nodes start mid items : List (Tree ρ α)} {acts more last : List (Act ρ α)}
      (shown : ShowRun count .before 0 nodes acts start none)
      (walked : WalkRun options count room start more mid)
      (shownAgain : ShowRun count .after 0 mid last items none) :
      TraversalRun options count room nodes
        (.event (.started nodes.length count) ::
          (acts ++ more ++ last ++ [.event (.finished items.length)])) items none

section Acts

variable {P : Act ρ α → Prop}

lemma forall_mem_telling {event : Option Event} (hevent : ∀ told ∈ event, P (.event told)) :
    ∀ act ∈ Act.telling event, P act := by
  intro act hact
  obtain ⟨told, htold, rfl⟩ := List.mem_map.1 hact
  exact hevent told (Option.mem_toList.1 htold)

lemma Fate.ofWalk_event {τ : Type} {fate : Fate τ} {slot : String} {index : Nat} :
    ∀ event ∈ fate.event slot index, event.ofWalk = true := by
  cases fate <;> simp [Fate.event, Event.ofWalk]

lemma ListRun.forall_walking {run : Tree ρ α → List (Act ρ α) → Fate (Tree ρ α) → Prop}
    (hevent : ∀ event, event.ofWalk = true → P (.event event))
    (h : ∀ {node acts fate}, run node acts fate → ∀ act ∈ acts, P act) {slot : String}
    {emitted : Nat} {nodes items : List (Tree ρ α)} {acts : List (Act ρ α)} {halt : Option Halt}
    (hrun : ListRun run slot emitted nodes acts items halt) : ∀ act ∈ acts, P act := by
  induction hrun with
  | nil emitted => simp
  | cons visited part others ih =>
    simp only [List.forall_mem_append]
    refine ⟨⟨h visited, ?_⟩, ih⟩
    exact forall_mem_telling fun event he => hevent event (Fate.ofWalk_event event he)
  | halt visited => exact h visited

section Slots

variable {run : Place ρ → Tree ρ α → List (Act ρ α) → Fate (Tree ρ α) → Prop}

lemma ContentRun.forall_walking (hevent : ∀ event, event.ofWalk = true → P (.event event))
    (h : ∀ {place node acts fate}, run place node acts fate → ∀ act ∈ acts, P act) {rule : Rule ρ}
    {content left : Content α (Tree ρ α)} {acts : List (Act ρ α)} {halt : Option Halt}
    (hrun : ContentRun run rule content acts left halt) : ∀ act ∈ acts, P act := by
  cases hrun with
  | vacant | value => simp
  | kept visited | spliced visited | halt visited => exact h visited
  | cleared visited =>
    simp only [List.forall_mem_append, List.forall_mem_singleton]
    exact ⟨h visited, hevent _ rfl⟩
  | list walked => exact walked.forall_walking hevent h

lemma SlotsRun.forall_walking (hevent : ∀ event, event.ofWalk = true → P (.event event))
    (h : ∀ {place node acts fate}, run place node acts fate → ∀ act ∈ acts, P act)
    {slots items : List (Slot ρ α (Tree ρ α))} {acts : List (Act ρ α)} {halt : Option Halt}
    (hrun : SlotsRun run slots acts items halt) : ∀ act ∈ acts, P act := by
  induction hrun with
  | nil => simp
  | cons walked others ih =>
    exact List.forall_mem_append.2 ⟨walked.forall_walking hevent h, ih⟩
  | halt walked => exact walked.forall_walking hevent h

end Slots

section Nodes

variable [Admission ρ α] {options : Options} {count : Nat}

lemma Options.ofWalk_judge {hook : NodeHook} {place : Place ρ} {site : CallSite} {node : Tree ρ α}
    {reply : NodeReply ρ α} {verdict : Verdict (Tree ρ α)} {event : Option Event}
    (judged : options.judge hook place site node reply = (verdict, event)) :
    ∀ told ∈ event, told.ofWalk = true := by
  rintro told ⟨⟩
  have htold : (options.judge hook place site node reply).2 = some told := by rw [judged]
  cases reply with
  | unavailable =>
    cases htold
    rfl
  | failed | overflowed => cases htold
  | answered left directive =>
    simp only [judge, follow] at htold
    split at htold
    · split at htold
      · cases htold
      · cases directive with
        | replace new =>
          cases htold
          rfl
        | _ => cases htold
    · cases htold
      rfl

lemma ConsultRun.forall_walking (hevent : ∀ event, event.ofWalk = true → P (.event event))
    (hnode : ∀ {index name hook node reply}, index < count → P (.node index name hook node reply))
    {hook : NodeHook} {place : Place ρ} {index : Nat} {node : Tree ρ α} {acts : List (Act ρ α)}
    {verdict : Verdict (Tree ρ α)}
    (hrun : ConsultRun options count hook place index node acts verdict) : ∀ act ∈ acts, P act := by
  induction hrun with
  | done node => simp
  | pass inRange judged others ih =>
    have htold := forall_mem_telling fun told ht =>
      hevent told (Options.ofWalk_judge judged told ht)
    exact List.forall_mem_cons.2 ⟨hnode inRange, List.forall_mem_append.2 ⟨htold, ih⟩⟩
  | settle inRange judged settled =>
    have htold := forall_mem_telling fun told ht =>
      hevent told (Options.ofWalk_judge judged told ht)
    exact List.forall_mem_cons.2 ⟨hnode inRange, htold⟩

lemma VisitRun.forall_walking (hevent : ∀ event, event.ofWalk = true → P (.event event))
    (hnode : ∀ {index name hook node reply}, index < count → P (.node index name hook node reply))
    {below : Place ρ → Tree ρ α → List (Act ρ α) → Fate (Tree ρ α) → Prop}
    (h : ∀ {place node acts fate}, below place node acts fate → ∀ act ∈ acts, P act) {depth : Nat}
    {place : Place ρ} {node : Tree ρ α} {acts : List (Act ρ α)} {fate : Fate (Tree ρ α)}
    (hrun : VisitRun options count below depth place node acts fate) : ∀ act ∈ acts, P act := by
  cases hrun with
  | tooDeep exceeded => exact List.forall_mem_singleton.2 (hevent _ rfl)
  | walked allowed entered descended left =>
    simp only [List.forall_mem_append]
    exact ⟨⟨entered.forall_walking hevent hnode, descended.forall_walking hevent h⟩,
      left.forall_walking hevent hnode⟩
  | broken allowed entered descended =>
    exact List.forall_mem_append.2
      ⟨entered.forall_walking hevent hnode, descended.forall_walking hevent h⟩
  | skipped allowed entered left =>
    exact List.forall_mem_append.2
      ⟨entered.forall_walking hevent hnode, left.forall_walking hevent hnode⟩
  | settled allowed entered proceeds skips => exact entered.forall_walking hevent hnode

/-- What holds of the events of a walk and of calls with a node holds of all acts while a node is
visited. -/
theorem NodeRun.forall_walking (hevent : ∀ event, event.ofWalk = true → P (.event event))
    (hnode : ∀ {index name hook node reply}, index < count → P (.node index name hook node reply))
    {room depth : Nat} {place : Place ρ} {node : Tree ρ α} {acts : List (Act ρ α)}
    {fate : Fate (Tree ρ α)} (hrun : NodeRun options count room depth place node acts fate) :
    ∀ act ∈ acts, P act := by
  induction room generalizing depth place node acts fate with
  | zero =>
    obtain ⟨rfl, -⟩ := hrun
    simp
  | succ room ih => exact VisitRun.forall_walking hevent hnode ih hrun

/-- What holds of the events of a walk and of calls with a node holds of all acts while the
top-level sequence is walked. -/
theorem TopRun.forall_walking (hevent : ∀ event, event.ofWalk = true → P (.event event))
    (hnode : ∀ {index name hook node reply}, index < count → P (.node index name hook node reply))
    {room : Nat} {nodes items : List (Tree ρ α)} {acts : List (Act ρ α)} {halt : Option Halt}
    (hrun : TopRun options count room nodes acts items halt) : ∀ act ∈ acts, P act :=
  ListRun.forall_walking hevent (NodeRun.forall_walking hevent hnode) hrun

omit [Admission ρ α] in
lemma SequenceReply.ofShow_judge {hook : SequenceHook} {site : CallSite}
    {nodes : List (Tree ρ α)} {reply : SequenceReply ρ α}
    {judged : List (Tree ρ α) × Option Halt} {event : Option Event}
    (hjudge : reply.judge hook site nodes = (judged, event)) :
    ∀ told ∈ event, told.ofShow = true := by
  rintro told ⟨⟩
  match reply with
  | .unavailable | .answered (some _) =>
    cases hjudge
    rfl
  | .answered none | .failed _ | .overflowed => cases hjudge

omit [Admission ρ α] in
/-- What holds of the events of showing the sequence and of the calls of this hook holds of all acts
while the sequence is shown. -/
theorem ShowRun.forall_showing (hevent : ∀ event, event.ofShow = true → P (.event event))
    {hook : SequenceHook} (hsequence : ∀ {index name nodes reply}, index < count →
      P (.sequence index name hook nodes reply)) {index : Nat} {nodes items : List (Tree ρ α)}
    {acts : List (Act ρ α)} {halt : Option Halt}
    (hrun : ShowRun count hook index nodes acts items halt) : ∀ act ∈ acts, P act := by
  induction hrun with
  | done nodes => simp
  | pass inRange judged others ih =>
    have htold := forall_mem_telling fun told ht =>
      hevent told (SequenceReply.ofShow_judge judged told ht)
    exact List.forall_mem_cons.2 ⟨hsequence inRange, List.forall_mem_append.2 ⟨htold, ih⟩⟩
  | halt inRange judged =>
    have htold := forall_mem_telling fun told ht =>
      hevent told (SequenceReply.ofShow_judge judged told ht)
    exact List.forall_mem_cons.2 ⟨hsequence inRange, htold⟩

/-- What holds of events and of calls with a node holds of all acts while a node is visited. -/
theorem NodeRun.forall_acts (hevent : ∀ event, P (.event event))
    (hnode : ∀ {index name hook node reply}, index < count → P (.node index name hook node reply))
    {room depth : Nat} {place : Place ρ} {node : Tree ρ α} {acts : List (Act ρ α)}
    {fate : Fate (Tree ρ α)} (hrun : NodeRun options count room depth place node acts fate) :
    ∀ act ∈ acts, P act :=
  hrun.forall_walking (fun event _ => hevent event) hnode

omit [Admission ρ α] in
lemma ListRun.forall_acts {run : Tree ρ α → List (Act ρ α) → Fate (Tree ρ α) → Prop}
    (hevent : ∀ event, P (.event event))
    (h : ∀ {node acts fate}, run node acts fate → ∀ act ∈ acts, P act) {slot : String}
    {emitted : Nat} {nodes items : List (Tree ρ α)} {acts : List (Act ρ α)} {halt : Option Halt}
    (hrun : ListRun run slot emitted nodes acts items halt) : ∀ act ∈ acts, P act :=
  hrun.forall_walking (fun event _ => hevent event) h

omit [Admission ρ α] in
lemma ShowRun.forall_acts (hevent : ∀ event, P (.event event)) {hook : SequenceHook}
    (hsequence : ∀ {index name nodes reply}, index < count →
      P (.sequence index name hook nodes reply)) {index : Nat} {nodes items : List (Tree ρ α)}
    {acts : List (Act ρ α)} {halt : Option Halt}
    (hrun : ShowRun count hook index nodes acts items halt) : ∀ act ∈ acts, P act :=
  hrun.forall_showing (fun event _ => hevent event) hsequence

end Nodes

end Acts

end ForestWalk
