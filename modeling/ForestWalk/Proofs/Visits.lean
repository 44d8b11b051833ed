import ForestWalk.Proofs.Husks
import ForestWalk.Proofs.Stopping
import Mathlib.Data.List.Nodup
/-!
No node is visited twice. However often nodes move while the walk is under way, each visitor is
called at most once with a node that is entered, and at most once with one that is left. Nodes that
are put in for good are never visited: those of a splice, and what is below the node that takes the
place of one that is left.
-/

namespace ForestWalk

variable {ρ α σ ι : Type}

namespace Directive

/-- The husks of the nodes brought along that may yet be visited. -/
def opened : NodeHook → Directive (Tree ρ α) → List (Tree ρ α)
  | .enter, .replace new => new.husks
  | .leave, .replace new => [new.husk]
  | _, _ => []

/-- The husks of the nodes brought along that are there for good. -/
def closed : NodeHook → Directive (Tree ρ α) → List (Tree ρ α)
  | .leave, .replace new => new.children.flatMap Tree.husks
  | _, .splice new => new.flatMap Tree.husks
  | _, _ => []

lemma tally_carried (p : Tree ρ α → Bool) (hook : NodeHook) (directive : Directive (Tree ρ α)) :
    Tree.tally p directive.carried =
      (directive.opened hook).countP p + (directive.closed hook).countP p := by
  match hook, directive with
  | .enter, .replace new => simp [carried, opened, closed, Tree.tally]
  | .leave, .replace new =>
    have hnew := Tree.tally_singleton p new
    simp only [Tree.tally] at hnew
    simpa [carried, opened, closed, Tree.tally, List.countP_singleton] using hnew
  | .enter, .splice new | .leave, .splice new => simp [carried, opened, closed, Tree.tally]
  | .enter, .keep | .enter, .remove | .enter, .skipChildren | .enter, .stop
  | .leave, .keep | .leave, .remove | .leave, .skipChildren | .leave, .stop => rfl

end Directive

namespace Act

/-- The hook and the directive with which a visitor answers a call with a node. -/
def answer? : Act ρ α → Option (NodeHook × Directive (Tree ρ α))
  | .node _ _ hook _ (.answered _ directive) => some (hook, directive)
  | _ => none

/-- The nodes that come with an act. -/
def carried (act : Act ρ α) : List (Tree ρ α) :=
  act.answer?.elim [] fun (_, directive) => directive.carried

def opened (act : Act ρ α) : List (Tree ρ α) :=
  act.answer?.elim [] fun (hook, directive) => directive.opened hook

def closed (act : Act ρ α) : List (Tree ρ α) :=
  act.answer?.elim [] fun (hook, directive) => directive.closed hook

/-- A visitor that is called leaves the node itself as it is, whatever it asks for. -/
def Still : Act ρ α → Prop
  | .node _ _ _ shown reply => reply.left shown = shown
  | .event _ | .sequence .. => True

/-- The call of a visitor with a node: its number, the hook, and the identifier of the node. -/
def visit? (identify : Tree ρ α → ι) : Act ρ α → Option (Nat × NodeHook × ι)
  | .node index _ hook shown _ => some (index, hook, identify shown.husk)
  | .event _ | .sequence .. => none

/-- Whether the act calls a given visitor on a given hook with a node whose husk has a property. -/
def visits (p : Tree ρ α → Bool) (index : Nat) (hook : NodeHook) : Act ρ α → Bool
  | .node number _ called shown _ => decide (number = index ∧ called = hook) && p shown.husk
  | .event _ | .sequence .. => false

lemma tally_carried (p : Tree ρ α → Bool) (act : Act ρ α) :
    Tree.tally p act.carried = act.opened.countP p + act.closed.countP p := by
  rcases h : act.answer? with _ | ⟨hook, directive⟩
  · simp [carried, opened, closed, h]
  · simpa [carried, opened, closed, h] using directive.tally_carried p hook

end Act

/-- Fewer of the calls of a visitor on a hook are with a node that has a property than there are
such nodes: in hand at first, or opened by an act. -/
def Bounded (p : Tree ρ α → Bool) (index : Nat) (hook : NodeHook) (bound : Nat)
    (acts : List (Act ρ α)) : Prop :=
  acts.countP (Act.visits p index hook) ≤ bound + (acts.flatMap Act.opened).countP p

section Counting

variable {p : Tree ρ α → Bool} {index : Nat} {hook : NodeHook} {bound more : Nat}
  {acts rest : List (Act ρ α)}

lemma Bounded.append (h : Bounded p index hook bound acts)
    (hrest : Bounded p index hook more rest) :
    Bounded p index hook (bound + more) (acts ++ rest) := by
  simp only [Bounded, List.countP_append, List.flatMap_append] at *
  omega

lemma Bounded.mono (h : Bounded p index hook bound acts) (hle : bound ≤ more) :
    Bounded p index hook more acts := by
  simp only [Bounded] at *
  omega

lemma bounded_of_quiet (hquiet : ∀ act ∈ acts, act.callsNode = false) :
    Bounded p index hook 0 acts := by
  have hnone : acts.countP (Act.visits p index hook) = 0 := by
    refine List.countP_eq_zero.2 fun act hmem hvisits => ?_
    cases act with
    | node => cases hquiet _ hmem
    | event | sequence => cases hvisits
  simp [Bounded, hnone]

lemma bounded_nil : Bounded p index hook bound ([] : List (Act ρ α)) :=
  Nat.zero_le _

lemma bounded_telling (event : Option Event) :
    Bounded p index hook 0 (Act.telling event : List (Act ρ α)) :=
  bounded_of_quiet (forall_mem_telling fun _ _ => rfl)

@[simp] theorem countP_visits_telling (event : Option Event) :
    (Act.telling event : List (Act ρ α)).countP (Act.visits p index hook) = 0 := by
  cases event <;> rfl

@[simp] theorem flatMap_opened_telling (event : Option Event) :
    (Act.telling event : List (Act ρ α)).flatMap Act.opened = [] := by
  cases event <;> rfl

end Counting

section Consult

variable [Admission ρ α] {options : Options} {count : Nat} {place : Place ρ} {p : Tree ρ α → Bool}
  {index : Nat} {hook : NodeHook}

/-- If the next visitor is asked, then about the same node or about one that takes its place. -/
lemma Options.proceed_cases {now : NodeHook} {site : CallSite} {node next : Tree ρ α}
    {reply : NodeReply ρ α} {event : Option Event} (hsite : site.hook = .node now)
    (judged : options.judge now place site node reply = (.proceed next, event))
    (still : reply.left node = node) :
    next = node ∨ ∃ left, reply = .answered left (.replace next) := by
  obtain rfl | hreplaced := Options.judge_proceed hsite judged
  · exact .inl still
  · exact .inr hreplaced

/-- The visits to a node in hand and to those below it that are to come, while visitors are asked on
a hook from a number on. -/
def pending (p : Tree ρ α → Bool) (index : Nat) (hook : NodeHook) :
    NodeHook → Nat → Tree ρ α → Nat
  | .enter, next, node =>
    (if (hook = .leave ∨ next ≤ index) ∧ p node.husk then 1 else 0) + Tree.tally p node.children
  | .leave, next, node => if (hook = .leave ∧ next ≤ index) ∧ p node.husk then 1 else 0

/-- The visits that are to come when visitors were asked on a hook. -/
def Verdict.pending (p : Tree ρ α → Bool) (index : Nat) (hook : NodeHook) :
    NodeHook → Verdict (Tree ρ α) → Nat
  | .enter, .proceed mid =>
    Tree.tally p mid.children + ForestWalk.pending p index hook .leave 0 mid
  | .enter, .skipChildren mid => ForestWalk.pending p index hook .leave 0 mid
  | _, _ => 0

variable (p index hook)

omit [Admission ρ α] in
/-- When a visitor is called there is one visit less to come. -/
lemma pending_step (now : NodeHook) (next : Nat) (name : String) (node : Tree ρ α)
    (reply : NodeReply ρ α) :
    (if (Act.node next name now node reply).visits p index hook then 1 else 0) +
        pending p index hook now (next + 1) node ≤
      pending p index hook now next node := by
  by_cases hp : p node.husk = true
  · cases now <;> cases hook <;> simp only [Act.visits, pending, hp] <;> grind
  · cases now <;> simp [Act.visits, pending, hp]

omit [Admission ρ α] in
/-- The node that takes the place of another is opened, and what is below it too if the walk is yet
to come there. -/
lemma pending_le_opened (now : NodeHook) (next : Nat) (new : Tree ρ α) :
    pending p index hook now next new ≤ ((Directive.replace new).opened now).countP p := by
  cases now with
  | enter =>
    have hnew := Tree.tally_singleton p new
    simp only [Tree.tally, List.flatMap_cons, List.flatMap_nil, List.append_nil] at hnew
    simp only [pending, Directive.opened, hnew, Tree.tally]
    split <;> split <;> simp_all
  | leave =>
    simp only [pending, Directive.opened, List.countP_singleton]
    split <;> split <;> simp_all

variable {p index hook}

omit [Admission ρ α] in
lemma Verdict.pending_eq_zero {now : NodeHook} {verdict : Verdict (Tree ρ α)}
    (proceeds : ∀ mid, verdict ≠ .proceed mid) (skips : ∀ mid, verdict ≠ .skipChildren mid) :
    verdict.pending p index hook now = 0 := by
  cases verdict with
  | proceed mid => exact absurd rfl (proceeds mid)
  | skipChildren mid => exact absurd rfl (skips mid)
  | _ => cases now <;> rfl

variable (p index hook) in
/-- Visitors are asked about a node. -/
lemma ConsultRun.bounded {now : NodeHook} {next : Nat} {node : Tree ρ α} {acts : List (Act ρ α)}
    {verdict : Verdict (Tree ρ α)}
    (hrun : ConsultRun options count now place next node acts verdict)
    (still : ∀ act ∈ acts, act.Still) :
    acts.countP (Act.visits p index hook) + verdict.pending p index hook now ≤
      pending p index hook now next node + (acts.flatMap Act.opened).countP p := by
  induction hrun with
  | done node =>
    cases now with
    | leave => simp [Verdict.pending]
    | enter =>
      simp only [Verdict.pending, pending]
      grind
  | @pass next name node mid reply event acts verdict inRange judged others ih =>
    obtain ⟨hstill, hrest⟩ := List.forall_mem_cons.1 still
    have hlater := ih (List.forall_mem_append.1 hrest).2
    have hstep := pending_step p index hook now next name node reply
    simp only [List.countP_cons, List.countP_append, List.flatMap_cons, List.flatMap_append,
      countP_visits_telling, flatMap_opened_telling, List.nil_append]
    obtain rfl | ⟨left, rfl⟩ := options.proceed_cases rfl judged hstill
    · omega
    · have hopened := pending_le_opened p index hook now (next + 1) mid
      have hact : (Act.node next name now node (.answered left (.replace mid))).opened =
          (Directive.replace mid).opened now := rfl
      rw [hact]
      omega
  | @settle next name node reply event verdict inRange judged settled =>
    obtain ⟨hstill, -⟩ := List.forall_mem_cons.1 still
    have hstep := pending_step p index hook now next name node reply
    have hverdict :
        verdict.pending p index hook now ≤ pending p index hook now (next + 1) node := by
      by_cases hskips : verdict = .skipChildren node
      · subst hskips
        cases now with
        | leave => exact Nat.zero_le _
        | enter =>
          simp only [Verdict.pending, pending]
          grind
      · have hnone : verdict.pending p index hook now = 0 := by
          refine Verdict.pending_eq_zero settled fun mid hmid => hskips ?_
          obtain ⟨left, directive, rfl, -, -, rfl, -⟩ | ⟨-, rfl, -⟩ | ⟨error, rfl, -⟩ :=
            options.judge_cases rfl judged
          · obtain rfl : left = node := hstill
            cases directive with
            | skipChildren => rfl
            | _ => cases hmid
          · cases hmid
          · cases hmid
        omega
    simp only [List.countP_cons, List.flatMap_cons, countP_visits_telling, flatMap_opened_telling]
    omega

end Consult

section Walking

variable {p : Tree ρ α → Bool} {index : Nat} {hook : NodeHook}

/-- In a run of a node the visits are bounded by what there is in it. -/
def VisitsBounded (p : Tree ρ α → Bool) (index : Nat) (hook : NodeHook)
    (run : Tree ρ α → List (Act ρ α) → Fate (Tree ρ α) → Prop) : Prop :=
  ∀ {node acts fate}, run node acts fate → (∀ act ∈ acts, act.Still) →
    Bounded p index hook (Tree.tally p [node]) acts

lemma ListRun.bounded {run : Tree ρ α → List (Act ρ α) → Fate (Tree ρ α) → Prop}
    (h : VisitsBounded p index hook run) {slot : String} {emitted : Nat}
    {nodes items : List (Tree ρ α)} {acts : List (Act ρ α)} {halt : Option Halt}
    (hrun : ListRun run slot emitted nodes acts items halt) (still : ∀ act ∈ acts, act.Still) :
    Bounded p index hook (Tree.tally p nodes) acts := by
  induction hrun with
  | nil emitted => exact bounded_nil
  | @cons emitted node rest given items fate acts more halt visited part others ih =>
    simp only [List.forall_mem_append] at still
    have hnode := (h visited still.1.1).append (bounded_telling (fate.event slot emitted))
    have hall := hnode.append (ih still.2)
    rw [Tree.tally_cons]
    exact hall
  | @halt emitted node left rest acts why visited =>
    refine (h visited still).mono ?_
    rw [Tree.tally_cons p node rest]
    omega

section Slots

variable {run : Place ρ → Tree ρ α → List (Act ρ α) → Fate (Tree ρ α) → Prop}

lemma ContentRun.bounded (h : ∀ place, VisitsBounded p index hook (run place)) {rule : Rule ρ}
    {content left : Content α (Tree ρ α)} {acts : List (Act ρ α)} {halt : Option Halt}
    (hrun : ContentRun run rule content acts left halt) (still : ∀ act ∈ acts, act.Still) :
    Bounded p index hook (Tree.tally p content.children) acts := by
  cases hrun with
  | vacant | value => exact bounded_nil
  | kept visited | spliced visited | halt visited => exact h _ visited still
  | cleared visited =>
    exact (h _ visited (List.forall_mem_append.1 still).1).append
      (bounded_telling (some (.cleared rule.name)))
  | list walked => exact ListRun.bounded (h _) walked still

lemma SlotsRun.bounded (h : ∀ place, VisitsBounded p index hook (run place))
    {slots items : List (Slot ρ α (Tree ρ α))} {acts : List (Act ρ α)} {halt : Option Halt}
    (hrun : SlotsRun run slots acts items halt) (still : ∀ act ∈ acts, act.Still) :
    Bounded p index hook (Tree.tally p (slots.flatMap Slot.children)) acts := by
  induction hrun with
  | nil => exact bounded_nil
  | cons walked others ih =>
    obtain ⟨hfirst, hrest⟩ := List.forall_mem_append.1 still
    rw [List.flatMap_cons, Tree.tally_append]
    exact (walked.bounded h hfirst).append (ih hrest)
  | halt walked =>
    rw [List.flatMap_cons, Tree.tally_append]
    exact (walked.bounded h still).mono (Nat.le_add_right _ _)

end Slots

variable [Admission ρ α] {options : Options} {count : Nat}

lemma VisitRun.bounded {below : Place ρ → Tree ρ α → List (Act ρ α) → Fate (Tree ρ α) → Prop}
    (h : ∀ place, VisitsBounded p index hook (below place)) (depth : Nat) (place : Place ρ) :
    VisitsBounded p index hook (VisitRun options count below depth place) := by
  intro node acts fate hrun still
  have hnode : pending p index hook .enter 0 node = Tree.tally p [node] := by
    simp [pending, Tree.tally_singleton]
  cases hrun with
  | @tooDeep limit exceeded =>
    exact (bounded_telling (some (.tooDeep limit node.tag))).mono (Nat.zero_le _)
  | @walked mid slots acts more last verdict allowed entered descended left =>
    simp only [List.forall_mem_append] at still
    have hentered := entered.bounded p index hook still.1.1
    have hbelow := descended.bounded h still.1.2
    have hleft := left.bounded p index hook still.2
    -- what stands below the node has changed, but it is the same node that is left
    have hsame : pending p index hook .leave 0 { mid with slots := slots } =
        pending p index hook .leave 0 mid := by
      simp only [pending, Tree.husk_congr descended.bare_eq]
    simp only [Verdict.pending, Tree.children, hsame] at hentered hleft
    simp only [Bounded, List.countP_append, List.flatMap_append] at hbelow ⊢
    omega
  | @broken mid slots acts more why allowed entered descended =>
    obtain ⟨hacts, hmore⟩ := List.forall_mem_append.1 still
    have hentered := entered.bounded p index hook hacts
    have hbelow := descended.bounded h hmore
    simp only [Verdict.pending, Tree.children] at hentered
    simp only [Bounded, List.countP_append, List.flatMap_append] at hbelow ⊢
    omega
  | @skipped mid acts last verdict allowed entered left =>
    obtain ⟨hacts, hlast⟩ := List.forall_mem_append.1 still
    have hentered := entered.bounded p index hook hacts
    have hleft := left.bounded p index hook hlast
    simp only [Verdict.pending] at hentered hleft
    simp only [Bounded, List.countP_append, List.flatMap_append]
    omega
  | @settled acts verdict allowed entered proceeds skips =>
    have hentered := entered.bounded p index hook still
    simp only [Bounded]
    omega

/-- A node is visited, with all that is below it. -/
theorem NodeRun.bounded (room depth : Nat) (place : Place ρ) :
    VisitsBounded p index hook (NodeRun (α := α) options count room depth place) := by
  induction room generalizing depth place with
  | zero =>
    rintro node acts fate ⟨rfl, -⟩ -
    exact bounded_nil
  | succ room ih => exact VisitRun.bounded (fun place => ih (depth + 1) place) depth place

end Walking

section Opening

/-- Whether the act is a call in which a visitor that is shown the sequence at the end asks for
another one. -/
def Act.replacesLast : Act ρ α → Bool
  | .sequence _ _ .after _ (.answered (some _)) => true
  | _ => false

/-- A sequence that no visitor wants to have replaced stays as it is. -/
lemma ShowRun.items_eq {count index : Nat} {nodes items : List (Tree ρ α)} {acts : List (Act ρ α)}
    {halt : Option Halt} (hrun : ShowRun count .after index nodes acts items halt)
    (hkept : ∀ act ∈ acts, act.replacesLast = false) : items = nodes := by
  have hjudge : ∀ {index name nodes reply next why event},
      (Act.sequence index name .after nodes reply : Act ρ α).replacesLast = false →
      SequenceReply.judge (ρ := ρ) (α := α) .after ⟨.sequence .after, index, name⟩ nodes reply =
        ((next, why), event) → next = nodes := by
    intro index name nodes reply next why event hact judged
    match reply with
    | .answered (some new) => cases hact
    | .unavailable | .answered none | .failed _ | .overflowed =>
      cases judged
      rfl
  induction hrun with
  | done nodes => rfl
  | pass inRange judged others ih =>
    obtain ⟨hact, hrest⟩ := List.forall_mem_cons.1 hkept
    rw [ih (List.forall_mem_append.1 hrest).2, hjudge hact judged]
  | halt inRange judged => exact hjudge (List.forall_mem_cons.1 hkept).1 judged

variable [Admission ρ α]

/-- After its walk a traversal at most makes known that it was stopped. -/
lemma WalkTrail.parts {options : Options} {count room : Nat} {nodes items : List (Tree ρ α)}
    {moments : List (Moment ρ α)} (htrail : WalkTrail options count room nodes moments items) :
    ∃ walk last halt, moments = walk ++ last ∧ TopTrail options count room nodes walk items halt ∧
      ∀ act ∈ Moment.acts last, act.isCall = false := by
  cases htrail with
  | through walked => exact ⟨moments, [], none, by simp, walked, nofun⟩
  | @stopped _ walk walked =>
    exact ⟨walk, Moment.telling (some .stopped), some .stopped, rfl, walked, by
      simp [Act.telling, Act.isCall]⟩

/-- A traversal in its parts: the visitors are shown the sequence, the nodes of the sequence that
comes of it are walked unless a visitor objected, and in what follows no node is visited. -/
theorem TraversalTrail.parts {options : Options} {count room : Nat} {nodes items : List (Tree ρ α)}
    {trail : List (Moment ρ α)} {halt : Option Halt}
    (htrail : TraversalTrail options count room nodes trail items halt) :
    ∃ shown start opened, ShowRun count .before 0 nodes shown start opened ∧
      ((opened ≠ none ∧ Moment.acts trail = .event (.started nodes.length count) :: shown) ∨
      opened = none ∧ ∃ front walk last mid walked, trail = front ++ walk ++ last ∧
        Moment.acts front = .event (.started nodes.length count) :: shown ∧
        TopTrail options count room start walk mid walked ∧
        (∀ act ∈ Moment.acts last, act.callsNode = false) ∧
        ((∀ act ∈ Moment.acts last, act.replacesLast = false) → items = mid)) := by
  have hacts : ∀ acts : List (Act ρ α),
      Moment.acts (Moment.telling (some (.started nodes.length count)) ++ Moment.ofActs none acts) =
        .event (.started nodes.length count) :: acts := by
    simp [Act.telling]
  cases htrail with
  | @unready _ acts why shown =>
    exact ⟨acts, items, some why, shown, .inl ⟨Option.some_ne_none why, hacts acts⟩⟩
  | @broken start _ acts moments why shown walked unstopped =>
    exact ⟨acts, start, none, shown, .inr ⟨rfl, _, moments, [], items, some why,
      (List.append_nil _).symm, hacts acts, walked, List.forall_mem_nil _, fun _ => rfl⟩⟩
  | @unfinished start mid _ acts last moments why shown walked shownAgain =>
    obtain ⟨walk, rest, halt, rfl, htop, hquiet⟩ := walked.parts
    refine ⟨acts, start, none, shown, .inr ⟨rfl, _, walk, rest ++ Moment.ofActs none last, mid,
      halt, by simp only [List.append_assoc], hacts acts, htop, ?_, fun hkept => ?_⟩⟩
    · simp only [Moment.acts_append, Moment.acts_ofActs, List.forall_mem_append]
      exact ⟨fun act hact => callsNode_eq_false (hquiet act hact), shownAgain.callsNode⟩
    · simp only [Moment.acts_append, Moment.acts_ofActs, List.forall_mem_append] at hkept
      exact shownAgain.items_eq hkept.2
  | @finished start mid _ acts last moments shown walked shownAgain =>
    obtain ⟨walk, rest, halt, rfl, htop, hquiet⟩ := walked.parts
    refine ⟨acts, start, none, shown, .inr ⟨rfl, _, walk,
      rest ++ Moment.ofActs none last ++ Moment.telling (some (.finished items.length)), mid,
      halt, by simp only [List.append_assoc], hacts acts, htop, ?_, fun hkept => ?_⟩⟩
    · simp only [Moment.acts_append, Moment.acts_ofActs, Moment.acts_telling,
        List.forall_mem_append]
      exact ⟨⟨fun act hact => callsNode_eq_false (hquiet act hact), shownAgain.callsNode⟩,
        forall_mem_telling fun _ _ => rfl⟩
    · simp only [Moment.acts_append, Moment.acts_ofActs, List.forall_mem_append] at hkept
      exact shownAgain.items_eq hkept.1.2

namespace Walker

variable {walker : Walker ρ α σ} {stack : Nat} {nodes : List (Tree ρ α)} {state : σ}

variable (walker) in
/-- The beginning of a traversal: the visitors are shown the sequence. What comes of it is walked
unless one of them objects. -/
def opening (nodes : List (Tree ρ α)) (state : σ) : Sweep (Tree ρ α) σ :=
  walker.showAll .before nodes
    (walker.emit (.started nodes.length walker.visitors.length) state)

/-- The acts with which the visitors are shown the sequence tell what the opening makes of it, and
the other acts are done after that. -/
lemma exists_opening_eq {shown rest : List (Act ρ α)} {start : List (Tree ρ α)}
    {opened : Option Halt}
    (hshown : ShowRun walker.visitors.length .before 0 nodes shown start opened)
    (hacts : walker.acts stack nodes state =
      .event (.started nodes.length walker.visitors.length) :: shown ++ rest) :
    ∃ final, walker.opening nodes state = ⟨start, opened, final⟩ ∧
      walker.DoesAll rest final (walker.traverse stack nodes state).state := by
  obtain ⟨-, -, hdoes⟩ := walker.recorded_traverse stack nodes state
  rw [hacts] at hdoes
  obtain ⟨_, rfl, hall⟩ := hdoes
  obtain ⟨final, hshow, hrest⟩ := walker.doesAll_append.1 hall
  exact ⟨final, walker.showAll_determined hshown hshow, hrest⟩

/-- The walk in the trail of a traversal: it starts from what the opening has made of the sequence,
and neither before nor after it a node is visited. -/
theorem Leaves.walk {trail : List (Moment ρ α)} (h : walker.Leaves stack nodes state trail) :
    ((walker.opening nodes state).halt ≠ none ∧
      ∀ act ∈ Moment.acts trail, act.callsNode = false) ∨
    (walker.opening nodes state).halt = none ∧ ∃ front walk last mid halt,
      trail = front ++ walk ++ last ∧ (∀ act ∈ Moment.acts front, act.callsNode = false) ∧
      TopTrail walker.options walker.visitors.length (walker.room stack)
        (walker.opening nodes state).items walk mid halt ∧
      (∀ act ∈ Moment.acts last, act.callsNode = false) ∧
      ((∀ act ∈ Moment.acts last, act.replacesLast = false) →
        (walker.traverse stack nodes state).items = mid) := by
  obtain ⟨shown, start, opened, hshown, hparts⟩ := h.trodden.parts
  have hquiet : ∀ act ∈ .event (.started nodes.length walker.visitors.length) :: shown,
      act.callsNode = false :=
    List.forall_mem_cons.2 ⟨rfl, hshown.callsNode⟩
  obtain ⟨hobjected, hacts⟩ |
      ⟨rfl, front, walk, last, mid, halt, rfl, hfront, htop, hlast, hitems⟩ := hparts
  · have hall := h.acts_eq
    rw [hacts, ← List.append_nil (_ :: _)] at hall
    obtain ⟨final, hopen, -⟩ := exists_opening_eq hshown hall.symm
    exact .inl ⟨by rwa [hopen], hacts ▸ hquiet⟩
  · have hall := h.acts_eq
    rw [Moment.acts_append, Moment.acts_append, hfront, List.append_assoc] at hall
    obtain ⟨final, hopen, -⟩ := exists_opening_eq hshown hall.symm
    rw [hopen]
    exact .inr ⟨rfl, front, walk, last, mid, halt, rfl, hfront ▸ hquiet, htop, hlast, hitems⟩

end Walker

end Opening

section Identifiers

variable {identify : Tree ρ α → ι}

lemma Tree.count_idents [DecidableEq ι] (x : ι) (forest : List (Tree ρ α)) :
    (Tree.idents identify forest).count x =
      Tree.tally (fun husk => decide (identify husk = x)) forest := by
  simp only [Tree.idents, Tree.tally, List.count_eq_countP, List.countP_map]
  congr 1

lemma Tree.mem_idents_iff [DecidableEq ι] {x : ι} {forest : List (Tree ρ α)} :
    x ∈ Tree.idents identify forest ↔
      0 < Tree.tally (fun husk => decide (identify husk = x)) forest := by
  rw [← List.count_pos_iff, Tree.count_idents]

lemma Act.count_visit? [DecidableEq ι] (index : Nat) (hook : NodeHook) (x : ι)
    (acts : List (Act ρ α)) :
    (acts.filterMap (Act.visit? identify)).count (index, hook, x) =
      acts.countP (Act.visits (fun husk => decide (identify husk = x)) index hook) := by
  rw [List.count_eq_countP, List.countP_filterMap]
  congr 1
  funext act
  cases act with
  | event | sequence => rfl
  | node =>
    rw [Bool.eq_iff_iff]
    simp [Act.visit?, Act.visits, and_assoc]

end Identifiers

namespace Walker

/-- Visitors that never change a node in place leave it as it is in every call. -/
lemma acts_still [Admission ρ α] {walker : Walker ρ α σ}
    (h : ∀ visitor ∈ walker.visitors, ∀ hook node state,
      (visitor.callNode hook node state).1.left node = node)
    (stack : Nat) (nodes : List (Tree ρ α)) (state : σ) :
    ∀ act ∈ walker.acts stack nodes state, act.Still := by
  intro act hact
  obtain ⟨-, -, hdoes⟩ := walker.recorded_traverse stack nodes state
  obtain ⟨before, after, hact⟩ := hdoes.exists_does hact
  cases act with
  | event | sequence => trivial
  | node index name hook node reply =>
    obtain ⟨visitor, hvisitor, hcalled, -⟩ := hact
    have hleft := h visitor (List.mem_of_getElem? hvisitor) hook node before
    rwa [hcalled] at hleft

variable [Admission ρ α] (walker : Walker ρ α σ) (stack : Nat) (nodes : List (Tree ρ α)) (state : σ)

/-- The visits of a traversal are bounded by what it starts from and what is opened while it runs.
So there are fewer of them the more is there for good. -/
lemma visits_le (p : Tree ρ α → Bool) (index : Nat) (hook : NodeHook)
    (still : ∀ act ∈ walker.acts stack nodes state, act.Still) :
    let acts := walker.acts stack nodes state
    acts.countP (Act.visits p index hook) + (acts.flatMap Act.closed).countP p ≤
      Tree.tally p ((walker.opening nodes state).items ++ acts.flatMap Act.carried) := by
  intro acts
  have hcarried : Tree.tally p (acts.flatMap Act.carried) =
      (acts.flatMap Act.opened).countP p + (acts.flatMap Act.closed).countP p := by
    induction acts with
    | nil => rfl
    | cons act rest ih =>
      simp only [List.flatMap_cons, Tree.tally_append, List.countP_append, ih, act.tally_carried]
      omega
  have hbounded : Bounded p index hook (Tree.tally p (walker.opening nodes state).items) acts := by
    obtain ⟨trail, hleaves⟩ := walker.exists_leaves stack nodes state
    have hacts : acts = Moment.acts trail := hleaves.acts_eq.symm
    rw [← hleaves.acts_eq] at still
    rw [hacts]
    obtain ⟨-, hquiet⟩ | ⟨-, front, walk, last, mid, halt, rfl, hfront, htop, hlast, -⟩ :=
      hleaves.walk
    · exact (bounded_of_quiet hquiet).mono (Nat.zero_le _)
    · simp only [Moment.acts_append, List.forall_mem_append] at still ⊢
      have hwalk : Bounded p index hook (Tree.tally p (walker.opening nodes state).items)
          (Moment.acts walk) :=
        ListRun.bounded (NodeRun.bounded (walker.room stack) 0 .topLevel)
          (htop.run_acts (NodeRun.trodden _ 0 .topLevel)) still.1.2
      exact (((bounded_of_quiet hfront).append hwalk).append (bounded_of_quiet hlast)).mono
        (by omega)
  simp only [Bounded] at hbounded
  rw [Tree.tally_append, hcarried]
  omega

/-- No node is visited twice, and nodes that are put in for good are never visited. Let all nodes
that a walk starts from and all that visitors bring along have identifiers of their own, and let the
visitors leave the nodes themselves as they are. Then each visitor enters a node at most once and
leaves it at most once. It is shown none of the nodes of a splice, and nothing that is below the
node that another visitor puts in the place of one that is left. -/
theorem visits_nodup (identify : Tree ρ α → ι)
    (still : ∀ act ∈ walker.acts stack nodes state, act.Still)
    (distinct : (Tree.idents identify ((walker.opening nodes state).items ++
      (walker.acts stack nodes state).flatMap Act.carried)).Nodup) :
    let acts := walker.acts stack nodes state
    let visits := acts.filterMap (Act.visit? identify)
    visits.Nodup ∧
      (∀ index name hook shown left new,
        .node index name hook shown (.answered left (.splice new)) ∈ acts →
        ∀ x ∈ Tree.idents identify new, ∀ visit ∈ visits, visit.2.2 ≠ x) ∧
      ∀ index name shown left new,
        .node index name .leave shown (.answered left (.replace new)) ∈ acts →
        ∀ x ∈ Tree.idents identify new.children, ∀ visit ∈ visits, visit.2.2 ≠ x := by
  classical
  intro acts visits
  have hle : ∀ index hook x, visits.count (index, hook, x) +
      (acts.flatMap Act.closed).countP (fun husk => decide (identify husk = x)) ≤ 1 := by
    intro index hook x
    have hone := List.nodup_iff_count_le_one.1 distinct x
    rw [Tree.count_idents] at hone
    rw [Act.count_visit?]
    exact Nat.le_trans (walker.visits_le stack nodes state _ index hook still) hone
  have hclosed : ∀ act ∈ acts, ∀ husk ∈ act.closed, ∀ visit ∈ visits,
      visit.2.2 ≠ identify husk := by
    rintro act hact husk hhusk ⟨index, hook, x⟩ hvisit rfl
    have hvisited : 0 < visits.count (index, hook, identify husk) := List.count_pos_iff.2 hvisit
    have hput : 0 < (acts.flatMap Act.closed).countP
        fun other => decide (identify other = identify husk) :=
      List.countP_pos_iff.2 ⟨husk, List.mem_flatMap.2 ⟨act, hact, hhusk⟩, by simp⟩
    have hone := hle index hook (identify husk)
    omega
  refine ⟨?_, ?_, ?_⟩
  · refine List.nodup_iff_count_le_one.2 fun ⟨index, hook, x⟩ => ?_
    exact Nat.le_trans (Nat.le_add_right _ _) (hle index hook x)
  · intro index name hook shown left new hact x hx
    obtain ⟨husk, hhusk, rfl⟩ := List.mem_map.1 hx
    refine hclosed _ hact husk ?_
    cases hook <;> exact hhusk
  · intro index name shown left new hact x hx
    obtain ⟨husk, hhusk, rfl⟩ := List.mem_map.1 hx
    exact hclosed _ hact husk hhusk

/-- A block whose label tells it from all others. -/
def bed (label : String) (plants : List (Tree Shape Unit)) : Tree Shape Unit where
  tag := "Stmt_Block"
  label := some label
  slots := [⟨⟨"body", some .stmt⟩, .list plants⟩]

/-- Replaces one block on entering it and another on leaving it, and splices two in the place of a
third. -/
def gardener : Walker Shape Unit Unit :=
  .stateless {} "gardener" fun hook node =>
    .answered node <|
      match hook, node.label with
      | .enter, some "b" => .replace (bed "d" [bed "e" []])
      | .leave, some "c" => .splice [bed "f" [], bed "g" []]
      | .leave, some "a" => .replace (bed "h" [bed "i" []])
      | _, _ => .keep

/-- The gardener visits what was there and what stands below a block that it replaced on entering,
each once. -/
theorem gardener_visits :
    let garden := [bed "a" [bed "b" [], bed "c" []]]
    let visits := (gardener.acts 4 garden ()).filterMap (Act.visit? Tree.label)
    visits.map (fun visit => (visit.2.1, visit.2.2.getD "")) =
        [(.enter, "a"), (.enter, "b"), (.enter, "e"), (.leave, "e"), (.leave, "d"), (.enter, "c"),
          (.leave, "c"), (.leave, "a")] ∧
      visits.Nodup := by
  intro garden visits
  have still : ∀ act ∈ gardener.acts 4 garden (), act.Still := by
    refine acts_still ?_ 4 garden ()
    intro visitor hmem hook node state
    obtain rfl := List.mem_singleton.1 hmem
    rfl
  have distinct : (Tree.idents Tree.label ((gardener.opening garden ()).items ++
      (gardener.acts 4 garden ()).flatMap Act.carried)).Nodup := by
    decide +kernel
  obtain ⟨hnodup, -, -⟩ := gardener.visits_nodup 4 garden () Tree.label still distinct
  exact ⟨by decide +kernel, hnodup⟩

end Walker

end ForestWalk
