import ForestWalk.Proofs.Runs
/-!
A walker does what the rules of runs allow, and nothing else. `traverse_eq_iff` says that a
traversal ends in a certain way just if there is a run which ends so and whose acts the walker does.
For a recorded walker these acts are the ones written down.
-/

namespace ForestWalk

namespace Walker

variable {ρ α σ : Type} (walker : Walker ρ α σ)

/-- The rules in `run` say what `visit` does: each visit is a run, and each run whose acts the
walker does is a visit. -/
structure Obeys (visit : Tree ρ α → σ → Fate (Tree ρ α) × σ)
    (run : Tree ρ α → List (Act ρ α) → Fate (Tree ρ α) → Prop) : Prop where
  runs : ∀ node state, ∃ acts, run node acts (visit node state).1 ∧
    walker.DoesAll acts state (visit node state).2
  determined : ∀ {node acts fate state final}, run node acts fate →
    walker.DoesAll acts state final → visit node state = (fate, final)

lemma drop_visitors {index : Nat} {visitor : Registration ρ α σ}
    (h : walker.visitors[index]? = some visitor) :
    walker.visitors.drop index = visitor :: walker.visitors.drop (index + 1) := by
  obtain ⟨hlt, rfl⟩ := List.getElem?_eq_some_iff.1 h
  exact List.drop_eq_getElem_cons hlt

section Lists

variable {walker} {visit : Tree ρ α → σ → Fate (Tree ρ α) × σ}
  {run : Tree ρ α → List (Act ρ α) → Fate (Tree ρ α) → Prop} {slot : String}

variable (slot) in
lemma passFrom_runs (h : walker.Obeys visit run) (emitted : Nat) (nodes : List (Tree ρ α))
    (state : σ) :
    let sweep := walker.passFrom visit slot emitted nodes state
    ∃ acts, ListRun run slot emitted nodes acts sweep.items sweep.halt ∧
      walker.DoesAll acts state sweep.state := by
  induction nodes generalizing emitted state with
  | nil => exact ⟨[], .nil emitted, rfl⟩
  | cons node rest ih =>
    obtain ⟨acts, hrun, hdoes⟩ := h.runs node state
    rcases hv : visit node state with ⟨fate, after⟩
    rw [hv] at hrun hdoes
    rcases hf : fate.contribution with _ | given
    · obtain ⟨left, why, rfl⟩ := Fate.contribution_eq_none_iff.1 hf
      simp only [passFrom, hv]
      exact ⟨acts, .halt hrun, hdoes⟩
    · rw [passFrom_cons walker hv hf]
      obtain ⟨more, hmore, hdoes'⟩ :=
        ih (emitted + given.length) (walker.tell (fate.event slot emitted) after)
      refine ⟨acts ++ Act.telling (fate.event slot emitted) ++ more, .cons hrun hf hmore, ?_⟩
      simp only [doesAll_append, doesAll_telling]
      exact ⟨_, ⟨after, hdoes, rfl⟩, hdoes'⟩

lemma passFrom_determined (h : walker.Obeys visit run) {emitted : Nat}
    {nodes items : List (Tree ρ α)} {acts : List (Act ρ α)} {halt : Option Halt}
    (hrun : ListRun run slot emitted nodes acts items halt) {state final : σ}
    (hdoes : walker.DoesAll acts state final) :
    walker.passFrom visit slot emitted nodes state = ⟨items, halt, final⟩ := by
  induction hrun generalizing state with
  | nil emitted =>
    obtain rfl := hdoes
    rfl
  | cons visited part others ih =>
    simp only [doesAll_append, doesAll_telling] at hdoes
    obtain ⟨_, ⟨after, hacts, rfl⟩, hmore⟩ := hdoes
    rw [passFrom_cons walker (h.determined visited hacts) part, ih hmore]
    rfl
  | halt visited => simp only [passFrom, h.determined visited hdoes]

end Lists

section Slots

variable {walker} {visit : Place ρ → Tree ρ α → σ → Fate (Tree ρ α) × σ}
  {run : Place ρ → Tree ρ α → List (Act ρ α) → Fate (Tree ρ α) → Prop}

lemma walkContent_runs (h : ∀ place, walker.Obeys (visit place) (run place)) (rule : Rule ρ)
    (content : Content α (Tree ρ α)) (state : σ) :
    let walked := walker.walkContent visit rule content state
    ∃ acts, ContentRun run rule content acts walked.1 walked.2.1 ∧
      walker.DoesAll acts state walked.2.2 := by
  match content with
  | .single none => exact ⟨[], .vacant, rfl⟩
  | .single (some child) =>
    obtain ⟨acts, hrun, hdoes⟩ := (h ⟨.single, rule⟩).runs child state
    rcases hv : visit ⟨.single, rule⟩ child state with ⟨fate, after⟩
    rw [hv] at hrun hdoes
    simp only [walkContent, hv]
    cases fate with
    | keep left => exact ⟨acts, .kept hrun, hdoes⟩
    | remove =>
      refine ⟨acts ++ [.event (.cleared rule.name)], .cleared hrun, ?_⟩
      simpa using ⟨after, hdoes, rfl⟩
    | splice new => exact ⟨acts, .spliced hrun, hdoes⟩
    | halt left why => exact ⟨acts, .halt hrun, hdoes⟩
  | .list children =>
    simp only [walkContent, walkList_eq_passFrom]
    obtain ⟨acts, hrun, hdoes⟩ := passFrom_runs rule.name (h ⟨.list, rule⟩) 0 children state
    exact ⟨acts, .list hrun, hdoes⟩
  | .value content => exact ⟨[], .value content, rfl⟩

lemma walkContent_determined (h : ∀ place, walker.Obeys (visit place) (run place))
    {rule : Rule ρ} {content left : Content α (Tree ρ α)} {acts : List (Act ρ α)}
    {halt : Option Halt} (hrun : ContentRun run rule content acts left halt) {state final : σ}
    (hdoes : walker.DoesAll acts state final) :
    walker.walkContent visit rule content state = (left, halt, final) := by
  cases hrun with
  | vacant | value =>
    obtain rfl := hdoes
    rfl
  | kept visited | spliced visited | halt visited =>
    simp only [walkContent, (h _).determined visited hdoes]
  | cleared visited =>
    simp only [doesAll_append, doesAll_cons, doesAll_nil, does_event] at hdoes
    obtain ⟨after, hacts, _, rfl, rfl⟩ := hdoes
    simp only [walkContent, (h _).determined visited hacts]
  | list walked =>
    simp only [walkContent, walkList_eq_passFrom, passFrom_determined (h _) walked hdoes]

lemma walkSlots_runs (h : ∀ place, walker.Obeys (visit place) (run place))
    (slots : List (Slot ρ α (Tree ρ α))) (state : σ) :
    let sweep := walker.walkSlots visit slots state
    ∃ acts, SlotsRun run slots acts sweep.items sweep.halt ∧
      walker.DoesAll acts state sweep.state := by
  induction slots generalizing state with
  | nil => exact ⟨[], .nil, rfl⟩
  | cons slot rest ih =>
    obtain ⟨rule, content⟩ := slot
    obtain ⟨acts, hrun, hdoes⟩ := walkContent_runs h rule content state
    rcases hc : walker.walkContent visit rule content state with ⟨left, halt, after⟩
    rw [hc] at hrun hdoes
    cases halt with
    | none =>
      obtain ⟨more, hmore, hdoes'⟩ := ih after
      simp only [walkSlots, hc]
      refine ⟨acts ++ more, .cons hrun hmore, ?_⟩
      exact (walker.doesAll_append).2 ⟨after, hdoes, hdoes'⟩
    | some why =>
      simp only [walkSlots, hc]
      exact ⟨acts, .halt hrun, hdoes⟩

lemma walkSlots_determined (h : ∀ place, walker.Obeys (visit place) (run place))
    {slots items : List (Slot ρ α (Tree ρ α))} {acts : List (Act ρ α)} {halt : Option Halt}
    (hrun : SlotsRun run slots acts items halt) {state final : σ}
    (hdoes : walker.DoesAll acts state final) :
    walker.walkSlots visit slots state = ⟨items, halt, final⟩ := by
  induction hrun generalizing state with
  | nil =>
    obtain rfl := hdoes
    rfl
  | cons walked others ih =>
    obtain ⟨after, hacts, hmore⟩ := (walker.doesAll_append).1 hdoes
    simp only [walkSlots, walkContent_determined h walked hacts, ih hmore]
    rfl
  | halt walked => simp only [walkSlots, walkContent_determined h walked hdoes]

end Slots

section Consult

variable [Admission ρ α] (hook : NodeHook) (place : Place ρ)

lemma consultFrom_runs (index : Nat) (hle : index ≤ walker.visitors.length) (node : Tree ρ α)
    (state : σ) :
    let consulted := walker.consultFrom hook place index (walker.visitors.drop index) node state
    ∃ acts, ConsultRun walker.options walker.visitors.length hook place index node acts
        consulted.1 ∧ walker.DoesAll acts state consulted.2 := by
  -- The induction is on the number of visitors that are still to be asked.
  induction hn : walker.visitors.length - index generalizing index node state with
  | zero =>
    obtain rfl : index = walker.visitors.length := by omega
    rw [List.drop_length]
    exact ⟨[], .done node, rfl⟩
  | succ n ih =>
    have hlt : index < walker.visitors.length := by omega
    obtain ⟨visitor, hv⟩ : ∃ visitor, walker.visitors[index]? = some visitor :=
      ⟨_, List.getElem?_eq_getElem hlt⟩
    rw [walker.drop_visitors hv]
    rcases hc : visitor.callNode hook node state with ⟨reply, after⟩
    rcases hj : walker.options.judge hook place (visitor.site (.node hook) index after) node reply
      with ⟨verdict, event⟩
    have hact : walker.Does (.node index _ hook node reply) state after := ⟨visitor, hv, hc, rfl⟩
    have hconsult : walker.consult hook place index visitor node state =
        (verdict, walker.tell event after) := by
      simp only [consult, hc, hj]
    simp only [consultFrom, hconsult]
    by_cases hp : ∃ next, verdict = .proceed next
    · obtain ⟨next, rfl⟩ := hp
      obtain ⟨acts, hrun, hdoes⟩ := ih (index + 1) hlt next (walker.tell event after) (by omega)
      refine ⟨_, .pass hlt hj hrun, after, hact, ?_⟩
      exact (walker.doesAll_append).2 ⟨_, walker.doesAll_telling.2 rfl, hdoes⟩
    · have hsettled : ∀ next, verdict ≠ .proceed next := fun next he => hp ⟨next, he⟩
      have hrun : ConsultRun walker.options walker.visitors.length hook place index node
          (_ :: Act.telling event) verdict :=
        .settle hlt hj hsettled
      have hdoes : walker.DoesAll (_ :: Act.telling event) state (walker.tell event after) :=
        ⟨after, hact, walker.doesAll_telling.2 rfl⟩
      cases verdict with
      | proceed next => exact absurd rfl (hsettled next)
      | _ => exact ⟨_, hrun, hdoes⟩

lemma consultFrom_determined {hook : NodeHook} {place : Place ρ} {index : Nat} {node : Tree ρ α}
    {acts : List (Act ρ α)} {verdict : Verdict (Tree ρ α)}
    (hrun : ConsultRun walker.options walker.visitors.length hook place index node acts verdict)
    {state final : σ} (hdoes : walker.DoesAll acts state final) :
    walker.consultFrom hook place index (walker.visitors.drop index) node state =
      (verdict, final) := by
  induction hrun generalizing state with
  | done node =>
    obtain rfl := hdoes
    simp [consultFrom]
  | pass inRange judged others ih =>
    obtain ⟨after, ⟨visitor, hv, hc, rfl⟩, hrest⟩ := hdoes
    obtain ⟨_, htell, hothers⟩ := (walker.doesAll_append).1 hrest
    obtain rfl := walker.doesAll_telling.1 htell
    have hj := judged
    rw [walker.drop_visitors hv]
    simp only [consultFrom, consult, hc, Registration.site, hj, ih hothers]
  | @settle index _ node reply event verdict inRange judged settled =>
    obtain ⟨after, ⟨visitor, hv, hc, rfl⟩, htell⟩ := hdoes
    obtain rfl := walker.doesAll_telling.1 htell
    rw [walker.drop_visitors hv]
    cases verdict with
    | proceed next => exact absurd rfl (settled next)
    | _ => simp only [consultFrom, consult, hc, Registration.site, judged]

lemma consultAll_runs (node : Tree ρ α) (state : σ) :
    let consulted := walker.consultAll hook place node state
    ∃ acts, ConsultRun walker.options walker.visitors.length hook place 0 node acts consulted.1 ∧
      walker.DoesAll acts state consulted.2 :=
  walker.consultFrom_runs hook place 0 (Nat.zero_le _) node state

lemma consultAll_determined {hook : NodeHook} {place : Place ρ} {node : Tree ρ α}
    {acts : List (Act ρ α)} {verdict : Verdict (Tree ρ α)}
    (hrun : ConsultRun walker.options walker.visitors.length hook place 0 node acts verdict)
    {state final : σ} (hdoes : walker.DoesAll acts state final) :
    walker.consultAll hook place node state = (verdict, final) :=
  walker.consultFrom_determined hrun hdoes

lemma visit_runs {room depth : Nat}
    (below : ∀ place, walker.Obeys (walker.visit room (depth + 1) place)
      (NodeRun walker.options walker.visitors.length room (depth + 1) place))
    (node : Tree ρ α) (state : σ) :
    let visited := walker.visit (room + 1) depth place node state
    ∃ acts, NodeRun walker.options walker.visitors.length (room + 1) depth place node acts
      visited.1 ∧ walker.DoesAll acts state visited.2 := by
  rcases hdepth : walker.options.exceededAt depth with _ | limit
  · obtain ⟨acts, hrun, hdoes⟩ := walker.consultAll_runs .enter place node state
    rcases hc : walker.consultAll .enter place node state with ⟨verdict, after⟩
    rw [hc] at hrun hdoes
    cases verdict with
    | proceed mid =>
      obtain ⟨more, hmore, hdoes'⟩ := walkSlots_runs below mid.slots after
      rcases hs : walker.walkSlots (walker.visit room (depth + 1)) mid.slots after with
        ⟨slots, halt, after'⟩
      rw [hs] at hmore hdoes'
      have hacts := (walker.doesAll_append).2 ⟨after, hdoes, hdoes'⟩
      cases halt with
      | none =>
        obtain ⟨last, hlast, hdoes''⟩ :=
          walker.consultAll_runs .leave place { mid with slots := slots } after'
        simp only [visit, hdepth, hc, hs, leave]
        exact ⟨acts ++ more ++ last, .walked hdepth hrun hmore hlast,
          (walker.doesAll_append).2 ⟨after', hacts, hdoes''⟩⟩
      | some why =>
        simp only [visit, hdepth, hc, hs]
        exact ⟨acts ++ more, .broken hdepth hrun hmore, hacts⟩
    | skipChildren mid =>
      obtain ⟨last, hlast, hdoes'⟩ := walker.consultAll_runs .leave place mid after
      simp only [visit, hdepth, hc, leave]
      exact ⟨acts ++ last, .skipped hdepth hrun hlast,
        (walker.doesAll_append).2 ⟨after, hdoes, hdoes'⟩⟩
    | remove | splice | halt =>
      simp only [visit, hdepth, hc]
      exact ⟨acts, .settled hdepth hrun nofun nofun, hdoes⟩
  · simp only [visit, hdepth]
    exact ⟨_, .tooDeep hdepth, _, rfl, rfl⟩

lemma visit_determined {room depth : Nat} {place : Place ρ}
    (below : ∀ place, walker.Obeys (walker.visit room (depth + 1) place)
      (NodeRun walker.options walker.visitors.length room (depth + 1) place))
    {node : Tree ρ α} {acts : List (Act ρ α)} {fate : Fate (Tree ρ α)}
    (hrun : NodeRun walker.options walker.visitors.length (room + 1) depth place node acts fate)
    {state final : σ} (hdoes : walker.DoesAll acts state final) :
    walker.visit (room + 1) depth place node state = (fate, final) := by
  cases hrun with
  | tooDeep exceeded =>
    obtain ⟨_, rfl, rfl⟩ := hdoes
    simp only [visit, exceeded]
  | walked allowed entered descended left =>
    obtain ⟨_, hacts, hlast⟩ := (walker.doesAll_append).1 hdoes
    obtain ⟨_, hacts, hmore⟩ := (walker.doesAll_append).1 hacts
    simp only [visit, allowed, walker.consultAll_determined entered hacts,
      walkSlots_determined below descended hmore, leave,
      walker.consultAll_determined left hlast]
  | broken allowed entered descended =>
    obtain ⟨_, hacts, hmore⟩ := (walker.doesAll_append).1 hdoes
    simp only [visit, allowed, walker.consultAll_determined entered hacts,
      walkSlots_determined below descended hmore]
  | skipped allowed entered left =>
    obtain ⟨_, hacts, hlast⟩ := (walker.doesAll_append).1 hdoes
    simp only [visit, allowed, walker.consultAll_determined entered hacts, leave,
      walker.consultAll_determined left hlast]
  | @settled _ verdict allowed entered proceeds skips =>
    cases verdict with
    | proceed mid => exact absurd rfl (proceeds mid)
    | skipChildren mid => exact absurd rfl (skips mid)
    | _ => simp only [visit, allowed, walker.consultAll_determined entered hdoes]

/-- Visiting a node, at any depth and with any room. -/
theorem visit_obeys (room depth : Nat) (place : Place ρ) :
    walker.Obeys (walker.visit room depth place)
      (NodeRun walker.options walker.visitors.length room depth place) := by
  induction room generalizing depth place with
  | zero =>
    refine ⟨fun node state => ⟨[], ⟨rfl, rfl⟩, rfl⟩, ?_⟩
    rintro node acts fate state final ⟨rfl, rfl⟩ rfl
    rfl
  | succ room ih =>
    have below := fun place => ih (depth + 1) place
    exact ⟨walker.visit_runs place below,
      fun hrun hdoes => walker.visit_determined below hrun hdoes⟩

end Consult

section Show

variable (hook : SequenceHook)

lemma showFrom_runs (index : Nat) (hle : index ≤ walker.visitors.length)
    (nodes : List (Tree ρ α)) (state : σ) :
    let sweep := walker.showFrom hook index (walker.visitors.drop index) nodes state
    ∃ acts, ShowRun walker.visitors.length hook index nodes acts sweep.items sweep.halt ∧
      walker.DoesAll acts state sweep.state := by
  induction hn : walker.visitors.length - index generalizing index nodes state with
  | zero =>
    obtain rfl : index = walker.visitors.length := by omega
    rw [List.drop_length]
    exact ⟨[], .done nodes, rfl⟩
  | succ n ih =>
    have hlt : index < walker.visitors.length := by omega
    obtain ⟨visitor, hv⟩ : ∃ visitor, walker.visitors[index]? = some visitor :=
      ⟨_, List.getElem?_eq_getElem hlt⟩
    rw [walker.drop_visitors hv]
    rcases hc : visitor.callSequence hook nodes state with ⟨reply, after⟩
    rcases hj : reply.judge hook (visitor.site (.sequence hook) index after) nodes with
      ⟨⟨next, halt⟩, event⟩
    have hact : walker.Does (.sequence index _ hook nodes reply) state after :=
      ⟨visitor, hv, hc, rfl⟩
    cases halt with
    | none =>
      obtain ⟨acts, hrun, hdoes⟩ := ih (index + 1) hlt next (walker.tell event after) (by omega)
      simp only [showFrom, hc, hj]
      refine ⟨_, .pass hlt hj hrun, after, hact, ?_⟩
      exact (walker.doesAll_append).2 ⟨_, walker.doesAll_telling.2 rfl, hdoes⟩
    | some why =>
      simp only [showFrom, hc, hj]
      exact ⟨_, .halt hlt hj, after, hact, walker.doesAll_telling.2 rfl⟩

lemma showFrom_determined {hook : SequenceHook} {index : Nat} {nodes items : List (Tree ρ α)}
    {acts : List (Act ρ α)} {halt : Option Halt}
    (hrun : ShowRun walker.visitors.length hook index nodes acts items halt) {state final : σ}
    (hdoes : walker.DoesAll acts state final) :
    walker.showFrom hook index (walker.visitors.drop index) nodes state =
      ⟨items, halt, final⟩ := by
  induction hrun generalizing state with
  | done nodes =>
    obtain rfl := hdoes
    simp [showFrom]
  | pass inRange judged others ih =>
    obtain ⟨after, ⟨visitor, hv, hc, rfl⟩, hrest⟩ := hdoes
    obtain ⟨_, htell, hothers⟩ := (walker.doesAll_append).1 hrest
    obtain rfl := walker.doesAll_telling.1 htell
    rw [walker.drop_visitors hv]
    simp only [showFrom, hc, Registration.site, judged, ih hothers]
  | halt inRange judged =>
    obtain ⟨after, ⟨visitor, hv, hc, rfl⟩, htell⟩ := hdoes
    obtain rfl := walker.doesAll_telling.1 htell
    rw [walker.drop_visitors hv]
    simp only [showFrom, hc, Registration.site, judged]

lemma showAll_runs (nodes : List (Tree ρ α)) (state : σ) :
    let sweep := walker.showAll hook nodes state
    ∃ acts, ShowRun walker.visitors.length hook 0 nodes acts sweep.items sweep.halt ∧
      walker.DoesAll acts state sweep.state :=
  walker.showFrom_runs hook 0 (Nat.zero_le _) nodes state

lemma showAll_determined {hook : SequenceHook} {nodes items : List (Tree ρ α)}
    {acts : List (Act ρ α)} {halt : Option Halt}
    (hrun : ShowRun walker.visitors.length hook 0 nodes acts items halt) {state final : σ}
    (hdoes : walker.DoesAll acts state final) :
    walker.showAll hook nodes state = ⟨items, halt, final⟩ :=
  walker.showFrom_determined hrun hdoes

end Show

section Traverse

variable [Admission ρ α]

lemma walkTop_runs (stack : Nat) (nodes : List (Tree ρ α)) (state : σ) :
    let sweep := walker.walkTop stack nodes state
    ∃ acts, TopRun walker.options walker.visitors.length (walker.room stack) nodes acts sweep.items
      sweep.halt ∧ walker.DoesAll acts state sweep.state := by
  rw [walkTop, walkList_eq_passFrom]
  exact passFrom_runs topLevelName (walker.visit_obeys _ _ _) 0 nodes state

lemma walkTop_determined {stack : Nat} {nodes items : List (Tree ρ α)} {acts : List (Act ρ α)}
    {halt : Option Halt}
    (hrun : TopRun walker.options walker.visitors.length (walker.room stack) nodes acts items halt)
    {state final : σ} (hdoes : walker.DoesAll acts state final) :
    walker.walkTop stack nodes state = ⟨items, halt, final⟩ := by
  rw [walkTop, walkList_eq_passFrom]
  exact passFrom_determined (walker.visit_obeys _ _ _) hrun hdoes

/-- The walk that the visitors are shown the outcome of. -/
lemma absorbStop_walkTop_determined {stack : Nat} {nodes items : List (Tree ρ α)}
    {acts : List (Act ρ α)}
    (hrun : WalkRun walker.options walker.visitors.length (walker.room stack) nodes acts items)
    {state final : σ} (hdoes : walker.DoesAll acts state final) :
    (walker.walkTop stack nodes state).absorbStop (walker.emit .stopped) =
      ⟨items, none, final⟩ := by
  cases hrun with
  | through walked => rw [walker.walkTop_determined walked hdoes, Sweep.absorbStop_none]
  | stopped walked =>
    obtain ⟨mid, hacts, _, rfl, rfl⟩ := (walker.doesAll_append).1 hdoes
    rw [walker.walkTop_determined walked hacts, Sweep.absorbStop_stopped]

lemma absorbStop_walkTop_runs (stack : Nat) (nodes : List (Tree ρ α)) (state : σ) :
    let sweep := (walker.walkTop stack nodes state).absorbStop (walker.emit .stopped)
    ∃ acts, walker.DoesAll acts state sweep.state ∧
      ((sweep.halt = none ∧ WalkRun walker.options walker.visitors.length (walker.room stack) nodes
          acts sweep.items) ∨
        ∃ why, why ≠ .stopped ∧ sweep.halt = some why ∧ TopRun walker.options
          walker.visitors.length (walker.room stack) nodes acts sweep.items (some why)) := by
  obtain ⟨acts, hrun, hdoes⟩ := walker.walkTop_runs stack nodes state
  rcases hw : walker.walkTop stack nodes state with ⟨items, halt, after⟩
  rw [hw] at hrun hdoes
  cases halt with
  | none => exact ⟨acts, hdoes, .inl ⟨rfl, .through hrun⟩⟩
  | some why =>
    by_cases hs : why = .stopped
    · subst hs
      rw [Sweep.absorbStop_stopped]
      refine ⟨acts ++ [.event .stopped], ?_, .inl ⟨rfl, .stopped hrun⟩⟩
      exact (walker.doesAll_append).2 ⟨after, hdoes, _, rfl, rfl⟩
    · rw [Sweep.absorbStop_of_ne hs]
      exact ⟨acts, hdoes, .inr ⟨why, hs, rfl, hrun⟩⟩

theorem traverse_runs (stack : Nat) (nodes : List (Tree ρ α)) (state : σ) :
    let sweep := walker.traverse stack nodes state
    ∃ acts, TraversalRun walker.options walker.visitors.length (walker.room stack) nodes acts
      sweep.items sweep.halt ∧ walker.DoesAll acts state sweep.state := by
  let start := walker.emit (.started nodes.length walker.visitors.length) state
  obtain ⟨acts, hshow, hdoes⟩ := walker.showAll_runs .before nodes start
  rcases hb : walker.showAll .before nodes start with ⟨first, halt, after⟩
  rw [hb] at hshow hdoes
  cases halt with
  | some why =>
    simp only [traverse, start, hb, Sweep.andThen_some] at hshow ⊢
    exact ⟨_, .unready hshow, start, rfl, hdoes⟩
  | none =>
    obtain ⟨more, hdoes', hwalk⟩ := walker.absorbStop_walkTop_runs stack first after
    rcases hw : (walker.walkTop stack first after).absorbStop (walker.emit .stopped) with
      ⟨mid, halt, after'⟩
    rw [hw] at hdoes' hwalk
    have hacts := (walker.doesAll_append).2 ⟨after, hdoes, hdoes'⟩
    rcases hwalk with ⟨rfl, hwalk⟩ | ⟨why, hs, rfl, hwalk⟩
    · obtain ⟨last, hlast, hdoes''⟩ := walker.showAll_runs .after mid after'
      rcases ha : walker.showAll .after mid after' with ⟨items, halt, after''⟩
      rw [ha] at hlast hdoes''
      have hacts' := (walker.doesAll_append).2 ⟨after', hacts, hdoes''⟩
      cases halt with
      | some why =>
        simp only [traverse, start, hb, hw, ha, Sweep.andThen_some, Sweep.andThen_none]
        exact ⟨_, .unfinished hshow hwalk hlast, start, rfl, hacts'⟩
      | none =>
        simp only [traverse, start, hb, hw, ha, Sweep.andThen_none]
        refine ⟨_, .finished hshow hwalk hlast, start, rfl, ?_⟩
        exact (walker.doesAll_append).2 ⟨after'', hacts', _, rfl, rfl⟩
    · simp only [traverse, start, hb, hw, Sweep.andThen_some, Sweep.andThen_none]
      exact ⟨_, .broken hshow hwalk hs, start, rfl, hacts⟩

theorem traverse_determined {stack : Nat} {nodes items : List (Tree ρ α)} {acts : List (Act ρ α)}
    {halt : Option Halt}
    (hrun : TraversalRun walker.options walker.visitors.length (walker.room stack) nodes acts items
      halt) {state final : σ} (hdoes : walker.DoesAll acts state final) :
    walker.traverse stack nodes state = ⟨items, halt, final⟩ := by
  cases hrun with
  | unready shown =>
    obtain ⟨_, rfl, hacts⟩ := hdoes
    simp only [traverse, walker.showAll_determined shown hacts, Sweep.andThen_some]
  | broken shown walked unstopped =>
    obtain ⟨_, rfl, hrest⟩ := hdoes
    obtain ⟨_, hacts, hmore⟩ := (walker.doesAll_append).1 hrest
    simp only [traverse, walker.showAll_determined shown hacts,
      walker.walkTop_determined walked hmore, Sweep.absorbStop_of_ne unstopped,
      Sweep.andThen_some, Sweep.andThen_none]
  | unfinished shown walked shownAgain =>
    obtain ⟨_, rfl, hrest⟩ := hdoes
    obtain ⟨_, hwalked, hlast⟩ := (walker.doesAll_append).1 hrest
    obtain ⟨_, hacts, hmore⟩ := (walker.doesAll_append).1 hwalked
    simp only [traverse, walker.showAll_determined shown hacts,
      walker.absorbStop_walkTop_determined walked hmore,
      walker.showAll_determined shownAgain hlast, Sweep.andThen_some, Sweep.andThen_none]
  | finished shown walked shownAgain =>
    obtain ⟨_, rfl, hrest⟩ := hdoes
    obtain ⟨_, hshown, _, rfl, rfl⟩ := (walker.doesAll_append).1 hrest
    obtain ⟨_, hwalked, hlast⟩ := (walker.doesAll_append).1 hshown
    obtain ⟨_, hacts, hmore⟩ := (walker.doesAll_append).1 hwalked
    simp only [traverse, walker.showAll_determined shown hacts,
      walker.absorbStop_walkTop_determined walked hmore,
      walker.showAll_determined shownAgain hlast, Sweep.andThen_none]
    rfl

/-- A traversal ends in some way just if a run whose acts the walker does ends so. -/
theorem traverse_eq_iff {stack : Nat} {nodes items : List (Tree ρ α)} {halt : Option Halt}
    {state final : σ} :
    walker.traverse stack nodes state = ⟨items, halt, final⟩ ↔
      ∃ acts, TraversalRun walker.options walker.visitors.length (walker.room stack) nodes acts
        items halt ∧ walker.DoesAll acts state final := by
  constructor
  · intro h
    simpa only [h] using walker.traverse_runs stack nodes state
  · rintro ⟨acts, hrun, hdoes⟩
    exact walker.traverse_determined hrun hdoes

/-- The acts of a traversal, as a recorded walker writes them down. -/
def acts (stack : Nat) (nodes : List (Tree ρ α)) (state : σ) : List (Act ρ α) :=
  (walker.recorded.traverse stack nodes (state, [])).state.2

omit [Admission ρ α] in
@[simp] theorem length_visitors_amended (amend : Amendment ρ α) :
    (walker.amended amend).visitors.length = walker.visitors.length := by
  simp [amended]

lemma recorded_traverse_determined {stack : Nat} {nodes items : List (Tree ρ α)}
    {acts : List (Act ρ α)} {halt : Option Halt}
    (hrun : TraversalRun walker.options walker.visitors.length (walker.room stack) nodes acts items
      halt) {state final : σ} (hdoes : walker.DoesAll acts state final) :
    walker.recorded.traverse stack nodes (state, []) = ⟨items, halt, final, acts⟩ := by
  have hrun' : TraversalRun walker.recorded.options walker.recorded.visitors.length
      (walker.recorded.room stack) nodes acts items halt := by
    rw [recorded, length_visitors_amended]
    exact hrun
  exact walker.recorded.traverse_determined hrun' (walker.doesAll_recorded_iff.2 ⟨rfl, hdoes⟩)

/-- A run whose acts the walker does is written down. -/
theorem acts_eq {stack : Nat} {nodes items : List (Tree ρ α)} {acts : List (Act ρ α)}
    {halt : Option Halt}
    (hrun : TraversalRun walker.options walker.visitors.length (walker.room stack) nodes acts items
      halt) {state final : σ} (hdoes : walker.DoesAll acts state final) :
    walker.acts stack nodes state = acts := by
  rw [Walker.acts, walker.recorded_traverse_determined hrun hdoes]

/-- Recording changes nothing, and what is written down is a run of the walker. -/
theorem recorded_traverse (stack : Nat) (nodes : List (Tree ρ α)) (state : σ) :
    let sweep := walker.traverse stack nodes state
    let acts := walker.acts stack nodes state
    walker.recorded.traverse stack nodes (state, []) =
        ⟨sweep.items, sweep.halt, sweep.state, acts⟩ ∧
      TraversalRun walker.options walker.visitors.length (walker.room stack) nodes acts sweep.items
        sweep.halt ∧
      walker.DoesAll acts state sweep.state := by
  intro sweep acts
  obtain ⟨acts', hrun, hdoes⟩ := walker.traverse_runs stack nodes state
  have hacts : acts = acts' := walker.acts_eq hrun hdoes
  rw [hacts]
  exact ⟨walker.recorded_traverse_determined hrun hdoes, hrun, hdoes⟩

lemma traverse_eq_recorded (stack : Nat) (nodes : List (Tree ρ α)) (state : σ) :
    let sweep := walker.recorded.traverse stack nodes (state, [])
    walker.traverse stack nodes state = ⟨sweep.items, sweep.halt, sweep.state.1⟩ := by
  rw [(walker.recorded_traverse stack nodes state).1]

/-- What is the same with the acts written down is the same without. -/
lemma eq_of_recorded_eq {walker other : Walker ρ α σ} {stack stack' : Nat}
    {nodes : List (Tree ρ α)} {state : σ}
    (h : other.recorded.traverse stack' nodes (state, []) =
      walker.recorded.traverse stack nodes (state, [])) :
    other.traverse stack' nodes state = walker.traverse stack nodes state ∧
      other.acts stack' nodes state = walker.acts stack nodes state := by
  refine ⟨?_, congrArg (·.state.2) h⟩
  rw [traverse_eq_recorded, h, ← traverse_eq_recorded]

/-- Another walker with the same options and as many visitors, which can do the acts of a traversal,
traverses in the same way. -/
theorem traverse_of_doesAll {τ : Type} {walker : Walker ρ α σ} {other : Walker ρ α τ}
    (hoptions : other.options = walker.options)
    (hcount : other.visitors.length = walker.visitors.length) {stack : Nat}
    {nodes : List (Tree ρ α)} {state : σ} {start final : τ}
    (hdoes : other.DoesAll (walker.acts stack nodes state) start final) :
    let sweep := walker.traverse stack nodes state
    other.traverse stack nodes start = ⟨sweep.items, sweep.halt, final⟩ := by
  intro sweep
  obtain ⟨-, hrun, -⟩ := walker.recorded_traverse stack nodes state
  have hroom : other.room stack = walker.room stack := by simp only [room, hoptions]
  rw [← hoptions, ← hcount, ← hroom] at hrun
  exact other.traverse_determined hrun hdoes

/-- And then its acts are the same. -/
theorem acts_of_doesAll {τ : Type} {walker : Walker ρ α σ} {other : Walker ρ α τ}
    (hoptions : other.options = walker.options)
    (hcount : other.visitors.length = walker.visitors.length) {stack : Nat}
    {nodes : List (Tree ρ α)} {state : σ} {start final : τ}
    (hdoes : other.DoesAll (walker.acts stack nodes state) start final) :
    other.acts stack nodes start = walker.acts stack nodes state := by
  obtain ⟨-, hrun, -⟩ := walker.recorded_traverse stack nodes state
  have hroom : other.room stack = walker.room stack := by simp only [room, hoptions]
  rw [← hoptions, ← hcount, ← hroom] at hrun
  exact other.acts_eq hrun hdoes

end Traverse

end Walker

end ForestWalk
