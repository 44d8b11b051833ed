import ForestWalk.Proofs.Rounds
import ForestWalk.Proofs.Runs
/-!
Neighbours on the list of a traverser. A visitor that keeps all it is shown hands it on, so that the
next one on the list is shown the same, from the start of a traversal to its end, however it may
end.
-/

namespace ForestWalk

variable {ρ α : Type}

/-- A property of lists of acts that holds of a run if it holds of the rounds of calls in it. -/
structure Piecewise [Admission ρ α] (options : Options) (count : Nat) (P : List (Act ρ α) → Prop) :
    Prop where
  nil : P []
  append : ∀ {acts more}, P acts → P more → P (acts ++ more)
  event : ∀ event, P [.event event]
  node : ∀ {hook place node acts verdict}, ConsultRun options count hook place 0 node acts verdict →
    P acts
  sequence : ∀ {hook nodes acts items halt}, ShowRun count hook 0 nodes acts items halt → P acts

section Piecewise

variable [Admission ρ α] {options : Options} {count : Nat} {P : List (Act ρ α) → Prop}

lemma Piecewise.telling (h : Piecewise options count P) (event : Option Event) :
    P (Act.telling event) := by
  cases event with
  | none => exact h.nil
  | some event => exact h.event event

lemma ListRun.piecewise (h : Piecewise options count P)
    {run : Tree ρ α → List (Act ρ α) → Fate (Tree ρ α) → Prop}
    (hrun : ∀ {node acts fate}, run node acts fate → P acts) {slot : String} {emitted : Nat}
    {nodes items : List (Tree ρ α)} {acts : List (Act ρ α)} {halt : Option Halt}
    (walked : ListRun run slot emitted nodes acts items halt) : P acts := by
  induction walked with
  | nil emitted => exact h.nil
  | cons visited part others ih => exact h.append (h.append (hrun visited) (h.telling _)) ih
  | halt visited => exact hrun visited

variable {run : Place ρ → Tree ρ α → List (Act ρ α) → Fate (Tree ρ α) → Prop}

lemma ContentRun.piecewise (h : Piecewise options count P)
    (hrun : ∀ {place node acts fate}, run place node acts fate → P acts) {rule : Rule ρ}
    {content left : Content α (Tree ρ α)} {acts : List (Act ρ α)} {halt : Option Halt}
    (walked : ContentRun run rule content acts left halt) : P acts := by
  cases walked with
  | vacant | value => exact h.nil
  | kept visited | spliced visited | halt visited => exact hrun visited
  | cleared visited => exact h.append (hrun visited) (h.event _)
  | list walked => exact walked.piecewise h hrun

lemma SlotsRun.piecewise (h : Piecewise options count P)
    (hrun : ∀ {place node acts fate}, run place node acts fate → P acts)
    {slots items : List (Slot ρ α (Tree ρ α))} {acts : List (Act ρ α)} {halt : Option Halt}
    (walked : SlotsRun run slots acts items halt) : P acts := by
  induction walked with
  | nil => exact h.nil
  | cons walked others ih => exact h.append (walked.piecewise h hrun) ih
  | halt walked => exact walked.piecewise h hrun

lemma VisitRun.piecewise (h : Piecewise options count P)
    (hrun : ∀ {place node acts fate}, run place node acts fate → P acts) {depth : Nat}
    {place : Place ρ} {node : Tree ρ α} {acts : List (Act ρ α)} {fate : Fate (Tree ρ α)}
    (visited : VisitRun options count run depth place node acts fate) : P acts := by
  cases visited with
  | tooDeep exceeded => exact h.event _
  | walked allowed entered descended left =>
    exact h.append (h.append (h.node entered) (descended.piecewise h hrun)) (h.node left)
  | broken allowed entered descended => exact h.append (h.node entered) (descended.piecewise h hrun)
  | skipped allowed entered left => exact h.append (h.node entered) (h.node left)
  | settled allowed entered proceeds skips => exact h.node entered

theorem NodeRun.piecewise (h : Piecewise options count P) {room depth : Nat} {place : Place ρ}
    {node : Tree ρ α} {acts : List (Act ρ α)} {fate : Fate (Tree ρ α)}
    (visited : NodeRun options count room depth place node acts fate) : P acts := by
  induction room generalizing depth place node acts fate with
  | zero =>
    obtain ⟨rfl, -⟩ := visited
    exact h.nil
  | succ room ih => exact VisitRun.piecewise h ih visited

lemma WalkRun.piecewise (h : Piecewise options count P) {room : Nat} {nodes items : List (Tree ρ α)}
    {acts : List (Act ρ α)} (walked : WalkRun options count room nodes acts items) : P acts := by
  cases walked with
  | through walked => exact ListRun.piecewise h (NodeRun.piecewise h) walked
  | stopped walked => exact h.append (ListRun.piecewise h (NodeRun.piecewise h) walked) (h.event _)

/-- What holds of the rounds of calls holds of the whole traversal. -/
theorem TraversalRun.piecewise (h : Piecewise options count P) {room : Nat}
    {nodes items : List (Tree ρ α)} {acts : List (Act ρ α)} {halt : Option Halt}
    (hrun : TraversalRun options count room nodes acts items halt) : P acts := by
  have hcons : ∀ {event acts}, P acts → P (.event event :: acts) :=
    fun hacts => h.append (h.event _) hacts
  cases hrun with
  | unready shown => exact hcons (h.sequence shown)
  | broken shown walked unstopped =>
    exact hcons (h.append (h.sequence shown) (ListRun.piecewise h (NodeRun.piecewise h) walked))
  | unfinished shown walked shownAgain =>
    have hbefore := h.append (h.sequence shown) (walked.piecewise h)
    exact hcons (h.append hbefore (h.sequence shownAgain))
  | finished shown walked shownAgain =>
    have hbefore := h.append (h.sequence shown) (walked.piecewise h)
    exact hcons (h.append (h.append hbefore (h.sequence shownAgain)) (h.event _))

end Piecewise

namespace Act

/-- The place on the list of the visitor that the act calls. -/
def place? (act : Act ρ α) : Option Nat :=
  act.showing?.map Prod.fst

/-- What the visitor at a place is shown. -/
def shownAt (place : Nat) (acts : List (Act ρ α)) : List (Showing ρ α) :=
  Showing.shownAt place (acts.filterMap showing?)

/-- Whether the sequence is shown before the walk. -/
def opens : Act ρ α → Bool
  | .sequence _ _ .before _ _ => true
  | _ => false

variable {place index : Nat}

@[simp] theorem place?_event (event : Event) : (Act.event event : Act ρ α).place? = none :=
  rfl

@[simp] theorem place?_node (name : String) (hook : NodeHook) (node : Tree ρ α)
    (reply : NodeReply ρ α) : (Act.node index name hook node reply).place? = some index :=
  rfl

@[simp] theorem place?_sequence (name : String) (hook : SequenceHook) (nodes : List (Tree ρ α))
    (reply : SequenceReply ρ α) :
    (Act.sequence index name hook nodes reply).place? = some index :=
  rfl

@[simp] theorem shownAt_nil : shownAt place ([] : List (Act ρ α)) = [] :=
  rfl

@[simp] theorem shownAt_event (event : Event) (acts : List (Act ρ α)) :
    shownAt place (.event event :: acts) = shownAt place acts :=
  rfl

@[simp] theorem shownAt_append (acts more : List (Act ρ α)) :
    shownAt place (acts ++ more) = shownAt place acts ++ shownAt place more := by
  simp [shownAt]

@[simp] theorem shownAt_telling (event : Option Event) :
    shownAt place (telling event : List (Act ρ α)) = [] := by
  simp [shownAt, Showing.shownAt]

lemma shownAt_node (name : String) (hook : NodeHook) (node : Tree ρ α) (reply : NodeReply ρ α)
    (acts : List (Act ρ α)) :
    shownAt place (.node index name hook node reply :: acts) =
      (if index = place then [.node hook node] else []) ++ shownAt place acts := by
  by_cases h : index = place <;> simp [shownAt, Showing.shownAt, showing?, h]

lemma shownAt_sequence (name : String) (hook : SequenceHook) (nodes : List (Tree ρ α))
    (reply : SequenceReply ρ α) (acts : List (Act ρ α)) :
    shownAt place (.sequence index name hook nodes reply :: acts) =
      (if index = place then [.sequence hook nodes] else []) ++ shownAt place acts := by
  by_cases h : index = place <;> simp [shownAt, Showing.shownAt, showing?, h]

/-- Just a visitor that is not called is shown nothing. -/
lemma shownAt_eq_nil_iff {acts : List (Act ρ α)} :
    shownAt place acts = [] ↔ ∀ act ∈ acts, act.place? ≠ some place := by
  induction acts with
  | nil => simp
  | cons act rest ih =>
    cases act with
    | event => simpa using ih
    | node | sequence => simp [shownAt_node, shownAt_sequence, ih]

end Act

section Neighbours

open Act

variable {options : Options} {count index place : Nat} {acts : List (Act ρ α)}

/-- In a round the visitors are called in order, from a place on the list on. -/
lemma ConsultRun.shownAt_first [Admission ρ α] {hook : NodeHook} {seat : Place ρ}
    {node : Tree ρ α} {verdict : Verdict (Tree ρ α)}
    (hrun : ConsultRun options count hook seat index node acts verdict) :
    (∀ earlier < index, shownAt earlier acts = []) ∧
      (index < count → shownAt index acts = [.node hook node]) := by
  induction hrun with
  | done node => exact ⟨fun _ _ => rfl, fun hlt => absurd hlt (Nat.lt_irrefl _)⟩
  | @pass index name node next reply event acts verdict inRange judged others ih =>
    refine ⟨fun earlier hlt => ?_, fun _ => ?_⟩
    · simp [shownAt_node, Nat.ne_of_gt hlt, ih.1 earlier (by omega)]
    · simp [shownAt_node, ih.1 index (by omega)]
  | settle inRange judged settled =>
    refine ⟨fun earlier hlt => ?_, fun _ => ?_⟩
    · simp [shownAt_node, Nat.ne_of_gt hlt]
    · simp [shownAt_node]

lemma ConsultRun.shownAt_neighbours [Admission ρ α] {hook : NodeHook} {seat : Place ρ}
    {node : Tree ρ α} {verdict : Verdict (Tree ρ α)} (last : place + 1 < count)
    (hrun : ConsultRun options count hook seat index node acts verdict) (hindex : index ≤ place)
    (keeps : ∀ act ∈ acts, act.place? = some place → act.Keeps) :
    shownAt place acts = shownAt (place + 1) acts := by
  induction hrun with
  | done node => rfl
  | @pass index name node next reply event acts verdict inRange judged others ih =>
    obtain ⟨hact, hrest⟩ := List.forall_mem_cons.1 keeps
    obtain ⟨-, hothers⟩ := List.forall_mem_append.1 hrest
    have hne : index ≠ place + 1 := by omega
    by_cases heq : index = place
    · subst heq
      -- The node is kept, so the next visitor is shown the same.
      obtain rfl : reply = .answered node .keep := hact rfl
      rw [Options.judge_keep] at judged
      obtain rfl := Verdict.proceed.inj (Prod.mk.inj judged).1
      obtain ⟨hearlier, hfirst⟩ := others.shownAt_first
      simp [shownAt_node, hearlier index (Nat.lt_succ_self index), hfirst last]
    · simp [shownAt_node, heq, hne, ih (by omega) hothers]
  | @settle index name node reply event verdict inRange judged settled =>
    have hne : index ≠ place + 1 := by omega
    by_cases heq : index = place
    · subst heq
      obtain rfl : reply = .answered node .keep := keeps _ List.mem_cons_self rfl
      rw [Options.judge_keep] at judged
      exact absurd (Prod.mk.inj judged).1.symm (settled _)
    · simp [shownAt_node, heq, hne]

/-- In a round the visitors are called in order, from a place on the list on. -/
lemma ShowRun.shownAt_first {hook : SequenceHook} {nodes items : List (Tree ρ α)}
    {halt : Option Halt} (hrun : ShowRun count hook index nodes acts items halt) :
    (∀ earlier < index, shownAt earlier acts = []) ∧
      (index < count → shownAt index acts = [.sequence hook nodes]) := by
  induction hrun with
  | done node => exact ⟨fun _ _ => rfl, fun hlt => absurd hlt (Nat.lt_irrefl _)⟩
  | @pass index name nodes next items reply event acts halt inRange judged others ih =>
    refine ⟨fun earlier hlt => ?_, fun _ => ?_⟩
    · simp [shownAt_sequence, Nat.ne_of_gt hlt, ih.1 earlier (by omega)]
    · simp [shownAt_sequence, ih.1 index (by omega)]
  | halt inRange judged =>
    refine ⟨fun earlier hlt => ?_, fun _ => ?_⟩
    · simp [shownAt_sequence, Nat.ne_of_gt hlt]
    · simp [shownAt_sequence]

lemma ShowRun.shownAt_neighbours {hook : SequenceHook} {nodes items : List (Tree ρ α)}
    {halt : Option Halt} (last : place + 1 < count)
    (hrun : ShowRun count hook index nodes acts items halt) (hindex : index ≤ place)
    (keeps : ∀ act ∈ acts, act.place? = some place → act.Keeps) :
    shownAt place acts = shownAt (place + 1) acts := by
  induction hrun with
  | done nodes => rfl
  | @pass index name nodes next items reply event acts halt inRange judged others ih =>
    obtain ⟨hact, hrest⟩ := List.forall_mem_cons.1 keeps
    obtain ⟨-, hothers⟩ := List.forall_mem_append.1 hrest
    have hne : index ≠ place + 1 := by omega
    by_cases heq : index = place
    · subst heq
      obtain rfl : reply = .answered none := hact rfl
      cases judged
      obtain ⟨hearlier, hfirst⟩ := others.shownAt_first
      simp [shownAt_sequence, hearlier index (Nat.lt_succ_self index), hfirst last]
    · simp [shownAt_sequence, heq, hne, ih (by omega) hothers]
  | @halt index name nodes items reply event why inRange judged =>
    have hne : index ≠ place + 1 := by omega
    by_cases heq : index = place
    · subst heq
      obtain rfl : reply = .answered none := keeps _ List.mem_cons_self rfl
      cases judged
    · simp [shownAt_sequence, heq, hne]

/-- What is handed on from round to round. -/
lemma piecewise_shownAt_neighbours [Admission ρ α] (options : Options) (last : place + 1 < count) :
    Piecewise (α := α) (ρ := ρ) options count fun acts =>
      (∀ act ∈ acts, act.place? = some place → act.Keeps) →
        shownAt place acts = shownAt (place + 1) acts where
  nil := fun _ => rfl
  append := by
    intro acts more hacts hmore keeps
    obtain ⟨hkeeps, hkeeps'⟩ := List.forall_mem_append.1 keeps
    rw [shownAt_append, shownAt_append, hacts hkeeps, hmore hkeeps']
  event := fun _ _ => rfl
  node := fun hrun => hrun.shownAt_neighbours last (Nat.zero_le _)
  sequence := fun hrun => hrun.shownAt_neighbours last (Nat.zero_le _)

/-- If a visitor keeps all that it is shown in a traversal, the next one is shown the same. -/
theorem TraversalRun.shownAt_neighbours [Admission ρ α] {room : Nat} {nodes items : List (Tree ρ α)}
    {halt : Option Halt} (hrun : TraversalRun options count room nodes acts items halt)
    (last : place + 1 < count) (keeps : ∀ act ∈ acts, act.place? = some place → act.Keeps) :
    shownAt place acts = shownAt (place + 1) acts :=
  hrun.piecewise (piecewise_shownAt_neighbours options last) keeps

end Neighbours

section Opening

open Act

variable {options : Options} {count index place : Nat} {acts : List (Act ρ α)}

/-- Nobody is shown the sequence twice in a round. -/
lemma ShowRun.length_shownAt_le {hook : SequenceHook} {nodes items : List (Tree ρ α)}
    {halt : Option Halt} (hrun : ShowRun count hook index nodes acts items halt) (place : Nat) :
    (shownAt place acts).length ≤ 1 := by
  induction hrun with
  | done nodes => simp
  | @pass index name nodes next items reply event acts halt inRange judged others ih =>
    by_cases heq : index = place
    · subst heq
      simp [shownAt_sequence, others.shownAt_first.1 index (Nat.lt_succ_self index)]
    · simpa [shownAt_sequence, heq] using ih
  | @halt index name nodes items reply event why inRange judged =>
    by_cases heq : index = place <;> simp [shownAt_sequence, heq]

/-- A traversal shows the sequence to the visitors before the walk, and then no more. -/
lemma TraversalRun.exists_opening [Admission ρ α] {room : Nat} {nodes items : List (Tree ρ α)}
    {halt : Option Halt} (hrun : TraversalRun options count room nodes acts items halt) :
    ∃ first rest start why, acts = .event (.started nodes.length count) :: (first ++ rest) ∧
      ShowRun count .before 0 nodes first start why ∧ ∀ act ∈ rest, act.opens = false := by
  have hwalked : ∀ {start items : List (Tree ρ α)} {acts halt},
      TopRun options count room start acts items halt → ∀ act ∈ acts, act.opens = false := by
    intro start items acts halt walked
    exact TopRun.forall_walking (fun _ _ => rfl) (fun _ => rfl) walked
  have hwalk : ∀ {start items : List (Tree ρ α)} {acts},
      WalkRun options count room start acts items → ∀ act ∈ acts, act.opens = false := by
    intro start items acts walked
    cases walked with
    | through walked => exact hwalked walked
    | stopped walked =>
      exact List.forall_mem_append.2 ⟨hwalked walked, List.forall_mem_singleton.2 rfl⟩
  have hlast : ∀ {start items : List (Tree ρ α)} {acts halt},
      ShowRun count .after 0 start acts items halt → ∀ act ∈ acts, act.opens = false := by
    intro start items acts halt shown
    exact shown.forall_showing (fun _ _ => rfl) fun _ => rfl
  cases hrun with
  | @unready items first why shown =>
    exact ⟨first, [], items, some why, by simp, shown, nofun⟩
  | broken shown walked unstopped => exact ⟨_, _, _, _, rfl, shown, hwalked walked⟩
  | unfinished shown walked shownAgain =>
    exact ⟨_, _, _, _, by rw [List.append_assoc], shown,
      List.forall_mem_append.2 ⟨hwalk walked, hlast shownAgain⟩⟩
  | finished shown walked shownAgain =>
    have hend : ∀ act ∈ [(.event (.finished items.length) : Act ρ α)], act.opens = false :=
      List.forall_mem_singleton.2 rfl
    refine ⟨_, _, _, _, ?_, shown, List.forall_mem_append.2
      ⟨hwalk walked, List.forall_mem_append.2 ⟨hlast shownAgain, hend⟩⟩⟩
    simp only [List.append_assoc]

/-- The call with which a visitor is shown the sequence before the walk is its first call, and there
is no other such call. -/
theorem TraversalRun.exists_reached [Admission ρ α] {room : Nat} {nodes items : List (Tree ρ α)}
    {halt : Option Halt} (hrun : TraversalRun options count room nodes acts items halt)
    {act : Act ρ α} (hmem : act ∈ acts) (opens : act.opens = true)
    (called : act.place? = some place) :
    ∃ before after, acts = before ++ act :: after ∧ (∀ act ∈ before, act.place? ≠ some place) ∧
      ∀ act ∈ after, act.place? = some place → act.opens = false := by
  obtain ⟨first, rest, start, why, rfl, shown, hrest⟩ := hrun.exists_opening
  have hfirst : act ∈ first := by
    rcases List.mem_cons.1 hmem with rfl | hmem
    · cases opens
    · rcases List.mem_append.1 hmem with hmem | hmem
      · exact hmem
      · rw [hrest act hmem] at opens
        cases opens
  obtain ⟨before, after, rfl⟩ := List.append_of_mem hfirst
  have hle := shown.length_shownAt_le place
  have hact : 0 < (shownAt place [act]).length := by
    rw [List.length_pos_iff, Ne, shownAt_eq_nil_iff]
    exact fun hquiet => hquiet act List.mem_cons_self called
  rw [← List.singleton_append, shownAt_append, shownAt_append, List.length_append,
    List.length_append] at hle
  have hbefore : shownAt place before = [] := List.eq_nil_of_length_eq_zero (by omega)
  have hafter : shownAt place after = [] := List.eq_nil_of_length_eq_zero (by omega)
  refine ⟨.event (.started nodes.length count) :: before, after ++ rest, by simp,
    List.forall_mem_cons.2 ⟨by simp, shownAt_eq_nil_iff.1 hbefore⟩,
    List.forall_mem_append.2 ⟨fun later hmem hlater => ?_, fun later hmem _ => hrest later hmem⟩⟩
  exact absurd hlater (shownAt_eq_nil_iff.1 hafter later hmem)

end Opening

end ForestWalk
