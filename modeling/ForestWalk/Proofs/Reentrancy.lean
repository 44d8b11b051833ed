import ForestWalk.Proofs.Mirror
/-!
Traversals that are started by hooks. A visitor of which a hook is under way cannot be called, so
traversals nest at most once for each visitor, and to allow for more makes no difference. A
traversal with a busy visitor on its list is turned away.
-/

namespace ForestWalk

variable {ρ α V : Type}

namespace Roster

variable {roster other : Roster ρ α V}

lemma length_running_le (roster : Roster ρ α V) : roster.running.length ≤ roster.cells.length := by
  have hle := List.length_filter_le (fun visitor => decide (roster.lease visitor = some .hook))
    (List.range roster.cells.length)
  rwa [List.length_range] at hle

lemma running_congr (hlength : other.cells.length = roster.cells.length)
    (h : ∀ visitor, other.lease visitor = some .hook ↔ roster.lease visitor = some .hook) :
    other.running = roster.running := by
  simp only [running, hlength, h]

@[simp] theorem running_hold (target : Nat) (mode : Mode) (roster : Roster ρ α V) :
    (roster.hold target mode).2.running = roster.running :=
  running_congr (length_hold target mode roster) (roster.lease_hold_eq_hook_iff target mode)

@[simp] theorem running_release (target : Nat) (roster : Roster ρ α V) :
    (roster.release target).2.running = roster.running :=
  running_congr (length_release target roster) (roster.lease_release_eq_hook_iff target)

/-- A call adds its visitor to the busy ones. -/
lemma length_running_taken {visitor : Nat} {state : V} {taken : Roster ρ α V}
    (free : roster.takeForCall visitor = some (state, taken)) :
    taken.running.length = roster.running.length + 1 := by
  have hfree := lease_of_takeForCall free
  have hnot : visitor ∉ roster.running := by simp [mem_running, hfree]
  have hperm : taken.running.Perm (visitor :: roster.running) := by
    refine (List.perm_ext_iff_of_nodup taken.nodup_running
      (List.nodup_cons.2 ⟨hnot, roster.nodup_running⟩)).2 fun other => ?_
    rw [List.mem_cons, mem_running, mem_running]
    exact lease_taken_eq_hook_iff free other
  simpa using hperm.length_eq

/-- So many traversals that nest are enough: each but the innermost waits for a hook of a visitor
that is not busy yet. -/
def Suffices (nesting : Nat) (roster : Roster ρ α V) : Prop :=
  roster.cells.length < roster.running.length + nesting

lemma not_suffices_zero (roster : Roster ρ α V) : ¬ roster.Suffices 0 := by
  have hle := roster.length_running_le
  unfold Suffices
  omega

lemma Suffices.note {nesting : Nat} (h : roster.Suffices nesting) (entry : Entry ρ α) :
    (roster.note entry).Suffices nesting :=
  h

/-- In a hook there need to be fewer. -/
lemma Suffices.taken {nesting visitor : Nat} {state : V} {taken : Roster ρ α V}
    (h : roster.Suffices (nesting + 1)) (free : roster.takeForCall visitor = some (state, taken)) :
    taken.Suffices nesting := by
  have hlength := length_taken free
  have hrunning := length_running_taken free
  unfold Suffices at h ⊢
  omega

lemma Suffices.mono {nesting : Nat} (h : roster.Suffices nesting)
    (hlength : other.cells.length = roster.cells.length)
    (hsubset : roster.running ⊆ other.running) : other.Suffices nesting := by
  have hle := (List.subperm_of_subset roster.nodup_running hsubset).length_le
  unfold Suffices at h ⊢
  omega

end Roster

section Steps

variable {nested : Traversal ρ α V} {roster final : Roster ρ α V}

/-- A visitor that is busy before a traversal stays so. -/
lemma Scene.Steps.running_subset {held : List Nat} {deeds : List (Deed ρ α)}
    {scene last : Scene ρ α V} (h : Scene.Steps deeds scene last) (hsound : scene.Sound held) :
    held ⊆ last.roster.running := by
  intro visitor hmem
  exact Roster.mem_running.2 (((h.sound hsound).hooked visitor).2 (List.mem_append_right _ hmem))

/-- While a traversal goes on, no fewer visitors are busy than before. -/
lemma Stepped.does_running {behaviour : Behaviour ρ α V} {traverser : Traverser} {act : Act ρ α}
    (h : Stepped nested) (hdoes : (traverser.walker behaviour nested).Does act roster final) :
    final.cells.length = roster.cells.length ∧ roster.running ⊆ final.running := by
  rcases hstart : act.isStart with _ | _
  · obtain ⟨deeds, later, hsteps, -⟩ := Traverser.does_steps behaviour traverser h hstart hdoes []
    have hidle := Scene.sound_running roster
    have hsound : (⟨roster, [.traversal]⟩ : Scene ρ α V).Sound roster.running :=
      ⟨hidle.distinct, hidle.hooked, .traversal .nil (by simp)⟩
    exact ⟨hsteps.length_cells, hsteps.running_subset hsound⟩
  · cases act with
    | event event =>
      obtain rfl := hdoes
      exact ⟨rfl, fun _ hmem => hmem⟩
    | node | sequence => cases hstart

/-- What is written in the journal stays there. -/
lemma Stepped.doesAll_journal {behaviour : Behaviour ρ α V} {traverser : Traverser}
    {acts : List (Act ρ α)} (h : Stepped nested)
    (hdoes : (traverser.walker behaviour nested).DoesAll acts roster final) :
    roster.journal.toList <+: final.journal.toList := by
  induction acts generalizing roster with
  | nil =>
    obtain rfl := hdoes
    exact List.prefix_refl _
  | cons act rest ih =>
    obtain ⟨mid, hact, hrest⟩ := hdoes
    refine List.IsPrefix.trans ?_ (ih hrest)
    rcases hstart : act.isStart with _ | _
    · obtain ⟨deeds, later, hsteps, -⟩ := Traverser.does_steps behaviour traverser h hstart hact []
      exact hsteps.journal ▸ List.prefix_append _ _
    · cases act with
      | event event =>
        obtain rfl := hact
        exact Array.toList_push ▸ List.prefix_append _ _
      | node | sequence => cases hstart

lemma Roster.Suffices.does {nesting : Nat} {behaviour : Behaviour ρ α V} {traverser : Traverser}
    {act : Act ρ α} (hroster : roster.Suffices nesting) (h : Stepped nested)
    (hdoes : (traverser.walker behaviour nested).Does act roster final) :
    final.Suffices nesting := by
  obtain ⟨hlength, hsubset⟩ := h.does_running hdoes
  exact hroster.mono hlength hsubset

end Steps

/-- Two ways to run traversals agree wherever so many that nest are enough. -/
structure Agree (nesting : Nat) (nested other : Traversal ρ α V) : Prop where
  eq : ∀ traverser nodes roster, roster.Suffices nesting →
    nested traverser nodes roster = other traverser nodes roster

section Agree

variable {nested other : Traversal ρ α V} {nesting : Nat}

lemma Agree.mirrors (hagree : Agree nesting nested other) (h : Stepped nested) :
    Mirrors (Roster.SameWith (Roster.Suffices nesting)) (fun _ => True) Eq nested other where
  note := by
    rintro entry roster _ - ⟨rfl, hroster⟩
    exact ⟨rfl, hroster.note entry⟩
  hold := by
    rintro target roster _ mode - ⟨rfl, hroster⟩
    exact ⟨rfl, rfl, by simpa [Roster.Suffices] using hroster⟩
  release := by
    rintro target roster _ - ⟨rfl, hroster⟩
    exact ⟨rfl, rfl, by simpa [Roster.Suffices] using hroster⟩
  traverse := by
    rintro traverser _ _ roster nodes rfl ⟨rfl, hroster⟩
    rw [← hagree.eq traverser nodes _ hroster]
    obtain ⟨deeds, later, hsteps, -⟩ := h.steps traverser nodes roster [] (by simp)
    exact ⟨rfl, rfl, rfl, hroster.mono hsteps.length_cells
      (hsteps.running_subset (Scene.sound_running roster))⟩

namespace Traverser

variable [Admission ρ α] (behaviour : Behaviour ρ α V) (room : Nat)

/-- Where so many traversals that nest are enough, to allow for more makes no difference. -/
theorem nest_agree (nesting more : Nat) :
    Agree nesting (nest (ρ := ρ) (α := α) behaviour room nesting)
      (nest behaviour room (nesting + more)) := by
  induction nesting with
  | zero => exact ⟨fun _ _ roster hroster => absurd hroster roster.not_suffices_zero⟩
  | succ nesting ih =>
    constructor
    intro traverser nodes roster hroster
    have hsteps := nest_steps behaviour room nesting
    let walker := traverser.walker behaviour (nest behaviour room nesting)
    obtain ⟨-, -, hdoes⟩ := walker.recorded_traverse room nodes roster
    have hdoes' := (ih.mirrors hsteps).doesAll behaviour.alike_refl rfl
      (fun hroster free entry => (hroster.taken free).note entry)
      (fun hroster hact => hroster.does hsteps hact) hroster hdoes
    rw [Nat.succ_add]
    exact (Walker.traverse_of_doesAll (by simp [walker]) (by simp [walker]) hdoes').symm

end Traverser

end Agree

/-- If it is a call, then one that shows the sequence before the walk, to a visitor that is on the
list at a given place or before it. -/
def Act.ShowsUpTo (place : Nat) (act : Act ρ α) : Prop :=
  act.isCall = true →
    ∃ index name nodes reply, index ≤ place ∧ act = .sequence index name .before nodes reply

/-- The traversal fails while the visitors are shown the sequence before the walk, with one of them
that is on the list at a given place or before it. Nobody is called for anything else. It may
instead run out of room in the call of a visitor that is before that place. -/
structure TurnedAway (acts : List (Act ρ α)) (halt : Option Halt) (place : Nat) : Prop where
  shown : ∀ act ∈ acts, act.ShowsUpTo place
  failed : (∃ index name cause, index ≤ place ∧
      halt = some (.failed (.visitorFailed ⟨.sequence .before, index, name⟩ none cause))) ∨
    halt = some .overflowed ∧
      ∃ index name nodes, index < place ∧ .sequence index name .before nodes .overflowed ∈ acts

section TurnedAway

variable {behaviour : Behaviour ρ α V} {nested : Traversal ρ α V} {traverser : Traverser}
  {roster final : Roster ρ α V} {place visitor : Nat}

lemma Act.showsUpTo_event (place : Nat) (event : Event) :
    (Act.event event : Act ρ α).ShowsUpTo place :=
  nofun

lemma TurnedAway.prepend {front acts : List (Act ρ α)} {halt : Option Halt}
    (hfront : ∀ act ∈ front, act.ShowsUpTo place) (h : TurnedAway acts halt place) :
    TurnedAway (front ++ acts) halt place where
  shown := List.forall_mem_append.2 ⟨hfront, h.shown⟩
  failed := by
    obtain hfailed | ⟨hover, index, name, nodes, hindex, hmem⟩ := h.failed
    · exact .inl hfailed
    · exact .inr ⟨hover, index, name, nodes, hindex, List.mem_append_right front hmem⟩

lemma ShowRun.turnedAway (h : Stepped nested) (listed : traverser.visitors[place]? = some visitor)
    {index : Nat} (hindex : index ≤ place) {nodes items : List (Tree ρ α)} {acts : List (Act ρ α)}
    {halt : Option Halt} (hrun : ShowRun traverser.count .before index nodes acts items halt)
    (hdoes : (traverser.walker behaviour nested).DoesAll acts roster final)
    (busy : roster.lease visitor = some .hook) : TurnedAway acts halt place := by
  -- When the turn comes to the busy visitor, the call is refused.
  have hturn : ∀ {name nodes reply} {roster mid : Roster ρ α V},
      (traverser.walker behaviour nested).Does (.sequence place name .before nodes reply)
        roster mid →
      roster.lease visitor = some .hook → reply = .unavailable := by
    intro name nodes reply roster mid hact busy
    have hrefused := (Traverser.does_isRefused_iff hact rfl listed).2 (by rw [busy]; nofun)
    cases reply with
    | unavailable => rfl
    | _ => cases hrefused
  have hmem : ∀ {index name nodes reply event}, index ≤ place →
      ∀ act ∈ Act.sequence (ρ := ρ) (α := α) index name .before nodes reply :: Act.telling event,
        act.ShowsUpTo place := fun hle => List.forall_mem_cons.2
    ⟨fun _ => ⟨_, _, _, _, hle, rfl⟩, forall_mem_telling fun _ _ => Act.showsUpTo_event _ _⟩
  induction hrun generalizing roster with
  | done nodes =>
    have hlt := (List.getElem?_eq_some_iff.1 listed).1
    exact absurd hindex (by simpa [Traverser.count] using hlt)
  | @pass index name nodes next items reply event acts halt inRange judged others ih =>
    obtain ⟨mid, hact, hrest⟩ := hdoes
    obtain ⟨_, htell, hothers⟩ := (Walker.doesAll_append _).1 hrest
    obtain rfl := (Walker.doesAll_telling _).1 htell
    have hne : index ≠ place := by
      rintro rfl
      obtain rfl := hturn hact busy
      cases judged
    have hmid : mid.lease visitor = some .hook := by
      obtain ⟨-, hsubset⟩ := h.does_running hact
      exact Roster.mem_running.1 (hsubset (Roster.mem_running.2 busy))
    have htold : ((traverser.walker behaviour nested).tell event mid).lease visitor =
        some .hook := by
      cases event <;> exact hmid
    have hrest := ih (by omega) hothers htold
    exact hrest.prepend (hmem hindex)
  | @halt index name nodes items reply event why inRange judged =>
    obtain ⟨mid, hact, -⟩ := hdoes
    refine ⟨hmem hindex, ?_⟩
    cases reply with
    | unavailable | failed =>
      cases judged
      exact .inl ⟨index, name, _, hindex, rfl⟩
    | overflowed =>
      cases judged
      have hne : index ≠ place := by
        rintro rfl
        cases hturn hact busy
      exact .inr ⟨rfl, index, name, nodes, by omega, List.mem_cons_self⟩
    | answered replacement => cases replacement <;> cases judged

variable [Admission ρ α]

/-- A traversal with a busy visitor on its list does not get past the first round of calls. -/
lemma TraversalRun.unready_of_busy {options : Options} {room : Nat} (h : Stepped nested)
    (listed : traverser.visitors[place]? = some visitor) {nodes items : List (Tree ρ α)}
    {acts : List (Act ρ α)} {halt : Option Halt}
    (hrun : TraversalRun options traverser.count room nodes acts items halt)
    (hdoes : (traverser.walker behaviour nested).DoesAll acts roster final)
    (busy : roster.lease visitor = some .hook) :
    ∃ first why, acts = .event (.started nodes.length traverser.count) :: first ∧
      halt = some why ∧ ShowRun traverser.count .before 0 nodes first items (some why) := by
  have hstuck : ∀ {acts more start} {roster final : Roster ρ α V},
      ShowRun traverser.count .before 0 nodes acts start none →
      (traverser.walker behaviour nested).DoesAll (acts ++ more) roster final →
      roster.lease visitor = some .hook → False := by
    intro acts more start roster final shown hdoes busy
    obtain ⟨mid, hfirst, -⟩ := (Walker.doesAll_append _).1 hdoes
    obtain ⟨_, _, _, _, hhalt⟩ | ⟨hhalt, -⟩ :=
      (shown.turnedAway h listed (Nat.zero_le _) hfirst busy).failed
    · cases hhalt
    · cases hhalt
  cases hrun with
  | unready shown => exact ⟨_, _, rfl, rfl, shown⟩
  | broken shown walked unstopped =>
    obtain ⟨_, rfl, hrest⟩ := hdoes
    exact (hstuck shown hrest busy).elim
  | unfinished shown walked shownAgain =>
    obtain ⟨_, rfl, hrest⟩ := hdoes
    rw [List.append_assoc] at hrest
    exact (hstuck shown hrest busy).elim
  | finished shown walked shownAgain =>
    obtain ⟨_, rfl, hrest⟩ := hdoes
    simp only [List.append_assoc] at hrest
    exact (hstuck shown hrest busy).elim

theorem TraversalRun.turnedAway {options : Options} {room : Nat} (h : Stepped nested)
    (listed : traverser.visitors[place]? = some visitor) {nodes items : List (Tree ρ α)}
    {acts : List (Act ρ α)} {halt : Option Halt}
    (hrun : TraversalRun options traverser.count room nodes acts items halt)
    (hdoes : (traverser.walker behaviour nested).DoesAll acts roster final)
    (busy : roster.lease visitor = some .hook) : TurnedAway acts halt place := by
  obtain ⟨first, why, rfl, rfl, shown⟩ := hrun.unready_of_busy h listed hdoes busy
  obtain ⟨_, rfl, hshown⟩ := hdoes
  have hturned := shown.turnedAway h listed (Nat.zero_le place) hshown busy
  exact hturned.prepend (List.forall_mem_singleton.2 (Act.showsUpTo_event place _))

namespace Traverser

/-- At every moment of a traversal, with all the traversals that hooks start, the visitors of which
a hook is under way are all different, so that there is at most one traversal more than there are
visitors; to allow for deeper nesting makes no difference. And at every moment a traversal that is
started with a busy visitor on its list is turned away when the turn comes to this visitor, or
before. -/
theorem nest_reentrancy (behaviour : Behaviour ρ α V) (room nesting : Nat) (traverser : Traverser)
    (nodes : List (Tree ρ α)) (roster : Roster ρ α V) :
    let sweep := nest behaviour room nesting traverser nodes roster
    (∃ deeds later, Scene.Steps deeds (⟨roster, []⟩ : Scene ρ α V) ⟨sweep.state, later⟩ ∧
      sweep.state.journal.toList = roster.journal.toList ++ deeds.map Deed.entry ∧
      ∀ before after scene, deeds = before ++ after → Scene.Steps before ⟨roster, []⟩ scene →
        (scene.busy roster.running).Nodup ∧
        (∀ visitor, visitor ∈ scene.busy roster.running ↔
          scene.roster.lease visitor = some .hook) ∧
        Frame.traversals scene.stack + roster.running.length ≤ roster.cells.length + 1 ∧
        ∀ visitor ∈ scene.busy roster.running, ∀ inner more nesting, visitor ∈ inner.visitors →
          let walker := inner.walker behaviour (nest behaviour room nesting)
          TurnedAway (walker.acts room more scene.roster)
            (nest behaviour room (nesting + 1) inner more scene.roster).halt
            (inner.visitors.idxOf visitor)) ∧
    ∀ deeper, roster.cells.length < deeper →
      nest behaviour room deeper traverser nodes roster =
        traverseInPlace behaviour room traverser nodes roster := by
  intro sweep
  have hstart := Scene.sound_running roster
  refine ⟨?_, fun deeper hdeeper => ?_⟩
  · obtain ⟨deeds, later, hsteps, -⟩ :=
      (nest_steps behaviour room nesting).steps traverser nodes roster [] (by simp)
    refine ⟨deeds, later, hsteps, hsteps.journal, fun before after scene _ hbefore => ?_⟩
    have hsound := hbefore.sound hstart
    have htraversals := hsound.traversals_le
    rw [hbefore.length_cells] at htraversals
    refine ⟨hsound.distinct, fun visitor => (hsound.hooked visitor).symm, htraversals, ?_⟩
    intro visitor hbusy inner more nesting hmem walker
    obtain ⟨-, hrun, hdoes⟩ := walker.recorded_traverse room more scene.roster
    rw [length_walker] at hrun
    exact hrun.turnedAway (nest_steps behaviour room nesting) (List.getElem?_idxOf hmem) hdoes
      ((hsound.hooked visitor).2 hbusy)
  · have hroster : roster.Suffices (nestings roster) := by
      unfold Roster.Suffices nestings
      omega
    obtain ⟨more, rfl⟩ := Nat.exists_eq_add_of_le (show nestings roster ≤ deeper from hdeeper)
    exact ((nest_agree behaviour room _ more).eq traverser nodes roster hroster).symm

end Traverser

end TurnedAway

end ForestWalk
