import ForestWalk.Proofs.Nesting
/-!
Two rosters side by side. If routines take the same steps, and each step keeps the rosters tied,
then whole routines and calls do, and both end with the same answer. Where the rosters are even the
same, the visitors of a traverser do the same acts.
-/

namespace ForestWalk

variable {ρ α V W : Type}

/-- Two routines take the same steps, whatever comes of these, and end alike. They borrow only
certain visitors, and where they start traversals their traversers are tied. -/
inductive Routine.Alike {β γ : Type} (ends : β → γ → Prop) (borrows : Nat → Prop)
    (starts : Traverser → Traverser → Prop) : Routine ρ α β → Routine ρ α γ → Prop
  | finish {answer : β} {answer' : γ} (ended : ends answer answer') :
      Alike ends borrows starts (.finish answer) (.finish answer')
  | hold {target : Nat} {mode : Mode} {next : Bool → Routine ρ α β} {next' : Bool → Routine ρ α γ}
      (allowed : borrows target)
      (later : ∀ granted, Alike ends borrows starts (next granted) (next' granted)) :
      Alike ends borrows starts (.hold target mode next) (.hold target mode next')
  | release {target : Nat} {next : Nat → Routine ρ α β} {next' : Nat → Routine ρ α γ}
      (allowed : borrows target)
      (later : ∀ count, Alike ends borrows starts (next count) (next' count)) :
      Alike ends borrows starts (.release target next) (.release target next')
  | traverse {traverser traverser' : Traverser} {nodes : List (Tree ρ α)}
      {next : Except WalkError (List (Tree ρ α)) → Routine ρ α β}
      {next' : Except WalkError (List (Tree ρ α)) → Routine ρ α γ}
      (tied : starts traverser traverser')
      (later : ∀ result, Alike ends borrows starts (next result) (next' result)) :
      Alike ends borrows starts (.traverse traverser nodes next)
        (.traverse traverser' nodes next')

/-- Two behaviours whose routines are alike, where a visitor in one state corresponds to one in
another. -/
structure Behaviour.Alike (f : V → W) (borrows : Nat → Prop)
    (starts : Traverser → Traverser → Prop) (behaviour : Behaviour ρ α V)
    (other : Behaviour ρ α W) : Prop where
  name : ∀ state, other.name (f state) = behaviour.name state
  node : ∀ hook state node, Routine.Alike (fun result result' => result' = result.mapState f)
    borrows starts (behaviour.node hook state node) (other.node hook (f state) node)
  sequence : ∀ hook state nodes,
    Routine.Alike (fun result result' => result' = result.mapState f) borrows starts
      (behaviour.sequence hook state nodes) (other.sequence hook (f state) nodes)

/-- A routine takes the same steps as itself, with the same traversers. -/
lemma Routine.alike_refl {β : Type} (routine : Routine ρ α β) :
    Routine.Alike (fun answer answer' => answer' = answer) (fun _ => True) Eq routine routine := by
  induction routine with
  | finish answer => exact .finish rfl
  | hold target mode next ih => exact .hold trivial ih
  | release target next ih => exact .release trivial ih
  | traverse traverser nodes next ih => exact .traverse rfl ih

lemma Behaviour.alike_refl (behaviour : Behaviour ρ α V) :
    behaviour.Alike id (fun _ => True) Eq behaviour where
  name := fun _ => rfl
  node := fun hook state node => (behaviour.node hook state node).alike_refl
  sequence := fun hook state nodes => (behaviour.sequence hook state nodes).alike_refl

/-- The visitor whose call an entry begins or ends. -/
def Entry.called? : Entry ρ α → Option Nat
  | .nodeCall visitor _ _ | .sequenceCall visitor _ _ | .returned visitor => some visitor
  | .event _ | .hold .. | .release .. | .nested .. => none

/-- Rosters that are tied remain so in every step of a routine, given how traversals run. -/
structure Mirrors (tied : Roster ρ α V → Roster ρ α W → Prop) (borrows : Nat → Prop)
    (starts : Traverser → Traverser → Prop) (nested : Traversal ρ α V)
    (nested' : Traversal ρ α W) : Prop where
  note : ∀ {entry roster roster'}, entry.called? = none → tied roster roster' →
    tied (roster.note entry) (roster'.note entry)
  hold : ∀ {target roster roster'} mode, borrows target → tied roster roster' →
    (roster'.hold target mode).1 = (roster.hold target mode).1 ∧
      tied (roster.hold target mode).2 (roster'.hold target mode).2
  release : ∀ {target roster roster'}, borrows target → tied roster roster' →
    (roster'.release target).1 = (roster.release target).1 ∧
      tied (roster.release target).2 (roster'.release target).2
  traverse : ∀ {traverser traverser' roster roster'} nodes, starts traverser traverser' →
    tied roster roster' →
    let sweep := nested traverser nodes roster
    let sweep' := nested' traverser' nodes roster'
    sweep'.items = sweep.items ∧ sweep'.halt = sweep.halt ∧ tied sweep.state sweep'.state

namespace Mirrors

variable {tied : Roster ρ α V → Roster ρ α W → Prop} {borrows : Nat → Prop}
  {starts : Traverser → Traverser → Prop} {nested : Traversal ρ α V} {nested' : Traversal ρ α W}
  {roster : Roster ρ α V} {roster' : Roster ρ α W}

/-- Two routines that are alike, carried out on rosters that are tied. -/
theorem perform {β γ : Type} {ends : β → γ → Prop}
    (h : Mirrors tied borrows starts nested nested') (visitor : Nat) {routine : Routine ρ α β}
    {routine' : Routine ρ α γ} (alike : routine.Alike ends borrows starts routine')
    (hroster : tied roster roster') :
    Option.Rel ends (routine.perform nested visitor roster).1
        (routine'.perform nested' visitor roster').1 ∧
      tied (routine.perform nested visitor roster).2
        (routine'.perform nested' visitor roster').2 := by
  induction alike generalizing roster roster' with
  | finish ended => exact ⟨.some ended, hroster⟩
  | @hold target mode next next' allowed later ih =>
    obtain ⟨hgranted, hheld⟩ := h.hold mode allowed hroster
    simp only [Routine.perform, hgranted]
    exact ih _ (h.note rfl hheld)
  | @release target next next' allowed later ih =>
    obtain ⟨hcount, hreleased⟩ := h.release allowed hroster
    simp only [Routine.perform, hcount]
    exact ih _ (h.note rfl hreleased)
  | @traverse traverser traverser' nodes next next' started later ih =>
    obtain ⟨hitems, hhalt, hstate⟩ := h.traverse nodes started hroster
    have hresult : (nested' traverser' nodes roster').result =
        (nested traverser nodes roster).result := by
      simp only [Sweep.result, hitems, hhalt]
    simp only [Routine.perform, hresult]
    rcases (nested traverser nodes roster).result with _ | result
    · exact ⟨.none, hstate⟩
    · exact ih result (h.note rfl hstate)

variable {f : V → W} {behaviour : Behaviour ρ α V} {other : Behaviour ρ α W} {visitor : Nat}
  {state : V} {taken : Roster ρ α V} {taken' : Roster ρ α W}

/-- Two calls of a visitor that is free on both rosters: the replies are the same, and the rosters
are tied until the visitor is put back. -/
theorem callNode (h : Mirrors tied borrows starts nested nested')
    (alike : behaviour.Alike f borrows starts other)
    (free : roster.takeForCall visitor = some (state, taken))
    (free' : roster'.takeForCall visitor = some (f state, taken')) (hook : NodeHook)
    (node : Tree ρ α)
    (htaken : tied (taken.note (.nodeCall visitor hook node))
      (taken'.note (.nodeCall visitor hook node))) :
    let called := roster.callNode behaviour nested visitor hook node
    let called' := roster'.callNode other nested' visitor hook node
    called'.1 = called.1 ∧
      ((called.1 = .overflowed ∧ tied called.2 called'.2) ∨
        called.1 ≠ .overflowed ∧ ∃ last last' left, tied last last' ∧
          called.2 = last.putBack visitor left ∧ called'.2 = last'.putBack visitor (f left)) := by
  obtain ⟨hends, hlast⟩ := h.perform visitor (alike.node hook state node) htaken
  simp only [Roster.callNode, free, free']
  rcases hp : (behaviour.node hook state node).perform nested visitor
    (taken.note (.nodeCall visitor hook node)) with ⟨result, last⟩
  rcases hp' : (other.node hook (f state) node).perform nested' visitor
    (taken'.note (.nodeCall visitor hook node)) with ⟨result', last'⟩
  rw [hp, hp'] at hends hlast
  cases hends with
  | none => exact ⟨rfl, .inl ⟨rfl, hlast⟩⟩
  | @some result _ ended =>
    subst ended
    refine ⟨rfl, .inr ⟨?_, last, last', result.state, hlast, rfl, rfl⟩⟩
    rcases hanswer : result.answer with cause | directive
    · simp [hanswer]
    · simp [hanswer]

theorem callSequence (h : Mirrors tied borrows starts nested nested')
    (alike : behaviour.Alike f borrows starts other)
    (free : roster.takeForCall visitor = some (state, taken))
    (free' : roster'.takeForCall visitor = some (f state, taken')) (hook : SequenceHook)
    (nodes : List (Tree ρ α))
    (htaken : tied (taken.note (.sequenceCall visitor hook nodes))
      (taken'.note (.sequenceCall visitor hook nodes))) :
    let called := roster.callSequence behaviour nested visitor hook nodes
    let called' := roster'.callSequence other nested' visitor hook nodes
    called'.1 = called.1 ∧
      ((called.1 = .overflowed ∧ tied called.2 called'.2) ∨
        called.1 ≠ .overflowed ∧ ∃ last last' left, tied last last' ∧
          called.2 = last.putBack visitor left ∧ called'.2 = last'.putBack visitor (f left)) := by
  obtain ⟨hends, hlast⟩ := h.perform visitor (alike.sequence hook state nodes) htaken
  simp only [Roster.callSequence, free, free']
  rcases hp : (behaviour.sequence hook state nodes).perform nested visitor
    (taken.note (.sequenceCall visitor hook nodes)) with ⟨result, last⟩
  rcases hp' : (other.sequence hook (f state) nodes).perform nested' visitor
    (taken'.note (.sequenceCall visitor hook nodes)) with ⟨result', last'⟩
  rw [hp, hp'] at hends hlast
  cases hends with
  | none => exact ⟨rfl, .inl ⟨rfl, hlast⟩⟩
  | @some result _ ended =>
    subst ended
    refine ⟨rfl, .inr ⟨?_, last, last', result.state, hlast, rfl, rfl⟩⟩
    rcases hanswer : result.answer with cause | replacement
    · simp [hanswer]
    · simp [hanswer]

end Mirrors

section Same

variable {behaviour other : Behaviour ρ α V} {P Q : Roster ρ α V → Prop} {borrows : Nat → Prop}
  {starts : Traverser → Traverser → Prop} {nested nested' : Traversal ρ α V}
  {roster final : Roster ρ α V} {visitor : Nat}

/-- The rosters are the same, and they have a property. -/
def Roster.SameWith (P : Roster ρ α V → Prop) (roster roster' : Roster ρ α V) : Prop :=
  roster' = roster ∧ P roster

lemma Behaviour.Alike.name_eq (alike : behaviour.Alike id borrows starts other) (visitor : Nat)
    (roster : Roster ρ α V) : roster.name other visitor = roster.name behaviour visitor := by
  have hname : other.name = behaviour.name := funext alike.name
  simp only [Roster.name, hname]

namespace Mirrors

/-- A call cannot tell apart what it starts, if the roster has the property while it is under
way. -/
lemma callNode_eq (h : Mirrors (Roster.SameWith P) borrows starts nested nested')
    (alike : behaviour.Alike id borrows starts other)
    (begun : ∀ {state taken}, roster.takeForCall visitor = some (state, taken) →
      ∀ entry, P (taken.note entry)) (hook : NodeHook) (node : Tree ρ α) :
    roster.callNode other nested' visitor hook node =
      roster.callNode behaviour nested visitor hook node := by
  rcases htake : roster.takeForCall visitor with _ | ⟨state, taken⟩
  · simp only [Roster.callNode, htake]
  · obtain ⟨hreply, ⟨-, hlast, -⟩ | ⟨-, last, _, left, ⟨rfl, -⟩, hcalled, hcalled'⟩⟩ :=
      h.callNode alike htake htake hook node ⟨rfl, begun htake _⟩
    · exact Prod.ext hreply hlast
    · exact Prod.ext hreply (hcalled'.trans hcalled.symm)

lemma callSequence_eq (h : Mirrors (Roster.SameWith P) borrows starts nested nested')
    (alike : behaviour.Alike id borrows starts other)
    (begun : ∀ {state taken}, roster.takeForCall visitor = some (state, taken) →
      ∀ entry, P (taken.note entry)) (hook : SequenceHook) (nodes : List (Tree ρ α)) :
    roster.callSequence other nested' visitor hook nodes =
      roster.callSequence behaviour nested visitor hook nodes := by
  rcases htake : roster.takeForCall visitor with _ | ⟨state, taken⟩
  · simp only [Roster.callSequence, htake]
  · obtain ⟨hreply, ⟨-, hlast, -⟩ | ⟨-, last, _, left, ⟨rfl, -⟩, hcalled, hcalled'⟩⟩ :=
      h.callSequence alike htake htake hook nodes ⟨rfl, begun htake _⟩
    · exact Prod.ext hreply hlast
    · exact Prod.ext hreply (hcalled'.trans hcalled.symm)

variable {traverser traverser' : Traverser}

/-- So the visitors of two traversers do the same acts. -/
lemma does (h : Mirrors (Roster.SameWith P) borrows starts nested nested')
    (alike : behaviour.Alike id borrows starts other)
    (hvisitors : traverser'.visitors = traverser.visitors)
    (begun : ∀ {visitor state taken}, roster.takeForCall visitor = some (state, taken) →
      ∀ entry, P (taken.note entry)) {act : Act ρ α}
    (hdoes : (traverser.walker behaviour nested).Does act roster final) :
    (traverser'.walker other nested').Does act roster final := by
  cases act with
  | event event => exact hdoes
  | node index name hook node reply =>
    obtain ⟨number, hnumber, hcalled, hname⟩ := Traverser.does_node_iff.1 hdoes
    rw [← h.callNode_eq alike begun] at hcalled
    rw [← alike.name_eq] at hname
    exact Traverser.does_node_iff.2 ⟨number, hvisitors ▸ hnumber, hcalled, hname⟩
  | sequence index name hook nodes reply =>
    obtain ⟨number, hnumber, hcalled, hname⟩ := Traverser.does_sequence_iff.1 hdoes
    rw [← h.callSequence_eq alike begun] at hcalled
    rw [← alike.name_eq] at hname
    exact Traverser.does_sequence_iff.2 ⟨number, hvisitors ▸ hnumber, hcalled, hname⟩

/-- Between the calls the roster may have another property, which is kept by every act. -/
lemma doesAll (h : Mirrors (Roster.SameWith P) borrows starts nested nested')
    (alike : behaviour.Alike id borrows starts other)
    (hvisitors : traverser'.visitors = traverser.visitors)
    (begun : ∀ {roster visitor state taken}, Q roster →
      roster.takeForCall visitor = some (state, taken) → ∀ entry, P (taken.note entry))
    (kept : ∀ {roster final act}, Q roster →
      (traverser.walker behaviour nested).Does act roster final → Q final)
    {acts : List (Act ρ α)} (hroster : Q roster)
    (hdoes : (traverser.walker behaviour nested).DoesAll acts roster final) :
    (traverser'.walker other nested').DoesAll acts roster final := by
  induction acts generalizing roster with
  | nil => exact hdoes
  | cons act rest ih =>
    obtain ⟨mid, hact, hrest⟩ := hdoes
    exact ⟨mid, h.does alike hvisitors (begun hroster) hact, ih (kept hroster hact) hrest⟩

end Mirrors

end Same

end ForestWalk
