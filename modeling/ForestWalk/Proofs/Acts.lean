import ForestWalk.Walk.Traverse
import Mathlib.Tactic.Lemma
/-!
What a traversal does, one act after the other, told without the state that is hidden behind the
visitors. `Walker.DoesAll` says that visitors which start in one state reply as in a list of acts
and end in another state, and `Walker.recorded` is a walker that writes down its own acts.
-/

namespace ForestWalk

/-- One act of a traversal: it makes an event known, or it calls the visitor with a number on the
list, which goes by a name after the call, and hears its reply. -/
inductive Act (ρ α : Type) where
  | event (event : Event)
  | node (index : Nat) (name : String) (hook : NodeHook) (node : Tree ρ α)
      (reply : NodeReply ρ α)
  | sequence (index : Nat) (name : String) (hook : SequenceHook) (nodes : List (Tree ρ α))
      (reply : SequenceReply ρ α)

/-- The acts that make known what is to be told. -/
def Act.telling {ρ α : Type} (event : Option Event) : List (Act ρ α) :=
  event.toList.map Act.event

/-- Whether the act calls a visitor. -/
def Act.isCall {ρ α : Type} : Act ρ α → Bool
  | .event _ => false
  | .node .. | .sequence .. => true

namespace Walker

variable {ρ α σ : Type} (walker : Walker ρ α σ)

/-- The walker can do an act, and its state changes from one to the other. -/
def Does : Act ρ α → σ → σ → Prop
  | .event event, state, final => walker.emit event state = final
  | .node index name hook node reply, state, final =>
    ∃ visitor, walker.visitors[index]? = some visitor ∧
      visitor.callNode hook node state = (reply, final) ∧
      (visitor.name final).getD (namelessVisitor index) = name
  | .sequence index name hook nodes reply, state, final =>
    ∃ visitor, walker.visitors[index]? = some visitor ∧
      visitor.callSequence hook nodes state = (reply, final) ∧
      (visitor.name final).getD (namelessVisitor index) = name

/-- The walker can do acts one after the other. -/
def DoesAll : List (Act ρ α) → σ → σ → Prop
  | [], state, final => state = final
  | act :: rest, state, final => ∃ mid, walker.Does act state mid ∧ DoesAll rest mid final

@[simp] theorem doesAll_nil {state final : σ} : walker.DoesAll [] state final ↔ state = final :=
  .rfl

@[simp] theorem doesAll_cons {act : Act ρ α} {rest : List (Act ρ α)} {state final : σ} :
    walker.DoesAll (act :: rest) state final ↔
      ∃ mid, walker.Does act state mid ∧ walker.DoesAll rest mid final :=
  .rfl

@[simp] theorem does_event {event : Event} {state final : σ} :
    walker.Does (.event event) state final ↔ walker.emit event state = final :=
  .rfl

@[simp] theorem doesAll_append {acts more : List (Act ρ α)} {state final : σ} :
    walker.DoesAll (acts ++ more) state final ↔
      ∃ mid, walker.DoesAll acts state mid ∧ walker.DoesAll more mid final := by
  induction acts generalizing state with
  | nil => simp
  | cons act rest ih =>
    simp only [List.cons_append, doesAll_cons, ih]
    constructor
    · rintro ⟨mid, hact, mid', hrest, hmore⟩
      exact ⟨mid', ⟨mid, hact, hrest⟩, hmore⟩
    · rintro ⟨mid', ⟨mid, hact, hrest⟩, hmore⟩
      exact ⟨mid, hact, mid', hrest, hmore⟩

@[simp] theorem doesAll_telling {event : Option Event} {state final : σ} :
    walker.DoesAll (Act.telling event) state final ↔ walker.tell event state = final := by
  cases event <;> simp [Act.telling]

theorem DoesAll.exists_does {walker : Walker ρ α σ} {acts : List (Act ρ α)} {state final : σ}
    (h : walker.DoesAll acts state final) {act : Act ρ α} (hact : act ∈ acts) :
    ∃ before after, walker.Does act before after := by
  induction acts generalizing state with
  | nil => simp at hact
  | cons first rest ih =>
    obtain ⟨mid, hfirst, hrest⟩ := h
    rcases List.mem_cons.1 hact with rfl | hr
    · exact ⟨state, mid, hfirst⟩
    · exact ih hrest hr

/-- If what is known of a state gives what is known of an act that is done in it, and is known again
after the act, then it gives what is known of all acts that are done one after the other. -/
theorem DoesAll.invariant {walker : Walker ρ α σ} {I : σ → Prop} {P : Act ρ α → Prop}
    (step : ∀ {act state final}, I state → walker.Does act state final → P act ∧ I final)
    {acts : List (Act ρ α)} {state final : σ} (start : I state)
    (h : walker.DoesAll acts state final) : (∀ act ∈ acts, P act) ∧ I final := by
  induction acts generalizing state with
  | nil =>
    obtain rfl : state = final := h
    exact ⟨List.forall_mem_nil _, start⟩
  | cons act rest ih =>
    obtain ⟨mid, hact, hrest⟩ := h
    obtain ⟨hP, hmid⟩ := step start hact
    obtain ⟨hall, hfinal⟩ := ih hmid hrest
    exact ⟨List.forall_mem_cons.2 ⟨hP, hall⟩, hfinal⟩

lemma Does.unique {walker : Walker ρ α σ} {act : Act ρ α} {state final other : σ}
    (h : walker.Does act state final) (h' : walker.Does act state other) : final = other := by
  cases act with
  | event event => exact h.symm.trans h'
  | node | sequence =>
    obtain ⟨visitor, hv, hcall, -⟩ := h
    obtain ⟨_, hv', hcall', -⟩ := h'
    obtain rfl := Option.some.inj (hv.symm.trans hv')
    exact (Prod.mk.inj (hcall.symm.trans hcall')).2

/-- The acts determine the state in which they end. -/
lemma DoesAll.unique {walker : Walker ρ α σ} {acts : List (Act ρ α)} {state final other : σ}
    (h : walker.DoesAll acts state final) (h' : walker.DoesAll acts state other) :
    final = other := by
  induction acts generalizing state with
  | nil => exact h.symm.trans h'
  | cons act rest ih =>
    obtain ⟨mid, hact, hrest⟩ := h
    obtain ⟨_, hact', hrest'⟩ := h'
    obtain rfl := hact.unique hact'
    exact ih hrest hrest'

end Walker

/-- A visitor without memory, whose replies depend on the hook and on the node alone. -/
def Registration.stateless {ρ α : Type} (name : String)
    (reply : NodeHook → Tree ρ α → NodeReply ρ α) : Registration ρ α Unit where
  callNode := fun hook node state => (reply hook node, state)
  callSequence := fun _ _ state => (.answered none, state)
  name := fun _ => some name

/-- A walker without memory, with a single visitor. -/
def Walker.stateless {ρ α : Type} (options : Options) (name : String)
    (reply : NodeHook → Tree ρ α → NodeReply ρ α) : Walker ρ α Unit where
  visitors := [.stateless name reply]
  options := options
  emit := fun _ state => state

section Recording

variable {ρ α σ : Type}

/-- How a reply may be changed, given the acts so far and the call that it replies to: the number
of the visitor, the hook and the node. -/
abbrev Amendment (ρ α : Type) :=
  List (Act ρ α) → Nat → NodeHook → Tree ρ α → NodeReply ρ α → NodeReply ρ α

/-- A visitor that replies with an amendment, and whose calls are written down. -/
def Registration.amended (amend : Amendment ρ α) (index : Nat) (visitor : Registration ρ α σ) :
    Registration ρ α (σ × List (Act ρ α)) where
  callNode := fun hook node (state, acts) =>
    let (reply, state) := visitor.callNode hook node state
    let reply := amend acts index hook node reply
    let name := (visitor.name state).getD (namelessVisitor index)
    (reply, state, acts ++ [.node index name hook node reply])
  callSequence := fun hook nodes (state, acts) =>
    let (reply, state) := visitor.callSequence hook nodes state
    let name := (visitor.name state).getD (namelessVisitor index)
    (reply, state, acts ++ [.sequence index name hook nodes reply])
  name := fun (state, _) => visitor.name state

namespace Walker

/-- The walker with the replies of its visitors amended. It writes down its acts. -/
def amended (amend : Amendment ρ α) (walker : Walker ρ α σ) :
    Walker ρ α (σ × List (Act ρ α)) where
  visitors := walker.visitors.mapIdx (Registration.amended amend)
  options := walker.options
  emit := fun event (state, acts) => (walker.emit event state, acts ++ [.event event])

/-- The walker that does the same and writes down its acts. -/
def recorded (walker : Walker ρ α σ) : Walker ρ α (σ × List (Act ρ α)) :=
  walker.amended fun _ _ _ _ reply => reply

end Walker

/-- The act with the reply of a visitor that is shown a node amended. -/
def Act.amended (amend : Amendment ρ α) (acts : List (Act ρ α)) : Act ρ α → Act ρ α
  | .node index name hook shown reply =>
    .node index name hook shown (amend acts index hook shown reply)
  | act => act

namespace Walker

variable (walker : Walker ρ α σ)

/-- The amended walker does amended acts, and writes down these. -/
theorem does_amended_iff {amend : Amendment ρ α} {act : Act ρ α} {state final : σ}
    {acts acts' : List (Act ρ α)} :
    (walker.amended amend).Does act (state, acts) (final, acts') ↔
      acts' = acts ++ [act] ∧
        ∃ original, act = original.amended amend acts ∧ walker.Does original state final := by
  cases act with
  | event event =>
    constructor
    · intro h
      obtain ⟨rfl, rfl⟩ := Prod.mk.inj h
      exact ⟨rfl, .event event, rfl, rfl⟩
    · rintro ⟨rfl, original, ha, hd⟩
      cases original with
      | event => cases ha; exact Prod.ext hd rfl
      | _ => cases ha
  | node index name hook node reply =>
    simp only [Does, amended, List.getElem?_mapIdx, Option.map_eq_some_iff]
    constructor
    · rintro ⟨_, ⟨visitor, hv, rfl⟩, hc, hs⟩
      obtain ⟨rfl, rfl, rfl⟩ : _ ∧ _ ∧ _ := by simpa [Registration.amended] using hc
      subst hs
      exact ⟨rfl, .node index _ hook node (visitor.callNode hook node state).1, rfl, visitor, hv,
        rfl, rfl⟩
    · rintro ⟨rfl, original, ha, hd⟩
      cases original with
      | node =>
        cases ha
        obtain ⟨visitor, hv, hc, hs⟩ := hd
        refine ⟨_, ⟨visitor, hv, rfl⟩, ?_, hs⟩
        simp [Registration.amended, hc, hs]
      | _ => cases ha
  | sequence index name hook nodes reply =>
    simp only [Does, amended, List.getElem?_mapIdx, Option.map_eq_some_iff]
    constructor
    · rintro ⟨_, ⟨visitor, hv, rfl⟩, hc, hs⟩
      obtain ⟨rfl, rfl, rfl⟩ : _ ∧ _ ∧ _ := by simpa [Registration.amended] using hc
      subst hs
      exact ⟨rfl, .sequence index _ hook nodes (visitor.callSequence hook nodes state).1, rfl,
        visitor, hv, rfl, rfl⟩
    · rintro ⟨rfl, original, ha, hd⟩
      cases original with
      | sequence =>
        cases ha
        obtain ⟨visitor, hv, hc, hs⟩ := hd
        refine ⟨_, ⟨visitor, hv, rfl⟩, ?_, hs⟩
        simp [Registration.amended, hc, hs]
      | _ => cases ha

theorem does_recorded_iff {act : Act ρ α} {state final : σ} {acts acts' : List (Act ρ α)} :
    walker.recorded.Does act (state, acts) (final, acts') ↔
      acts' = acts ++ [act] ∧ walker.Does act state final := by
  have hid : ∀ original : Act ρ α,
      original.amended (fun _ _ _ _ reply => reply) acts = original := by
    intro original
    cases original <;> rfl
  simp [recorded, does_amended_iff, hid]

/-- The recorded walker does what the walker does, and writes down just that. -/
theorem doesAll_recorded_iff {acts acts' more : List (Act ρ α)} {state final : σ} :
    walker.recorded.DoesAll more (state, acts) (final, acts') ↔
      acts' = acts ++ more ∧ walker.DoesAll more state final := by
  induction more generalizing state acts with
  | nil => simp [eq_comm, and_comm]
  | cons act rest ih =>
    simp only [doesAll_cons, Prod.exists, does_recorded_iff, ih]
    constructor
    · rintro ⟨mid, _, ⟨rfl, hact⟩, rfl, hrest⟩
      exact ⟨by simp, mid, hact, hrest⟩
    · rintro ⟨rfl, mid, hact, hrest⟩
      exact ⟨mid, _, ⟨rfl, hact⟩, by simp, hrest⟩

end Walker

end Recording

end ForestWalk
