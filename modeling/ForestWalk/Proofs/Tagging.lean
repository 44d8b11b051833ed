import ForestWalk.Proofs.Placement
import ForestWalk.Proofs.Refusals
import ForestWalk.Proofs.Stopping
/-!
The tag by which an error speaks of a node. When a traversal fails the node in hand stays at its
address, as the last call left it, and the error has its tag. There is one exception: when a slot
refuses a node that was to be put there, the error has the tag of that node. An error has no tag
just if the visitors were being shown the top-level sequence.
-/

namespace ForestWalk

variable {ρ α σ V : Type}

section Grafts

variable {τ : Type} {content : Content α τ} {number : Nat} {node : τ}

/-- A node that is put in the place of another is found there. -/
lemma Content.getElem?_put (h : content.children[number]? = some node) (new : τ) :
    (content.put number [new]).children[number]? = some new := by
  cases content with
  | single child =>
    cases child with
    | none => simp [children] at h
    | some child =>
      obtain ⟨hlt, -⟩ := List.getElem?_eq_some_iff.1 h
      obtain rfl : number = 0 := Nat.lt_one_iff.1 hlt
      rfl
  | list children =>
    obtain ⟨hlt, -⟩ := List.getElem?_eq_some_iff.1 h
    have hlength : (children.take number).length = number :=
      List.length_take_of_le (Nat.le_of_lt hlt)
    simp [put, Content.children, List.append_assoc, hlength]
  | value content => simp [children] at h

lemma Content.getElem?_modifyAt (h : content.children[number]? = some node) (f : τ → τ) :
    (content.modifyAt number f).children[number]? = some (f node) := by
  cases content with
  | single child =>
    cases child with
    | none => simp [children] at h
    | some child =>
      obtain ⟨hlt, rfl⟩ := List.getElem?_eq_some_iff.1 h
      obtain rfl : number = 0 := Nat.lt_one_iff.1 hlt
      rfl
  | list children =>
    have hchild : children[number]? = some node := h
    simp [modifyAt, Content.children, hchild]
  | value content => simp [children] at h

/-- A node that takes the place of the one with an address is found at this address. -/
lemma Address.find?_graft {address : Address} {outer place : Place ρ}
    {content : Content α (Tree ρ α)} {node : Tree ρ α}
    (h : address.find? outer content = some (place, node)) (new : Tree ρ α) :
    address.find? outer (address.graft [new] content) = some (place, new) := by
  induction address generalizing outer content with
  | here number =>
    obtain ⟨found, hfound, heq⟩ := Option.map_eq_some_iff.1 h
    obtain ⟨rfl, rfl⟩ := Prod.mk.inj heq
    simp [find?, graft, Content.getElem?_put hfound new]
  | inside number slot rest ih =>
    simp only [find?, Option.bind_eq_some_iff] at h
    obtain ⟨parent, hparent, holder, hholder, inner, hinner, hrest⟩ := h
    let changed : Slot ρ α (Tree ρ α) :=
      { holder with content := rest.graft [new] holder.content }
    have hslot : (parent.modifySlot slot (rest.graft [new])).slots[slot]? = some changed := by
      simp [Tree.modifySlot, hholder, changed]
    have hplace : changed.place? = some inner := by
      rw [← hinner]
      exact Slot.place?_congr rfl (rest.kind_graft [new] holder.content)
    simp only [find?, graft, Content.getElem?_modifyAt hparent, Option.bind_some, hslot, hplace]
    exact ih hrest

end Grafts

namespace Moment

/-- The node in hand at a moment, as it is left then, and its spot. -/
def inHand? : Moment ρ α → Option (Spot ρ × Tree ρ α)
  | .reached spot node => some (spot, node)
  | .acted (some spot) (.node _ _ _ shown reply) => some (spot, reply.left shown)
  | .acted none _ | .acted (some _) (.event _) | .acted (some _) (.sequence ..) => none

/-- Whether a visitor is called with a node that is not in hand. -/
def isStray : Moment ρ α → Bool
  | .acted none (.node ..) => true
  | .reached _ _ | .acted (some _) _ | .acted none (.event _) | .acted none (.sequence ..) => false

lemma isStray_of_inWalk {moment : Moment ρ α} (h : moment.inWalk = true) :
    moment.isStray = false := by
  match moment with
  | .acted none (.node ..) => cases h
  | .reached _ _ | .acted (some _) _ | .acted none (.event _) | .acted none (.sequence ..) => rfl

lemma isStray_of_mem_ofActs {acts : List (Act ρ α)}
    (h : ∀ act ∈ acts, act.callsNode = false) {moment : Moment ρ α}
    (hmem : moment ∈ ofActs none acts) : moment.isStray = false := by
  obtain ⟨act, hact, rfl⟩ := List.mem_map.1 hmem
  have hquiet := h act hact
  cases act with
  | node => cases hquiet
  | event | sequence => rfl

lemma isStray_of_mem_telling {event : Option Event} :
    ∀ moment ∈ (telling event : List (Moment ρ α)), moment.isStray = false :=
  fun _ hmem => isStray_of_mem_ofActs (forall_mem_telling fun _ _ => rfl) hmem

variable [Admission ρ α] {options : Options} {base : Nat} {moment : Moment ρ α} {fault : Fault}
  {error : WalkError}

/-- A reply that breaks the walk off leaves nothing in the place of the node but the node. -/
lemma Breaks.outcome_eq {spot : Spot ρ} {index : Nat} {name : String} {hook : NodeHook}
    {shown : Tree ρ α} {reply : NodeReply ρ α} {why : Halt}
    (h : (Moment.acted (some spot) (.node index name hook shown reply)).Breaks options base why) :
    reply.outcome options hook spot.place shown = [reply.left shown] := by
  rcases hjudge : options.judge hook spot.place ⟨.node hook, index, name⟩ shown reply with
    ⟨verdict, event⟩
  have hwhy := h.why_judge
  rw [hjudge] at hwhy
  rw [NodeReply.outcome_eq hjudge]
  obtain ⟨left, directive, rfl, -, -, rfl, -⟩ | ⟨rfl, rfl, -⟩ | ⟨error, rfl, -, -, -⟩ :=
    Options.judge_cases rfl hjudge
  · cases directive with
    | stop => rfl
    | _ => cases hwhy
  · rfl
  · rfl

/-- The node in hand stays at its address when the walk is broken off. -/
lemma Breaks.find?_redo {outer : Place ρ} {content : Content α (Tree ρ α)} {why : Halt}
    (h : moment.Breaks options base why) (placed : moment.Placed outer content) {spot : Spot ρ}
    {node : Tree ρ α} (hand : moment.inHand? = some (spot, node)) :
    spot.address.find? outer (moment.redo options content) = some (spot.place, node) := by
  match moment with
  | .reached _ _ =>
    cases hand
    exact placed
  | .acted (some _) (.node _ _ _ _ _) =>
    cases hand
    rw [redo, h.outcome_eq]
    exact Address.find?_graft placed _
  | .acted none _ | .acted (some _) (.event _) | .acted (some _) (.sequence ..) => cases hand

/-- An error has no tag just if it is of a call with the top-level sequence. -/
lemma Fails.tag_eq_none_iff (h : moment.Fails options base fault error) :
    error.tag = none ↔ ∃ hook, error.hook = some (.sequence hook) := by
  cases h <;> simp [WalkError.tag, WalkError.hook]

/-- An error with a tag arises while a node is in hand. -/
lemma Fails.exists_inHand (h : moment.Fails options base fault error)
    (stray : moment.isStray = false) (tagged : error.tag ≠ none) :
    ∃ spot node, moment.inHand? = some (spot, node) := by
  match moment with
  | .reached spot node => exact ⟨spot, node, rfl⟩
  | .acted (some spot) (.node _ _ _ shown reply) => exact ⟨spot, reply.left shown, rfl⟩
  | .acted none (.node ..) => cases stray
  | .acted _ (.event _) => cases h
  | .acted _ (.sequence ..) =>
    cases h with
    | lentForSequence | sequenceHook => exact absurd rfl tagged

/-- The tag of an error is that of the node in hand, unless the error is of another node that was
refused. -/
lemma Fails.tag_eq (h : moment.Fails options base fault error) (unrefused : fault ≠ .refused)
    {spot : Spot ρ} {node : Tree ρ α} (hand : moment.inHand? = some (spot, node)) :
    error.tag = some node.tag := by
  match moment with
  | .reached _ _ =>
    cases hand
    cases h with
    | tooDeep => rfl
  | .acted (some _) (.node ..) =>
    cases hand
    cases h with
    | lentForNode | nodeHook | splicedOnEnter | skippedOnLeave | splicedInSingle => rfl
    | replacementRefused | splicedRefused => exact absurd rfl unrefused
  | .acted none _ | .acted (some _) (.event _) | .acted (some _) (.sequence ..) => cases hand

end Moment

section Trails

open Moment

variable [Admission ρ α] {options : Options} {count room : Nat} {nodes items : List (Tree ρ α)}
  {trail : List (Moment ρ α)}

lemma TopTrail.isStray {halt : Option Halt}
    (htrail : TopTrail options count room nodes trail items halt) :
    ∀ moment ∈ trail, moment.isStray = false :=
  fun moment hmem => isStray_of_inWalk
    (ListTrail.inWalk (NodeTrail.redone room 0 .topLevel) htrail moment hmem)

lemma WalkTrail.isStray (htrail : WalkTrail options count room nodes trail items) :
    ∀ moment ∈ trail, moment.isStray = false := by
  cases htrail with
  | through walked => exact TopTrail.isStray walked
  | stopped walked =>
    exact List.forall_mem_append.2 ⟨TopTrail.isStray walked, isStray_of_mem_telling⟩

/-- In a traversal visitors are called only with the node in hand. -/
theorem TraversalTrail.isStray {halt : Option Halt}
    (htrail : TraversalTrail options count room nodes trail items halt) :
    ∀ moment ∈ trail, moment.isStray = false := by
  have hshown : ∀ {hook acts start left halt}, ShowRun count hook 0 start acts left halt →
      ∀ moment ∈ (ofActs none acts : List (Moment ρ α)), moment.isStray = false :=
    fun shown moment hmem => isStray_of_mem_ofActs shown.callsNode hmem
  cases htrail with
  | unready shown => exact List.forall_mem_append.2 ⟨isStray_of_mem_telling, hshown shown⟩
  | broken shown walked unstopped =>
    simp only [List.forall_mem_append]
    exact ⟨⟨isStray_of_mem_telling, hshown shown⟩, TopTrail.isStray walked⟩
  | unfinished shown walked shownAgain =>
    simp only [List.forall_mem_append]
    exact ⟨⟨⟨isStray_of_mem_telling, hshown shown⟩, walked.isStray⟩, hshown shownAgain⟩
  | finished shown walked shownAgain =>
    simp only [List.forall_mem_append]
    exact ⟨⟨⟨⟨isStray_of_mem_telling, hshown shown⟩, walked.isStray⟩, hshown shownAgain⟩,
      isStray_of_mem_telling⟩

/-- What a walk has in hand when it is broken off stands at its address in the forest that is
left. -/
theorem Walker.Leaves.find?_inHand {walker : Walker ρ α σ} {stack : Nat} {nodes : List (Tree ρ α)}
    {state : σ} {before told : List (Moment ρ α)} {moment : Moment ρ α} {why : Halt}
    (h : walker.Leaves stack nodes state (before ++ moment :: told))
    (breaks : moment.Breaks walker.options 0 why) (events : ∀ later ∈ told, later.isEvent = true)
    {spot : Spot ρ} {node : Tree ρ α} (hand : moment.inHand? = some (spot, node)) :
    spot.address.find? .topLevel (.list (walker.traverse stack nodes state).items) =
      some (spot.place, node) := by
  have hreplay := h.replay
  rw [replay_append, replay_cons, replay_of_events events] at hreplay
  rw [← hreplay]
  exact breaks.find?_redo h.placed hand

end Trails

namespace Traverser

variable [Admission ρ α]

/-- A traversal that fails has an error without a tag just if a visitor was being shown the
top-level sequence. In any other case there is a node in hand at the moment of the failure: the one
that a visitor was called with, as the call left it, or the one that the walk came to. It stands at
its address in the forest that is left. The error has the tag of this node, unless a node is
refused that a visitor wanted to put in its place; then it has the tag of the first node that is
refused. -/
theorem nest_tagging (behaviour : Behaviour ρ α V) (room nesting : Nat) (traverser : Traverser)
    (nodes : List (Tree ρ α)) (roster : Roster ρ α V) :
    let walker := traverser.walker behaviour (nest behaviour room nesting)
    let sweep := nest behaviour room (nesting + 1) traverser nodes roster
    (∃ trail, walker.Leaves room nodes roster trail) ∧
    ∀ trail error, walker.Leaves room nodes roster trail → sweep.result = some (.error error) →
      (error.tag = none ↔ ∃ hook, error.hook = some (.sequence hook)) ∧
      ∃ fault before moment told, trail = before ++ moment :: told ∧
        moment.Fails traverser.options 0 fault error ∧
        (∀ later ∈ told, later.isEvent = true) ∧
        (error.tag ≠ none → ∃ spot node, moment.inHand? = some (spot, node) ∧
          spot.address.find? .topLevel (.list sweep.items) = some (spot.place, node) ∧
          (fault ≠ .refused → error.tag = some node.tag) ∧
          (fault = .refused → ∃ index name hook shown directive refused,
            moment = .acted (some spot) (.node index name hook shown (.answered node directive)) ∧
            traverser.options.firstRefused spot.place.rule directive.carried = some refused ∧
            error.tag = some refused.tag)) := by
  intro walker sweep
  refine ⟨walker.exists_leaves room nodes roster, fun trail error hleaves hresult => ?_⟩
  obtain ⟨-, hfailed, -⟩ := hleaves.trodden.outcome
  obtain ⟨fault, before, moment, told, rfl, -, fails, events⟩ :=
    hfailed error (Sweep.result_eq_error_iff.1 hresult)
  refine ⟨fails.tag_eq_none_iff, fault, before, moment, told, rfl, fails, events, fun tagged => ?_⟩
  have hstray : moment.isStray = false := hleaves.trodden.isStray moment (by simp)
  obtain ⟨spot, node, hand⟩ := fails.exists_inHand hstray tagged
  refine ⟨spot, node, hand, hleaves.find?_inHand (.fails fails) events hand,
    fun unrefused => fails.tag_eq unrefused hand, ?_⟩
  rintro rfl
  obtain ⟨found, index, name, hook, shown, left, directive, refused, rfl, -, hrefused, rfl⟩ :=
    fails.of_refused
  cases hand
  exact ⟨index, name, hook, shown, directive, refused, rfl, hrefused, rfl⟩

end Traverser

/-- The error that a walk was broken off for. -/
def Halt.error? : Halt → Option WalkError
  | .failed error => some error
  | .stopped | .overflowed => none

lemma Sweep.exists_error {τ β : Type} {sweep : Sweep τ σ} {f : WalkError → β} {value : β}
    (h : (sweep.halt.bind Halt.error?).map f = some value) :
    ∃ error, sweep.result = some (.error error) ∧ f error = value := by
  obtain ⟨error, herror, hvalue⟩ := Option.map_eq_some_iff.1 h
  obtain ⟨why, hwhy, heq⟩ := Option.bind_eq_some_iff.1 herror
  cases why with
  | failed failure =>
    obtain rfl := Option.some.inj heq
    exact ⟨failure, Sweep.result_eq_error_iff.2 hwhy, hvalue⟩
  | stopped | overflowed => cases heq

namespace Traverser

/-- Two visitors: the first one puts another statement in the place of each that is entered, and the
second one changes the tag of what it is shown and then asks for what it may not have. -/
def relay : Behaviour Shape Unit Bool where
  name := fun second => if second then "second" else "first"
  node := fun _ second node =>
    if second then
      .finish
        { state := second, node := { node with tag := node.tag ++ ", worn" }
          answer := .ok (.splice []) }
    else
      .finish { state := second, node := node, answer := .ok (.replace { tag := "Stmt_Print" }) }

/-- The error has the tag of the node that stands there after the call that is at fault. -/
theorem relay_tagged :
    let traverser : Traverser := { visitors := [0, 1] }
    let sweep := nest relay 2 1 traverser [{ tag := "Stmt_Echo" }] (.ofList [false, true])
    ∃ error, ∃ spot : Spot Shape, ∃ node, sweep.result = some (.error error) ∧
      error.tag = some "Stmt_Print, worn" ∧ error.tag = some node.tag ∧
      spot.address.find? .topLevel (.list sweep.items) = some (spot.place, node) := by
  intro traverser sweep
  have hfailed : (sweep.halt.bind Halt.error?).map (fun error => (error.kind, error.tag)) =
      some (.illegalDirective, some "Stmt_Print, worn") := by decide +kernel
  obtain ⟨error, hresult, heq⟩ := Sweep.exists_error hfailed
  obtain ⟨hkind, htag⟩ := Prod.mk.inj heq
  obtain ⟨⟨trail, hleaves⟩, htagged⟩ :=
    nest_tagging relay 2 0 traverser [{ tag := "Stmt_Echo" }] (.ofList [false, true])
  obtain ⟨-, fault, -, moment, -, -, fails, -, hhand⟩ := htagged trail error hleaves hresult
  have unrefused : fault ≠ .refused := by
    rintro rfl
    cases hkind.symm.trans fails.kind_eq
  have tagged : error.tag ≠ none := by simp [htag]
  obtain ⟨spot, node, -, hfound, hsame, -⟩ := hhand tagged
  exact ⟨error, spot, node, hresult, htag, hsame unrefused, hfound⟩

/-- Puts a name in the place of each string that it leaves. -/
def misfit : Behaviour Shape Unit Unit where
  name := fun _ => "misfit"
  node := fun hook state node =>
    let directive : Directive (Tree Shape Unit) :=
      match hook with
      | .enter => .keep
      | .leave => if node.tag = "Scalar_String" then .replace { tag := "Name" } else .keep
    .finish { state := state, node := node, answer := .ok directive }

/-- A string in a slot for an expression. -/
def printedString : Tree Shape Unit where
  tag := "Expr_Print"
  slots := [⟨⟨"expr", some .expr⟩, .single (some { tag := "Scalar_String" })⟩]

/-- The visitor that is at fault was called with the string, and the string still stands where it
stood, but the error has the tag of the name. -/
theorem misfit_mistagged :
    let traverser : Traverser := { visitors := [0] }
    let walker := traverser.walker misfit (nest misfit 3 0)
    let sweep := nest misfit 3 1 traverser [printedString] (.ofList [()])
    ∃ error, sweep.result = some (.error error) ∧ error.hook = some (.node .leave) ∧
      (walker.acts 3 [printedString] (.ofList [()])).getLast?.bind Act.call? =
        some (0, .node .leave, some "Scalar_String") ∧
      (Address.find? (.inside 0 0 (.here 0)) .topLevel (.list sweep.items)).map (·.2.tag) =
        some "Scalar_String" ∧
      error.tag = some "Name" := by
  intro traverser walker sweep
  have hfailed : (sweep.halt.bind Halt.error?).map (fun error => (error.hook, error.tag)) =
      some (some (.node .leave), some "Name") := by decide +kernel
  obtain ⟨error, hresult, heq⟩ := Sweep.exists_error hfailed
  obtain ⟨hhook, htag⟩ := Prod.mk.inj heq
  exact ⟨error, hresult, hhook, by decide +kernel, by decide +kernel, htag⟩

end Traverser

end ForestWalk
