import ForestWalk.Error.Report
import ForestWalk.Proofs.Refusals
import Mathlib.Data.List.Infix
/-!
Errors that stand behind errors. Each failure of a visitor puts a layer round its cause, and the
cause may be the failure of another visitor. Whoever follows the sources of an error comes past one
layer after the other to the innermost cause, and the text of an error has the words of the layers
in this order and then the text of the innermost cause. A hook that fails with a cause makes its
traversal fail with one layer round this cause.
-/

namespace ForestWalk

namespace Cause

/-- What stands directly behind a cause. Only behind the failure of a visitor there is something. -/
def source : Cause WalkError → Option (Cause WalkError)
  | .traversal error => error.visitorCause
  | .message _ | .shape _ | .unavailable => none

/-- All that stands behind a cause, from the nearest to the innermost. -/
def behind : Cause WalkError → List (Cause WalkError)
  | .traversal error => error.causes
  | .message _ | .shape _ | .unavailable => []

/-- A cause that is not the failure of a visitor. -/
inductive Innermost : Cause WalkError → Prop
  | message (text : String) : Innermost (.message text)
  | shape (mismatch : ShapeMismatch) : Innermost (.shape mismatch)
  | unavailable : Innermost .unavailable
  | illegalDirective (site : CallSite) (directive tag : String) (position : Position) :
      Innermost (.traversal (.illegalDirective site directive tag position))
  | tooDeep (limit : Nat) (tag : String) : Innermost (.traversal (.tooDeep limit tag))

end Cause

/-- What the failure of a visitor puts round its cause: the call that failed, and the tag of the
node in hand. -/
structure Layer where
  site : CallSite
  tag : Option String

namespace Layer

/-- The failure of a visitor with the cause. -/
def wrap (layer : Layer) (cause : Cause WalkError) : WalkError :=
  .visitorFailed layer.site layer.tag cause

/-- The words that come before the text of the cause. -/
def words (layer : Layer) : String :=
  layer.site.visitorText ++ " failed in " ++ layer.site.hook.name ++ " on " ++
    layer.tag.getD "the top-level sequence" ++ ": "

variable (layer : Layer) (cause : Cause WalkError)

@[simp] theorem text_wrap : (layer.wrap cause).text = layer.words ++ cause.text :=
  rfl

@[simp] theorem causes_wrap : (layer.wrap cause).causes = cause :: cause.behind := by
  cases cause <;> rfl

theorem words_ne_empty : layer.words ≠ "" := by
  simp [words]

end Layer

namespace Cause

/-- The cause with layers put round it, the first of them outermost. -/
def within (core : Cause WalkError) : List Layer → Cause WalkError
  | [] => core
  | layer :: layers => .traversal (layer.wrap (core.within layers))

variable {core : Cause WalkError}

lemma Innermost.source_eq_none (h : core.Innermost) : core.source = none := by
  cases h <;> rfl

lemma Innermost.behind_eq_nil (h : core.Innermost) : core.behind = [] := by
  cases h <;> rfl

/-- Behind the innermost cause there is nothing, and behind any layer there are those inside it. -/
theorem Innermost.behind_within (h : core.Innermost) (layers : List Layer) :
    (core.within layers).behind = layers.tails.tail.map core.within := by
  induction layers with
  | nil => exact h.behind_eq_nil
  | cons layer layers ih =>
    calc (core.within (layer :: layers)).behind
        = core.within layers :: (core.within layers).behind := layer.causes_wrap _
      _ = core.within layers :: layers.tails.tail.map core.within := by rw [ih]
      _ = layers.tails.map core.within := by cases layers <;> rfl

/-- The last thing left of a list is nothing. -/
lemma getLast?_tails {β : Type} (items : List β) : items.tails.getLast? = some [] := by
  induction items with
  | nil => rfl
  | cons item items ih => simp [List.getLast?_cons, ih]

/-- What holds between a layer and that which it is put round holds all along the chain. -/
lemma isChain_within {R : Cause WalkError → Cause WalkError → Prop}
    (step : ∀ layer layers, R (core.within (layer :: layers)) (core.within layers))
    (layers : List Layer) : (layers.tails.map core.within).IsChain R := by
  induction layers with
  | nil => exact .singleton core
  | cons layer layers ih =>
    cases layers with
    | nil => exact .cons_cons (step layer []) ih
    | cons next layers => exact .cons_cons (step layer (next :: layers)) ih

/-- The layers speak in order, and then the innermost cause. -/
theorem text_within (core : Cause WalkError) (layers : List Layer) :
    (core.within layers).text = String.join (layers.map Layer.words) ++ core.text := by
  induction layers with
  | nil => simp [within]
  | cons layer layers ih =>
    calc (core.within (layer :: layers)).text
        = layer.words ++ (core.within layers).text := layer.text_wrap _
      _ = layer.words ++ (String.join (layers.map Layer.words) ++ core.text) := by rw [ih]
      _ = String.join ((layer :: layers).map Layer.words) ++ core.text := by
        rw [List.map_cons, String.join_cons, String.append_assoc]

end Cause

namespace WalkError

/-- Every error consists of layers round an innermost cause. -/
theorem exists_within (error : WalkError) :
    ∃ layers, ∃ core : Cause WalkError,
      core.Innermost ∧ core.within layers = .traversal error := by
  match error with
  | .illegalDirective site directive tag position =>
    exact ⟨[], _, .illegalDirective site directive tag position, rfl⟩
  | .tooDeep limit tag => exact ⟨[], _, .tooDeep limit tag, rfl⟩
  | .visitorFailed site tag (.message text) => exact ⟨[⟨site, tag⟩], _, .message text, rfl⟩
  | .visitorFailed site tag (.shape mismatch) => exact ⟨[⟨site, tag⟩], _, .shape mismatch, rfl⟩
  | .visitorFailed site tag .unavailable => exact ⟨[⟨site, tag⟩], _, .unavailable, rfl⟩
  | .visitorFailed site tag (.traversal inner) =>
    obtain ⟨layers, core, innermost, built⟩ := inner.exists_within
    let layer : Layer := ⟨site, tag⟩
    exact ⟨layer :: layers, core, innermost,
      congrArg (fun cause => Cause.traversal (layer.wrap cause)) built⟩

/-- Of an error with layers round an innermost cause all views agree. Its causes are what is left
when one layer after the other is taken off, so there are as many as there are layers; each is the
source of the one before it, and the last is the innermost cause, which has no source. Of two that
follow each other the text of the outer one has the text of the inner one as its end, with something
before it; and the message of the report consists of the words of the layers and the text of the
innermost cause. The error gives back the next cause, and an error that has no layer gives back
itself. -/
theorem causes_of_layers {layers : List Layer} {core : Cause WalkError} {error : WalkError}
    (innermost : core.Innermost) (built : core.within layers = .traversal error) :
    let chain := Cause.traversal error :: error.causes
    error.causes = layers.tails.tail.map core.within ∧
      error.causes.length = layers.length ∧
      chain.IsChain (fun outer inner => outer.source = some inner) ∧
      chain.getLast? = some core ∧ core.source = none ∧
      chain.IsChain (fun outer inner => ∃ lead, lead ≠ "" ∧ outer.text = lead ++ inner.text) ∧
      error.report.message = String.join (layers.map Layer.words) ++ core.text ∧
      (∀ layer rest, layers = layer :: rest →
        error.visitorCause = some (core.within rest) ∧
          error.takeVisitorCause = .ok (core.within rest)) ∧
      (layers = [] → error.visitorCause = none ∧ error.takeVisitorCause = .error error) := by
  intro chain
  have hcauses : error.causes = layers.tails.tail.map core.within := by
    rw [← innermost.behind_within layers, built]
    rfl
  have hchain : chain = layers.tails.map core.within := by
    have htails : layers.tails = layers :: layers.tails.tail := by cases layers <;> rfl
    rw [htails, List.map_cons, built, ← hcauses]
  refine ⟨hcauses, by simp [hcauses], ?_, ?_, innermost.source_eq_none, ?_, ?_, ?_, ?_⟩
  · rw [hchain]
    exact Cause.isChain_within (fun _ _ => rfl) layers
  · rw [hchain, List.getLast?_map, Cause.getLast?_tails]
    rfl
  · rw [hchain]
    exact Cause.isChain_within
      (fun layer rest => ⟨layer.words, layer.words_ne_empty, layer.text_wrap _⟩) layers
  · rw [← core.text_within layers, built]
    rfl
  · rintro layer rest rfl
    cases built
    exact ⟨rfl, rfl⟩
  · rintro rfl
    obtain rfl : core = .traversal error := built
    cases innermost <;> exact ⟨rfl, rfl⟩

/-- A visitor that cannot begin, since a traversal that it started failed for a shape. -/
theorem causes_of_two_layers :
    let outer : Layer := ⟨⟨.sequence .before, 0, "planner"⟩, none⟩
    let inner : Layer := ⟨⟨.node .leave, 1, "fitter"⟩, some "Scalar_String"⟩
    let core : Cause WalkError := .shape ⟨"Name", "expr"⟩
    let error := outer.wrap (.traversal (inner.wrap core))
    core.Innermost ∧ core.within [outer, inner] = .traversal error ∧
      error.causes = [.traversal (inner.wrap core), core] ∧
      error.takeVisitorCause = .ok (.traversal (inner.wrap core)) ∧
      error.report.message =
        "planner (visitor #0) failed in before_traverse on the top-level sequence: " ++
        "fitter (visitor #1) failed in leave_node on Scalar_String: " ++
        "`Name` node cannot be stored in slot `expr`" := by
  intro outer inner core error
  have innermost : core.Innermost := .shape _
  have built : core.within [outer, inner] = .traversal error := rfl
  obtain ⟨hcauses, -, -, -, -, -, hmessage, hnext, -⟩ := causes_of_layers innermost built
  obtain ⟨-, htaken⟩ := hnext outer [inner] rfl
  refine ⟨innermost, built, hcauses, htaken, hmessage.trans ?_⟩
  decide +kernel

end WalkError

section Runs

variable {ρ α σ V : Type} [Admission ρ α]

/-- Wherever there is a fault in a trail, the traversal fails with the error that tells of it. -/
theorem Walker.Leaves.halt_of_fails {walker : Walker ρ α σ} {stack : Nat} {nodes : List (Tree ρ α)}
    {state : σ} {trail : List (Moment ρ α)} (h : walker.Leaves stack nodes state trail)
    {moment : Moment ρ α} (hmem : moment ∈ trail) {fault : Fault} {error : WalkError}
    (fails : moment.Fails walker.options 0 fault error) :
    (walker.traverse stack nodes state).halt = some (.failed error) := by
  obtain ⟨-, hfailed, hfree⟩ := h.trodden.outcome
  by_cases hhalt : ∃ other, (walker.traverse stack nodes state).halt = some (.failed other)
  · obtain ⟨other, hother⟩ := hhalt
    obtain ⟨_, hlast⟩ := hfailed other hother
    obtain ⟨before, after, rfl⟩ := List.append_of_mem hmem
    obtain ⟨-, rfl, -⟩ := hlast.of_fails fails
    exact hother
  · have hfaultless := hfree fun other hother => hhalt ⟨other, hother⟩
    exact absurd fails (hfaultless moment hmem fault error)

omit [Admission ρ α] in
/-- What a hook fails with, and the layer that comes round it. -/
def Act.raised? : Act ρ α → Option (Layer × Cause WalkError)
  | .node index name hook _ (.failed left cause) =>
    some (⟨⟨.node hook, index, name⟩, some left.tag⟩, cause)
  | .sequence index name hook _ (.failed cause) =>
    some (⟨⟨.sequence hook, index, name⟩, none⟩, cause)
  | _ => none

lemma Act.fails_of_raised {options : Options} {base : Nat} {spot : Option (Spot ρ)} {act : Act ρ α}
    {layer : Layer} {cause : Cause WalkError} (raised : act.raised? = some (layer, cause)) :
    (Moment.acted spot act).Fails options base .hookFailed (layer.wrap cause) := by
  match act with
  | .node _ _ _ _ (.failed _ _) =>
    cases raised
    exact .nodeHook
  | .sequence _ _ _ _ (.failed _) =>
    cases raised
    exact .sequenceHook
  | .event _ | .node _ _ _ _ .unavailable | .node _ _ _ _ (.answered ..)
  | .node _ _ _ _ .overflowed | .sequence _ _ _ _ .unavailable | .sequence _ _ _ _ (.answered _)
  | .sequence _ _ _ _ .overflowed => cases raised

/-- If a hook fails, then its traversal fails with what the hook failed with, and one more layer
round it. So a hook that forwards the error of a traversal which it started loses nothing of it. -/
theorem Traverser.nest_forwarding (behaviour : Behaviour ρ α V) (room nesting : Nat)
    (traverser : Traverser) (nodes : List (Tree ρ α)) (roster : Roster ρ α V) :
    let walker := traverser.walker behaviour (nest behaviour room nesting)
    let sweep := nest behaviour room (nesting + 1) traverser nodes roster
    ∀ act ∈ walker.acts room nodes roster, ∀ layer cause, act.raised? = some (layer, cause) →
      sweep.result = some (.error (layer.wrap cause)) ∧
        (layer.wrap cause).causes = cause :: cause.behind := by
  intro walker sweep act hact layer cause raised
  obtain ⟨trail, hleaves⟩ := walker.exists_leaves room nodes roster
  rw [← hleaves.acts_eq] at hact
  obtain ⟨spot, hmem⟩ := Moment.mem_acts.1 hact
  exact ⟨Sweep.result_eq_error_iff.2 (hleaves.halt_of_fails hmem (Act.fails_of_raised raised)),
    layer.causes_wrap cause⟩

end Runs

end ForestWalk
