import ForestWalk.Proofs.Exchange
import ForestWalk.Proofs.Outcome
import ForestWalk.Proofs.Placement
import ForestWalk.Proofs.Tandem
/-!
What the checking of shapes does. A traversal that checks shapes does the same as one that does not,
up to the call in which a visitor first brings along a node that the slot refuses, and there it
fails.
-/

namespace ForestWalk

variable {ρ α σ τ : Type}

/-- The same options, with shapes checked or not. -/
def Options.checking (checks : Bool) (options : Options) : Options :=
  { options with checkShapes := checks }

section Judging

variable [Admission ρ α] (options : Options)

@[simp] theorem Options.firstRefused_checking_false (rule : Rule ρ) (nodes : List (Tree ρ α)) :
    (options.checking false).firstRefused rule nodes = none :=
  rfl

/-- A reply is judged alike whether shapes are checked or not, but for a directive that brings along
a node which is refused. -/
lemma Options.judge_checking (hook : NodeHook) (place : Place ρ) (site : CallSite)
    (node : Tree ρ α) (reply : NodeReply ρ α) :
    (options.checking false).judge hook place site node reply =
        (options.checking true).judge hook place site node reply ∨
      ∃ left directive, ∃ refused : Tree ρ α, reply = .answered left directive ∧
        (options.checking true).judge hook place site node reply =
          (.halt left (.failed (.visitorFailed site (some refused.tag)
            (.shape ⟨refused.tag, place.rule.name⟩))), none) := by
  cases reply with
  | unavailable | failed | overflowed => exact .inl rfl
  | answered left directive =>
    simp only [judge, follow, firstRefused_checking_false]
    by_cases hlegal : directive.legal hook place.position = true
    · rcases hr : (options.checking true).firstRefused place.rule directive.carried with _ | refused
      · exact .inl rfl
      · refine .inr ⟨left, directive, refused, rfl, ?_⟩
        rw [if_pos hlegal]
    · refine .inl ?_
      rw [if_neg hlegal, if_neg hlegal]

end Judging

namespace Moment

variable [Admission ρ α] {options : Options}

/-- If a visitor has answered and yet the traversal fails with the visitor, then because the slot
refuses a node that comes with the answer. -/
lemma Fails.of_answered {base : Nat} {spot : Option (Spot ρ)} {index : Nat} {name : String}
    {hook : NodeHook} {node left : Tree ρ α} {directive : Directive (Tree ρ α)} {fault : Fault}
    {site : CallSite} {tag : Option String} {cause : Cause WalkError}
    (h : (Moment.acted spot (.node index name hook node (.answered left directive))).Fails options
      base fault (.visitorFailed site tag cause)) :
    ∃ found, ∃ refused : Tree ρ α, spot = some found ∧
      directive.legal hook found.place.position = true ∧
      options.firstRefused found.place.rule directive.carried = some refused ∧
      tag = some refused.tag ∧ cause = .shape ⟨refused.tag, found.place.rule.name⟩ := by
  have hfault : fault = .refused := by cases h <;> rfl
  subst hfault
  obtain ⟨found, _, _, _, _, _, _, refused, hmoment, hlegal, hrefused, herror⟩ := h.of_refused
  cases hmoment
  cases herror
  exact ⟨found, refused, rfl, hlegal, hrefused, rfl, rfl⟩

/-- A trail that ends with the answer of a visitor and with a failure of the visitor has its fault
there. -/
lemma LastFault.of_answered {trail : List (Moment ρ α)} {front : List (Act ρ α)} {index : Nat}
    {name : String} {hook : NodeHook} {node left : Tree ρ α} {directive : Directive (Tree ρ α)}
    {fault : Fault} {site : CallSite} {tag : Option String} {cause : Cause WalkError}
    (h : LastFault options trail fault (.visitorFailed site tag cause))
    (hacts : acts trail = front ++ [.node index name hook node (.answered left directive)]) :
    ∃ before spot, trail =
        before ++ [.acted spot (.node index name hook node (.answered left directive))] ∧
      Faultless options before ∧
      (Moment.acted spot (.node index name hook node (.answered left directive))).Fails options 0
        fault (.visitorFailed site tag cause) := by
  obtain ⟨before, moment, told, rfl, hbefore, fails, events⟩ := h
  rcases List.eq_nil_or_concat told with rfl | ⟨others, last, rfl⟩
  · match moment with
    | .reached spot node => cases fails
    | .acted spot act =>
      rw [acts_append] at hacts
      obtain ⟨-, hact⟩ := List.append_inj' hacts rfl
      cases hact
      exact ⟨before, spot, rfl, hbefore, fails⟩
  · -- The last act would be an event.
    have hevent := events last (by simp)
    match last with
    | .acted spot (.event event) =>
      have hlast : acts (before ++ moment :: others ++ [.acted spot (.event event)]) =
          acts (before ++ moment :: others) ++ [.event event] := acts_append _ _
      simp only [List.concat_eq_append, ← List.cons_append, ← List.append_assoc, hlast] at hacts
      cases (List.append_inj' hacts rfl).2
    | .reached _ _ | .acted _ (.node ..) | .acted _ (.sequence ..) => cases hevent

/-- At the top level every node is accepted, so that a node with a place that refuses any is below
another node. -/
lemma Placed.depth_pos {content : Content α (Tree ρ α)} {spot : Spot ρ} {index : Nat}
    {name : String} {hook : NodeHook} {node refused : Tree ρ α} {reply : NodeReply ρ α}
    (h : (Moment.acted (some spot) (.node index name hook node reply)).Placed .topLevel content)
    (refuses : spot.place.rule.accepts refused = false) : 0 < spot.address.depth := by
  obtain ⟨address, place⟩ := spot
  cases address with
  | inside number slot rest => exact Nat.succ_pos _
  | here number =>
    obtain ⟨found, -, hfound⟩ := Option.map_eq_some_iff.1 h
    obtain rfl : Place.topLevel = place := (Prod.mk.inj hfound).1
    cases refuses

end Moment

namespace Walker

variable (walker : Walker ρ α σ)

/-- The walker with shapes checked or not. -/
def checking (checks : Bool) : Walker ρ α σ :=
  walker.withOptions (walker.options.checking checks)

/-- How far a walk without checks has come when one that checks has failed: the latter ends with the
answer of a visitor, and the former has done all the same. -/
def Refused (why : Halt) (state state' : σ × List (Act ρ α)) : Prop :=
  ∃ front index name hook node left directive tag slot,
    why = .failed (.visitorFailed ⟨.node hook, index, name⟩ (some tag) (.shape ⟨tag, slot⟩)) ∧
    state.2 = front ++ [.node index name hook node (.answered left directive)] ∧
    state.2 <+: state'.2

variable [Admission ρ α]

/-- The walker goes on from where the call of the first visitor ends. -/
lemma reaches_consultFrom_cons (hook : NodeHook) (place : Place ρ) {index : Nat}
    {visitor : Registration ρ α σ} (hv : walker.visitors[index]? = some visitor) (node : Tree ρ α)
    (state : σ) :
    walker.Reaches (visitor.callNode hook node state).2
      (walker.consultFrom hook place index (walker.visitors.drop index) node state).2 := by
  rw [walker.drop_visitors hv]
  rcases hc : walker.consult hook place index visitor node state with ⟨verdict, after⟩
  have hreaches : walker.Reaches (visitor.callNode hook node state).2 after := by
    obtain rfl := (congrArg Prod.snd hc).symm
    exact .tell _ _
  simp only [consultFrom, hc]
  cases verdict with
  | proceed next =>
    obtain ⟨hlt, -⟩ := List.getElem?_eq_some_iff.1 hv
    obtain ⟨acts, -, hdoes⟩ := walker.consultFrom_runs hook place (index + 1) hlt next after
    exact hreaches.trans ⟨acts, hdoes⟩
  | skipChildren | remove | splice | halt => exact hreaches

lemma asks_checking (hook : NodeHook) (place : Place ρ) (node : Tree ρ α)
    (state : σ × List (Act ρ α)) :
    (Ties.same Refused).Asks ((walker.checking true).recorded.consultAll hook place node state)
      ((walker.checking false).recorded.consultAll hook place node state) := by
  let strict := (walker.checking true).recorded
  let lax := (walker.checking false).recorded
  -- The induction is on the number of visitors that are still to be asked.
  have hfrom : ∀ n index, index + n = strict.visitors.length → ∀ node state,
      (Ties.same Refused).Asks
        (strict.consultFrom hook place index (strict.visitors.drop index) node state)
        (lax.consultFrom hook place index (lax.visitors.drop index) node state) := by
    intro n
    induction n with
    | zero =>
      intro index hlength node state
      have hnone : strict.visitors.drop index = [] := List.drop_eq_nil_of_le (by omega)
      have hnone' : lax.visitors.drop index = [] := hnone
      rw [hnone, hnone']
      exact .self _
    | succ n ih =>
      intro index hlength node state
      obtain ⟨visitor, hv⟩ : ∃ visitor, strict.visitors[index]? = some visitor :=
        ⟨_, List.getElem?_eq_getElem (by omega)⟩
      have hreaches := lax.reaches_consultFrom_cons hook place hv node state
      rcases hc : visitor.callNode hook node state with ⟨reply, after⟩
      rw [hc] at hreaches
      rcases walker.options.judge_checking hook place (visitor.site (.node hook) index after) node
          reply with hsame | ⟨left, directive, refused, rfl, hjudge⟩
      · have hconsult : lax.consult hook place index visitor node state =
            strict.consult hook place index visitor node state := by
          simp only [consult, hc]
          exact congrArg (fun judged => (judged.1, strict.tell judged.2 after)) hsame
        rw [strict.drop_visitors hv, lax.drop_visitors hv]
        simp only [consultFrom, hconsult]
        rcases strict.consult hook place index visitor node state with ⟨verdict, later⟩
        cases verdict with
        | proceed next => exact ih (index + 1) (by omega) next later
        | skipChildren | remove | splice | halt => exact .self _
      · have hact : strict.Does (.node index _ hook node (.answered left directive)) state after :=
          ⟨visitor, hv, hc, rfl⟩
        obtain ⟨hwritten, -⟩ := (does_recorded_iff _).1 hact
        have hconsult : strict.consult hook place index visitor node state =
            (.halt left (.failed (.visitorFailed (visitor.site (.node hook) index after)
              (some refused.tag) (.shape ⟨refused.tag, place.rule.name⟩))), after) := by
          simp only [consult, hc]
          exact congrArg (fun judged => (judged.1, strict.tell judged.2 after)) hjudge
        rw [strict.drop_visitors hv]
        simp only [consultFrom, hconsult]
        exact .parted ⟨state.2, index, _, hook, node, left, directive, refused.tag,
          place.rule.name, rfl, hwritten, Reaches.isPrefix hreaches⟩
  exact hfrom _ 0 (Nat.zero_add _) node state

/-- The walkers that write down their acts, one checking shapes and the other not. Once the first
one has failed for a shape, all that it did is done by the other one, too. -/
def checks : Tandem (walker.checking true).recorded (walker.checking false).recorded where
  toTies := .same Refused
  rooms := fun room room' _ => room = room'
  starts := by
    rintro nodes state _ rfl
    exact Eq.refl _
  tells := by
    rintro event state _ - rfl
    exact Eq.refl _
  shows := by
    rintro hook nodes state _ rfl
    simp only [checking, recorded_withOptions, showAll_withOptions]
    exact .self _
  asks := by
    rintro hook place node state _ rfl
    exact walker.asks_checking hook place node state
  stops := Ties.same_stops
  unstopped := by
    rintro state state' ⟨front, index, name, hook, node, left, directive, tag, slot, hwhy, -⟩
    cases hwhy
  stays := by
    rintro why act state state' final
      ⟨front, index, name, hook, node, left, directive, tag, slot, hwhy, hacts, hprefix⟩ hdoes
    have hreaches : (walker.checking false).recorded.Reaches state' final :=
      ⟨[act], final, hdoes, rfl⟩
    exact ⟨front, index, name, hook, node, left, directive, tag, slot, hwhy, hacts,
      hprefix.trans hreaches.isPrefix⟩
  tooDeep := by
    rintro depth limit tag state _ exceeded rfl
    exact .inl ⟨exceeded, rfl, rfl⟩
  descends := by
    rintro room room' depth hrooms allowed
    exact ⟨allowed, Nat.succ.inj hrooms⟩
  noRoom := by
    rintro room' depth state _ rfl rfl
    exact .inl ⟨rfl, rfl, rfl⟩
  someRoom := nofun

/-- With shapes checked the traversal is the same, or it ends with the answer of a visitor and a
failure for a shape, and all that it did is done without checks, too. -/
lemma traverse_checking (stack : Nat) (nodes : List (Tree ρ α)) (state : σ) :
    let strict := walker.checking true
    let lax := walker.checking false
    (lax.traverse stack nodes state = strict.traverse stack nodes state ∧
        lax.acts stack nodes state = strict.acts stack nodes state) ∨
      ∃ why, (strict.traverse stack nodes state).halt = some why ∧
        Refused why ((strict.traverse stack nodes state).state, strict.acts stack nodes state)
          ((lax.traverse stack nodes state).state, lax.acts stack nodes state) := by
  intro strict lax
  rcases (walker.checks.traverse rfl nodes rfl).eq_or_parted with heq | ⟨why, hwhy, hrefused⟩
  · exact .inl (eq_of_recorded_eq heq)
  · rw [(strict.recorded_traverse stack nodes state).1] at hwhy hrefused
    rw [(lax.recorded_traverse stack nodes state).1] at hrefused
    exact .inr ⟨why, hwhy, hrefused⟩

end Walker

/-- The directive is legal for a node in the place, and it brings along nodes which are not all
accepted there. The first one that is refused has this tag. -/
def Place.Refuses [Admission ρ α] (place : Place ρ) (hook : NodeHook)
    (directive : Directive (Tree ρ α)) (tag : String) : Prop :=
  directive.legal hook place.position = true ∧
    ∃ passed refused others, directive.carried = passed ++ refused :: others ∧
      (∀ new ∈ passed, place.rule.accepts new = true) ∧ place.rule.accepts refused = false ∧
      refused.tag = tag

/-- The same traverser, with shapes checked or not. -/
def Traverser.checking (checks : Bool) (traverser : Traverser) : Traverser :=
  { traverser with options := traverser.options.checking checks }

/-- How a traversal that fails for a shape ends: with the first call that brings along nodes which
the slot of the node in hand refuses. -/
lemma Walker.Leaves.of_refused [Admission ρ α] {walker : Walker ρ α σ} {stack : Nat}
    {nodes : List (Tree ρ α)} {state : σ} {trail : List (Moment ρ α)}
    (h : walker.Leaves stack nodes state trail) {site : CallSite} {tag slot : String}
    (failed : (walker.traverse stack nodes state).halt =
      some (.failed (.visitorFailed site (some tag) (.shape ⟨tag, slot⟩))))
    {front : List (Act ρ α)} {index : Nat} {name : String} {hook : NodeHook} {node left : Tree ρ α}
    {directive : Directive (Tree ρ α)}
    (hacts : walker.acts stack nodes state =
      front ++ [.node index name hook node (.answered left directive)]) :
    ∃ before spot,
      trail = before ++
        [.acted (some spot) (.node index name hook node (.answered left directive))] ∧
      Moment.Faultless walker.options before ∧
      spot.address.find? .topLevel (Moment.replay walker.options before (.list nodes)) =
        some (spot.place, node) ∧
      0 < spot.address.depth ∧ spot.place.rule.name = slot ∧
      spot.place.Refuses hook directive tag ∧
      spot.address.graft [left] (Moment.replay walker.options before (.list nodes)) =
        .list (walker.traverse stack nodes state).items := by
  obtain ⟨-, hfailed, -⟩ := h.trodden.outcome
  obtain ⟨fault, hlast⟩ := hfailed _ failed
  obtain ⟨before, spot, rfl, hbefore, fails⟩ := hlast.of_answered (h.acts_eq.trans hacts)
  obtain ⟨spot, refused, rfl, hlegal, hrefused, htag, hcause⟩ := fails.of_answered
  obtain ⟨-, passed, others, hcarried, accepts, refuses⟩ :=
    Options.firstRefused_eq_some_iff.1 hrefused
  obtain rfl := Option.some.inj htag
  have hslot : slot = spot.place.rule.name := by
    cases hcause
    rfl
  have hplaced := h.placed
  have hreplay := h.replay
  refine ⟨before, spot, rfl, hbefore, hplaced, hplaced.depth_pos refuses, hslot.symm,
    ⟨hlegal, passed, refused, others, hcarried, accepts, refuses, rfl⟩, ?_⟩
  -- The directive is not followed.
  have houtcome : (NodeReply.answered left directive).outcome walker.options hook spot.place node =
      [left] := by
    simp [NodeReply.outcome, hrefused]
  rw [Moment.replay_append] at hreplay
  rw [← houtcome]
  exact hreplay

namespace Traverser

variable {V : Type} [Admission ρ α]

/-- The checking of shapes only rejects. The visitors may themselves start traversals of this
traverser, which then checks shapes or does not, too. Either the traversals with and without checks
are the same, or the one with checks fails with the first call in which a visitor is allowed to
bring along nodes but the slot that holds the node in hand refuses one. The error tells of the first
node that is refused and of the slot, which is never the top level. Up to the end of this call the
traversals do the same, and what is left is the forest as it was then. -/
theorem nest_checked (traverser : Traverser) {behaviour other : Behaviour ρ α V}
    (exchanges : behaviour.Exchanges (traverser.checking true) (traverser.checking false) other)
    {stack nesting : Nat} {nodes : List (Tree ρ α)} {roster : Roster ρ α V} :
    let strict := (traverser.checking true).walker behaviour (nest behaviour stack nesting)
    let lax := (traverser.checking false).walker other (nest other stack nesting)
    let sweep := nest behaviour stack (nesting + 1) (traverser.checking true) nodes roster
    let sweep' := nest other stack (nesting + 1) (traverser.checking false) nodes roster
    (sweep' = sweep ∧ lax.acts stack nodes roster = strict.acts stack nodes roster) ∨
      ∃ front index name hook node left directive tag slot rest,
        sweep.halt = some (.failed
          (.visitorFailed ⟨.node hook, index, name⟩ (some tag) (.shape ⟨tag, slot⟩))) ∧
        strict.acts stack nodes roster =
          front ++ [.node index name hook node (.answered left directive)] ∧
        lax.acts stack nodes roster = strict.acts stack nodes roster ++ rest ∧
        lax.DoesAll (strict.acts stack nodes roster) roster sweep.state ∧
        sweep.state.journal.toList <+: sweep'.state.journal.toList ∧
        ∀ trail, strict.Leaves stack nodes roster trail → ∃ before spot,
          trail = before ++
            [.acted (some spot) (.node index name hook node (.answered left directive))] ∧
          Moment.Faultless strict.options before ∧
          spot.address.find? .topLevel (Moment.replay strict.options before (.list nodes)) =
            some (spot.place, node) ∧
          0 < spot.address.depth ∧ spot.place.rule.name = slot ∧
          spot.place.Refuses hook directive tag ∧
          spot.address.graft [left] (Moment.replay strict.options before (.list nodes)) =
            .list sweep.items := by
  intro strict lax sweep sweep'
  have hvisitors : (traverser.checking false).visitors = (traverser.checking true).visitors := rfl
  have hlax : lax = strict.withOptions (traverser.checking false).options :=
    walker_exchange hvisitors exchanges stack nesting
  have hcases := strict.traverse_checking stack nodes roster
  obtain ⟨htraverse, hacts⟩ | ⟨why, failed, front, index, name, hook, node, left, directive, tag,
    slot, rfl, hshort, rest, hrest⟩ := hcases
  · refine .inl ⟨?_, hlax ▸ hacts⟩
    exact (congrArg (fun walker => walker.traverse stack nodes roster) hlax).trans htraverse
  · have hlong : lax.acts stack nodes roster = strict.acts stack nodes roster ++ rest :=
      hlax ▸ hrest.symm
    obtain ⟨-, -, hdoes⟩ := strict.recorded_traverse stack nodes roster
    obtain ⟨-, -, hdoes'⟩ := lax.recorded_traverse stack nodes roster
    have hall : lax.DoesAll (strict.acts stack nodes roster) roster sweep.state :=
      hlax ▸ (strict.doesAll_withOptions _).2 hdoes
    rw [hlong] at hdoes'
    obtain ⟨mid, hfirst, hlater⟩ := lax.doesAll_append.1 hdoes'
    obtain rfl := hall.unique hfirst
    exact .inr ⟨front, index, name, hook, node, left, directive, tag, slot, rest, failed, hshort,
      hlong, hall, (nest_steps other stack nesting).doesAll_journal hlater,
      fun trail hleaves => hleaves.of_refused failed hshort⟩

/-- Starts a traversal of each node with a traverser of its own, and in the end tries to put an
expression in the place of an echo. -/
def meddle (traverser : Traverser) : Behaviour Shape Unit Unit where
  name := fun _ => "meddle"
  node := fun hook state node =>
    let directive : Directive (Tree Shape Unit) :=
      match hook with
      | .enter => .keep
      | .leave => if node.tag = "Stmt_Echo" then .replace { tag := "Expr_Text" } else .keep
    .traverse traverser [node] fun _ =>
      .finish { state := state, node := node, answer := .ok directive }

/-- A block with room for statements only. -/
def echoBlock : Tree Shape Unit where
  tag := "Stmt_Block"
  slots := [⟨⟨"body", some .stmt⟩, .list [{ tag := "Stmt_Echo" }, { tag := "Stmt_Nop" }]⟩]

/-- With shapes checked a traversal fails at the echo in the block, and without it goes on from
there. -/
theorem meddle_checked :
    let strict : Traverser := checking true { visitors := [0] }
    let lax : Traverser := checking false { visitors := [0] }
    let roster : Roster Shape Unit Unit := .ofList [()]
    let sweep := nest (meddle strict) 4 2 strict [echoBlock] roster
    let walker := strict.walker (meddle strict) (nest (meddle strict) 4 1)
    let walker' := lax.walker (meddle lax) (nest (meddle lax) 4 1)
    ∃ front index name hook node left directive tag slot rest,
      sweep.halt = some (.failed
        (.visitorFailed ⟨.node hook, index, name⟩ (some tag) (.shape ⟨tag, slot⟩))) ∧
      walker.acts 4 [echoBlock] roster =
        front ++ [.node index name hook node (.answered left directive)] ∧
      walker'.acts 4 [echoBlock] roster = walker.acts 4 [echoBlock] roster ++ rest := by
  intro strict lax roster sweep walker walker'
  have exchanges : (meddle strict).Exchanges strict lax (meddle lax) :=
    ⟨fun _ => rfl, fun _ _ _ => .traverse (.inr ⟨rfl, rfl⟩) fun _ => .finish rfl,
      fun _ _ _ => .finish rfl⟩
  have hstrict : sweep.halt.isSome = true := by
    decide +kernel
  have hlax : (nest (meddle lax) 4 2 lax [echoBlock] roster).halt.isSome = false := by
    decide +kernel
  obtain ⟨hsame, -⟩ | ⟨front, index, name, hook, node, left, directive, tag, slot, rest, failed,
      hacts, hacts', -⟩ := nest_checked { visitors := [0] } exchanges
  · rw [hsame] at hlax
    exact nomatch hlax.symm.trans hstrict
  · exact ⟨front, index, name, hook, node, left, directive, tag, slot, rest, failed, hacts, hacts'⟩

end Traverser

end ForestWalk
