import ForestWalk.Proofs.CallWords
import Mathlib.Data.List.Forall2
/-!
The grammar of calls leaves no choice. Two words for the same sequence are alike up to a call that
is replied to in different ways, so the replies so far determine the next call, and when there is
none. The calls of a traversal are thus the only word that their replies allow.
-/

namespace ForestWalk

variable {ρ α : Type}

/-- The same call with the same reply, by whatever name the visitor goes. -/
inductive Act.Alike : Act ρ α → Act ρ α → Prop
  | node {index : Nat} {name name' : String} {hook : NodeHook} {shown : Tree ρ α}
      {reply : NodeReply ρ α} :
      Alike (.node index name hook shown reply) (.node index name' hook shown reply)
  | sequence {index : Nat} {name name' : String} {hook : SequenceHook} {nodes : List (Tree ρ α)}
      {reply : SequenceReply ρ α} :
      Alike (.sequence index name hook nodes reply) (.sequence index name' hook nodes reply)

/-- The same call, replied to in different ways. -/
inductive Act.Parts : Act ρ α → Act ρ α → Prop
  | node {index : Nat} {name name' : String} {hook : NodeHook} {shown : Tree ρ α}
      {reply reply' : NodeReply ρ α} (differ : reply ≠ reply') :
      Parts (.node index name hook shown reply) (.node index name' hook shown reply')
  | sequence {index : Nat} {name name' : String} {hook : SequenceHook} {nodes : List (Tree ρ α)}
      {reply reply' : SequenceReply ρ α} (differ : reply ≠ reply') :
      Parts (.sequence index name hook nodes reply) (.sequence index name' hook nodes reply')

/-- Two words are alike up to a call that is replied to in different ways. -/
inductive Forks : List (Act ρ α) → List (Act ρ α) → Prop
  | here {call other : Act ρ α} {word more : List (Act ρ α)} (parts : call.Parts other) :
      Forks (call :: word) (other :: more)
  | later {call other : Act ρ α} {word more : List (Act ρ α)} (alike : call.Alike other)
      (others : Forks word more) : Forks (call :: word) (other :: more)

namespace Forks

variable {word more last last' : List (Act ρ α)}

lemma append_left (h : Forks word more) (last : List (Act ρ α)) : Forks (word ++ last) more := by
  induction h with
  | here parts => exact .here parts
  | later alike others ih => exact .later alike ih

lemma append_right (h : Forks word more) (last : List (Act ρ α)) : Forks word (more ++ last) := by
  induction h with
  | here parts => exact .here parts
  | later alike others ih => exact .later alike ih

lemma prepend (alike : List.Forall₂ Act.Alike word more) (h : Forks last last') :
    Forks (word ++ last) (more ++ last') := by
  induction alike with
  | nil => exact h
  | cons alike others ih => exact .later alike ih

end Forks

/-- The words fork, or else they are alike and something holds. -/
def ForksOr (word more : List (Act ρ α)) (P : Prop) : Prop :=
  Forks word more ∨ List.Forall₂ Act.Alike word more ∧ P

namespace ForksOr

variable {word more last last' : List (Act ρ α)} {P Q : Prop} {index : Nat} {name name' : String}

lemma imp (h : ForksOr word more P) (f : P → Q) : ForksOr word more Q :=
  Or.imp_right (And.imp_right f) h

lemma forks (h : ForksOr word more P) (impossible : ¬ P) : Forks word more :=
  h.resolve_right fun h => impossible h.2

/-- After the same call with a node, words go on alike as long as the replies are the same. -/
lemma node {hook : NodeHook} {shown : Tree ρ α} {reply reply' : NodeReply ρ α}
    (others : reply = reply' → ForksOr word more P) :
    ForksOr (.node index name hook shown reply :: word)
      (.node index name' hook shown reply' :: more) P := by
  by_cases h : reply = reply'
  · subst h
    rcases others rfl with hf | ⟨halike, hp⟩
    · exact .inl (.later .node hf)
    · exact .inr ⟨.cons .node halike, hp⟩
  · exact .inl (.here (.node h))

/-- After the same call with the sequence, words go on alike as long as the replies are the
same. -/
lemma sequence {hook : SequenceHook} {nodes : List (Tree ρ α)} {reply reply' : SequenceReply ρ α}
    (others : reply = reply' → ForksOr word more P) :
    ForksOr (.sequence index name hook nodes reply :: word)
      (.sequence index name' hook nodes reply' :: more) P := by
  by_cases h : reply = reply'
  · subst h
    rcases others rfl with hf | ⟨halike, hp⟩
    · exact .inl (.later .sequence hf)
    · exact .inr ⟨.cons .sequence halike, hp⟩
  · exact .inl (.here (.sequence h))

lemma append (first : ForksOr word more P) (second : P → ForksOr last last' Q) :
    ForksOr (word ++ last) (more ++ last') Q := by
  rcases first with hf | ⟨halike, hp⟩
  · exact .inl ((hf.append_left last).append_right last')
  · rcases second hp with hf | ⟨hlast, hq⟩
    · exact .inl (.prepend halike hf)
    · exact .inr ⟨List.rel_append halike hlast, hq⟩

end ForksOr

variable {count : Nat}

theorem HookWord.forksOr {hook : NodeHook} {position : Position} {index : Nat} {node : Tree ρ α}
    {word more : List (Act ρ α)} {verdict verdict' : Verdict (Tree ρ α)}
    (h : HookWord count hook position index node word verdict)
    (h' : HookWord count hook position index node more verdict') :
    ForksOr word more (verdict = verdict') := by
  induction h generalizing more verdict' with
  | through node =>
    cases h' with
    | through => exact .inr ⟨.nil, rfl⟩
    | _ => omega
  | kept inRange others ih | replaced inRange others ih =>
    cases h' with
    | through => omega
    | kept inRange' others' | replaced inRange' others' =>
      refine .node fun heq => ?_
      cases heq <;> exact ih others'
    | _ => exact .inl (.here (.node (by simp)))
  | removed | skipped | spliced =>
    cases h' with
    | through => omega
    | _ =>
      refine .node fun heq => ?_
      cases heq <;> exact .inr ⟨.nil, rfl⟩

theorem SequenceWord.forksOr {hook : SequenceHook} {index : Nat}
    {nodes items items' : List (Tree ρ α)} {word more : List (Act ρ α)}
    (h : SequenceWord count hook index nodes word items)
    (h' : SequenceWord count hook index nodes more items') :
    ForksOr word more (items = items') := by
  induction h generalizing more items' with
  | through nodes =>
    cases h' with
    | through => exact .inr ⟨.nil, rfl⟩
    | _ => omega
  | kept inRange others ih | replaced inRange others ih =>
    cases h' with
    | through => omega
    | _ =>
      refine .sequence fun heq => ?_
      cases heq <;> exact ih ‹_›

mutual

theorem NodeWord.forksOr {position : Position} {node : Tree ρ α} {word more : List (Act ρ α)}
    {fate fate' : Fate (Tree ρ α)} :
    NodeWord count position node word fate → NodeWord count position node more fate' →
      ForksOr word more (fate = fate')
  | .walked entered descended left, .walked entered' descended' left' => by
    rw [List.append_assoc, List.append_assoc]
    refine .append (entered.forksOr entered') fun heq => ?_
    cases heq
    refine .append (SlotsWord.forksOr descended descended') fun heq => ?_
    cases heq
    exact (left.forksOr left').imp (congrArg Verdict.fate)
  | .skipped entered left, .skipped entered' left' =>
    .append (entered.forksOr entered') fun heq => by
      cases heq
      exact (left.forksOr left').imp (congrArg Verdict.fate)
  | .removed entered, .removed entered' => (entered.forksOr entered').imp fun _ => rfl
  | .walked entered _ _, .skipped entered' _ =>
    have hf := (entered.forksOr entered').forks nofun
    .inl (((hf.append_left _).append_left _).append_right _)
  | .skipped entered _, .walked entered' _ _ =>
    have hf := (entered.forksOr entered').forks nofun
    .inl (((hf.append_left _).append_right _).append_right _)
  | .walked entered _ _, .removed entered' =>
    have hf := (entered.forksOr entered').forks nofun
    .inl ((hf.append_left _).append_left _)
  | .removed entered, .walked entered' _ _ =>
    have hf := (entered.forksOr entered').forks nofun
    .inl ((hf.append_right _).append_right _)
  | .skipped entered _, .removed entered' =>
    .inl (((entered.forksOr entered').forks nofun).append_left _)
  | .removed entered, .skipped entered' _ =>
    .inl (((entered.forksOr entered').forks nofun).append_right _)

theorem SlotsWord.forksOr {slots items items' : List (Slot ρ α (Tree ρ α))}
    {word more : List (Act ρ α)} :
    SlotsWord count slots word items → SlotsWord count slots more items' →
      ForksOr word more (items = items')
  | .nil, .nil => .inr ⟨.nil, rfl⟩
  | .vacant others, .vacant others' | .value others, .value others' =>
    (SlotsWord.forksOr others others').imp (congrArg _)
  | .kept visited others, .kept visited' others' =>
    .append (NodeWord.forksOr visited visited') fun heq => by
      cases heq
      exact (SlotsWord.forksOr others others').imp (congrArg _)
  | .cleared visited others, .cleared visited' others' =>
    .append (NodeWord.forksOr visited visited') fun _ =>
      (SlotsWord.forksOr others others').imp (congrArg _)
  | .kept visited _, .cleared visited' _ | .cleared visited _, .kept visited' _ =>
    .append (NodeWord.forksOr visited visited') nofun
  | .list walked others, .list walked' others' =>
    .append (ListWord.forksOr walked walked') fun heq => by
      cases heq
      exact (SlotsWord.forksOr others others').imp (congrArg _)

theorem ListWord.forksOr {position : Position} {nodes items items' : List (Tree ρ α)}
    {word more : List (Act ρ α)} :
    ListWord count position nodes word items → ListWord count position nodes more items' →
      ForksOr word more (items = items')
  | .nil _, .nil _ => .inr ⟨.nil, rfl⟩
  | .cons visited part others, .cons visited' part' others' =>
    .append (NodeWord.forksOr visited visited') fun heq => by
      cases heq
      cases part.symm.trans part'
      exact (ListWord.forksOr others others').imp (congrArg _)

end

/-- Two words of a traversal are alike, with the same outcome, unless some visitor replies to the
same call in different ways. -/
theorem TraversalWord.forksOr {nodes items items' : List (Tree ρ α)}
    {word more : List (Act ρ α)} (h : TraversalWord count nodes word items)
    (h' : TraversalWord count nodes more items') : ForksOr word more (items = items') := by
  obtain ⟨shown, walked, shownAgain⟩ := h
  obtain ⟨shown', walked', shownAgain'⟩ := h'
  rw [List.append_assoc, List.append_assoc]
  refine .append (shown.forksOr shown') fun heq => ?_
  cases heq
  refine .append (walked.forksOr walked') fun heq => ?_
  cases heq
  exact shownAgain.forksOr shownAgain'

/-- If a traversal comes to its end, and no visitor asked to walk no further, then its calls spell a
word of the grammar, and the sequence is what this word makes of it. The replies allow no other
word: any word for the same sequence calls the same visitors with the same in the same order, as
long as the replies are the same, and with all replies the same it makes the same of the
sequence. -/
theorem Walker.traverse_word [Admission ρ α] {σ : Type} (walker : Walker ρ α σ) (stack : Nat)
    (nodes : List (Tree ρ α)) (state : σ)
    (finished : (walker.traverse stack nodes state).halt = none)
    (unstopped : ∀ act ∈ walker.acts stack nodes state, act.stops = false) :
    TraversalWord walker.visitors.length nodes (Act.calls (walker.acts stack nodes state))
        (walker.traverse stack nodes state).items ∧
      ∀ word items, TraversalWord walker.visitors.length nodes word items →
        ForksOr (Act.calls (walker.acts stack nodes state)) word
          ((walker.traverse stack nodes state).items = items) := by
  obtain ⟨-, hrun, -⟩ := walker.recorded_traverse stack nodes state
  simp only [finished] at hrun
  have hword := hrun.word unstopped
  exact ⟨hword, fun word items hother => hword.forksOr hother⟩

namespace Walker

/-- Removes echoes when they are entered, and does not go into functions. -/
def prune : NodeHook → Tree Shape Unit → NodeReply Shape Unit
  | .enter, node =>
    .answered node (if node.tag = "Stmt_Echo" then .remove
      else if node.tag = "Stmt_Function" then .skipChildren else .keep)
  | .leave, node => .answered node .keep

/-- Doubles loops when they are left. -/
def double : NodeHook → Tree Shape Unit → NodeReply Shape Unit
  | .enter, node => .answered node .keep
  | .leave, node => .answered node (if node.tag = "Stmt_Loop" then .splice [node, node] else .keep)

/-- Prunes, and doubles what is left. -/
def pruneAndDouble : Walker Shape Unit Unit where
  visitors := [.stateless "prune" prune, .stateless "double" double]
  options := {}
  emit := fun _ state => state

/-- A function with an echo in it, next to a block with a loop and an echo. -/
def functionAndBlock : List (Tree Shape Unit) :=
  [{ tag := "Stmt_Function", slots := [⟨⟨"body", none⟩, .list [{ tag := "Stmt_Echo" }]⟩] },
    { tag := "Stmt_Block",
      slots := [⟨⟨"body", none⟩, .list [{ tag := "Stmt_Loop" }, { tag := "Stmt_Echo" }]⟩] }]

theorem pruneAndDouble_word :
    (pruneAndDouble.traverse 3 functionAndBlock ()).halt = none ∧
      (∀ act ∈ pruneAndDouble.acts 3 functionAndBlock (), act.stops = false) ∧
      TraversalWord 2 functionAndBlock (Act.calls (pruneAndDouble.acts 3 functionAndBlock ()))
        (pruneAndDouble.traverse 3 functionAndBlock ()).items ∧
      ∀ word items, TraversalWord 2 functionAndBlock word items →
        ForksOr (Act.calls (pruneAndDouble.acts 3 functionAndBlock ())) word
          ((pruneAndDouble.traverse 3 functionAndBlock ()).items = items) := by
  have finished : (pruneAndDouble.traverse 3 functionAndBlock ()).halt = none := by
    decide +kernel
  have unstopped : ∀ act ∈ pruneAndDouble.acts 3 functionAndBlock (), act.stops = false := by
    decide +kernel
  exact ⟨finished, unstopped,
    pruneAndDouble.traverse_word 3 functionAndBlock () finished unstopped⟩

end Walker

end ForestWalk
