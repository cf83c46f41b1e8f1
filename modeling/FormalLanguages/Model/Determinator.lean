import FormalLanguages.Model.FiniteAutomaton
import Mathlib.Data.List.Lex
import Mathlib.Data.Prod.Lex

/-! # Subset construction (`automaton-determinator.hpp`) -/

namespace FormalLanguages

structure StateSuperposition where
  states : OrdSet ℕ := ∅
  isFinal : Bool := false
  id : ℕ := 0

namespace StateSuperposition

/-- `operator<`: by size, then finality, then contents. The id does not take part. -/
def lt (a b : StateSuperposition) : Bool :=
  if a.states.size < b.states.size then true
  else if b.states.size < a.states.size then false
  else if a.isFinal < b.isFinal then true
  else if b.isFinal < a.isFinal then false
  else a.states.toList < b.states.toList

/-- The linear order that `operator<` compares by. -/
def key (a : StateSuperposition) : ℕ ×ₗ Bool ×ₗ List ℕ :=
  toLex (a.states.size, toLex (a.isFinal, a.states.toList))

theorem lt_iff_key_lt {a b : StateSuperposition} : a.lt b = true ↔ a.key < b.key := by
  rw [key, key, Prod.Lex.toLex_lt_toLex, Prod.Lex.toLex_lt_toLex, lt]
  rcases lt_trichotomy a.states.size b.states.size with hs | hs | hs
  · simp [hs]
  · rcases lt_trichotomy a.isFinal b.isFinal with hf | hf | hf
    · simp [hs, hf]
    · simp [hs, hf]
    · have hfalse : b.isFinal = false ∧ a.isFinal = true := by
        revert hf
        cases a.isFinal <;> cases b.isFinal <;> simp
      simp [hs, hfalse]
  · simp [hs, hs.asymm, hs.ne']

end StateSuperposition

structure SuperpositionTransition where
  sourceIndex : ℕ
  targetIndex : ℕ
  ch : CChar

structure SuperpositionVariant where
  character : CChar
  targets : List ℕ

/-- `std::unordered_map<char, StateSuperposition>`, its entries in some order. -/
abbrev NextSuperpositions := List (CChar × StateSuperposition)

structure AutomatonDeterminator where
  foundSuperpositions : OrderedSet StateSuperposition.key
  foundTransitions : List SuperpositionTransition

/-- An order in which the entries of an `unordered_map` are met. It may depend on all the
determinator has done before. -/
structure IterationOrder where
  arrange : AutomatonDeterminator → NextSuperpositions → NextSuperpositions
  perm : ∀ d m, (arrange d m).Perm m

namespace IterationOrder

/-- The entries in the order in which they were inserted. -/
def insertion : IterationOrder := ⟨fun _ m => m, fun _ _ => .refl _⟩

end IterationOrder

namespace AutomatonDeterminator

/-- `StateBoundSuperposition::add_transition`. -/
def addTransition (c : CChar) (state : ℕ) : List SuperpositionVariant → List SuperpositionVariant
  | [] => [⟨c, [state]⟩]
  | v :: transitions =>
      if v.character = c then ⟨c, v.targets ++ [state]⟩ :: transitions
      else v :: addTransition c state transitions

/-- The letter transitions of one state, gathered by letter. -/
def stateBoundSuperposition (A : FiniteAutomaton) (stateIndex : ℕ) : List SuperpositionVariant :=
  (A.state stateIndex).transitions.foldl (fun variants t =>
    match t.regex with
    | .char ch => if ch != 0 then addTransition ch t.targetIndex variants else variants
    | _ => variants) []

def addTarget (A : FiniteAutomaton) (s : StateSuperposition) (target : ℕ) : StateSuperposition :=
  { s with
    states := s.states.insert target
    isFinal := s.isFinal || (A.state target).isFinal }

/-- `add_superposition_char_transition`; a new letter starts from the empty superposition. -/
def addSuperpositionCharTransition (A : FiniteAutomaton) (c : CChar) (targets : List ℕ) :
    NextSuperpositions → NextSuperpositions
  | [] => [(c, targets.foldl (addTarget A) {})]
  | p :: next =>
      if p.1 = c then (p.1, targets.foldl (addTarget A) p.2) :: next
      else p :: addSuperpositionCharTransition A c targets next

def addStateBoundSuperpositions (A : FiniteAutomaton) (transitions : List SuperpositionVariant)
    (next : NextSuperpositions) : NextSuperpositions :=
  transitions.foldl (fun next v => addSuperpositionCharTransition A v.character v.targets next) next

/-- The entries of `next_superpositions` for one superposition. -/
def nextSuperpositions (A : FiniteAutomaton) (s : StateSuperposition) : NextSuperpositions :=
  s.states.toList.foldl (fun next i =>
    addStateBoundSuperpositions A (stateBoundSuperposition A i) next) []

/-- One entry: the superposition is looked up or inserted with the next id, and the
transition is recorded. The flag is `changed`. -/
def recordEntry (source : ℕ) (p : AutomatonDeterminator × Bool)
    (entry : CChar × StateSuperposition) : AutomatonDeterminator × Bool :=
  match p.1.foundSuperpositions.find? entry.2.key with
  | none =>
      let id := p.1.foundSuperpositions.size
      (⟨p.1.foundSuperpositions.insert { entry.2 with id := id },
        p.1.foundTransitions ++ [⟨source, id, entry.1⟩]⟩, true)
  | some it =>
      (⟨p.1.foundSuperpositions, p.1.foundTransitions ++ [⟨source, it.id, entry.1⟩]⟩, p.2)

def visit (order : IterationOrder) (A : FiniteAutomaton) (s : StateSuperposition)
    (p : AutomatonDeterminator × Bool) : AutomatonDeterminator × Bool :=
  (order.arrange p.1 (nextSuperpositions A s)).foldl (recordEntry s.id) p

/-- One pass over the set of superpositions, which grows meanwhile. -/
def findNewSuperpositions (order : IterationOrder) (A : FiniteAutomaton)
    (d : AutomatonDeterminator) : Comp Fault (AutomatonDeterminator × Bool) :=
  OrderedSet.forLive (fun p => p.1.foundSuperpositions)
    (fun s p => pure (visit order A s p)) (d, false)

/-- The recorded transitions, each once. -/
def addFound (B : FiniteAutomaton) (t : SuperpositionTransition) : FiniteAutomaton :=
  if (B.findTransitionTo t.ch t.sourceIndex t.targetIndex).isNone then
    B.addTransition t.sourceIndex t.targetIndex (.char t.ch)
  else B

/-- The automaton of what was found. -/
def build (d : AutomatonDeterminator) : FiniteAutomaton :=
  let B := (List.range d.foundSuperpositions.size).foldl (fun B _ => (B.addState false).1)
    ({} : FiniteAutomaton)
  let B := d.foundSuperpositions.toList.foldl (fun B s =>
    if s.isFinal then B.makeStateFinal s.id true else B) B
  d.foundTransitions.foldl addFound B

def startSuperposition (A : FiniteAutomaton) : StateSuperposition where
  states := OrderedSet.insert A.startStateIndex ∅
  isFinal := (A.state A.startStateIndex).isFinal

def determine (order : IterationOrder) (A : FiniteAutomaton) : Comp Fault FiniteAutomaton := do
  Comp.assert (!A.hasEpsilonTransitions) .hasNoEpsilonTransitions
  Comp.assert A.isComplete .isComplete
  let d ← Comp.loop (fun d => do
    let p ← findNewSuperpositions order A d
    pure (if p.2 then .inl p.1 else .inr p.1))
    ⟨OrderedSet.insert (startSuperposition A) ∅, []⟩
  pure (build d)

end AutomatonDeterminator

end FormalLanguages
