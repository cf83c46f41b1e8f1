import FormalLanguages.Model.FiniteAutomaton
import Mathlib.Data.List.Lex
import Mathlib.Data.Prod.Lex

/-! # Minimisation by partition refinement (`automaton-minifier.hpp`) -/

namespace FormalLanguages

structure AutomatonMinifierTransition where
  letter : CChar
  target : ℕ

/-- `operator<`: by letter, then by target. -/
instance : LinearOrder AutomatonMinifierTransition :=
  LinearOrder.lift' (fun t => toLex (t.letter, t.target)) fun s t h => by
    cases s
    cases t
    simpa using h

theorem AutomatonMinifierTransition.lt_iff {s t : AutomatonMinifierTransition} :
    s < t ↔ if s.letter ≠ t.letter then s.letter < t.letter else s.target < t.target := by
  change toLex (s.letter, s.target) < toLex (t.letter, t.target) ↔ _
  rw [Prod.Lex.toLex_lt_toLex]
  by_cases h : s.letter = t.letter
  · simp [h]
  · simp [h]

structure AutomatonMinifierEquivalenceClass where
  classIndex : ℕ
  transitions : List AutomatonMinifierTransition

/-- `operator<`: by class index, then by the vector of transitions. -/
instance : LinearOrder AutomatonMinifierEquivalenceClass :=
  LinearOrder.lift' (fun c => toLex (c.classIndex, c.transitions)) fun s t h => by
    cases s
    cases t
    simpa using h

theorem AutomatonMinifierEquivalenceClass.lt_iff {c d : AutomatonMinifierEquivalenceClass} :
    c < d ↔ if c.classIndex ≠ d.classIndex then c.classIndex < d.classIndex
      else c.transitions < d.transitions := by
  change toLex (c.classIndex, c.transitions) < toLex (d.classIndex, d.transitions) ↔ _
  rw [Prod.Lex.toLex_lt_toLex]
  by_cases h : c.classIndex = d.classIndex
  · simp [h]
  · simp [h]

namespace AutomatonMinifier

/-- The transitions of the key of one state: for every letter, the class of the target. -/
def keyTransitions (A : FiniteAutomaton) (classIndices : List ℕ) (state : ℕ) :
    List CChar → Comp Fault (List AutomatonMinifierTransition)
  | [] => pure []
  | letter :: letters =>
      match A.findTransition letter state with
      | none => Comp.throw .transitionForLetter
      | some transitionIndex => do
          let targetClass := match (A.state state).transitions[transitionIndex]? with
            | some t => classIndices.getD t.targetIndex 0
            | none => 0
          let rest ← keyTransitions A classIndices state letters
          pure (⟨letter, targetClass⟩ :: rest)

/-- `std::map<AutomatonMinifierEquivalenceClass, std::set<int>>`. -/
abbrev EquivClasses := OrdMap AutomatonMinifierEquivalenceClass (OrdSet ℕ)

/-- One state enters the class of its key. -/
def classify (A : FiniteAutomaton) (classIndices : List ℕ) (equivClasses : EquivClasses)
    (state : ℕ) : Comp Fault EquivClasses := do
  let transitions ← keyTransitions A classIndices state A.alphabet.toList
  pure (equivClasses.alter ⟨classIndices.getD state 0, transitions⟩ ∅ fun states =>
    states.insert state)

/-- The states of each class get the number of the class. -/
def renumber (equivClasses : EquivClasses) (classIndices : List ℕ) : List ℕ :=
  (equivClasses.toList.foldl (fun (p : List ℕ × ℕ) entry =>
    (entry.2.toList.foldl (fun v state => v.set state p.2) p.1, p.2 + 1)) (classIndices, 0)).1

/-- The three variables of the refinement loop. -/
structure Refinement where
  classIndices : List ℕ
  newClassIndices : List ℕ
  equivClasses : EquivClasses

def refine (A : FiniteAutomaton) (s : Refinement) : Comp Fault (Refinement ⊕ Refinement) :=
  if s.classIndices ≠ s.newClassIndices then do
    let equivClasses ← (List.range A.states.length).foldlM (classify A s.classIndices) ∅
    -- the two vectors are swapped at the end of the round
    pure (.inl ⟨renumber equivClasses s.newClassIndices, s.classIndices, equivClasses⟩)
  else pure (.inr s)

def initial (A : FiniteAutomaton) : Refinement where
  classIndices := A.states.map fun s => if s.isFinal then 1 else 0
  newClassIndices := List.replicate A.states.length 0
  equivClasses := ∅

/-- One state of a class marks the result's state. -/
def placeState (A : FiniteAutomaton) (classIndex : ℕ) (B : FiniteAutomaton) (oldState : ℕ) :
    FiniteAutomaton :=
  let B := if (A.state oldState).isFinal then B.makeStateFinal classIndex true else B
  if A.startStateIndex = oldState then B.setStartState classIndex else B

/-- One class becomes one state of the result. -/
def placeClass (A B : FiniteAutomaton)
    (entry : AutomatonMinifierEquivalenceClass × OrdSet ℕ) : FiniteAutomaton :=
  let B := entry.2.toList.foldl (placeState A entry.1.classIndex) B
  entry.1.transitions.foldl (fun B t =>
    B.addTransition entry.1.classIndex t.target (.char t.letter)) B

def build (A : FiniteAutomaton) (equivClasses : EquivClasses) : FiniteAutomaton :=
  let B := (({} : FiniteAutomaton).extendAlphabet A.alphabet)
  let B := (List.range equivClasses.size).foldl (fun B _ => (B.addState false).1) B
  equivClasses.toList.foldl (placeClass A) B

def minify (A : FiniteAutomaton) : Comp Fault FiniteAutomaton := do
  let s ← Comp.loop (refine A) (initial A)
  pure (build A s.equivClasses)

end AutomatonMinifier

end FormalLanguages
