import FormalLanguages.Model.FiniteAutomaton

/-! # Removal of zero transitions and unreachable states (`automaton-optimizer.hpp`) -/

namespace FormalLanguages.AutomatonOptimizer

/-- The scan over one state's transitions, whose counter steps back after each removal. -/
def dropZero : List FiniteAutomatonTransition → List FiniteAutomatonTransition
  | [] => []
  | t :: ts => if t.regex.isZero then dropZero ts else t :: dropZero ts

def removeZeroTransitions (A : FiniteAutomaton) : FiniteAutomaton :=
  { A with states := A.states.map fun s => { s with transitions := dropZero s.transitions } }

/-- The marks and the stack of the search, its top first. -/
structure Marking where
  reachable : List Bool
  currentStates : List ℕ

/-- Mark one target and push it, unless it is marked. -/
def markTarget (m : Marking) (t : FiniteAutomatonTransition) : Marking :=
  if m.reachable.getD t.targetIndex false then m
  else ⟨m.reachable.set t.targetIndex true, t.targetIndex :: m.currentStates⟩

def markReachable (A : FiniteAutomaton) : Comp Fault (List Bool) :=
  Comp.loop (fun m : Marking =>
    match m.currentStates with
    | [] => pure (.inr m.reachable)
    | i :: stack =>
        pure (.inl ((A.state i).transitions.foldl markTarget ⟨m.reachable, stack⟩)))
    ⟨(List.replicate A.states.length false).set A.startStateIndex true, [A.startStateIndex]⟩

/-- Remove the unmarked states among the first `n`, from the highest index down. -/
def removeUnmarked (reachable : List Bool) : ℕ → FiniteAutomaton → FiniteAutomaton
  | 0, A => A
  | n + 1, A =>
      removeUnmarked reachable n (if reachable.getD n false then A else A.removeState n)

def removeUnreachableStates (A : FiniteAutomaton) : Comp Fault FiniteAutomaton := do
  let reachable ← markReachable A
  pure (removeUnmarked reachable reachable.length A)

def optimize (A : FiniteAutomaton) : Comp Fault FiniteAutomaton :=
  removeUnreachableStates (removeZeroTransitions A)

/-! ## The same steps in place -/

namespace InPlace

/-- What the scan of `remove_zero_transitions` does with one transition. -/
def eraseZero (t : FiniteAutomatonTransition) : Option FiniteAutomatonTransition :=
  if t.regex.isZero then none else some t

def removeZeroTransitions (A : FiniteAutomaton) : Comp Fault FiniteAutomaton :=
  FiniteAutomaton.InPlace.scanStates eraseZero A

def removeUnmarked (reachable : List Bool) : ℕ → FiniteAutomaton → Comp Fault FiniteAutomaton
  | 0, A => pure A
  | n + 1, A =>
      if reachable.getD n false then removeUnmarked reachable n A
      else do
        let B ← FiniteAutomaton.InPlace.removeState A n
        removeUnmarked reachable n B

def removeUnreachableStates (A : FiniteAutomaton) : Comp Fault FiniteAutomaton := do
  let reachable ← markReachable A
  removeUnmarked reachable reachable.length A

def optimize (A : FiniteAutomaton) : Comp Fault FiniteAutomaton := do
  let B ← removeZeroTransitions A
  removeUnreachableStates B

end InPlace

end FormalLanguages.AutomatonOptimizer
