import FormalLanguages.Model.FiniteAutomaton
import Mathlib.Data.List.Sort

/-! # Removal of epsilon transitions (`epsilon-remover.hpp`) -/

namespace FormalLanguages.EpsilonRemover

/-! ## Merging the states of an epsilon cycle -/

/-- What the inner loop of `merge_states` appends for one transition. -/
def mergeTransition (states : List ℕ) (merged stateIndex : ℕ) (t : FiniteAutomatonTransition)
    (A : FiniteAutomaton) : FiniteAutomaton :=
  let inputMerged := states.contains stateIndex
  let outputMerged := states.contains t.targetIndex
  if outputMerged && !inputMerged then A.addTransition stateIndex merged t.regex
  else if inputMerged && !outputMerged then A.addTransition merged t.targetIndex t.regex
  else if inputMerged && outputMerged then
    if !t.regex.isCharOf 0 then A.addTransition merged merged t.regex else A
  else A

/-- The scan over one state's transitions, whose list may grow meanwhile. -/
def mergeFrom (states : List ℕ) (merged : ℕ) (A : FiniteAutomaton) (stateIndex : ℕ) :
    Comp Fault FiniteAutomaton :=
  Comp.loop (fun p : FiniteAutomaton × ℕ =>
    match (p.1.state stateIndex).transitions[p.2]? with
    | none => pure (.inr p.1)
    | some t => pure (.inl (mergeTransition states merged stateIndex t p.1, p.2 + 1))) (A, 0)

def mergeStates (A : FiniteAutomaton) (states : List ℕ) : Comp Fault FiniteAutomaton := do
  let isFinal := states.any fun i => (A.state i).isFinal
  let p := A.addState isFinal
  let B ← (List.range p.1.states.length).foldlM (mergeFrom states p.2) p.1
  pure ((states.insertionSort (· ≥ ·)).foldl (fun B i => B.removeState i) B)

/-! ## Searching for an epsilon cycle -/

/-- The automaton, the stack of the search (its top first) and the marks of `stack_map`. -/
structure Search where
  automaton : FiniteAutomaton
  stack : List ℕ
  stackMap : List Bool

/-- The part of the stack from its top down to `target`. -/
def cutLoop (target : ℕ) : List ℕ → List ℕ
  | [] => []
  | i :: stack => if i = target then [i] else i :: cutLoop target stack

/-- The loop of the search over the transitions of one state, where `dfs` is the recursive
call. The flag is the value returned by the source. -/
def searchTransitions (dfs : ℕ → Search → Comp Fault (Bool × Search)) :
    List FiniteAutomatonTransition → Search → Comp Fault (Bool × Search)
  | [], s => pure (false, s)
  | t :: ts, s =>
      if t.regex.isEmpty then
        if s.stackMap.getD t.targetIndex false then do
          let A ← mergeStates s.automaton (cutLoop t.targetIndex s.stack)
          pure (true, { s with automaton := A })
        else do
          let p ← dfs t.targetIndex s
          if p.1 then pure (true, p.2) else searchTransitions dfs ts p.2
      else searchTransitions dfs ts s

/-- `depth` bounds the recursion; a call beyond it has no outcome. -/
def removeEpsilonLoopDfs : ℕ → ℕ → Search → Comp Fault (Bool × Search)
  | 0, _, _ => Comp.diverge
  | depth + 1, stateIndex, s => do
      let s := { s with
        stack := stateIndex :: s.stack
        stackMap := s.stackMap.set stateIndex true }
      let p ← searchTransitions (removeEpsilonLoopDfs depth)
        (s.automaton.state stateIndex).transitions s
      if p.1 then pure (true, p.2)
      else pure (false, { p.2 with
        stack := p.2.stack.tail
        stackMap := p.2.stackMap.set stateIndex false })

/-- Whether an epsilon cycle was found and merged, and the automaton. The stack is a path
without repetitions, so one level of recursion more than there are states is enough. -/
def removeEpsilonLoop (A : FiniteAutomaton) (stateIndex : ℕ) :
    Comp Fault (Bool × FiniteAutomaton) := do
  let p ← removeEpsilonLoopDfs (A.states.length + 1) stateIndex
    ⟨A, [], List.replicate A.states.length false⟩
  pure (p.1, p.2.automaton)

/-! ## Replacing one epsilon transition -/

/-- Copies of the target's transitions are appended. A self-loop of the target becomes a
self-loop of the source. -/
def copyTransitions (A : FiniteAutomaton) (stateIndex targetIndex : ℕ) : FiniteAutomaton :=
  (A.state targetIndex).transitions.foldl (fun A t =>
    A.addTransition stateIndex
      (if t.targetIndex = targetIndex then stateIndex else t.targetIndex) t.regex) A

def removeEpsilonTransition (A : FiniteAutomaton) (stateIndex transitionIndex : ℕ) :
    FiniteAutomaton :=
  match (A.state stateIndex).transitions[transitionIndex]? with
  | none => A
  | some ⟨_, targetIndex⟩ =>
      if stateIndex = targetIndex then A.removeTransition stateIndex transitionIndex
      else
        let B := copyTransitions A stateIndex targetIndex
        let B := if (B.state targetIndex).isFinal then B.makeStateFinal stateIndex true else B
        B.removeTransition stateIndex transitionIndex

/-! ## The scan of `simplify` -/

/-- The automaton and the two loop counters of `simplify`. -/
structure Scan where
  automaton : FiniteAutomaton
  i : ℕ
  j : ℕ

/-- One round of the two nested loops. After a merge the scan starts again from state `0`;
after a replacement the same position is looked at again. -/
def scanStep (s : Scan) : Comp Fault (Scan ⊕ FiniteAutomaton) :=
  if s.automaton.states.length ≤ s.i then pure (.inr s.automaton)
  else match (s.automaton.state s.i).transitions[s.j]? with
    | none => pure (.inl ⟨s.automaton, s.i + 1, 0⟩)
    | some t =>
        if t.regex.isCharOf 0 then do
          let p ← removeEpsilonLoop s.automaton s.i
          if p.1 then pure (.inl ⟨p.2, 0, 0⟩)
          else pure (.inl ⟨removeEpsilonTransition p.2 s.i s.j, s.i, s.j⟩)
        else pure (.inl ⟨s.automaton, s.i, s.j + 1⟩)

def simplify (A : FiniteAutomaton) : Comp Fault FiniteAutomaton :=
  Comp.loop scanStep ⟨A, 0, 0⟩

end FormalLanguages.EpsilonRemover
