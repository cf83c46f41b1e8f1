import FormalLanguages.Model.FiniteAutomaton

/-! # State elimination (`automaton-collapser.hpp`) -/

namespace FormalLanguages.AutomatonCollapser

structure DoubleTransition where
  state1Index : ℕ
  transition1Index : ℕ
  state2Index : ℕ
  transition2Index : ℕ
  state3Index : ℕ

def getFinalStateCount (A : FiniteAutomaton) : ℕ := A.states.countP fun s => s.isFinal

/-- One final state gives its mark to the new one. -/
def redirectFinal (finalStateIndex : ℕ) (A : FiniteAutomaton) (i : ℕ) : FiniteAutomaton :=
  if !(A.state i).isFinal then A
  else if i = finalStateIndex then A
  else (A.makeStateFinal i false).addTransition i finalStateIndex Regex.empty

def ensureOneOutput (A : FiniteAutomaton) : FiniteAutomaton :=
  if getFinalStateCount A ≤ 1 then A
  else
    let p := A.addState true
    (List.range p.1.states.length).foldl (redirectFinal p.2) p.1

def pickStateToCollapse (A : FiniteAutomaton) : Option ℕ :=
  (List.range A.states.length).find? fun i => !(A.state i).isFinal && i != A.startStateIndex

/-! ## Parallel transitions -/

/-- The target that `collapse_multiple_edges` settles on: the last one met before. -/
def multipleTarget : List FiniteAutomatonTransition → OrdSet ℕ → Option ℕ → Option ℕ
  | [], _, found => found
  | t :: ts, metTargets, found =>
      if metTargets.contains t.targetIndex then
        multipleTarget ts metTargets (some t.targetIndex)
      else multipleTarget ts (metTargets.insert t.targetIndex) found

/-- The automaton after merging the transitions to one target, or `none` where the source
returns `false`. -/
def collapseMultipleEdges (A : FiniteAutomaton) (stateIndex : ℕ) : Option FiniteAutomaton :=
  let transitions := (A.state stateIndex).transitions
  if transitions.length ≤ 1 then none
  else match multipleTarget transitions ∅ none with
    | none => none
    | some target =>
        let toCollapse := (List.range transitions.length).filter fun j =>
          (transitions[j]?.map FiniteAutomatonTransition.targetIndex) == some target
        let regex := toCollapse.foldl (fun regex j =>
          match transitions[j]? with
          | some t => regex.addAssign t.regex
          | none => regex) Regex.zero
        let A := toCollapse.reverse.foldl (fun A j => A.removeTransition stateIndex j) A
        some (A.addTransition stateIndex target regex)

/-- `while (collapse_multiple_edges(i));` -/
def collapseAllMultipleEdges (A : FiniteAutomaton) (stateIndex : ℕ) : Comp Fault FiniteAutomaton :=
  Comp.loop (fun A =>
    match collapseMultipleEdges A stateIndex with
    | some A => pure (.inl A)
    | none => pure (.inr A)) A

/-! ## Eliminating a state -/

def loopRegex (state : ℕ) (stateTransitions : List FiniteAutomatonTransition) : Regex :=
  stateTransitions.foldl (fun regex t =>
    if t.targetIndex = state then regex.addAssign t.regex else regex) Regex.empty

/-- The pairs of a transition into `state` and one out of it. -/
def doubleTransitions (A : FiniteAutomaton) (state : ℕ) : List DoubleTransition :=
  (List.range A.states.length).flatMap fun i =>
    ((A.state i).transitions.zipIdx.filter fun t => t.1.targetIndex == state).flatMap fun t =>
      ((A.state state).transitions.zipIdx.filter fun u => u.1.targetIndex != state).map fun u =>
        ⟨i, t.2, state, u.2, u.1.targetIndex⟩

def addDoubleTransition (loopRegex : Regex) (A : FiniteAutomaton) (d : DoubleTransition) :
    FiniteAutomaton :=
  match (A.state d.state1Index).transitions[d.transition1Index]?,
      (A.state d.state2Index).transitions[d.transition2Index]? with
  | some t, some u =>
      let regex := t.regex
      let regex := if !loopRegex.isEmpty then regex.mulAssign loopRegex else regex
      A.addTransition d.state1Index d.state3Index (regex.mulAssign u.regex)
  | _, _ => A

def collapseState (A : FiniteAutomaton) (state : ℕ) : Comp Fault FiniteAutomaton := do
  let doubles := doubleTransitions A state
  let starts : OrdSet ℕ := OrderedSet.ofList id (doubles.map DoubleTransition.state1Index)
  let loop := loopRegex state (A.state state).transitions
  let loop := if !loop.isEmpty then loop.unaryStar else loop
  let B ← starts.toList.foldlM collapseAllMultipleEdges (doubles.foldl (addDoubleTransition loop) A)
  pure (B.removeState state)

def collapse (A : FiniteAutomaton) : Comp Fault FiniteAutomaton := do
  Comp.assert A.isDeterministic .isDeterministic
  let A := ensureOneOutput A
  let A ← (List.range A.states.length).foldlM collapseAllMultipleEdges A
  Comp.loop (fun A =>
    match pickStateToCollapse A with
    | none => pure (.inr A)
    | some state => do
        let A ← collapseState A state
        pure (.inl A)) A

end FormalLanguages.AutomatonCollapser
