import FormalLanguages.Model.FiniteAutomaton

/-! # From regex labels to single letters (`automaton-simplifier.cpp`) -/

namespace FormalLanguages.AutomatonSimplifier

/-- The chain of fresh states for the operands of a `Concat` label. The last operand leads
to the target; without operands the source reads `operands[operands.size() - 1]`. -/
def shortenConcat (A : FiniteAutomaton) (lastIndex target : ℕ) :
    List Regex → Comp Fault FiniteAutomaton
  | [] => Comp.throw .indexOutOfRange
  | [operand] => pure (A.addTransition lastIndex target operand)
  | operand :: next :: operands =>
      let p := A.addState false
      shortenConcat (p.1.addTransition lastIndex p.2 operand) p.2 target (next :: operands)

/-- One parallel transition for each operand of a `Sum` label. -/
def shortenSum (A : FiniteAutomaton) (stateIndex target : ℕ) (operands : List Regex) :
    FiniteAutomaton :=
  operands.foldl (fun A operand => A.addTransition stateIndex target operand) A

def shortenStar (A : FiniteAutomaton) (stateIndex target : ℕ) (operand : Regex) :
    FiniteAutomaton :=
  let fictiveStart := A.states.length
  let fictiveEnd := A.states.length + 1
  let A := ((A.addState false).1.addState false).1
  let A := A.addTransition fictiveStart fictiveEnd operand
  let A := A.addTransition stateIndex fictiveStart Regex.empty
  let A := A.addTransition fictiveEnd fictiveStart Regex.empty
  A.addTransition fictiveStart target Regex.empty

def shortenTransition (A : FiniteAutomaton) (stateIndex transitionIndex : ℕ) :
    Comp Fault FiniteAutomaton :=
  match (A.state stateIndex).transitions[transitionIndex]? with
  | none => Comp.throw .indexOutOfRange
  | some ⟨.char _, _⟩ => Comp.throw .charIsNotALongTransition
  | some ⟨.concat operands, target⟩ => do
      let A ← shortenConcat A stateIndex target operands
      pure (A.removeTransition stateIndex transitionIndex)
  | some ⟨.sum operands, target⟩ =>
      pure ((shortenSum A stateIndex target operands).removeTransition stateIndex transitionIndex)
  | some ⟨.star operand, target⟩ =>
      pure ((shortenStar A stateIndex target operand).removeTransition stateIndex transitionIndex)

/-- The search of `get_long_transition` from state `i` on. -/
def findLongTransition (i : ℕ) : List FiniteAutomatonState → Option (ℕ × ℕ)
  | [] => none
  | s :: states =>
      match s.transitions.findIdx? fun t => !t.regex.isCharTransition with
      | some j => some (i, j)
      | none => findLongTransition (i + 1) states

def getLongTransition (A : FiniteAutomaton) : Option (ℕ × ℕ) := findLongTransition 0 A.states

def simplify (A : FiniteAutomaton) : Comp Fault FiniteAutomaton :=
  Comp.loop (fun A =>
    match getLongTransition A with
    | none => pure (.inr A)
    | some (state, transitionIndex) => do
        let A ← shortenTransition A state transitionIndex
        pure (.inl A)) A

end FormalLanguages.AutomatonSimplifier
