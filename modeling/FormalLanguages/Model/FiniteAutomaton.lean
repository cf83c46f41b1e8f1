import FormalLanguages.Model.Regex

/-! # Finite automata (`finite-automaton.hpp`, `finite-automaton.cpp`) -/

namespace FormalLanguages

/-- What stops a run of the program: a failed `assert`, or an index out of range. -/
inductive Fault where
  /-- `assert(!"Char is not a long transition")` -/
  | charIsNotALongTransition
  /-- `assert(is_simple())` -/
  | isSimple
  /-- `assert(!automaton.has_epsilon_transitions())` -/
  | hasNoEpsilonTransitions
  /-- `assert(automaton.is_complete())` -/
  | isComplete
  /-- `assert(transitionIndex != -1)` -/
  | transitionForLetter
  /-- `assert(automaton.is_deterministic())` -/
  | isDeterministic
  /-- `assert(automaton.get_states().size() <= 2)` -/
  | atMostTwoStates
  /-- `assert(!automaton.get_states().empty())` -/
  | statesNotEmpty
  /-- `assert(first_final != second_final)` -/
  | oneOfTwoFinal
  /-- `assert(first_final != (automaton.get_start_state_index() == 0))` -/
  | startIsNotFinal
  /-- `operands[operands.size() - 1]` of an empty vector -/
  | indexOutOfRange
  deriving DecidableEq

structure FiniteAutomatonTransition where
  regex : Regex
  targetIndex : ℕ

structure FiniteAutomatonState where
  isFinal : Bool
  transitions : List FiniteAutomatonTransition

instance : Inhabited FiniteAutomatonState := ⟨⟨false, []⟩⟩

structure FiniteAutomaton where
  alphabet : OrdSet CChar := ∅
  states : List FiniteAutomatonState := []
  startStateIndex : ℕ := 0

namespace FiniteAutomaton

/-- `FiniteAutomaton(const Regex &regex)`. -/
def ofRegex (regex : Regex) : FiniteAutomaton where
  alphabet := regex.fillAlphabet ∅
  states := [⟨false, [⟨regex, 1⟩]⟩, ⟨true, []⟩]

variable (A : FiniteAutomaton)

/-- `get_states()[i]`, without transitions where there is no such state. -/
def state (i : ℕ) : FiniteAutomatonState := A.states.getD i default

/-- Change state `i` in place. -/
def modifyState (i : ℕ) (f : FiniteAutomatonState → FiniteAutomatonState) : FiniteAutomaton :=
  { A with states := A.states.modify i f }

/-! ## Copies -/

/-- `B = A`, by copy and by move: the states and the start index are assigned. -/
def assign (B A : FiniteAutomaton) : FiniteAutomaton :=
  { B with states := A.states, startStateIndex := A.startStateIndex }

/-- The copy and the move constructor assign to a default automaton. -/
def copy (A : FiniteAutomaton) : FiniteAutomaton := assign {} A

/-! ## Changes -/

/-- The automaton and the index of the new state. -/
def addState (isFinal : Bool) : FiniteAutomaton × ℕ :=
  ({ A with states := A.states ++ [⟨isFinal, []⟩] }, A.states.length)

def addTransition (source target : ℕ) (regex : Regex) : FiniteAutomaton :=
  { A with
    alphabet := regex.fillAlphabet A.alphabet
    states := A.states.modify source fun s =>
      { s with transitions := s.transitions ++ [⟨regex, target⟩] } }

def removeTransition (stateIndex transitionIndex : ℕ) : FiniteAutomaton :=
  A.modifyState stateIndex fun s =>
    { s with transitions := s.transitions.eraseIdx transitionIndex }

def makeStateFinal (stateIndex : ℕ) (isFinal : Bool) : FiniteAutomaton :=
  A.modifyState stateIndex fun s => { s with isFinal := isFinal }

def setStartState (state : ℕ) : FiniteAutomaton := { A with startStateIndex := state }

def extendAlphabet (otherAlphabet : OrdSet CChar) : FiniteAutomaton :=
  { A with alphabet := otherAlphabet.toList.foldl (fun s ch => s.insert ch) A.alphabet }

/-- The scan of `remove_state` over one state's transitions. -/
def dropTarget (stateIndex : ℕ) : List FiniteAutomatonTransition → List FiniteAutomatonTransition
  | [] => []
  | t :: ts =>
      if t.targetIndex = stateIndex then dropTarget stateIndex ts
      else if stateIndex < t.targetIndex then
        { t with targetIndex := t.targetIndex - 1 } :: dropTarget stateIndex ts
      else t :: dropTarget stateIndex ts

def removeState (stateIndex : ℕ) : FiniteAutomaton where
  alphabet := A.alphabet
  states := (A.states.map fun s =>
    { s with transitions := dropTarget stateIndex s.transitions }).eraseIdx stateIndex
  startStateIndex :=
    if A.startStateIndex = stateIndex then 0
    else if stateIndex < A.startStateIndex then A.startStateIndex - 1
    else A.startStateIndex

/-! ## Removal in place -/

def setTransition (stateIndex transitionIndex : ℕ) (t : FiniteAutomatonTransition) :
    FiniteAutomaton :=
  A.modifyState stateIndex fun s => { s with transitions := s.transitions.set transitionIndex t }

namespace InPlace

/-- One round of a scan over the transitions of state `i` that erases some of them and
overwrites the others. An erasure takes the counter one step back, which the increment of
the loop makes up for: the next round looks at the same position. -/
def scanRound (f : FiniteAutomatonTransition → Option FiniteAutomatonTransition) (i : ℕ)
    (p : FiniteAutomaton × ℕ) : Comp Fault (FiniteAutomaton × ℕ ⊕ FiniteAutomaton) :=
  match (p.1.state i).transitions[p.2]? with
  | none => pure (.inr p.1)
  | some t =>
      match f t with
      | none => pure (.inl (p.1.removeTransition i p.2, p.2))
      | some u => pure (.inl (p.1.setTransition i p.2 u, p.2 + 1))

def scan (f : FiniteAutomatonTransition → Option FiniteAutomatonTransition)
    (A : FiniteAutomaton) (i : ℕ) : Comp Fault FiniteAutomaton :=
  Comp.loop (scanRound f i) (A, 0)

/-- The scan of every state, from the first to the last. -/
def scanStates (f : FiniteAutomatonTransition → Option FiniteAutomatonTransition)
    (A : FiniteAutomaton) : Comp Fault FiniteAutomaton :=
  (List.range A.states.length).foldlM (scan f) A

/-- What the scan of `remove_state` does with one transition. -/
def eraseOrLower (stateIndex : ℕ) (t : FiniteAutomatonTransition) :
    Option FiniteAutomatonTransition :=
  if t.targetIndex = stateIndex then none
  else if stateIndex < t.targetIndex then some { t with targetIndex := t.targetIndex - 1 }
  else some t

/-- `remove_state` with its scan over all states, the removed one among them. -/
def removeState (A : FiniteAutomaton) (stateIndex : ℕ) : Comp Fault FiniteAutomaton := do
  let B ← scanStates (eraseOrLower stateIndex) A
  let startStateIndex :=
    if B.startStateIndex = stateIndex then 0
    else if stateIndex < B.startStateIndex then B.startStateIndex - 1
    else B.startStateIndex
  pure { B with startStateIndex, states := B.states.eraseIdx stateIndex }

end InPlace

/-! ## Queries -/

def isSimple : Bool :=
  A.states.all fun s => s.transitions.all fun t => t.regex.isCharTransition

/-- The index of the first transition with letter `c`; the source returns `-1` for `none`. -/
def findTransition (c : CChar) (source : ℕ) : Option ℕ :=
  (A.state source).transitions.findIdx? fun t => t.regex.isCharOf c

def countTransitions (c : CChar) (source : ℕ) : ℕ :=
  (A.state source).transitions.countP fun t => t.regex.isCharOf c

/-- The overload of `find_transition` that also fixes the target. -/
def findTransitionTo (c : CChar) (source target : ℕ) : Option ℕ :=
  (A.state source).transitions.findIdx? fun t =>
    t.targetIndex == target && t.regex.isCharOf c

def isComplete : Bool :=
  A.isSimple && (List.range A.states.length).all fun i =>
    A.alphabet.toList.all fun c => (A.findTransition c i).isSome

def isDeterministic : Bool :=
  A.isSimple && (List.range A.states.length).all fun i =>
    A.alphabet.toList.all fun c => !decide (1 < A.countTransitions c i)

def hasEpsilonTransitions : Bool :=
  A.states.any fun s => s.transitions.any fun t => t.regex.isEmpty

/-! ## Running a word -/

/-- One transition of the closure: an epsilon target that is new is inserted, and the flag
`changed` is raised. -/
def expandTransition (p : OrdSet ℕ × Bool) (t : FiniteAutomatonTransition) : OrdSet ℕ × Bool :=
  if t.regex.isCharOf 0 then
    if p.1.contains t.targetIndex then p else (p.1.insert t.targetIndex, true)
  else p

def expandStatesForEpsTransitions (currentStates : OrdSet ℕ) : Comp Fault (OrdSet ℕ) :=
  OrderedSet.saturate id
    (fun i p => pure ((A.state i).transitions.foldl expandTransition p)) currentStates

/-- One transition of the letter step. -/
def stepTransition (ch : CChar) (next : OrdSet ℕ) (t : FiniteAutomatonTransition) : OrdSet ℕ :=
  if t.regex.isCharOf ch then next.insert t.targetIndex else next

/-- The states after the first letter, and the rest of the input. The letter is consumed
only when some state was found. -/
def getTransitionsForRegex (currentStates : OrdSet ℕ) (input : List CChar) :
    OrdSet ℕ × List CChar :=
  let nextStates : OrdSet ℕ := currentStates.toList.foldl (fun next i =>
    (A.state i).transitions.foldl (stepTransition (input.headD 0)) next) ∅
  (nextStates, if nextStates.toList.isEmpty then input else input.drop 1)

/-- One round of the loop of `accepts`. -/
def acceptsStep (p : OrdSet ℕ × List CChar) : Comp Fault (OrdSet ℕ × List CChar ⊕ Bool) :=
  if p.1.toList.isEmpty then pure (.inr false)
  else if p.2.isEmpty then pure (.inr (p.1.toList.any fun i => (A.state i).isFinal))
  else do
    let next := A.getTransitionsForRegex p.1 p.2
    let nextStates ← A.expandStatesForEpsTransitions next.1
    pure (.inl (nextStates, next.2))

def accepts (input : List CChar) : Comp Fault Bool := do
  Comp.assert A.isSimple .isSimple
  let currentStates ← A.expandStatesForEpsTransitions (OrderedSet.insert A.startStateIndex ∅)
  Comp.loop A.acceptsStep (currentStates, input)

end FiniteAutomaton

end FormalLanguages
