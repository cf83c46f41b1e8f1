import FormalLanguages.Model.FiniteAutomaton

/-! # From a collapsed automaton to a regex (`automaton-to-regex-converter.hpp`) -/

namespace FormalLanguages.AutomatonToRegexConverter

def alwaysTrueRegex (A : FiniteAutomaton) : Regex :=
  (A.alphabet.toList.foldl (fun regex c => regex.addAssign (.char c)) Regex.empty).unaryStar

/-- The labels of the last transitions from `source` to itself and to `target`. -/
def loopAndCross (A : FiniteAutomaton) (source target : ℕ) : Regex × Regex :=
  (A.state source).transitions.foldl (fun p t =>
    if t.targetIndex = source then (t.regex, p.2)
    else if t.targetIndex = target then (p.1, t.regex)
    else p) (Regex.empty, Regex.zero)

def regexForStates (A : FiniteAutomaton) (startState endState : ℕ) : Regex :=
  let start := loopAndCross A startState endState
  let finish := loopAndCross A endState startState
  start.1.unaryStar * start.2 *
    (finish.1 + finish.2 * start.1.unaryStar * start.2).unaryStar

def convert (A : FiniteAutomaton) : Comp Fault Regex := do
  Comp.assert (A.states.length ≤ 2) .atMostTwoStates
  Comp.assert (!A.states.isEmpty) .statesNotEmpty
  let firstFinal := (A.state 0).isFinal
  if A.states.length = 1 then
    pure (if firstFinal then alwaysTrueRegex A else Regex.empty)
  else
    let secondFinal := (A.state 1).isFinal
    Comp.assert (firstFinal != secondFinal) .oneOfTwoFinal
    Comp.assert (firstFinal != (A.startStateIndex == 0)) .startIsNotFinal
    pure (regexForStates A (if firstFinal then 1 else 0) (if firstFinal then 0 else 1))

end FormalLanguages.AutomatonToRegexConverter
