import FormalLanguages.Model.Pipeline

/-! # The helpers of the tests (`automaton-config-iterator.hpp`, `tests/main.cpp`) -/

namespace FormalLanguages

/-- The iterator works on the automaton it was given. `unmet` are the configurations in which
an `EXPECT_TRUE` of `set_config` failed, which does not stop the run. -/
structure AutomatonConfigIterator where
  automaton : FiniteAutomaton
  currentConfig : ℕ
  unmet : List ℕ

namespace AutomatonConfigIterator

/-- What `set_config` expects of the automaton after the pass. -/
def expectation (A : FiniteAutomaton) : ℕ → Bool
  | 1 => A.isSimple
  | 2 => !A.hasEpsilonTransitions
  | 4 => A.isComplete
  | 5 => A.isDeterministic
  | _ => true

def next (order : IterationOrder) (it : AutomatonConfigIterator) :
    Comp Fault AutomatonConfigIterator := do
  let currentConfig := it.currentConfig + 1
  let A ← setConfig order it.automaton currentConfig
  let unmet := if expectation A currentConfig then it.unmet else it.unmet ++ [currentConfig]
  pure ⟨A, currentConfig, unmet⟩

/-- The constructor. -/
def start (order : IterationOrder) (A : FiniteAutomaton) : Comp Fault AutomatonConfigIterator :=
  next order ⟨A, 0, []⟩

/-- `operator bool`. -/
def running (it : AutomatonConfigIterator) : Bool := it.currentConfig ≤ maxConfigs

/-- One round of the loop: the body is run on the automaton, which is noted, then `next`. -/
def forRound (order : IterationOrder) (p : List FiniteAutomaton × AutomatonConfigIterator) :
    Comp Fault (List FiniteAutomaton × AutomatonConfigIterator ⊕
      List FiniteAutomaton × AutomatonConfigIterator) :=
  if p.2.running then do
    let it ← next order p.2
    pure (.inl (p.1 ++ [p.2.automaton], it))
  else pure (.inr p)

/-- `for (AutomatonConfigIterator it(automaton); it; it.next()) { ... }` with the automata on
which the body is run, and the iterator at the end. -/
def forLoop (order : IterationOrder) (A : FiniteAutomaton) :
    Comp Fault (List FiniteAutomaton × AutomatonConfigIterator) := do
  let it ← start order A
  Comp.loop (forRound order) ([], it)

end AutomatonConfigIterator

/-- `to_regex`, which goes without the optimizer. -/
def toRegex (order : IterationOrder) (A : FiniteAutomaton) : Comp Fault Regex := do
  let A ← AutomatonSimplifier.simplify A
  let A ← EpsilonRemover.simplify A
  let A := AutomatonCompleter.complete A
  let A ← determinePass order A
  let A ← minifyPass A
  let A ← AutomatonCollapser.collapse A
  AutomatonToRegexConverter.convert A

end FormalLanguages
