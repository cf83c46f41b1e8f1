import FormalLanguages.Model.Simplifier
import FormalLanguages.Model.EpsilonRemover
import FormalLanguages.Model.Optimizer
import FormalLanguages.Model.Completer
import FormalLanguages.Model.Determinator
import FormalLanguages.Model.Minifier
import FormalLanguages.Model.Collapser
import FormalLanguages.Model.Converter
import FormalLanguages.Model.GraphvizPrinter

/-! # The program (`main.cpp`) -/

namespace FormalLanguages

/-- `automaton = AutomatonDeterminator(automaton).determine()`. -/
def determinePass (order : IterationOrder) (A : FiniteAutomaton) : Comp Fault FiniteAutomaton := do
  let B ← AutomatonDeterminator.determine order A
  pure (A.assign B)

/-- `automaton = AutomatonMinifier(automaton).minify()`. -/
def minifyPass (A : FiniteAutomaton) : Comp Fault FiniteAutomaton := do
  let B ← AutomatonMinifier.minify A
  pure (A.assign B)

namespace AutomatonConfigIterator

def maxConfigs : ℕ := 5

/-- What `set_config` does to the automaton when `current_config` is the given number. -/
def setConfig (order : IterationOrder) (A : FiniteAutomaton) : ℕ → Comp Fault FiniteAutomaton
  | 1 => AutomatonSimplifier.simplify A
  | 2 => EpsilonRemover.simplify A
  | 3 => AutomatonOptimizer.optimize A
  | 4 => pure (AutomatonCompleter.complete A)
  | 5 => determinePass order A
  | _ => pure A

/-- The automaton while the iterator is at the given configuration. -/
def atConfig (order : IterationOrder) (A : FiniteAutomaton) : ℕ → Comp Fault FiniteAutomaton
  | 0 => pure A
  | currentConfig + 1 => do
      let A ← atConfig order A currentConfig
      setConfig order A (currentConfig + 1)

end AutomatonConfigIterator

def invertRegex (order : IterationOrder) (regex : Regex) (alphabet : OrdSet CChar) :
    Comp Fault Regex := do
  let A := (FiniteAutomaton.ofRegex regex).extendAlphabet alphabet
  let A ← AutomatonSimplifier.simplify A
  let A ← EpsilonRemover.simplify A
  let A ← AutomatonOptimizer.optimize A
  let A := AutomatonCompleter.complete A
  let A ← determinePass order A
  let A ← minifyPass A
  let A := AutomatonInverter.invert A
  let A ← AutomatonCollapser.collapse A
  AutomatonToRegexConverter.convert A

/-- The passes of `invert_regex` over the automaton, numbered from zero. -/
def invertPass (order : IterationOrder) (A : FiniteAutomaton) : ℕ → Comp Fault FiniteAutomaton
  | 0 => AutomatonSimplifier.simplify A
  | 1 => EpsilonRemover.simplify A
  | 2 => AutomatonOptimizer.optimize A
  | 3 => pure (AutomatonCompleter.complete A)
  | 4 => determinePass order A
  | 5 => minifyPass A
  | 6 => pure (AutomatonInverter.invert A)
  | 7 => AutomatonCollapser.collapse A
  | _ => pure A

/-- The automaton of `invert_regex` before a pass. The conversion comes after pass seven. -/
def beforePass (order : IterationOrder) (regex : Regex) (alphabet : OrdSet CChar) :
    ℕ → Comp Fault FiniteAutomaton
  | 0 => pure ((FiniteAutomaton.ofRegex regex).extendAlphabet alphabet)
  | pass + 1 => do
      let A ← beforePass order regex alphabet pass
      invertPass order A pass

/-! ## What is printed -/

/-- `invert_regex` with the graph that it prints on the way. -/
def invertRegexOutput (order : IterationOrder) (regex : Regex) (alphabet : OrdSet CChar) :
    Comp Fault (List CChar × Regex) := do
  let A := (FiniteAutomaton.ofRegex regex).extendAlphabet alphabet
  let A ← AutomatonSimplifier.simplify A
  let A ← EpsilonRemover.simplify A
  let A ← AutomatonOptimizer.optimize A
  let A := AutomatonCompleter.complete A
  let A ← determinePass order A
  let A ← minifyPass A
  let A := AutomatonInverter.invert A
  let output := AutomatonGraphvizPrinter.print A ++ text "\n"
  let A ← AutomatonCollapser.collapse A
  let result ← AutomatonToRegexConverter.convert A
  pure (output, result)

/-- What a run of `main` that no assertion stops has printed: the regex, the graph and the
inverted regex. -/
def mainOutput (order : IterationOrder) (regex : Regex) (alphabet : OrdSet CChar) :
    Comp Fault (List CChar) := do
  let p ← invertRegexOutput order regex alphabet
  pure (regex.print ++ text "\n" ++ p.1 ++ p.2.print ++ text "\n")

/-- `"a"_r * *(*("ba"_r) * "a"_r * *("ab"_r) + "a"_r)`. -/
def mainRegex : Regex :=
  let a := Regex.literal (text "a")
  a * ((Regex.literal (text "ba")).unaryStar * a * (Regex.literal (text "ab")).unaryStar +
    a).unaryStar

end FormalLanguages
