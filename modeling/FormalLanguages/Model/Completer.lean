import FormalLanguages.Model.FiniteAutomaton

/-! # Completion with a trap state and inversion of the final flags
(`automaton-completer.hpp`, `automaton-inverter.hpp`) -/

namespace FormalLanguages

namespace AutomatonCompleter

/-- One letter of one state: a missing transition leads to the trap. The flag is
`should_configure_trap`. -/
def completeLetter (trapState i : ℕ) (p : FiniteAutomaton × Bool) (c : CChar) :
    FiniteAutomaton × Bool :=
  if (p.1.findTransition c i).isNone then (p.1.addTransition i trapState (.char c), true) else p

def completeState (trapState : ℕ) (letters : List CChar) (p : FiniteAutomaton × Bool) (i : ℕ) :
    FiniteAutomaton × Bool :=
  if i = trapState then p else letters.foldl (completeLetter trapState i) p

def complete (A : FiniteAutomaton) : FiniteAutomaton :=
  let letters := A.alphabet.toList
  let q := A.addState false
  let p := (List.range q.1.states.length).foldl (completeState q.2 letters) (q.1, false)
  if p.2 then letters.foldl (fun B c => B.addTransition q.2 q.2 (.char c)) p.1
  else p.1.removeState q.2

end AutomatonCompleter

namespace AutomatonInverter

def invert (A : FiniteAutomaton) : FiniteAutomaton :=
  (List.range A.states.length).foldl (fun B i => B.makeStateFinal i (!(B.state i).isFinal)) A

end AutomatonInverter

end FormalLanguages
