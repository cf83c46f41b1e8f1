import FormalLanguages.Model.FiniteAutomaton

/-! # The graph of an automaton as text (`automaton-graphviz-printer.cpp`) -/

namespace FormalLanguages

/-- The bytes of a string literal. -/
def text (string : String) : List CChar := string.toList.map Regex.ascii

/-- What `operator<<` writes for a `size_t`. -/
def decimal (n : ℕ) : List CChar := (Nat.toDigits 10 n).map Regex.ascii

namespace AutomatonGraphvizPrinter

/-- The indices of the final states. -/
def printFinals (A : FiniteAutomaton) : List CChar :=
  (List.range A.states.length).flatMap fun i =>
    if (A.state i).isFinal then decimal i ++ text " " else []

def printTransition (i : ℕ) (t : FiniteAutomatonTransition) : List CChar :=
  text "    " ++ decimal i ++ text " -> " ++ decimal t.targetIndex ++ text " [ label = \"" ++
    t.regex.print ++ text "\" ];\n"

def printTransitions (A : FiniteAutomaton) : List CChar :=
  (List.range A.states.length).flatMap fun i =>
    (A.state i).transitions.flatMap (printTransition i)

/-- What `operator<<` writes. -/
def print (A : FiniteAutomaton) : List CChar :=
  text "digraph finite_state_machine \x7b\n" ++ text "    rankdir=LR;\n" ++
    text "    size=\"8,5\"\n" ++ text "    node [shape = doublecircle]; " ++ printFinals A ++
    text ";\n" ++ text "    node [shape = circle];\n" ++
    text "    start [label=\"\", shape = none];\n" ++ text "    start -> " ++
    decimal A.startStateIndex ++ text ";\n" ++ printTransitions A ++ text "\x7d\n"

end AutomatonGraphvizPrinter

end FormalLanguages
