import FormalLanguages.Library.Computation
import FormalLanguages.Library.LanguageGraph
import FormalLanguages.Library.OrderedSet
import FormalLanguages.Library.PrefixCode
import FormalLanguages.Library.Ranking
import FormalLanguages.Model.Collapser
import FormalLanguages.Model.Completer
import FormalLanguages.Model.Converter
import FormalLanguages.Model.Determinator
import FormalLanguages.Model.EpsilonRemover
import FormalLanguages.Model.FiniteAutomaton
import FormalLanguages.Model.GraphvizPrinter
import FormalLanguages.Model.Harness
import FormalLanguages.Model.Minifier
import FormalLanguages.Model.Optimizer
import FormalLanguages.Model.Pipeline
import FormalLanguages.Model.Regex
import FormalLanguages.Model.Simplifier
import FormalLanguages.Verification.Automaton.Accepts
import FormalLanguages.Verification.Automaton.Basic
import FormalLanguages.Verification.Automaton.Copies
import FormalLanguages.Verification.Automaton.Deterministic
import FormalLanguages.Verification.Automaton.InPlace
import FormalLanguages.Verification.Automaton.Printing
import FormalLanguages.Verification.Automaton.RemoveState
import FormalLanguages.Verification.Collapser.Correctness
import FormalLanguages.Verification.Collapser.Eliminate
import FormalLanguages.Verification.Collapser.Parallel
import FormalLanguages.Verification.Converter.Built
import FormalLanguages.Verification.Converter.Correctness
import FormalLanguages.Verification.Converter.Secluded
import FormalLanguages.Verification.Determinator.Correctness
import FormalLanguages.Verification.Determinator.Orders
import FormalLanguages.Verification.Determinator.Search
import FormalLanguages.Verification.Determinator.Subsets
import FormalLanguages.Verification.Determinator.Superpositions
import FormalLanguages.Verification.EpsilonRemover.Correctness
import FormalLanguages.Verification.EpsilonRemover.Merge
import FormalLanguages.Verification.EpsilonRemover.Replace
import FormalLanguages.Verification.EpsilonRemover.Search
import FormalLanguages.Verification.EpsilonRemover.Settled
import FormalLanguages.Verification.EpsilonRemover.Termination
import FormalLanguages.Verification.Minifier.Canonical
import FormalLanguages.Verification.Minifier.Correctness
import FormalLanguages.Verification.Minifier.Quotients
import FormalLanguages.Verification.Minifier.Refinement
import FormalLanguages.Verification.Minifier.Result
import FormalLanguages.Verification.Minifier.Round
import FormalLanguages.Verification.Passes.Complement
import FormalLanguages.Verification.Passes.Completer
import FormalLanguages.Verification.Passes.Optimizer
import FormalLanguages.Verification.Pipeline.Alternation
import FormalLanguages.Verification.Pipeline.Counts
import FormalLanguages.Verification.Pipeline.FrontEnd
import FormalLanguages.Verification.Pipeline.Harness
import FormalLanguages.Verification.Pipeline.Invert
import FormalLanguages.Verification.Pipeline.Marker
import FormalLanguages.Verification.Pipeline.Output
import FormalLanguages.Verification.Pipeline.ReadBack
import FormalLanguages.Verification.Pipeline.RoundTrip
import FormalLanguages.Verification.Pipeline.Session
import FormalLanguages.Verification.Pipeline.Tame
import FormalLanguages.Verification.Pipeline.ToRegex
import FormalLanguages.Verification.Regex.Expression
import FormalLanguages.Verification.Regex.Language
import FormalLanguages.Verification.Regex.Printing
import FormalLanguages.Verification.Regex.Secluded
import FormalLanguages.Verification.Regex.Tame
import FormalLanguages.Verification.Simplifier.Bounds
import FormalLanguages.Verification.Simplifier.Correctness
import FormalLanguages.Verification.Simplifier.Gadgets
import FormalLanguages.Verification.Simplifier.Levels
import FormalLanguages.Verification.Simplifier.Places
