import FormalLanguages.Model.Completer
import FormalLanguages.Model.Converter
import FormalLanguages.Model.Minifier
import FormalLanguages.Verification.Automaton.Basic

/-! # Copies and assignments

Both constructors and both assignments carry over the states and the start index. The target
keeps its own alphabet, which is empty in a new automaton. -/

namespace FormalLanguages.FiniteAutomaton

variable {A B : FiniteAutomaton} {p q : ℕ} {r : Regex}

/-- No operation that reads the automaton tells `B` from `A`. -/
structure Indistinguishable (A B : FiniteAutomaton) : Prop where
  states_eq : B.states = A.states
  start_eq : B.startStateIndex = A.startStateIndex
  alphabet_eq : B.alphabet = A.alphabet
  accepts_eq : ∀ w, B.accepts w = A.accepts w
  isComplete_eq : B.isComplete = A.isComplete
  isDeterministic_eq : B.isDeterministic = A.isDeterministic
  complete_eq : AutomatonCompleter.complete B = AutomatonCompleter.complete A
  minify_eq : AutomatonMinifier.minify B = AutomatonMinifier.minify A
  convert_eq : AutomatonToRegexConverter.convert B = AutomatonToRegexConverter.convert A
  lettersIn : A.LettersIn → B.LettersIn

theorem indistinguishable_iff : Indistinguishable A B ↔ B = A := by
  constructor
  · intro h
    obtain ⟨_, _, _⟩ := A
    obtain ⟨_, _, _⟩ := B
    obtain ⟨rfl, rfl, rfl⟩ := And.intro h.alphabet_eq (And.intro h.states_eq h.start_eq)
    rfl
  · intro h
    rw [h]
    exact ⟨rfl, rfl, rfl, fun _ => rfl, rfl, rfl, rfl, rfl, rfl, id⟩

/-! ## What an assignment keeps -/

theorem assign_eq_iff : B.assign A = A ↔ B.alphabet = A.alphabet := by
  constructor
  · intro h
    have halphabet := congrArg FiniteAutomaton.alphabet h
    exact halphabet
  · intro h
    rw [assign]
    rw [h]

/-- The alphabet plays no part in accepting a word, so the words do not show what is lost. -/
theorem accepts_assign (w : List CChar) : (B.assign A).accepts w = A.accepts w := rfl

theorem accepts_copy (w : List CChar) : A.copy.accepts w = A.accepts w := rfl

theorem lettersIn_assign : (B.assign A).LettersIn ↔
    ∀ p r q, A.Edge p r q → ∀ c ∈ r.letters, c ∈ B.alphabet := Iff.rfl

/-! ## What a copy loses -/

/-- Every simple automaton is complete once it is copied. -/
theorem isComplete_copy : A.copy.isComplete = A.isSimple := by
  rw [Bool.eq_iff_iff, isComplete_iff]
  constructor
  · exact fun h => h.1
  · exact fun h => ⟨h, fun _ _ c hc => absurd hc OrderedSet.notMem_empty⟩

/-- Every simple automaton is deterministic once it is copied. -/
theorem isDeterministic_copy : A.copy.isDeterministic = A.isSimple := by
  rw [Bool.eq_iff_iff, isDeterministic_iff]
  constructor
  · exact fun h => h.1
  · exact fun h => ⟨h, fun _ _ c hc => absurd hc OrderedSet.notMem_empty⟩

theorem lettersIn_copy : A.copy.LettersIn ↔ ∀ p r q, A.Edge p r q → ∀ c, c ∉ r.letters := by
  constructor
  · intro h p r q he c hc
    exact OrderedSet.notMem_empty (h p r q he c hc)
  · intro h p r q he c hc
    exact absurd hc (h p r q he c)

/-- A copy is faithful exactly when there is no alphabet to lose, an assignment exactly when
the target has the same alphabet already. The letters of the transitions stay in the alphabet
exactly when there are none, and when the target's alphabet has them. The words accepted never
show the loss, but a copy counts as complete and deterministic as soon as it is simple. -/
theorem copies_faithful_iff (A B : FiniteAutomaton) :
    (Indistinguishable A A.copy ↔ A.alphabet = ∅) ∧
    (Indistinguishable A (B.assign A) ↔ B.alphabet = A.alphabet) ∧
    (A.copy.LettersIn ↔ ∀ p r q, A.Edge p r q → ∀ c, c ∉ r.letters) ∧
    ((B.assign A).LettersIn ↔ ∀ p r q, A.Edge p r q → ∀ c ∈ r.letters, c ∈ B.alphabet) ∧
    (∀ w, A.copy.accepts w = A.accepts w ∧ (B.assign A).accepts w = A.accepts w) ∧
    A.copy.isComplete = A.isSimple ∧ A.copy.isDeterministic = A.isSimple := by
  refine ⟨?_, ?_, lettersIn_copy, lettersIn_assign, fun w => ⟨accepts_copy w, accepts_assign w⟩,
    isComplete_copy, isDeterministic_copy⟩
  · rw [indistinguishable_iff, copy, assign_eq_iff]
    exact eq_comm
  · rw [indistinguishable_iff, assign_eq_iff]

/-- The automaton of the regex `a` is not complete, its copy is, and neither the copy nor a
default automaton assigned from it has the letter in its alphabet. -/
theorem copy_of_letter :
    (ofRegex (.char 97)).isComplete = false ∧ (ofRegex (.char 97)).copy.isComplete = true ∧
    (ofRegex (.char 97)).LettersIn ∧ ¬(ofRegex (.char 97)).copy.LettersIn ∧
    ¬Indistinguishable (ofRegex (.char 97)) (ofRegex (.char 97)).copy ∧
    ¬Indistinguishable (ofRegex (.char 97)) (({} : FiniteAutomaton).assign (ofRegex (.char 97))) := by
  refine ⟨by decide, by decide, by decide, by decide, ?_, ?_⟩
  · intro h
    exact absurd h.isComplete_eq (by decide)
  · intro h
    exact absurd h.isComplete_eq (by decide)

end FormalLanguages.FiniteAutomaton
