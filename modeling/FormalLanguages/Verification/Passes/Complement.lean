import FormalLanguages.Model.Pipeline
import FormalLanguages.Verification.Automaton.Deterministic
import FormalLanguages.Verification.Determinator.Correctness
import FormalLanguages.Verification.Passes.Completer

/-! # The complement through completion, determinisation and inversion -/

namespace FormalLanguages

open FiniteAutomaton

variable {A B C : FiniteAutomaton} {p q : ℕ} {w : List CChar} {order : IterationOrder}

/-! ## Inverting a complete deterministic automaton -/

theorem AutomatonInverter.Inverts.inRange (h : AutomatonInverter.Inverts A B) (hA : A.InRange) :
    B.InRange where
  start_lt := by
    rw [h.start_eq, h.length_eq]
    exact hA.start_lt
  target_lt he := by
    rw [h.length_eq]
    exact hA.target_lt (h.edge.mp he)

theorem AutomatonInverter.Inverts.isDfa (h : AutomatonInverter.Inverts A B) (hA : A.IsDfa) :
    B.IsDfa where
  inRange := h.inRange hA.inRange
  label he := by
    rw [h.alphabet_eq]
    exact hA.label (h.edge.mp he)
  cover hp hc := by
    rw [h.length_eq] at hp
    rw [h.alphabet_eq] at hc
    obtain ⟨q, he⟩ := hA.cover hp hc
    exact ⟨q, h.edge.mpr he⟩
  unique he he' := hA.unique (h.edge.mp he) (h.edge.mp he')

theorem AutomatonInverter.Inverts.letterLabels (h : AutomatonInverter.Inverts A B)
    (hA : A.LetterLabels) : B.LetterLabels :=
  fun p r q he => hA p r q (h.edge.mp he)

/-- Where every letter of the alphabet has one successor, the run of a word over the alphabet
is the same in both, and ends with opposite flags. -/
theorem AutomatonInverter.Inverts.mem_residual_iff (h : AutomatonInverter.Inverts A B)
    (hA : A.InRange) (hlabels : A.LetterLabels)
    (hnext : ∀ p < A.states.length, ∀ c ∈ A.alphabet, ∃ q, ∀ x, A.Edge p (.char c) x ↔ x = q)
    (hp : p < A.states.length) (hw : ∀ c ∈ w, c ∈ A.alphabet) :
    w ∈ B.residual p ↔ w ∉ A.residual p := by
  have hlabelsB := h.letterLabels hlabels
  induction w generalizing p with
  | nil => rw [hlabelsB.nil_mem_residual, hlabels.nil_mem_residual, h.final hp]
  | cons c w ih =>
      obtain ⟨q, hq⟩ := hnext p hp c (hw c (by simp))
      have hqlt : q < A.states.length := hA.target_lt ((hq q).mpr rfl)
      have ih := ih hqlt fun d hd => hw d (List.mem_cons_of_mem _ hd)
      rw [hlabelsB.cons_mem_residual, hlabels.cons_mem_residual]
      simp only [h.edge, hq, exists_eq_left]
      exact ih

theorem AutomatonInverter.Inverts.mem_residual (h : AutomatonInverter.Inverts A B)
    (hA : A.IsDfa) (hp : p < A.states.length) :
    w ∈ B.residual p ↔ (∀ c ∈ w, c ∈ A.alphabet) ∧ w ∉ A.residual p := by
  by_cases hw : ∀ c ∈ w, c ∈ A.alphabet
  · rw [and_iff_right hw]
    refine h.mem_residual_iff hA.inRange hA.letterLabels ?_ hp hw
    intro p hp c hc
    obtain ⟨q, he⟩ := hA.cover hp hc
    exact ⟨q, fun x => ⟨fun hx => hA.unique hx he, fun hx => hx ▸ he⟩⟩
  · refine iff_of_false (fun hmem => hw ?_) (fun hmem => hw hmem.1)
    rw [← h.alphabet_eq]
    exact (h.isDfa hA).mem_alphabet_of_mem_residual hmem

theorem AutomatonInverter.Inverts.mem_pathLanguage (h : AutomatonInverter.Inverts A B)
    (hA : A.IsDfa) :
    w ∈ B.pathLanguage ↔ (∀ c ∈ w, c ∈ A.alphabet) ∧ w ∉ A.pathLanguage := by
  rw [pathLanguage, h.start_eq, h.mem_residual hA hA.inRange.start_lt]
  rfl

/-- Without epsilon transitions the predicates of completeness and determinism are enough for
inversion to complement the automaton on the words over the alphabet. -/
theorem AutomatonInverter.invert_correct (A : FiniteAutomaton) (w : List CChar) (hA : A.InRange)
    (heps : A.hasEpsilonTransitions = false) (hcomplete : A.isComplete = true)
    (hdet : A.isDeterministic = true) (hw : ∀ c ∈ w, c ∈ A.alphabet) :
    ((AutomatonInverter.invert A).accepts w).Ensures fun b => (A.accepts w).Returns (!b) := by
  obtain ⟨hsimple, hcover⟩ := isComplete_iff.mp hcomplete
  have hinv := AutomatonInverter.inverts_invert A
  have hlabels : A.LetterLabels := letterLabels_iff.mpr ⟨hsimple, heps⟩
  have hnext : ∀ p < A.states.length, ∀ c ∈ A.alphabet,
      ∃ q, ∀ x, A.Edge p (.char c) x ↔ x = q := by
    intro p hp c hc
    obtain ⟨q, he⟩ := hcover p hp c hc
    have hcount := (isDeterministic_iff.mp hdet).2 p hp c hc
    exact ⟨q, fun x => ⟨fun hx => eq_of_countTransitions_le hcount hx he, fun hx => hx ▸ he⟩⟩
  have hmem : w ∈ (AutomatonInverter.invert A).pathLanguage ↔ w ∉ A.pathLanguage := by
    rw [pathLanguage, hinv.start_eq]
    exact hinv.mem_residual_iff hA hlabels hnext hA.start_lt hw
  have hacc := hlabels.accepts_ensures hA w
  apply ((hinv.letterLabels hlabels).accepts_ensures (hinv.inRange hA) w).mono
  intro b hb
  cases b with
  | false => exact hacc.returns_true_iff.mpr (not_not.mp (hmem.not.mp (by simpa using hb)))
  | true => exact hacc.returns_false_iff.mpr (hmem.mp (hb.mp rfl))

/-- State `0` is not final; the letter `a` loops on it and an epsilon transition leads to the
final state `1`, where `a` loops too. -/
def hiddenChoice : FiniteAutomaton where
  alphabet := OrderedSet.insert 97 ∅
  states := [⟨false, [⟨.char 97, 0⟩, ⟨Regex.empty, 1⟩]⟩, ⟨true, [⟨.char 97, 1⟩]⟩]

/-- The predicates do not look at epsilon transitions: this automaton passes them and accepts
the letter `a` before and after inversion. -/
theorem AutomatonInverter.invert_hiddenChoice :
    hiddenChoice.InRange ∧ 0 ∉ hiddenChoice.alphabet ∧ hiddenChoice.isComplete = true ∧
      hiddenChoice.isDeterministic = true ∧ (∀ c ∈ ([97] : List CChar), c ∈ hiddenChoice.alphabet) ∧
      (hiddenChoice.accepts [97]).Returns true ∧
      ((AutomatonInverter.invert hiddenChoice).accepts [97]).Returns true :=
  ⟨by decide, by decide, by decide, by decide, by decide +kernel, ⟨5, rfl⟩, ⟨5, rfl⟩⟩

/-- The letter `a` leads from the final state `0` to state `1` and back. -/
def evenLength : FiniteAutomaton where
  alphabet := OrderedSet.insert 97 ∅
  states := [⟨true, [⟨.char 97, 1⟩]⟩, ⟨false, [⟨.char 97, 0⟩]⟩]

theorem AutomatonInverter.invert_correct_evenLength :
    ((AutomatonInverter.invert evenLength).accepts [97, 97, 97]).Ensures
      fun b => (evenLength.accepts [97, 97, 97]).Returns (!b) :=
  AutomatonInverter.invert_correct evenLength [97, 97, 97] (by decide) (by decide) (by decide)
    (by decide) (by decide +kernel)

/-! ## The subset automaton under the old alphabet -/

/-- The assignment keeps the alphabet, over which the subset automaton is complete. -/
theorem isDfa_assign_of_determines {sets : ℕ → Set ℕ}
    (h : AutomatonDeterminator.Determines A B sets) (hletters : A.LettersIn)
    (hcomplete : A.isComplete = true) (heps : A.hasEpsilonTransitions = false) :
    (A.assign B).IsDfa where
  inRange := ⟨h.inRange.start_lt, fun he => h.inRange.target_lt he⟩
  label {k r l} he := by
    have he : B.Edge k r l := he
    obtain ⟨hl, c, hc, rfl, hsets⟩ := h.edge he
    obtain ⟨q, hq⟩ := h.nonempty hl
    rw [hsets] at hq
    obtain ⟨p, _, hpq⟩ := hq
    exact ⟨c, hletters p _ q hpq c (Regex.mem_letters_char.mpr ⟨hc, rfl⟩), hc, rfl⟩
  cover {k c} hk hc := by
    have hlabels := letterLabels_iff.mpr ⟨(isComplete_iff.mp hcomplete).1, heps⟩
    obtain ⟨p, hp⟩ := h.nonempty hk
    obtain ⟨q, hq⟩ := (isComplete_iff.mp hcomplete).2 p (h.lt hp) c hc
    exact h.cover hk (hlabels.ne_zero hq) hp hq
  unique he he' := h.edge_unique he he'

/-- What the determinator returns, assigned to its input. -/
structure DeterminePassSpec (A B : FiniteAutomaton) : Prop where
  isDfa : B.IsDfa
  alphabet_eq : B.alphabet = A.alphabet
  pathLanguage_eq : B.pathLanguage = A.pathLanguage
  allReachable : B.AllReachable

theorem determinePass_ensures (order : IterationOrder) (hA : A.InRange) (hletters : A.LettersIn)
    (heps : A.hasEpsilonTransitions = false) (hcomplete : A.isComplete = true) :
    (determinePass order A).Ensures (DeterminePassSpec A) := by
  have hlabels := letterLabels_iff.mpr ⟨(isComplete_iff.mp hcomplete).1, heps⟩
  refine Comp.ensures_bind.mpr
    ((AutomatonDeterminator.determine_ensures order hA heps hcomplete).mono ?_)
  intro B h
  rcases h with ⟨sets, hB⟩
  exact Comp.ensures_pure.mpr ⟨isDfa_assign_of_determines hB hletters hcomplete heps, rfl,
    hB.pathLanguage_eq hlabels, hB.reachable⟩

/-- The completer prepares a simple automaton without epsilon transitions for the determinator. -/
theorem determinePass_complete_ensures (order : IterationOrder) (hA : A.InRange)
    (hsimple : A.isSimple = true) (heps : A.hasEpsilonTransitions = false)
    (hletters : A.LettersIn) (h0 : 0 ∉ A.alphabet) :
    (determinePass order (AutomatonCompleter.complete A)).Ensures (DeterminePassSpec A) := by
  have hC := AutomatonCompleter.completes_complete hA
  apply (determinePass_ensures order (hC.inRange hA) (hC.lettersIn hletters)
    (hC.epsilonFree heps h0) (hC.isComplete hsimple)).mono
  intro B hB
  exact ⟨hB.isDfa, hB.alphabet_eq.trans hC.alphabet_eq,
    hB.pathLanguage_eq.trans hC.pathLanguage_eq, hB.allReachable⟩

/-! ## The complement -/

theorem complement_ensures (order : IterationOrder) (hA : A.InRange) (hsimple : A.isSimple = true)
    (heps : A.hasEpsilonTransitions = false) (hletters : A.LettersIn) (h0 : 0 ∉ A.alphabet) :
    (determinePass order (AutomatonCompleter.complete A) >>=
      fun B => pure (AutomatonInverter.invert B)).Ensures fun B =>
        B.IsDfa ∧ ∀ w, w ∈ B.pathLanguage ↔ (∀ c ∈ w, c ∈ A.alphabet) ∧ w ∉ A.pathLanguage := by
  refine Comp.ensures_bind.mpr
    ((determinePass_complete_ensures order hA hsimple heps hletters h0).mono ?_)
  intro B hB
  have hinv := AutomatonInverter.inverts_invert B
  refine Comp.ensures_pure.mpr ⟨hinv.isDfa hB.isDfa, fun w => ?_⟩
  rw [hinv.mem_pathLanguage hB.isDfa, hB.alphabet_eq, hB.pathLanguage_eq]

/-- Completion, determinisation and inversion together accept the words over the alphabet
that the automaton rejects. -/
theorem complement_correct (order : IterationOrder) (A : FiniteAutomaton) (hA : A.InRange)
    (hsimple : A.isSimple = true) (heps : A.hasEpsilonTransitions = false)
    (hletters : A.LettersIn) (h0 : 0 ∉ A.alphabet) :
    (do
      let B ← determinePass order (AutomatonCompleter.complete A)
      pure (AutomatonInverter.invert B)).Ensures fun B =>
        ∀ w : List CChar, (∀ c ∈ w, c ≠ 0) → (B.accepts w).Ensures fun b =>
          b = true ↔ (∀ c ∈ w, c ∈ A.alphabet) ∧ (A.accepts w).Returns false := by
  refine (complement_ensures order hA hsimple heps hletters h0).mono ?_
  intro B h w hw
  rcases h with ⟨hdfa, hlang⟩
  refine (hdfa.letterLabels.accepts_ensures hdfa.inRange w).mono fun b hb => ?_
  rw [hb, hlang, (accepts_ensures hsimple hA hw).returns_false_iff]

theorem complement_correct_twoChoices :
    (do
      let B ← determinePass .insertion
        (AutomatonCompleter.complete AutomatonDeterminator.twoChoices)
      pure (AutomatonInverter.invert B)).Ensures fun B =>
        ∀ w : List CChar, (∀ c ∈ w, c ≠ 0) → (B.accepts w).Ensures fun b =>
          b = true ↔ (∀ c ∈ w, c ∈ AutomatonDeterminator.twoChoices.alphabet) ∧
            (AutomatonDeterminator.twoChoices.accepts w).Returns false :=
  complement_correct .insertion AutomatonDeterminator.twoChoices (by decide) (by decide)
    (by decide) (by decide) (by decide)

end FormalLanguages
