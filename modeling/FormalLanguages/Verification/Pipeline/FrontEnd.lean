import FormalLanguages.Verification.EpsilonRemover.Correctness
import FormalLanguages.Verification.Passes.Complement
import FormalLanguages.Verification.Passes.Optimizer
import FormalLanguages.Verification.Simplifier.Correctness

/-! # From a regex to a complete deterministic automaton

Four of the five passes keep the language of every input. The epsilon remover keeps it
exactly when every replacement of its run is harmless, so this decides for all of them. -/

namespace FormalLanguages

open FiniteAutomaton

variable {A S E O C D X : FiniteAutomaton} {r : Regex} {w : List CChar} {order : IterationOrder}

/-! ## The input -/

/-- What all passes need and keep: targets among the states, no label with an empty `Concat`,
the letters of the labels in the alphabet, and no zero byte there. -/
structure WellFormed (A : FiniteAutomaton) : Prop where
  inRange : A.InRange
  labelsOk : AutomatonSimplifier.LabelsOk A
  lettersIn : A.LettersIn
  zero_notMem : 0 ∉ A.alphabet

/-- Well-formed automata with no transition into the start state, such as those of a regex. -/
structure PipelineInput (A : FiniteAutomaton) : Prop extends WellFormed A where
  noIncoming : ∀ q r, ¬A.Edge q r A.startStateIndex

theorem noIncoming_ofRegex (r : Regex) :
    ∀ q x, ¬(FiniteAutomaton.ofRegex r).Edge q x (FiniteAutomaton.ofRegex r).startStateIndex := by
  intro q x he
  exact absurd (AutomatonSimplifier.edge_ofRegex.mp he).2.2 (by simp [ofRegex])

theorem pipelineInput_ofRegex (h : r.noEmptyConcat = true) {X : OrdSet CChar} (hX : 0 ∉ X) :
    PipelineInput ((FiniteAutomaton.ofRegex r).extendAlphabet X) where
  inRange := by
    have h := AutomatonSimplifier.inRange_ofRegex r
    exact ⟨h.start_lt, fun he => h.target_lt (edge_extendAlphabet.mp he)⟩
  labelsOk := AutomatonSimplifier.labelsOk_ofRegex h
  lettersIn := by
    intro p x q he c hc
    obtain ⟨_, rfl, _⟩ := AutomatonSimplifier.edge_ofRegex.mp he
    exact mem_alphabet_extendAlphabet.mpr (.inl hc)
  zero_notMem := by
    intro h0
    rcases mem_alphabet_extendAlphabet.mp h0 with h0 | h0
    · exact Regex.ne_zero_of_mem_letters h0 rfl
    · exact hX h0
  noIncoming q x he := noIncoming_ofRegex r q x (edge_extendAlphabet.mp he)

theorem extendAlphabet_empty : A.extendAlphabet ∅ = A := rfl

theorem pathLanguage_extendAlphabet {X : OrdSet CChar} :
    (A.extendAlphabet X).pathLanguage = A.pathLanguage := rfl

/-- A state that no edge leads to is on no cycle. -/
theorem startOffCycle_of_noIncoming (h : ∀ q r, ¬A.Edge q r A.startStateIndex) :
    EpsilonRemover.StartOffCycle A := by
  intro hcycle
  obtain ⟨q, _, he⟩ := Relation.TransGen.tail'_iff.mp hcycle
  exact h q _ he

/-- The simplifier leads no edge to the start state that was not there. -/
theorem PipelineInput.startOffCycle (hA : PipelineInput A)
    (hS : (AutomatonSimplifier.simplify A).Returns S) : EpsilonRemover.StartOffCycle S := by
  obtain ⟨_, _, hsim⟩ :=
    (AutomatonSimplifier.simplify_ensures hA.inRange hA.labelsOk).of_returns hS
  apply startOffCycle_of_noIncoming
  rw [hsim.start_eq]
  exact hsim.noIncoming hA.inRange.start_lt hA.noIncoming

theorem PipelineInput.exists_startOffCycle (hA : PipelineInput A)
    (hrun : ∃ S, (AutomatonSimplifier.simplify A).Returns S ∧ EpsilonRemover.HarmlessRun S) :
    ∃ S, (AutomatonSimplifier.simplify A).Returns S ∧ EpsilonRemover.StartOffCycle S ∧
      EpsilonRemover.HarmlessRun S := by
  obtain ⟨S, hS, hrun⟩ := hrun
  exact ⟨S, hS, hA.startOffCycle hS, hrun⟩

/-! ## The five passes -/

/-- The simplifier and the epsilon remover, which all programs begin with. -/
structure Removal (A S E : FiniteAutomaton) : Prop where
  simplified : (AutomatonSimplifier.simplify A).Returns S
  removed : (EpsilonRemover.simplify S).Returns E
  isSimple : S.isSimple = true
  inRange : S.InRange
  removes : EpsilonRemover.Removes S E
  epsilonFree : E.hasEpsilonTransitions = false
  lettersIn : E.LettersIn
  alphabet_eq : E.alphabet = A.alphabet
  language_simplified : S.pathLanguage = A.pathLanguage

theorem exists_removal (hA : WellFormed A) : ∃ S E, Removal A S E := by
  obtain ⟨S, hS, hsimple, hrange, hsim⟩ :=
    AutomatonSimplifier.simplify_ensures hA.inRange hA.labelsOk
  obtain ⟨hlettersS, halphaS⟩ := hsim.lettersIn hA.lettersIn
  obtain ⟨E, hE, hrem, heps⟩ := EpsilonRemover.simplify_ensures hrange
  obtain ⟨hlettersE, halphaE⟩ := hrem.lettersIn hlettersS
  exact ⟨S, E, hS, hE, hsimple, hrange, hrem, heps, hlettersE, halphaE.trans halphaS,
    hsim.pathLanguage_eq hA.inRange⟩

/-- The automata after the five passes, and what each pass keeps. -/
structure FrontEnd (order : IterationOrder) (A S E O C D : FiniteAutomaton) : Prop where
  simplified : (AutomatonSimplifier.simplify A).Returns S
  removed : (EpsilonRemover.simplify S).Returns E
  optimized : (AutomatonOptimizer.optimize E).Returns O
  completed : AutomatonCompleter.complete O = C
  determined : (determinePass order C).Returns D
  isSimple : S.isSimple = true ∧ E.isSimple = true ∧ O.isSimple = true ∧ C.isSimple = true
  inRange : S.InRange ∧ E.InRange ∧ O.InRange ∧ C.InRange
  removes : EpsilonRemover.Removes S E
  isDfa : D.IsDfa
  allReachable : D.AllReachable
  alphabet_eq : D.alphabet = A.alphabet
  language_simplified : S.pathLanguage = A.pathLanguage
  language_optimized : O.pathLanguage = E.pathLanguage
  language_completed : C.pathLanguage = E.pathLanguage
  language_determined : D.pathLanguage = E.pathLanguage

/-- The five passes end on every well-formed automaton. -/
theorem exists_frontEnd (order : IterationOrder) (hA : WellFormed A) :
    ∃ S E O C D, FrontEnd order A S E O C D := by
  obtain ⟨S, E, h⟩ := exists_removal hA
  have hsimpleE := h.removes.isSimple h.isSimple
  obtain ⟨O, hO, hopt⟩ := AutomatonOptimizer.optimize_ensures h.removes.inRange
  have hsimpleO := hopt.isSimple hsimpleE
  have hcom := AutomatonCompleter.completes_complete hopt.inRange
  have halphabet : O.alphabet = A.alphabet := hopt.alphabet_eq.trans h.alphabet_eq
  have h0 : 0 ∉ O.alphabet := by
    rw [halphabet]
    exact hA.zero_notMem
  obtain ⟨D, hD, hdet⟩ := determinePass_complete_ensures order hopt.inRange hsimpleO
    (hopt.epsilonFree h.epsilonFree) (hopt.lettersIn h.lettersIn) h0
  exact ⟨S, E, O, _, D, {
    simplified := h.simplified
    removed := h.removed
    optimized := hO
    completed := rfl
    determined := hD
    isSimple := ⟨h.isSimple, hsimpleE, hsimpleO, hcom.isSimple hsimpleO⟩
    inRange := ⟨h.inRange, h.removes.inRange, hopt.inRange, hcom.inRange hopt.inRange⟩
    removes := h.removes
    isDfa := hdet.isDfa
    allReachable := hdet.allReachable
    alphabet_eq := hdet.alphabet_eq.trans halphabet
    language_simplified := h.language_simplified
    language_optimized := hopt.pathLanguage_eq
    language_completed := hcom.pathLanguage_eq.trans hopt.pathLanguage_eq
    language_determined := hdet.pathLanguage_eq.trans hopt.pathLanguage_eq }⟩

/-- The language after all passes is that of the input exactly when the run of the epsilon
remover is harmless. -/
theorem FrontEnd.language_eq_iff (h : FrontEnd order A S E O C D)
    (hstart : EpsilonRemover.StartOffCycle S) :
    E.pathLanguage = A.pathLanguage ↔ EpsilonRemover.HarmlessRun S := by
  rw [← h.language_simplified]
  exact EpsilonRemover.pathLanguage_eq_iff_harmlessRun h.inRange.1 hstart h.removed

theorem FrontEnd.harmlessRun_iff (h : FrontEnd order A S E O C D) :
    EpsilonRemover.HarmlessRun S ↔ ∃ S, (AutomatonSimplifier.simplify A).Returns S ∧
      EpsilonRemover.HarmlessRun S := by
  constructor
  · exact fun hS => ⟨S, h.simplified, hS⟩
  · intro hex
    obtain ⟨S', hS', hrun⟩ := hex
    rwa [h.simplified.unique hS']

theorem FrontEnd.language_of_harmless (h : FrontEnd order A S E O C D) (hA : PipelineInput A)
    (hrun : ∃ S, (AutomatonSimplifier.simplify A).Returns S ∧ EpsilonRemover.HarmlessRun S) :
    E.pathLanguage = A.pathLanguage :=
  (h.language_eq_iff (hA.startOffCycle h.simplified)).mpr (h.harmlessRun_iff.mpr hrun)

theorem FrontEnd.language_eq_regex {alphabet : OrdSet CChar}
    (h : FrontEnd order ((ofRegex r).extendAlphabet alphabet) S E O C D)
    (hinput : PipelineInput ((ofRegex r).extendAlphabet alphabet))
    (hrun : ∃ S, (AutomatonSimplifier.simplify ((ofRegex r).extendAlphabet alphabet)).Returns S ∧
      EpsilonRemover.HarmlessRun S) :
    D.pathLanguage = r.language :=
  h.language_determined.trans ((h.language_of_harmless hinput hrun).trans
    (AutomatonSimplifier.pathLanguage_ofRegex r))

/-! ## The configurations of the tests -/

namespace AutomatonConfigIterator

theorem returns_atConfig_succ {n : ℕ} {B : FiniteAutomaton} (h : (atConfig order A n).Returns B)
    (hX : (setConfig order B (n + 1)).Returns X) : (atConfig order A (n + 1)).Returns X :=
  Comp.returns_bind.mpr ⟨B, h, hX⟩

theorem atConfig_returns (h : FrontEnd order A S E O C D) :
    (atConfig order A 1).Returns S ∧ (atConfig order A 2).Returns E ∧
    (atConfig order A 3).Returns O ∧ (atConfig order A 4).Returns C ∧
    (atConfig order A 5).Returns D := by
  have h0 : (atConfig order A 0).Returns A := Comp.returns_pure.mpr rfl
  have h1 := returns_atConfig_succ h0 h.simplified
  have h2 := returns_atConfig_succ h1 h.removed
  have h3 := returns_atConfig_succ h2 h.optimized
  have h4 : (atConfig order A 4).Returns C :=
    returns_atConfig_succ h3 (Comp.returns_pure.mpr h.completed.symm)
  exact ⟨h1, h2, h3, h4, returns_atConfig_succ h4 h.determined⟩

end AutomatonConfigIterator

/-- Accepting exactly the words of a regex is having its language. -/
theorem accepts_iff_language (hs : X.isSimple = true) (hX : X.InRange) :
    (∀ w : List CChar, (∀ c ∈ w, c ≠ 0) →
      (X.accepts w).Ensures fun b => b = true ↔ w ∈ r.language) ↔
    X.pathLanguage = r.language := by
  constructor
  · intro h
    ext w
    by_cases hw : ∀ c ∈ w, c ≠ 0
    · rw [← (accepts_ensures hs hX hw).returns_true_iff, (h w hw).returns_true_iff]
    · apply iff_of_false
      · exact fun hm => hw (ne_zero_of_mem_residual hm)
      · intro hm
        apply hw
        intro c hc
        exact Regex.ne_zero_of_mem_letters (Regex.mem_letters_of_mem_language hm hc)
  · intro h w hw
    rw [← h]
    exact accepts_ensures hs hX hw

/-- After each of the five passes the automaton of a regex accepts exactly the words of the
regex, if and only if every epsilon replacement of the run on the simplified automaton is
harmless. -/
theorem configs_correct_iff (order : IterationOrder) (r : Regex) (hr : r.noEmptyConcat = true) :
    (∀ n, 1 ≤ n → n ≤ AutomatonConfigIterator.maxConfigs →
      (AutomatonConfigIterator.atConfig order (.ofRegex r) n).Ensures fun A =>
        ∀ w : List CChar, (∀ c ∈ w, c ≠ 0) →
          (A.accepts w).Ensures fun b => b = true ↔ w ∈ r.language) ↔
    ∃ S, (AutomatonSimplifier.simplify (.ofRegex r)).Returns S ∧
      EpsilonRemover.HarmlessRun S := by
  have hinput := pipelineInput_ofRegex hr (X := ∅) OrderedSet.notMem_empty
  rw [extendAlphabet_empty] at hinput
  obtain ⟨S, E, O, C, D, h⟩ := exists_frontEnd order hinput.toWellFormed
  obtain ⟨h1, h2, h3, h4, h5⟩ := AutomatonConfigIterator.atConfig_returns h
  obtain ⟨hsS, hsE, hsO, hsC⟩ := h.isSimple
  obtain ⟨hrS, hrE, hrO, hrC⟩ := h.inRange
  have hlang := AutomatonSimplifier.pathLanguage_ofRegex r
  rw [← h.harmlessRun_iff, ← h.language_eq_iff (hinput.startOffCycle h.simplified),
    hlang]
  constructor
  · intro hall
    have hE := (hall 2 (by decide) (by decide)).of_returns h2
    exact (accepts_iff_language hsE hrE).mp hE
  · intro heq n hn hmax
    have hcases : n = 1 ∨ n = 2 ∨ n = 3 ∨ n = 4 ∨ n = 5 := by
      have : n ≤ 5 := hmax
      omega
    rcases hcases with rfl | rfl | rfl | rfl | rfl
    · exact ⟨S, h1, (accepts_iff_language hsS hrS).mpr (h.language_simplified.trans hlang)⟩
    · exact ⟨E, h2, (accepts_iff_language hsE hrE).mpr heq⟩
    · exact ⟨O, h3, (accepts_iff_language hsO hrO).mpr (h.language_optimized.trans heq)⟩
    · exact ⟨C, h4, (accepts_iff_language hsC hrC).mpr (h.language_completed.trans heq)⟩
    · exact ⟨D, h5, (accepts_iff_language h.isDfa.isSimple h.isDfa.inRange).mpr
        (h.language_determined.trans heq)⟩

/-- The regex `b* + c`, with the star over an alternative to the empty word. -/
def starOrLetter : Regex := .sum [.star (.sum [.char 0, .char 98]), .char 99]

theorem configs_correct_iff_starOrLetter :
    (∀ n, 1 ≤ n → n ≤ AutomatonConfigIterator.maxConfigs →
      (AutomatonConfigIterator.atConfig .insertion (.ofRegex starOrLetter) n).Ensures fun A =>
        ∀ w : List CChar, (∀ c ∈ w, c ≠ 0) →
          (A.accepts w).Ensures fun b => b = true ↔ w ∈ starOrLetter.language) ↔
    ∃ S, (AutomatonSimplifier.simplify (.ofRegex starOrLetter)).Returns S ∧
      EpsilonRemover.HarmlessRun S :=
  configs_correct_iff .insertion starOrLetter (by decide)

theorem notMem_starOrLetter : [98, 99] ∉ starOrLetter.language := by
  intro hmem
  obtain ⟨s, hs, hw⟩ := Regex.mem_language_sum.mp hmem
  rcases List.mem_pair.mp hs with rfl | rfl
  · exact absurd (Regex.mem_letters_of_mem_language hw (c := 99) (by simp)) (by decide)
  · exact absurd (Regex.mem_letters_of_mem_language hw (c := 98) (by simp)) (by decide)

/-- The word `bc` is accepted once the epsilon transitions are removed. -/
theorem configs_starOrLetter :
    starOrLetter.noEmptyConcat = true ∧
    ¬∀ n, 1 ≤ n → n ≤ AutomatonConfigIterator.maxConfigs →
      (AutomatonConfigIterator.atConfig .insertion (.ofRegex starOrLetter) n).Ensures fun A =>
        ∀ w : List CChar, (∀ c ∈ w, c ≠ 0) →
          (A.accepts w).Ensures fun b => b = true ↔ w ∈ starOrLetter.language := by
  refine ⟨by decide, ?_⟩
  intro h
  have hrun : (AutomatonConfigIterator.atConfig .insertion (.ofRegex starOrLetter) 2 >>=
      fun A => A.accepts [98, 99]).Returns true := ⟨30, rfl⟩
  obtain ⟨A, hA, htrue⟩ := Comp.returns_bind.mp hrun
  have hacc := (h 2 (by decide) (by decide)).of_returns hA [98, 99] (by decide +kernel)
  exact notMem_starOrLetter (hacc.returns_true_iff.mp htrue)

end FormalLanguages
