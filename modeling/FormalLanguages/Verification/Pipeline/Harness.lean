import FormalLanguages.Model.Harness
import FormalLanguages.Verification.Pipeline.Output

/-! # The loop of the tests

A test writes `for (AutomatonConfigIterator it(automaton); it; it.next())` around its
expectations. The body sees the automaton once after each pass, and a second loop over the same
automaton finds all passes but the last with nothing to do. -/

namespace FormalLanguages

open FiniteAutomaton

variable {A S E O C D B : FiniteAutomaton} {order order' : IterationOrder} {n : ℕ}
  {stage : ℕ → FiniteAutomaton}

namespace AutomatonConfigIterator

/-! ## The iterator over given stages -/

/-- Each pass leads from one stage to the next, which meets what is expected of it. -/
structure Stages (order : IterationOrder) (stage : ℕ → FiniteAutomaton) : Prop where
  returns : ∀ n, (setConfig order (stage n) (n + 1)).Returns (stage (n + 1))
  expected : ∀ n, expectation (stage (n + 1)) (n + 1) = true

theorem Stages.next_returns (h : Stages order stage) (n : ℕ) :
    (next order ⟨stage n, n, []⟩).Returns ⟨stage (n + 1), n + 1, []⟩ := by
  apply Comp.returns_bind.mpr
  refine ⟨_, h.returns n, ?_⟩
  simp [h.expected n]

/-- The automata the body has seen when the iterator stands at configuration `n + 1`. -/
def visited (stage : ℕ → FiniteAutomaton) (n : ℕ) : List FiniteAutomaton :=
  (List.range n).map fun i => stage (i + 1)

/-- While the iterator is running the body sees one stage after the other. -/
theorem Stages.reaches (h : Stages order stage) (hn : n ≤ maxConfigs) :
    Comp.Reaches (forRound order) ([], ⟨stage 1, 1, []⟩)
      (visited stage n, ⟨stage (n + 1), n + 1, []⟩) := by
  induction n with
  | zero => exact .refl
  | succ n ih =>
      refine (ih (by omega)).tail ?_
      have hrun : running ⟨stage (n + 1), n + 1, []⟩ = true := decide_eq_true hn
      rw [Comp.Next, forRound, if_pos hrun]
      refine Comp.returns_bind.mpr ⟨_, h.next_returns (n + 1), Comp.returns_pure.mpr ?_⟩
      rw [visited, visited, List.range_succ, List.map_append, List.map_singleton]

theorem Stages.forLoop_returns (h : Stages order stage) :
    (forLoop order (stage 0)).Returns
      (visited stage maxConfigs, ⟨stage (maxConfigs + 1), maxConfigs + 1, []⟩) := by
  apply Comp.returns_bind.mpr
  refine ⟨_, h.next_returns 0, Comp.loop_returns_iff.mpr ⟨_, h.reaches le_rfl, ?_⟩⟩
  rw [forRound, if_neg (by simp [running])]
  exact Comp.returns_pure.mpr rfl

end AutomatonConfigIterator

/-! ## The stages of the passes -/

/-- The automata of the five passes by number. The iterator stops after the fifth. -/
def frontEndStage (A S E O C D : FiniteAutomaton) : ℕ → FiniteAutomaton
  | 0 => A
  | 1 => S
  | 2 => E
  | 3 => O
  | 4 => C
  | _ => D

/-- What the subset construction leaves besides a complete deterministic automaton. -/
structure Numbered (D : FiniteAutomaton) : Prop where
  start_eq : D.startStateIndex = 0
  nodup : ∀ k, (D.state k).transitions.Nodup
  isDeterministic : D.isDeterministic = true

theorem numbered_of_determinePass (hC : C.InRange) (h : (determinePass order C).Returns D) :
    Numbered D := by
  obtain ⟨B, hB, hD⟩ := Comp.returns_bind.mp h
  cases Comp.returns_pure.mp hD
  obtain ⟨heps, hcomplete⟩ := AutomatonDeterminator.assertions_of_returns hB
  obtain ⟨sets, hdet⟩ :=
    (AutomatonDeterminator.determine_ensures order hC heps hcomplete).of_returns hB
  refine ⟨hdet.start_eq, hdet.nodup, isDeterministic_iff.mpr ⟨?_, ?_⟩⟩
  · exact (letterLabels_iff.mp hdet.letterLabels).1
  · exact fun k _ c _ => hdet.countTransitions_le c k

theorem FrontEnd.numbered (h : FrontEnd order A S E O C D) : Numbered D :=
  numbered_of_determinePass h.inRange.2.2.2 h.determined

theorem FrontEnd.stages (h : FrontEnd order A S E O C D) :
    AutomatonConfigIterator.Stages order (frontEndStage A S E O C D) where
  returns
    | 0 => h.simplified
    | 1 => h.removed
    | 2 => h.optimized
    | 3 => Comp.returns_pure.mpr h.completed.symm
    | 4 => h.determined
    | _ + 5 => Comp.returns_pure.mpr rfl
  expected
    | 0 => h.isSimple.1
    | 1 => by
        have heps := ((EpsilonRemover.simplify_ensures h.inRange.1).of_returns h.removed).2
        simp [AutomatonConfigIterator.expectation, frontEndStage, heps]
    | 2 => rfl
    | 3 => by
        obtain ⟨B, hB, _⟩ := Comp.returns_bind.mp h.determined
        exact (AutomatonDeterminator.assertions_of_returns hB).2
    | 4 => h.numbered.isDeterministic
    | _ + 5 => rfl

/-- On a well-formed automaton the loop ends, its body is run on the automata of the five
configurations in turn, and no expectation of the iterator fails. -/
theorem forLoop_visits (order : IterationOrder) (A : FiniteAutomaton) (hA : WellFormed A) :
    (AutomatonConfigIterator.forLoop order A).Ensures fun p =>
      p.2.unmet = [] ∧ p.1.length = AutomatonConfigIterator.maxConfigs ∧
      p.1.getLast? = some p.2.automaton ∧
      ∀ n < AutomatonConfigIterator.maxConfigs, ∃ B, p.1[n]? = some B ∧
        (AutomatonConfigIterator.atConfig order A (n + 1)).Returns B := by
  obtain ⟨S, E, O, C, D, h⟩ := exists_frontEnd order hA
  obtain ⟨h1, h2, h3, h4, h5⟩ := AutomatonConfigIterator.atConfig_returns h
  refine ⟨_, h.stages.forLoop_returns, rfl, rfl, rfl, ?_⟩
  intro n hn
  match n, hn with
  | 0, _ => exact ⟨S, rfl, h1⟩
  | 1, _ => exact ⟨E, rfl, h2⟩
  | 2, _ => exact ⟨O, rfl, h3⟩
  | 3, _ => exact ⟨C, rfl, h4⟩
  | 4, _ => exact ⟨D, rfl, h5⟩

/-- `(Regex::zero() * "a"_r) + "b"_r`. -/
def zeroRegex : Regex := Regex.zero * Regex.literal (text "a") + Regex.literal (text "b")

def zeroAutomaton : FiniteAutomaton := (ofRegex zeroRegex).extendAlphabet ∅

theorem wellFormed_zeroAutomaton : WellFormed zeroAutomaton :=
  (pipelineInput_ofRegex (by decide) OrderedSet.notMem_empty).toWellFormed

theorem forLoop_visits_zeroAutomaton :
    (AutomatonConfigIterator.forLoop .insertion zeroAutomaton).Ensures fun p =>
      p.2.unmet = [] ∧ p.1.length = AutomatonConfigIterator.maxConfigs ∧
      p.1.getLast? = some p.2.automaton ∧
      ∀ n < AutomatonConfigIterator.maxConfigs, ∃ B, p.1[n]? = some B ∧
        (AutomatonConfigIterator.atConfig .insertion zeroAutomaton (n + 1)).Returns B :=
  forLoop_visits .insertion zeroAutomaton wellFormed_zeroAutomaton

/-! ## Passes with nothing to do -/

theorem AutomatonSimplifier.simplify_of_isSimple (h : A.isSimple = true) :
    (AutomatonSimplifier.simplify A).Returns A := by
  apply Comp.loop_returns_step.mpr
  left
  cases hlong : AutomatonSimplifier.getLongTransition A with
  | none => exact Comp.returns_pure.mpr rfl
  | some ij =>
      obtain ⟨r, t, hj, hr⟩ := AutomatonSimplifier.getLongTransition_eq_some hlong
      obtain ⟨c, rfl⟩ := isSimple_iff.mp h _ _ _ (edge_of_getElem? hj)
      cases hr

theorem EpsilonRemover.simplify_of_epsilonFree (hA : A.InRange)
    (h : A.hasEpsilonTransitions = false) : (EpsilonRemover.simplify A).Returns A := by
  have hno : ∀ p q, ¬EpsilonRemover.EpsEdge A p q := by
    intro p q he
    rw [Bool.eq_false_iff, ne_eq, hasEpsilonTransitions_iff] at h
    exact h ⟨p, q, he⟩
  obtain ⟨B, hB, _⟩ := EpsilonRemover.simplify_ensures hA
  obtain ⟨s, hs, hlast⟩ := Comp.loop_returns_iff.mp hB
  -- neither a merge nor a replacement finds an epsilon transition
  have heq : s.automaton = A := Comp.Reaches.invariant (fun s => s.automaton = A)
    (fun u v hu hstep => by
      cases (EpsilonRemover.scanStep_ensures (hu ▸ hA)).of_returns hstep with
      | endOfState => exact hu
      | letter => exact hu
      | merged hS =>
          rw [hu] at hS
          exact absurd hS.close (hno _ _)
      | replaced hj =>
          rw [hu] at hj
          exact absurd (edge_of_getElem? hj) (hno _ _)) hs rfl
  cases (EpsilonRemover.scanStep_ensures (heq ▸ hA)).of_returns hlast with
  | finished => rwa [heq] at hB

theorem AutomatonOptimizer.optimize_of_allReachable (hA : A.InRange)
    (hzero : ∀ p r q, A.Edge p r q → r.isZero = false) (hreach : A.AllReachable) :
    (AutomatonOptimizer.optimize A).Returns A := by
  have hremove : AutomatonOptimizer.removeZeroTransitions A = A := by
    have hstates : (A.states.map fun s => { s with
        transitions := AutomatonOptimizer.dropZero s.transitions }) = A.states := by
      apply List.ext_getElem (by simp)
      intro p hp hp'
      rw [List.getElem_map, AutomatonOptimizer.dropZero_eq_filter, List.filter_eq_self.mpr]
      intro t ht
      rw [← state_of_lt hp'] at ht
      simp [hzero p t.regex t.targetIndex ht]
    rw [AutomatonOptimizer.removeZeroTransitions, hstates]
  obtain ⟨marks, hmarks, hlen, hmarked⟩ := AutomatonOptimizer.markReachable_ensures hA
  have hnone : AutomatonOptimizer.unmarked marks A.states.length = [] := by
    rw [List.eq_nil_iff_forall_not_mem]
    intro p hp
    obtain ⟨hlt, hp⟩ := AutomatonOptimizer.mem_unmarked.mp hp
    exact hp ((hmarked p).mpr (hreach p hlt))
  rw [AutomatonOptimizer.optimize, hremove]
  refine Comp.returns_bind.mpr ⟨marks, hmarks, Comp.returns_pure.mpr ?_⟩
  rw [AutomatonOptimizer.removeUnmarked_eq_foldl, hlen, hnone]
  rfl

/-- A complete deterministic automaton is its own subset automaton, with singletons for sets. -/
theorem AutomatonDeterminator.determines_self (hD : D.IsDfa) (hreach : D.AllReachable)
    (h : Numbered D) :
    AutomatonDeterminator.Determines D D fun k => {q | q = k ∧ k < D.states.length} where
  start_eq := h.start_eq
  start_lt := h.start_eq ▸ hD.inRange.start_lt
  sets_start := by
    ext q
    have hlt := hD.inRange.start_lt
    rw [h.start_eq] at hlt ⊢
    simp [hlt]
  nonempty hk := ⟨_, rfl, hk⟩
  lt := by
    rintro k q ⟨rfl, hk⟩
    exact hk
  inj {k l} hk _ hkl := by
    have hmem : k ∈ {q | q = l ∧ l < D.states.length} := by
      rw [← hkl]
      exact ⟨rfl, hk⟩
    exact hmem.1
  edge {k r l} he := by
    have hl := hD.inRange.target_lt he
    obtain ⟨c, _, hc, rfl⟩ := hD.label he
    refine ⟨hl, c, hc, rfl, ?_⟩
    ext q
    constructor
    · rintro ⟨rfl, _⟩
      exact ⟨k, ⟨rfl, he.source_lt⟩, he⟩
    · rintro ⟨_, ⟨rfl, _⟩, he'⟩
      exact ⟨hD.unique he' he, hl⟩
  cover := by
    rintro k c p q _ _ ⟨rfl, _⟩ he
    exact ⟨q, he⟩
  final {k} hk := by
    constructor
    · exact fun hf => ⟨k, ⟨rfl, hk⟩, hf⟩
    · rintro ⟨_, ⟨rfl, _⟩, hf⟩
      exact hf
  nodup := h.nodup
  reachable := hreach
  alphabet c := by
    constructor
    · intro hc
      obtain ⟨q, he⟩ := hD.cover hD.inRange.start_lt hc
      exact ⟨_, q, he⟩
    · rintro ⟨p, q, he⟩
      obtain ⟨_, hc, _, heq⟩ := hD.label he
      cases heq
      exact hc

/-- The automaton that the loop leaves goes through four passes as it is. The fifth gives other
numbers to its states and lists the transitions of each in another order, nothing more. -/
theorem forLoop_again (order order' : IterationOrder) (A : FiniteAutomaton)
    (hA : WellFormed A) :
    (AutomatonConfigIterator.forLoop order A).Ensures fun p =>
      (AutomatonConfigIterator.forLoop order' p.2.automaton).Ensures fun p' =>
        p'.2.unmet = [] ∧
        p'.1 = List.replicate 4 p.2.automaton ++ [p'.2.automaton] ∧
        ∃ f, Renumbers p.2.automaton p'.2.automaton f := by
  obtain ⟨S, E, O, C, D, h⟩ := exists_frontEnd order hA
  refine ⟨_, h.stages.forLoop_returns, ?_⟩
  change (AutomatonConfigIterator.forLoop order' D).Ensures _
  have hD := h.isDfa
  have heps := (letterLabels_iff.mp hD.letterLabels).2
  have hletters := AutomatonToRegexConverter.lettersIn_of_isDfa hD
  obtain ⟨X, hX, _⟩ := determinePass_ensures order' hD.inRange hletters heps hD.isComplete
  have hstages : AutomatonConfigIterator.Stages order' (frontEndStage D D D D D X) := {
    returns
      | 0 => AutomatonSimplifier.simplify_of_isSimple hD.isSimple
      | 1 => EpsilonRemover.simplify_of_epsilonFree hD.inRange heps
      | 2 => by
          apply AutomatonOptimizer.optimize_of_allReachable hD.inRange ?_ h.allReachable
          intro p r q he
          obtain ⟨c, _, _, rfl⟩ := hD.label he
          rfl
      | 3 => Comp.returns_pure.mpr (AutomatonCompleter.complete_eq_self hD.inRange
          (AutomatonCompleter.covers_of_isComplete hD.isComplete)).symm
      | 4 => hX
      | _ + 5 => Comp.returns_pure.mpr rfl
    expected
      | 0 => hD.isSimple
      | 1 => by simp [AutomatonConfigIterator.expectation, frontEndStage, heps]
      | 2 => rfl
      | 3 => hD.isComplete
      | 4 => (numbered_of_determinePass hD.inRange hX).isDeterministic
      | _ + 5 => rfl }
  refine ⟨_, hstages.forLoop_returns, rfl, rfl, ?_⟩
  obtain ⟨B, hB, hassign⟩ := Comp.returns_bind.mp hX
  cases Comp.returns_pure.mp hassign
  obtain ⟨sets, hdet⟩ := (AutomatonDeterminator.determine_ensures order' hD.inRange heps
    hD.isComplete).of_returns hB
  obtain ⟨f, hf⟩ :=
    (AutomatonDeterminator.determines_self hD h.allReachable h.numbered).renumbers hdet
  exact ⟨f, hf.assign D⟩

theorem forLoop_again_zeroAutomaton :
    (AutomatonConfigIterator.forLoop .insertion zeroAutomaton).Ensures fun p =>
      (AutomatonConfigIterator.forLoop .reversed p.2.automaton).Ensures fun p' =>
        p'.2.unmet = [] ∧
        p'.1 = List.replicate 4 p.2.automaton ++ [p'.2.automaton] ∧
        ∃ f, Renumbers p.2.automaton p'.2.automaton f :=
  forLoop_again .insertion .reversed zeroAutomaton wellFormed_zeroAutomaton

end FormalLanguages
