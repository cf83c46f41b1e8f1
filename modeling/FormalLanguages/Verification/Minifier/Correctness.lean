import FormalLanguages.Verification.Minifier.Result

/-! # Correctness and minimality of the minimised automaton -/

namespace FormalLanguages.AutomatonMinifier

open FiniteAutomaton

variable {A B D : FiniteAutomaton} {i j p q : ℕ} {v : List ℕ} {r : Regex} {c : CChar}
  {w : List CChar}

/-! ## The quotient as an automaton -/

theorem Minimal.edge_iff (h : Minimal A B v) (hp : p < A.states.length) :
    B.Edge (v.getD p 0) r j ↔ ∃ c ∈ A.alphabet, r = .char c ∧ j = v.getD (A.successor p c) 0 := by
  rw [Edge, h.state_eq p hp]
  simp only [letterTransitions, signature, List.mem_map, exists_exists_and_eq_and,
    FiniteAutomatonTransition.mk.injEq]
  constructor
  · intro hex
    obtain ⟨c, hc, rfl, rfl⟩ := hex
    exact ⟨c, hc, rfl, rfl⟩
  · intro hex
    obtain ⟨c, hc, rfl, rfl⟩ := hex
    exact ⟨c, hc, rfl, rfl⟩

theorem Minimal.final_iff (h : Minimal A B v) (hp : p < A.states.length) :
    B.Final (v.getD p 0) ↔ A.Final p := by
  rw [Final, h.state_eq p hp]
  rfl

/-- An edge of the quotient is one of any state of the class. -/
theorem Minimal.of_edge (h : Minimal A B v) (he : B.Edge i r j) :
    ∃ p < A.states.length, v.getD p 0 = i ∧
      ∃ c ∈ A.alphabet, r = .char c ∧ j = v.getD (A.successor p c) 0 := by
  obtain ⟨p, hp, rfl⟩ := h.exists_number i he.source_lt
  exact ⟨p, hp, rfl, (h.edge_iff hp).mp he⟩

theorem Minimal.isDfa (h : Minimal A B v) (hA : A.IsDfa) : B.IsDfa where
  inRange := by
    constructor
    · rw [h.start_eq]
      exact h.number_lt _ hA.inRange.start_lt
    · intro i r j he
      obtain ⟨p, hp, _, c, hc, _, rfl⟩ := h.of_edge he
      exact h.number_lt _ (hA.successor_lt hp hc)
  label he := by
    obtain ⟨p, _, _, c, hc, rfl, _⟩ := h.of_edge he
    rw [h.alphabet_eq]
    exact ⟨c, hc, hA.ne_zero hc, rfl⟩
  cover {i c} hi hc := by
    obtain ⟨p, hp, rfl⟩ := h.exists_number i hi
    rw [h.alphabet_eq] at hc
    exact ⟨_, (h.edge_iff hp).mpr ⟨c, hc, rfl, rfl⟩⟩
  unique {i c j j'} he he' := by
    obtain ⟨p, hp, rfl⟩ := h.exists_number i he.source_lt
    obtain ⟨d, _, hd, rfl⟩ := (h.edge_iff hp).mp he
    obtain ⟨d', _, hd', rfl⟩ := (h.edge_iff hp).mp he'
    cases hd
    cases hd'
    rfl

theorem Minimal.residual_eq (h : Minimal A B v) (hA : A.IsDfa) (hp : p < A.states.length) :
    B.residual (v.getD p 0) = A.residual p := by
  have hB := h.isDfa hA
  ext w
  induction w generalizing p with
  | nil =>
      rw [hB.letterLabels.nil_mem_residual, hA.letterLabels.nil_mem_residual]
      exact h.final_iff hp
  | cons c w ih =>
      by_cases hc : c ∈ A.alphabet
      · have he : B.Edge (v.getD p 0) (.char c) (v.getD (A.successor p c) 0) :=
          (h.edge_iff hp).mpr ⟨c, hc, rfl, rfl⟩
        rw [hB.cons_mem_residual_iff he, hA.cons_mem_residual_successor hp hc]
        exact ih (hA.successor_lt hp hc)
      · apply iff_of_false
        · intro hw
          have := hB.mem_alphabet_of_mem_residual hw c (by simp)
          rw [h.alphabet_eq] at this
          exact hc this
        · exact fun hw => hc (hA.mem_alphabet_of_mem_residual hw c (by simp))

theorem Minimal.pathLanguage_eq (h : Minimal A B v) (hA : A.IsDfa) :
    B.pathLanguage = A.pathLanguage := by
  rw [pathLanguage, h.start_eq]
  exact h.residual_eq hA hA.inRange.start_lt

theorem Minimal.isDeterministic (h : Minimal A B v) (hA : A.IsDfa) :
    B.isDeterministic = true := by
  rw [isDeterministic_iff]
  refine ⟨(h.isDfa hA).isSimple, ?_⟩
  intro i hi c _
  obtain ⟨p, hp, rfl⟩ := h.exists_number i hi
  rw [countTransitions]
  rw [h.state_eq p hp]
  have hcount : (letterTransitions (signature A v p)).countP (fun t => t.regex.isCharOf c) =
      A.alphabet.toList.count c := by
    rw [letterTransitions, signature, List.map_map, List.countP_map, List.count]
    apply List.countP_congr
    intro d _
    simp [Regex.isCharOf]
  exact hcount.trans_le (List.nodup_iff_count_le_one.mp A.alphabet.nodup_toList c)

theorem Minimal.reachable (h : Minimal A B v) (hA : A.IsDfa) (hp : A.Reachable p) :
    B.Reachable (v.getD p 0) := by
  induction hp with
  | refl =>
      rw [← h.start_eq]
      exact .refl
  | tail _ he ih =>
      obtain ⟨r, he⟩ := he
      obtain ⟨c, hc, _, rfl⟩ := hA.label he
      rw [← hA.successor_eq he]
      exact ih.edge ((h.edge_iff he.source_lt).mpr ⟨c, hc, rfl, rfl⟩)

/-! ## Minimality -/

/-- Different states spell different words, and one over the alphabet tells them apart. -/
theorem Minimal.distinguished (h : Minimal A B v) (hA : A.IsDfa) (hi : i < B.states.length)
    (hj : j < B.states.length) (hij : i ≠ j) :
    ∃ w : List CChar, (∀ c ∈ w, c ∈ A.alphabet) ∧ ¬(w ∈ B.residual i ↔ w ∈ B.residual j) := by
  obtain ⟨p, hp, rfl⟩ := h.exists_number i hi
  obtain ⟨q, hq, rfl⟩ := h.exists_number j hj
  have hne : A.residual p ≠ A.residual q := fun heq =>
    hij ((h.number_eq_iff p hp q hq).mpr heq)
  by_contra hno
  push Not at hno
  apply hne
  ext w
  rw [← h.residual_eq hA hp, ← h.residual_eq hA hq]
  by_cases hw : ∀ c ∈ w, c ∈ A.alphabet
  · exact hno w hw
  · have hB := h.isDfa hA
    rw [← h.alphabet_eq] at hw
    exact iff_of_false (fun hm => hw (hB.mem_alphabet_of_mem_residual hm))
      (fun hm => hw (hB.mem_alphabet_of_mem_residual hm))

theorem Minimal.length_le (h : Minimal A B v) (hA : A.IsDfa) (hreach : A.AllReachable)
    (hD : D.IsDfa) (halpha : D.alphabet = A.alphabet) (hlang : D.pathLanguage = A.pathLanguage) :
    B.states.length ≤ D.states.length := by
  have hex : ∀ i, i < B.states.length → ∃ d < D.states.length, D.residual d = B.residual i := by
    intro i hi
    obtain ⟨p, hp, rfl⟩ := h.exists_number i hi
    rw [h.residual_eq hA hp]
    exact hA.exists_residual_eq hD halpha hlang (hreach p hp)
  choose! f hlt hres using hex
  have hinj : Set.InjOn f (Finset.range B.states.length) := by
    intro i hi j hj hij
    have hi := Finset.mem_range.mp hi
    have hj := Finset.mem_range.mp hj
    by_contra hne
    obtain ⟨w, _, hw⟩ := h.distinguished hA hi hj hne
    rw [← hres i hi, ← hres j hj, hij] at hw
    exact hw Iff.rfl
  have hcard := Finset.card_le_card_of_injOn f (s := Finset.range B.states.length)
    (t := Finset.range D.states.length)
    (fun i hi => Finset.mem_range.mpr (hlt i (Finset.mem_range.mp hi))) hinj
  rwa [Finset.card_range, Finset.card_range] at hcard

/-- Minimisation ends. Its result is complete and deterministic over the same alphabet, accepts
the same words and has no two states that could be joined. No equivalent automaton is smaller when all states
of the input are reachable. -/
theorem minify_correct (A : FiniteAutomaton) (hA : A.InRange) (hletters : A.LettersIn)
    (heps : A.hasEpsilonTransitions = false) (hcomplete : A.isComplete = true)
    (hdet : A.isDeterministic = true) (hfinal : ∃ p, A.Final p) :
    (minify A).Ensures fun B =>
      B.isComplete = true ∧ B.isDeterministic = true ∧ B.InRange ∧ B.alphabet = A.alphabet ∧
      (∀ w, (B.accepts w).Ensures fun b => (A.accepts w).Returns b) ∧
      (∀ i < B.states.length, ∀ j < B.states.length, i ≠ j →
        ∃ w : List CChar, (∀ c ∈ w, c ∈ A.alphabet) ∧
          ¬(w ∈ B.residual i ↔ w ∈ B.residual j)) ∧
      (A.AllReachable → ∀ D : FiniteAutomaton, D.InRange → D.LettersIn →
        D.hasEpsilonTransitions = false → D.isComplete = true → D.isDeterministic = true →
        D.alphabet = A.alphabet → (∀ w, (D.accepts w).Returns true ↔ (A.accepts w).Returns true) →
        B.states.length ≤ D.states.length) := by
  have hdfa := isDfa_of_predicates hA hletters heps hcomplete hdet
  have haccA := fun w => hdfa.letterLabels.accepts_ensures hA w
  apply (minify_ensures hdfa hfinal).mono
  intro B hB
  obtain ⟨v, hB⟩ := hB
  have hBdfa := hB.isDfa hdfa
  refine ⟨hBdfa.isComplete, hB.isDeterministic hdfa, hBdfa.inRange, hB.alphabet_eq, ?_, ?_, ?_⟩
  · intro w
    have haccB := hBdfa.letterLabels.accepts_ensures hBdfa.inRange w
    rw [hB.pathLanguage_eq hdfa] at haccB
    exact haccB.returns_same (haccA w)
  · intro i hi j hj hij
    exact hB.distinguished hdfa hi hj hij
  · intro hreach D hD hDletters hDeps hDcomplete hDdet halpha hlang
    have hDdfa := isDfa_of_predicates hD hDletters hDeps hDcomplete hDdet
    apply hB.length_le hdfa hreach hDdfa halpha
    ext w
    rw [← (hDdfa.letterLabels.accepts_ensures hD w).returns_true_iff,
      ← (haccA w).returns_true_iff]
    exact hlang w

/-- Two final states that the letter `a` leads to and fro between. -/
def toAndFro : FiniteAutomaton where
  alphabet := OrderedSet.insert 97 ∅
  states := [⟨true, [⟨.char 97, 1⟩]⟩, ⟨true, [⟨.char 97, 0⟩]⟩]

theorem minify_correct_toAndFro :
    (minify toAndFro).Ensures fun B =>
      B.isComplete = true ∧ B.isDeterministic = true ∧ B.InRange ∧
      B.alphabet = toAndFro.alphabet ∧
      (∀ w, (B.accepts w).Ensures fun b => (toAndFro.accepts w).Returns b) ∧
      (∀ i < B.states.length, ∀ j < B.states.length, i ≠ j →
        ∃ w : List CChar, (∀ c ∈ w, c ∈ toAndFro.alphabet) ∧
          ¬(w ∈ B.residual i ↔ w ∈ B.residual j)) ∧
      (toAndFro.AllReachable → ∀ D : FiniteAutomaton, D.InRange → D.LettersIn →
        D.hasEpsilonTransitions = false → D.isComplete = true → D.isDeterministic = true →
        D.alphabet = toAndFro.alphabet →
        (∀ w, (D.accepts w).Returns true ↔ (toAndFro.accepts w).Returns true) →
        B.states.length ≤ D.states.length) :=
  minify_correct toAndFro (by decide) (by decide) (by decide) (by decide) (by decide) ⟨0, rfl⟩

end FormalLanguages.AutomatonMinifier
