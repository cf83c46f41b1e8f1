import FormalLanguages.Verification.Minifier.Canonical
import Mathlib.Computability.MyhillNerode
import Mathlib.Data.Set.Card

/-! # The minimised automaton is the automaton of the left quotients

Its states are the left quotients of the language by the words over the alphabet: each of them
is the residual language of exactly one state. -/

namespace FormalLanguages

open FiniteAutomaton

variable {A B : FiniteAutomaton} {i j : ℕ} {v : List ℕ} {u : List CChar} {c : CChar} {r : Regex}

/-- The left quotients by the words over an alphabet. -/
def quotients (l : Language CChar) (letters : OrdSet CChar) : Set (Language CChar) :=
  {m | ∃ u : List CChar, (∀ c ∈ u, c ∈ letters) ∧ l.leftQuotient u = m}

namespace FiniteAutomaton

/-- What is left of the language after a word is spelled by the state the word leads to. -/
theorem IsDfa.leftQuotient_eq (h : A.IsDfa) (hu : ∀ c ∈ u, c ∈ A.alphabet) :
    A.pathLanguage.leftQuotient u = A.residual (A.runFrom A.startStateIndex u) := by
  ext w
  rw [Language.mem_leftQuotient]
  exact (h.runFrom_spec h.inRange.start_lt hu).2 w

theorem IsDfa.residual_leftQuotient (h : A.IsDfa) (hi : i < A.states.length)
    (hc : c ∈ A.alphabet) :
    (A.residual i).leftQuotient [c] = A.residual (A.successor i c) := by
  ext w
  rw [Language.mem_leftQuotient, List.singleton_append]
  exact h.cons_mem_residual_successor hi hc

end FiniteAutomaton

namespace AutomatonMinifier

theorem Minimal.residual_inj (h : Minimal A B v) (hA : A.IsDfa) (hi : i < B.states.length)
    (hj : j < B.states.length) (hij : B.residual i = B.residual j) : i = j := by
  by_contra hne
  obtain ⟨w, _, hw⟩ := h.distinguished hA hi hj hne
  rw [hij] at hw
  exact hw Iff.rfl

theorem Minimal.bijOn_quotients (h : Minimal A B v) (hA : A.IsDfa) (hreach : A.AllReachable) :
    Set.BijOn B.residual {i | i < B.states.length} (quotients A.pathLanguage A.alphabet) := by
  have hB := h.isDfa hA
  rw [← h.pathLanguage_eq hA, ← h.alphabet_eq]
  refine ⟨?_, ?_, ?_⟩
  · intro i hi
    obtain ⟨p, hp, rfl⟩ := h.exists_number i hi
    obtain ⟨u, hu, heq⟩ := hB.exists_word (h.reachable hA (hreach p hp))
    refine ⟨u, hu, ?_⟩
    rw [hB.leftQuotient_eq hu, heq]
  · intro i hi j hj hij
    exact h.residual_inj hA hi hj hij
  · rintro m ⟨u, hu, rfl⟩
    exact ⟨_, (hB.runFrom_spec hB.inRange.start_lt hu).1, (hB.leftQuotient_eq hu).symm⟩

theorem Minimal.edge_iff_leftQuotient (h : Minimal A B v) (hA : A.IsDfa)
    (hi : i < B.states.length) (hj : j < B.states.length) :
    B.Edge i r j ↔
      ∃ c ∈ A.alphabet, r = .char c ∧ B.residual j = (B.residual i).leftQuotient [c] := by
  have hB := h.isDfa hA
  constructor
  · intro he
    obtain ⟨c, hc, _, rfl⟩ := hB.label he
    refine ⟨c, h.alphabet_eq ▸ hc, rfl, ?_⟩
    rw [hB.residual_leftQuotient hi hc, hB.successor_eq he]
  · intro hex
    obtain ⟨c, hc, rfl, hres⟩ := hex
    rw [← h.alphabet_eq] at hc
    rw [hB.residual_leftQuotient hi hc] at hres
    rw [h.residual_inj hA hj (hB.successor_lt hi hc) hres]
    exact hB.edge_successor hi hc

/-- Minimisation builds the automaton of the left quotients: one state for each quotient of the
language by a word over the alphabet, the language itself at the start, final states for the
quotients with the empty word, and a transition for each letter to the quotient by that letter. -/
theorem minify_quotients (A : FiniteAutomaton) (hA : A.InRange) (hletters : A.LettersIn)
    (heps : A.hasEpsilonTransitions = false) (hcomplete : A.isComplete = true)
    (hdet : A.isDeterministic = true) (hreach : A.AllReachable) (hfinal : ∃ p, A.Final p) :
    (minify A).Ensures fun B => B.InRange ∧ B.alphabet = A.alphabet ∧
      B.states.length = (quotients A.pathLanguage A.alphabet).ncard ∧
      ∃ quotient : ℕ → Language CChar,
        Set.BijOn quotient {i | i < B.states.length} (quotients A.pathLanguage A.alphabet) ∧
        quotient B.startStateIndex = A.pathLanguage ∧
        (∀ i, B.Final i ↔ i < B.states.length ∧ [] ∈ quotient i) ∧
        ∀ i < B.states.length, ∀ j < B.states.length, ∀ r, B.Edge i r j ↔
          ∃ c ∈ A.alphabet, r = .char c ∧ quotient j = (quotient i).leftQuotient [c] := by
  have hdfa := isDfa_of_predicates hA hletters heps hcomplete hdet
  apply (minify_ensures hdfa hfinal).mono
  intro B hB
  obtain ⟨v, h⟩ := hB
  have hbij := h.bijOn_quotients hdfa hreach
  refine ⟨(h.isDfa hdfa).inRange, h.alphabet_eq, ?_, B.residual, hbij, h.pathLanguage_eq hdfa, ?_, ?_⟩
  · rw [← hbij.image_eq, Set.InjOn.ncard_image hbij.injOn]
    have hfin : {i | i < B.states.length} = ↑(Finset.range B.states.length) := by
      ext i
      simp
    rw [hfin, Set.ncard_coe_finset, Finset.card_range]
  · intro i
    rw [(h.isDfa hdfa).letterLabels.nil_mem_residual]
    exact ⟨fun hi => ⟨hi.lt, hi⟩, fun hi => hi.2⟩
  · intro i hi j hj r
    exact h.edge_iff_leftQuotient hdfa hi hj

theorem minify_quotients_toAndFro :
    (minify toAndFro).Ensures fun B => B.InRange ∧ B.alphabet = toAndFro.alphabet ∧
      B.states.length = (quotients toAndFro.pathLanguage toAndFro.alphabet).ncard ∧
      ∃ quotient : ℕ → Language CChar,
        Set.BijOn quotient {i | i < B.states.length}
          (quotients toAndFro.pathLanguage toAndFro.alphabet) ∧
        quotient B.startStateIndex = toAndFro.pathLanguage ∧
        (∀ i, B.Final i ↔ i < B.states.length ∧ [] ∈ quotient i) ∧
        ∀ i < B.states.length, ∀ j < B.states.length, ∀ r, B.Edge i r j ↔
          ∃ c ∈ toAndFro.alphabet, r = .char c ∧ quotient j = (quotient i).leftQuotient [c] :=
  minify_quotients toAndFro (by decide) (by decide) (by decide) (by decide) (by decide)
    allReachable_toAndFro ⟨0, rfl⟩

end AutomatonMinifier

end FormalLanguages
