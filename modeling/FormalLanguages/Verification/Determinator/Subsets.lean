import FormalLanguages.Verification.Determinator.Correctness
import Mathlib.Computability.NFA

/-! # The determinised automaton is the subset automaton

The abstract model is the subset automaton of the textbooks, on all sets of states. The code
builds the part of it that the start set leads to, without the empty set. -/

namespace FormalLanguages

open FiniteAutomaton

variable {A B : FiniteAutomaton} {S : Set ℕ} {sets : ℕ → Set ℕ} {k l p q : ℕ} {c : CChar}
  {r : Regex} {w : List CChar} {order : IterationOrder}

namespace FiniteAutomaton

/-- The automaton as a nondeterministic one over all letters, for labels that are letters. -/
def toNFA (A : FiniteAutomaton) : NFA CChar ℕ where
  step p c := {q | A.Edge p (.char c) q}
  start := {A.startStateIndex}
  accept := {p | A.Final p}

theorem mem_stepSet_toNFA : q ∈ A.toNFA.stepSet S c ↔ ∃ p ∈ S, A.Edge p (.char c) q :=
  NFA.mem_stepSet

theorem LetterLabels.mem_acceptsFrom (h : A.LetterLabels) :
    w ∈ A.toNFA.acceptsFrom S ↔ ∃ p ∈ S, w ∈ A.residual p := by
  induction w generalizing S with
  | nil =>
      rw [NFA.nil_mem_acceptsFrom]
      simp only [h.nil_mem_residual]
      rfl
  | cons c w ih =>
      rw [NFA.cons_mem_acceptsFrom, ih]
      simp only [mem_stepSet_toNFA, h.cons_mem_residual]
      constructor
      · rintro ⟨q, ⟨p, hp, he⟩, hw⟩
        exact ⟨p, hp, q, he, hw⟩
      · rintro ⟨p, hp, q, he, hw⟩
        exact ⟨q, ⟨p, hp, he⟩, hw⟩

theorem LetterLabels.accepts_toNFA (h : A.LetterLabels) : A.toNFA.accepts = A.pathLanguage := by
  ext w
  rw [NFA.accepts_eq_acceptsFrom_start, h.mem_acceptsFrom]
  simp [toNFA, pathLanguage]

end FiniteAutomaton

namespace AutomatonDeterminator

/-- The sets other than the empty one that the start set leads to. -/
def reachableSets (A : FiniteAutomaton) : Set (Set ℕ) :=
  {S | S.Nonempty ∧ ∃ w, A.toNFA.toDFA.eval w = S}

theorem Determines.sets_eq_step (h : Determines A B sets) (he : B.Edge k (.char c) l) :
    sets l = A.toNFA.toDFA.step (sets k) c := by
  ext q
  rw [h.sets_of_edge he]
  exact mem_stepSet_toNFA.symm

theorem Determines.edge_iff_step (h : Determines A B sets) (hA : A.LetterLabels)
    (hk : k < B.states.length) (hl : l < B.states.length) :
    B.Edge k r l ↔ ∃ c, r = .char c ∧ sets l = A.toNFA.toDFA.step (sets k) c := by
  constructor
  · intro he
    obtain ⟨_, c, _, rfl, _⟩ := h.edge he
    exact ⟨c, rfl, h.sets_eq_step he⟩
  · rintro ⟨c, rfl, hstep⟩
    obtain ⟨q, hq⟩ := h.nonempty hl
    rw [hstep] at hq
    obtain ⟨p, hp, he⟩ := mem_stepSet_toNFA.mp hq
    obtain ⟨l', he'⟩ := h.cover hk (hA.ne_zero he) hp he
    have hsame : l' = l := h.inj (h.edge he').1 hl ((h.sets_eq_step he').trans hstep.symm)
    rwa [hsame] at he'

theorem Determines.exists_eval (h : Determines A B sets) (hk : B.Reachable k) :
    ∃ w, A.toNFA.toDFA.eval w = sets k := by
  induction hk with
  | refl =>
      refine ⟨[], ?_⟩
      rw [h.start_eq, h.sets_start]
      rfl
  | tail _ he ih =>
      obtain ⟨w, hw⟩ := ih
      obtain ⟨r, he⟩ := he
      obtain ⟨_, c, _, rfl, _⟩ := h.edge he
      refine ⟨w ++ [c], ?_⟩
      rw [DFA.eval_append_singleton, hw, h.sets_eq_step he]

/-- A word that leads to a set with states leads through such sets only, so the code has met
them all. -/
theorem Determines.exists_state (h : Determines A B sets) (hA : A.LetterLabels)
    (hw : (A.toNFA.toDFA.eval w).Nonempty) :
    ∃ k < B.states.length, sets k = A.toNFA.toDFA.eval w := by
  induction w using List.reverseRecOn with
  | nil =>
      refine ⟨0, h.start_lt, ?_⟩
      rw [h.sets_start]
      rfl
  | append_singleton w c ih =>
      rw [DFA.eval_append_singleton] at hw ⊢
      obtain ⟨q, hq⟩ := hw
      obtain ⟨p, hp, he⟩ := mem_stepSet_toNFA.mp hq
      obtain ⟨k, hk, hsets⟩ := ih ⟨p, hp⟩
      rw [← hsets] at hp ⊢
      obtain ⟨l, he'⟩ := h.cover hk (hA.ne_zero he) hp he
      exact ⟨l, (h.edge he').1, h.sets_eq_step he'⟩

theorem Determines.bijOn_reachableSets (h : Determines A B sets) (hA : A.LetterLabels) :
    Set.BijOn sets {k | k < B.states.length} (reachableSets A) := by
  refine ⟨?_, ?_, ?_⟩
  · intro k hk
    exact ⟨h.nonempty hk, h.exists_eval (h.reachable k hk)⟩
  · intro k hk l hl hkl
    exact h.inj hk hl hkl
  · rintro S ⟨hne, w, rfl⟩
    exact h.exists_state hA hne

/-- The determinator computes the reachable part of the subset automaton: its states are the
sets with a state that the start set leads to, the start state, the final states and the edges
are those of the subset automaton, and `accepts` decides the language of either. -/
theorem determine_subsets (order : IterationOrder) (A : FiniteAutomaton) (hA : A.InRange)
    (heps : A.hasEpsilonTransitions = false) (hcomplete : A.isComplete = true) :
    (determine order A).Ensures fun B => B.InRange ∧ ∃ sets : ℕ → Set ℕ,
      Set.BijOn sets {k | k < B.states.length} (reachableSets A) ∧
      sets B.startStateIndex = A.toNFA.toDFA.start ∧
      (∀ k, B.Final k ↔ k < B.states.length ∧ sets k ∈ A.toNFA.toDFA.accept) ∧
      (∀ k < B.states.length, ∀ l < B.states.length, ∀ r, B.Edge k r l ↔
        ∃ c, r = .char c ∧ sets l = A.toNFA.toDFA.step (sets k) c) ∧
      ∀ w, (B.accepts w).Ensures fun b => b = true ↔ w ∈ A.toNFA.toDFA.accepts := by
  have hlabels : A.LetterLabels := letterLabels_iff.mpr ⟨(isComplete_iff.mp hcomplete).1, heps⟩
  apply (determine_ensures order hA heps hcomplete).mono
  rintro B ⟨sets, h⟩
  refine ⟨h.inRange, sets, h.bijOn_reachableSets hlabels, ?_, ?_, ?_, ?_⟩
  · rw [h.start_eq, h.sets_start]
    rfl
  · intro k
    constructor
    · intro hf
      exact ⟨hf.lt, (h.final hf.lt).mp hf⟩
    · intro hk
      exact (h.final hk.1).mpr hk.2
  · exact fun k hk l hl r => h.edge_iff_step hlabels hk hl
  · intro w
    rw [NFA.toDFA_correct, hlabels.accepts_toNFA, ← h.pathLanguage_eq hlabels]
    exact h.letterLabels.accepts_ensures h.inRange w

theorem determine_subsets_twoChoices :
    (determine .insertion twoChoices).Ensures fun B => B.InRange ∧ ∃ sets : ℕ → Set ℕ,
      Set.BijOn sets {k | k < B.states.length} (reachableSets twoChoices) ∧
      sets B.startStateIndex = twoChoices.toNFA.toDFA.start ∧
      (∀ k, B.Final k ↔ k < B.states.length ∧ sets k ∈ twoChoices.toNFA.toDFA.accept) ∧
      (∀ k < B.states.length, ∀ l < B.states.length, ∀ r, B.Edge k r l ↔
        ∃ c, r = .char c ∧ sets l = twoChoices.toNFA.toDFA.step (sets k) c) ∧
      ∀ w, (B.accepts w).Ensures fun b => b = true ↔ w ∈ twoChoices.toNFA.toDFA.accepts :=
  determine_subsets .insertion twoChoices (by decide) (by decide) (by decide)

end AutomatonDeterminator

end FormalLanguages
