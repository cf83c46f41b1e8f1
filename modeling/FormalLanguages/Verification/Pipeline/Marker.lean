import FormalLanguages.Verification.Determinator.Correctness
import FormalLanguages.Verification.EpsilonRemover.Correctness

/-! # Words that contain the epsilon marker

`accepts` compares the labels with the bytes of the word, so a byte `0` of the word is read on
an epsilon transition. -/

namespace FormalLanguages.FiniteAutomaton

variable {A B : FiniteAutomaton} {w : List CChar} {order : IterationOrder}

/-- No word that contains the marker is accepted. -/
def RejectsMarker (A : FiniteAutomaton) : Prop := ∀ w, 0 ∈ w → (A.accepts w).Returns false

/-- An epsilon transition lies on a path from the start state to a final state. -/
def MarkerOnPath (A : FiniteAutomaton) : Prop :=
  ∃ p q s, A.Reachable p ∧ A.Edge p Regex.empty q ∧ Relation.ReflTransGen A.Step q s ∧ A.Final s

/-- `accepts` rejects the words that are no labels of an accepting path, up to markers that
are left out. -/
theorem accepts_false_iff (hs : A.isSimple = true) (hA : A.InRange) (w : List CChar) :
    (A.accepts w).Returns false ↔ ¬∃ labels s, A.Path A.startStateIndex labels s ∧ A.Final s ∧
      LeavesOut labels w := by
  rw [(accepts_ensures_spells hs hA w).returns_false_iff, not_iff_not]
  constructor
  · intro h
    obtain ⟨s, hfinal, hspells⟩ := h
    obtain ⟨labels, hpath, hleaves⟩ := spells_iff_path.mp hspells
    exact ⟨labels, s, hpath, hfinal, hleaves⟩
  · intro h
    obtain ⟨labels, s, hpath, hfinal, hleaves⟩ := h
    exact ⟨s, hfinal, spells_iff_path.mpr ⟨labels, hpath, hleaves⟩⟩

theorem rejectsMarker_iff_not_markerOnPath (hs : A.isSimple = true) (hA : A.InRange) :
    A.RejectsMarker ↔ ¬A.MarkerOnPath := by
  constructor
  · intro hreject hmarker
    obtain ⟨p, q, s, hp, he, hqs, hfinal⟩ := hmarker
    obtain ⟨labels, hlabels⟩ := exists_path_of_reach hs hp
    obtain ⟨labels', hlabels'⟩ := exists_path_of_reach hs hqs
    -- the labels of the whole path are a word that is accepted
    have hpath := hlabels.append (.cons he hlabels')
    refine (accepts_false_iff hs hA _).mp (hreject (labels ++ 0 :: labels') (by simp)) ?_
    exact ⟨_, s, hpath, hfinal, List.Sublist.refl _, rfl⟩
  · intro hnone w hw
    rw [accepts_false_iff hs hA]
    intro h
    obtain ⟨labels, s, hpath, hfinal, hleaves⟩ := h
    obtain ⟨p, q, hp, he, hqs⟩ := hpath.exists_edge (hleaves.1.subset hw)
    exact hnone ⟨p, q, s, hp, he, hqs, hfinal⟩

theorem LetterLabels.rejectsMarker (h : A.LetterLabels) (hA : A.InRange) : A.RejectsMarker := by
  refine (rejectsMarker_iff_not_markerOnPath (letterLabels_iff.mp h).1 hA).mpr ?_
  intro hmarker
  obtain ⟨p, q, s, _, he, _⟩ := hmarker
  exact h.ne_zero he rfl

theorem RejectsMarker.same_iff (h : B.RejectsMarker) :
    (∀ w, 0 ∈ w → ∀ b, (A.accepts w).Returns b ↔ (B.accepts w).Returns b) ↔
      A.RejectsMarker := by
  constructor
  · intro hsame w hw
    exact (hsame w hw false).mpr (h w hw)
  · intro hA w hw b
    constructor
    · intro hb
      rw [hb.unique (hA w hw)]
      exact h w hw
    · intro hb
      rw [hb.unique (h w hw)]
      exact hA w hw

/-- A simple automaton rejects a word with the marker exactly when the word is not read along
an accepting path as its labels with some markers left out. All of them are rejected exactly
when no epsilon transition lies on an accepting path, and that is when the removal of the
epsilon transitions changes no answer. Without epsilon transitions, as after the removal and
after determinisation, all of them are rejected. -/
theorem accepts_marker_iff (A : FiniteAutomaton) (hs : A.isSimple = true) (hA : A.InRange) :
    (∀ w, 0 ∈ w → ((A.accepts w).Returns false ↔ ¬∃ labels s,
      A.Path A.startStateIndex labels s ∧ A.Final s ∧ LeavesOut labels w)) ∧
    ((∀ w, 0 ∈ w → (A.accepts w).Returns false) ↔ ¬A.MarkerOnPath) ∧
    ((EpsilonRemover.simplify A).Ensures fun B =>
      (∀ w, 0 ∈ w → (B.accepts w).Returns false) ∧
      ((∀ w, 0 ∈ w → ∀ b, (A.accepts w).Returns b ↔ (B.accepts w).Returns b) ↔
        ¬A.MarkerOnPath)) ∧
    (A.hasEpsilonTransitions = false → A.isComplete = true → ∀ order,
      (AutomatonDeterminator.determine order A).Ensures fun B =>
        ∀ w, 0 ∈ w → (A.accepts w).Returns false ∧ (B.accepts w).Returns false) := by
  have hiff := rejectsMarker_iff_not_markerOnPath hs hA
  refine ⟨fun w _ => accepts_false_iff hs hA w, hiff, ?_, ?_⟩
  · apply (EpsilonRemover.simplify_ensures hA).mono
    intro B hB
    obtain ⟨hrem, heps⟩ := hB
    have hreject : B.RejectsMarker :=
      (letterLabels_iff.mpr ⟨hrem.isSimple hs, heps⟩).rejectsMarker hrem.inRange
    exact ⟨hreject, hreject.same_iff.trans hiff⟩
  · intro heps hcomplete order
    apply (AutomatonDeterminator.determine_ensures order hA heps hcomplete).mono
    intro B hB w hw
    obtain ⟨sets, h⟩ := hB
    exact ⟨(letterLabels_iff.mpr ⟨hs, heps⟩).rejectsMarker hA w hw,
      h.letterLabels.rejectsMarker h.inRange w hw⟩

/-- An epsilon transition from the start state to the final state. -/
def epsilonToFinal : FiniteAutomaton where
  states := [⟨false, [⟨Regex.empty, 1⟩]⟩, ⟨true, []⟩]

theorem accepts_marker_iff_epsilonToFinal :
    ((∀ w, 0 ∈ w → (epsilonToFinal.accepts w).Returns false) ↔ ¬epsilonToFinal.MarkerOnPath) ∧
    (EpsilonRemover.simplify epsilonToFinal).Ensures fun B =>
      (∀ w, 0 ∈ w → (B.accepts w).Returns false) ∧
      ((∀ w, 0 ∈ w → ∀ b, (epsilonToFinal.accepts w).Returns b ↔ (B.accepts w).Returns b) ↔
        ¬epsilonToFinal.MarkerOnPath) := by
  have h := accepts_marker_iff epsilonToFinal (by decide) (by decide)
  exact ⟨h.2.1, h.2.2.1⟩

/-- The word that is the marker is accepted. -/
theorem accepts_epsilonToFinal :
    epsilonToFinal.isSimple = true ∧ epsilonToFinal.InRange ∧
      (epsilonToFinal.accepts [0]).Returns true :=
  ⟨by decide, by decide, 3, rfl⟩

end FormalLanguages.FiniteAutomaton
