import FormalLanguages.Verification.Automaton.Accepts

/-! # Complete deterministic automata

From every state every letter of the alphabet leads to exactly one state. The passes that
compare or complement languages rely on it. -/

namespace FormalLanguages.FiniteAutomaton

variable {A B : FiniteAutomaton} {c : CChar} {p q s t : ℕ} {r : Regex} {w : List CChar}

/-- Transitions carry letters of the alphabet only, and each letter on exactly one. -/
structure IsDfa (A : FiniteAutomaton) : Prop where
  inRange : A.InRange
  label : ∀ {p r q}, A.Edge p r q → ∃ c ∈ A.alphabet, c ≠ 0 ∧ r = .char c
  cover : ∀ {p c}, p < A.states.length → c ∈ A.alphabet → ∃ q, A.Edge p (.char c) q
  unique : ∀ {p c q q'}, A.Edge p (.char c) q → A.Edge p (.char c) q' → q = q'

theorem isDfa_of_predicates (hA : A.InRange) (hletters : A.LettersIn)
    (heps : A.hasEpsilonTransitions = false) (hcomplete : A.isComplete = true)
    (hdet : A.isDeterministic = true) : A.IsDfa where
  inRange := hA
  label {p r q} he := by
    have hlabels := letterLabels_iff.mpr ⟨(isComplete_iff.mp hcomplete).1, heps⟩
    obtain ⟨c, hc, rfl⟩ := hlabels p r q he
    exact ⟨c, hletters p _ q he c (Regex.mem_letters_char.mpr ⟨hc, rfl⟩), hc, rfl⟩
  cover hp hc := (isComplete_iff.mp hcomplete).2 _ hp _ hc
  unique {p c q q'} he he' := by
    have hlabels := letterLabels_iff.mpr ⟨(isComplete_iff.mp hcomplete).1, heps⟩
    have hc := hletters p _ q he c (Regex.mem_letters_char.mpr ⟨hlabels.ne_zero he, rfl⟩)
    exact eq_of_countTransitions_le ((isDeterministic_iff.mp hdet).2 p he.source_lt c hc) he he'

theorem IsDfa.letterLabels (h : A.IsDfa) : A.LetterLabels := by
  intro p r q he
  obtain ⟨c, _, hc, hr⟩ := h.label he
  exact ⟨c, hc, hr⟩

theorem IsDfa.mem_alphabet (h : A.IsDfa) (he : A.Edge p (.char c) q) : c ∈ A.alphabet := by
  obtain ⟨d, hd, _, hr⟩ := h.label he
  cases hr
  exact hd

theorem IsDfa.ne_zero (h : A.IsDfa) (hc : c ∈ A.alphabet) : c ≠ 0 := by
  obtain ⟨q, he⟩ := h.cover h.inRange.start_lt hc
  exact h.letterLabels.ne_zero he

theorem IsDfa.isSimple (h : A.IsDfa) : A.isSimple = true := (letterLabels_iff.mp h.letterLabels).1

theorem IsDfa.isComplete (h : A.IsDfa) : A.isComplete = true :=
  isComplete_iff.mpr ⟨h.isSimple, fun _ hp _ hc => h.cover hp hc⟩

/-- The words from one state of a complete deterministic automaton, letter by letter. -/
theorem IsDfa.cons_mem_residual_iff (h : A.IsDfa) (he : A.Edge p (.char c) q) :
    c :: w ∈ A.residual p ↔ w ∈ A.residual q := by
  rw [h.letterLabels.cons_mem_residual]
  constructor
  · intro hex
    rcases hex with ⟨q', he', hw⟩
    rwa [h.unique he he']
  · exact fun hw => ⟨q, he, hw⟩

theorem IsDfa.mem_alphabet_of_mem_residual (h : A.IsDfa) (hw : w ∈ A.residual p) :
    ∀ c ∈ w, c ∈ A.alphabet := by
  induction w generalizing p with
  | nil => simp
  | cons c w ih =>
      obtain ⟨q, he, hw⟩ := h.letterLabels.cons_mem_residual.mp hw
      intro d hd
      rcases List.mem_cons.mp hd with rfl | hd
      · exact h.mem_alphabet he
      · exact ih hw d hd

/-! ## The successor function -/

/-- The target of the first transition of `p` for the letter `c`. -/
def successor (A : FiniteAutomaton) (p : ℕ) (c : CChar) : ℕ :=
  match (A.state p).transitions.find? fun t => t.regex.isCharOf c with
  | some t => t.targetIndex
  | none => 0

theorem edge_successor (h : A.Edge p (.char c) q) : A.Edge p (.char c) (A.successor p c) := by
  rw [successor]
  cases hfind : (A.state p).transitions.find? fun t => t.regex.isCharOf c with
  | none =>
      have := List.find?_eq_none.mp hfind _ h
      simp [Regex.isCharOf] at this
  | some t =>
      have hmem := List.mem_of_find?_eq_some hfind
      have hc := List.find?_some hfind
      rw [← Regex.isCharOf_iff.mp hc]
      exact hmem

theorem IsDfa.edge_successor (h : A.IsDfa) (hp : p < A.states.length) (hc : c ∈ A.alphabet) :
    A.Edge p (.char c) (A.successor p c) := by
  obtain ⟨q, hq⟩ := h.cover hp hc
  exact FiniteAutomaton.edge_successor hq

theorem IsDfa.successor_eq (h : A.IsDfa) (he : A.Edge p (.char c) q) : A.successor p c = q :=
  h.unique (FiniteAutomaton.edge_successor he) he

theorem IsDfa.successor_lt (h : A.IsDfa) (hp : p < A.states.length) (hc : c ∈ A.alphabet) :
    A.successor p c < A.states.length :=
  h.inRange.target_lt (h.edge_successor hp hc)

/-- States with the same final flag whose successors spell the same words do so themselves. -/
theorem IsDfa.cons_mem_residual_successor (h : A.IsDfa) (hp : p < A.states.length)
    (hc : c ∈ A.alphabet) : c :: w ∈ A.residual p ↔ w ∈ A.residual (A.successor p c) :=
  h.cons_mem_residual_iff (h.edge_successor hp hc)

/-! ## Runs -/

/-- The state reached from `p` by a word. -/
def runFrom (A : FiniteAutomaton) (p : ℕ) (w : List CChar) : ℕ := w.foldl A.successor p

theorem runFrom_append (u v : List CChar) : A.runFrom p (u ++ v) = A.runFrom (A.runFrom p u) v :=
  List.foldl_append

theorem IsDfa.runFrom_spec (h : A.IsDfa) (hp : p < A.states.length) (hw : ∀ c ∈ w, c ∈ A.alphabet) :
    A.runFrom p w < A.states.length ∧
      ∀ u, w ++ u ∈ A.residual p ↔ u ∈ A.residual (A.runFrom p w) := by
  induction w generalizing p with
  | nil => exact ⟨hp, fun _ => Iff.rfl⟩
  | cons c w ih =>
      have hc : c ∈ A.alphabet := hw c (by simp)
      obtain ⟨hlt, hres⟩ := ih (h.successor_lt hp hc) fun d hd => hw d (List.mem_cons_of_mem _ hd)
      refine ⟨hlt, ?_⟩
      intro u
      rw [List.cons_append, h.cons_mem_residual_successor hp hc]
      exact hres u

/-- A reachable state is reached by some word over the alphabet. -/
theorem IsDfa.exists_word (h : A.IsDfa) (hp : A.Reachable p) :
    ∃ w, (∀ c ∈ w, c ∈ A.alphabet) ∧ A.runFrom A.startStateIndex w = p := by
  induction hp with
  | refl => exact ⟨[], by simp, rfl⟩
  | tail _ he ih =>
      obtain ⟨w, hw, rfl⟩ := ih
      obtain ⟨r, he⟩ := he
      obtain ⟨c, hc, _, rfl⟩ := h.label he
      refine ⟨w ++ [c], ?_, ?_⟩
      · intro d hd
        rcases List.mem_append.mp hd with hd | hd
        · exact hw d hd
        · rwa [List.mem_singleton.mp hd]
      · rw [runFrom_append]
        exact h.successor_eq he

/-- In an automaton with the same path language, some state spells what a reachable state
spells. -/
theorem IsDfa.exists_residual_eq (hA : A.IsDfa) (hB : B.IsDfa) (halpha : B.alphabet = A.alphabet)
    (hlang : B.pathLanguage = A.pathLanguage) (hp : A.Reachable p) :
    ∃ q < B.states.length, B.residual q = A.residual p := by
  obtain ⟨w, hw, rfl⟩ := hA.exists_word hp
  have hwB : ∀ c ∈ w, c ∈ B.alphabet := by
    rw [halpha]
    exact hw
  obtain ⟨hlt, hresB⟩ := hB.runFrom_spec hB.inRange.start_lt hwB
  obtain ⟨_, hresA⟩ := hA.runFrom_spec hA.inRange.start_lt hw
  refine ⟨_, hlt, ?_⟩
  ext u
  rw [← hresA u, ← hresB u]
  exact Iff.of_eq (congrArg (w ++ u ∈ ·) hlang)

end FormalLanguages.FiniteAutomaton
