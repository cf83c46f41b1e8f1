import FormalLanguages.Model.Converter
import FormalLanguages.Verification.Automaton.Deterministic
import FormalLanguages.Verification.Collapser.Correctness

/-! # From an automaton back to a regex

Two states give a regex for the language. A single state gives all words over the alphabet
or, where it is not final, the empty word. -/

namespace FormalLanguages.AutomatonToRegexConverter

open FiniteAutomaton AutomatonCollapser
open scoped Computability

variable {A B : FiniteAutomaton} {p q s t k : ℕ} {r d : Regex} {w : List CChar}
  {ts : List FiniteAutomatonTransition}

/-! ## The labels at two states -/

/-- The label of the last transition to `k`. -/
def lastLabel (ts : List FiniteAutomatonTransition) (k : ℕ) (d : Regex) : Regex :=
  ts.foldl (fun r t => if t.targetIndex = k then t.regex else r) d

theorem lastLabel_of_notMem (h : k ∉ targets ts) : lastLabel ts k d = d := by
  induction ts generalizing d with
  | nil => rfl
  | cons t ts ih =>
      obtain ⟨hne, hnot⟩ := not_or.mp fun hk => h (List.mem_cons.mpr hk)
      rw [lastLabel, List.foldl_cons, if_neg (Ne.symm hne)]
      exact ih hnot

theorem lastLabel_of_mem (hnodup : (targets ts).Nodup) (h : ⟨r, k⟩ ∈ ts) :
    lastLabel ts k d = r := by
  induction ts generalizing d with
  | nil => cases h
  | cons t ts ih =>
      obtain ⟨hnew, hnodup⟩ := List.nodup_cons.mp hnodup
      rcases List.mem_cons.mp h with rfl | h
      · rw [lastLabel, List.foldl_cons, if_pos rfl]
        exact lastLabel_of_notMem hnew
      · exact ih hnodup h

theorem loopAndCross_eq (hst : s ≠ t) : loopAndCross B s t =
    (lastLabel (B.state s).transitions s Regex.empty,
      lastLabel (B.state s).transitions t Regex.zero) := by
  rw [loopAndCross]
  generalize Regex.empty = a
  generalize Regex.zero = b
  generalize (B.state s).transitions = ts
  induction ts generalizing a b with
  | nil => rfl
  | cons u ts ih =>
      rw [List.foldl_cons, lastLabel, List.foldl_cons, lastLabel, List.foldl_cons]
      by_cases hs : u.targetIndex = s
      · have ht : u.targetIndex ≠ t := by rwa [hs]
        rw [if_pos hs, if_pos hs, if_neg ht]
        exact ih _ _
      · rw [if_neg hs, if_neg hs]
        split
        · exact ih _ _
        · exact ih _ _

/-- A transition from `s` to `k` is the only one, or there is none. -/
theorem lastLabel_cases (hs : B.NoParallel s) :
    (∃ r, B.Edge s r k ∧ lastLabel (B.state s).transitions k d = r ∧ B.label s k = r.language) ∨
      (lastLabel (B.state s).transitions k d = d ∧ B.label s k = 0) := by
  by_cases hex : ∃ r, B.Edge s r k
  · obtain ⟨r, he⟩ := hex
    exact .inl ⟨r, he, lastLabel_of_mem hs he, hs.label_eq he⟩
  · right
    constructor
    · apply lastLabel_of_notMem
      intro hk
      obtain ⟨⟨r, _⟩, ht, rfl⟩ := List.mem_map.mp hk
      exact hex ⟨r, ht⟩
    · ext w
      apply iff_of_false
      · intro hw
        obtain ⟨r, he, _⟩ := mem_label.mp hw
        exact hex ⟨r, he⟩
      · exact Language.notMem_zero w

theorem language_cross (hs : B.NoParallel s) (hst : s ≠ t) :
    (loopAndCross B s t).2.language = B.label s t := by
  rw [loopAndCross_eq hst]
  rcases lastLabel_cases (k := t) (d := Regex.zero) hs with ⟨r, _, hr, hlabel⟩ | ⟨hr, hlabel⟩
  · simp only [hr, hlabel]
  · simp only [hr, hlabel, Regex.language_zero]

/-- The regex of the loop, which is the empty word where there is no loop. -/
theorem loop_cases (hB : B.Tidy) (hs : B.NoParallel s) (hst : s ≠ t) :
    (loopAndCross B s t).1.isZero = false ∧
      ((loopAndCross B s t).1.language = B.label s s ∨
        ((loopAndCross B s t).1.language = 1 ∧ B.label s s = 0)) := by
  rw [loopAndCross_eq hst]
  rcases lastLabel_cases (k := s) (d := Regex.empty) hs with ⟨r, he, hr, hlabel⟩ | ⟨hr, hlabel⟩
  · simp only [hr]
    exact ⟨hB.nonzero he, .inl hlabel.symm⟩
  · simp only [hr]
    exact ⟨rfl, .inr ⟨Regex.language_empty, hlabel⟩⟩

theorem language_loop_star (hB : B.Tidy) (hs : B.NoParallel s) (hst : s ≠ t) :
    (loopAndCross B s t).1.unaryStar.language = (B.label s s)∗ := by
  obtain ⟨hzero, hloop⟩ := loop_cases hB hs hst
  rw [Regex.language_unaryStar hzero]
  rcases hloop with h | ⟨h, hlabel⟩
  · rw [h]
  · rw [h, hlabel, kstar_one, kstar_zero]

theorem language_regexForStates (hB : B.Tidy) (hs : B.NoParallel s) (ht : B.NoParallel t)
    (hst : s ≠ t) : (regexForStates B s t).language =
      (B.label s s)∗ * B.label s t *
        (B.label t t + B.label t s * (B.label s s)∗ * B.label s t)∗ := by
  obtain ⟨hzero, hloop⟩ := loop_cases hB ht hst.symm
  have houter : ((loopAndCross B t s).1 + (loopAndCross B t s).2 *
      (loopAndCross B s t).1.unaryStar * (loopAndCross B s t).2).isZero = false := by
    change (Regex.addAssign _ _).isZero = false
    rw [Regex.isZero_addAssign, hzero, Bool.false_and]
  rw [regexForStates]
  rw [Regex.language_mul, Regex.language_mul, language_loop_star hB hs hst,
    language_cross hs hst, Regex.language_unaryStar houter, Regex.language_add,
    Regex.language_mul, Regex.language_mul, language_loop_star hB hs hst,
    language_cross hs hst, language_cross ht hst.symm]
  rcases hloop with h | ⟨h, hlabel⟩
  · rw [h]
  · rw [h, hlabel, LanguageGraph.kstar_one_add, zero_add]

/-! ## All words -/

theorem mem_language_alwaysTrueRegex :
    w ∈ (alwaysTrueRegex B).language ↔ ∀ c ∈ w, c ∈ B.alphabet ∧ c ≠ 0 := by
  have hsum : B.alphabet.toList.foldl (fun regex c => regex.addAssign (.char c)) Regex.empty =
      (B.alphabet.toList.map Regex.char).foldl Regex.addAssign Regex.empty := by
    rw [List.foldl_map]
  have hzero : ((B.alphabet.toList.map Regex.char).foldl Regex.addAssign
      Regex.empty).isZero = false := by
    rw [Bool.eq_false_iff]
    intro h
    exact absurd (Regex.isZero_foldl_addAssign.mp h).1 (by simp [Regex.empty, Regex.isZero])
  have hmem : ∀ u, u ∈ ((B.alphabet.toList.map Regex.char).foldl Regex.addAssign
      Regex.empty).language ↔ u = [] ∨ ∃ c ∈ B.alphabet, c ≠ 0 ∧ u = [c] := by
    intro u
    rw [Regex.mem_language_foldl_addAssign, Regex.language_empty, Language.mem_one]
    constructor
    · intro h
      rcases h with h | ⟨r, hr, hu⟩
      · exact .inl h
      · obtain ⟨c, hc, rfl⟩ := List.mem_map.mp hr
        by_cases hc0 : c = 0
        · rw [hc0, Regex.language_char_zero, Language.mem_one] at hu
          exact .inl hu
        · rw [Regex.language_char hc0] at hu
          exact .inr ⟨c, hc, hc0, hu⟩
    · intro h
      rcases h with h | ⟨c, hc, hc0, rfl⟩
      · exact .inl h
      · refine .inr ⟨.char c, List.mem_map_of_mem hc, ?_⟩
        rw [Regex.language_char hc0]
        rfl
  rw [alwaysTrueRegex]
  rw [hsum, Regex.language_unaryStar hzero, Language.mem_kstar]
  constructor
  · intro h
    obtain ⟨l, rfl, hl⟩ := h
    intro c hc
    obtain ⟨u, hu, hcu⟩ := List.mem_flatten.mp hc
    rcases (hmem u).mp (hl u hu) with rfl | ⟨d, hd, hd0, rfl⟩
    · cases hcu
    · rw [List.mem_singleton.mp hcu]
      exact ⟨hd, hd0⟩
  · intro h
    refine ⟨w.map fun c => [c], (List.flatMap_singleton' w).symm, ?_⟩
    intro u hu
    obtain ⟨c, hc, rfl⟩ := List.mem_map.mp hu
    exact (hmem _).mpr (.inr ⟨c, (h c hc).1, (h c hc).2, rfl⟩)

/-! ## Converting what the collapser leaves -/

theorem length_eq_one_of_start (h : Collapsed A B)
    (hall : ∀ p < B.states.length, p = B.startStateIndex) : B.states.length = 1 := by
  have hlt := h.tidy.inRange.start_lt
  by_contra hne
  have h0 := hall 0 (by omega)
  have h1 := hall 1 (by omega)
  omega

/-- Where the final state is not the start state, these are the two states. -/
theorem two_states (h : Collapsed A B) (hp : B.Final p) (hstart : p ≠ B.startStateIndex) :
    B.states.length = 2 ∧ ∀ q < B.states.length, q = B.startStateIndex ∨ q = p := by
  have hall : ∀ q < B.states.length, q = B.startStateIndex ∨ q = p := by
    intro q hq
    rcases h.final_or_start q hq with hf | hf
    · exact .inr (h.oneFinal q p hf hp)
    · exact .inl hf
  refine ⟨?_, hall⟩
  have hplt := hp.lt
  have hslt := h.tidy.inRange.start_lt
  by_contra hne
  have h0 := hall 0 (by omega)
  have h1 := hall 1 (by omega)
  have h2 := hall 2 (by omega)
  omega

/-- With two states, of which only the other one is final, the regex is the path language. -/
theorem language_two_states (hB : B.Tidy) (hparallel : ∀ i, B.NoParallel i) (hp : B.Final p)
    (hstart : p ≠ B.startStateIndex) (hone : ∀ q, B.Final q → q = p)
    (hall : ∀ q < B.states.length, q = B.startStateIndex ∨ q = p) :
    (regexForStates B B.startStateIndex p).language = B.pathLanguage := by
  rw [language_regexForStates hB (hparallel _) (hparallel _) hstart.symm]
  symm
  apply LanguageGraph.residual_two_vertices hstart.symm
  · intro x l y he
    obtain ⟨r, he, _⟩ := he
    exact ⟨hall x he.source_lt, hall y (hB.inRange.target_lt he)⟩
  · intro q
    constructor
    · exact hone q
    · intro hq
      rw [hq]
      exact hp

theorem isEmpty_eq_false (h : 0 < B.states.length) : (!B.states.isEmpty) = true := by
  cases hs : B.states with
  | nil =>
      rw [hs] at h
      cases h
  | cons _ _ => rfl

/-- With two states, of which the start state is not final, the conversion fails nowhere. -/
theorem convert_two_states (hlen : B.states.length = 2) (hs : B.startStateIndex < 2)
    (hnot : ¬B.Final B.startStateIndex) (hp : B.Final p) :
    (convert B).Returns (regexForStates B B.startStateIndex p) := by
  have hplt := hp.lt
  have hpf : (B.state p).isFinal = true := hp
  have hsf : (B.state B.startStateIndex).isFinal = false := Bool.eq_false_iff.mpr hnot
  have hne : p ≠ B.startStateIndex := by
    intro heq
    rw [heq] at hp
    exact hnot hp
  have hindex : (p = 0 ∧ B.startStateIndex = 1) ∨ (p = 1 ∧ B.startStateIndex = 0) := by omega
  have hsome := isEmpty_eq_false (B := B) (by omega)
  apply Comp.returns_bind.mpr
  refine ⟨(), Comp.returns_assert.mpr (by simp [hlen]), ?_⟩
  apply Comp.returns_bind.mpr
  refine ⟨(), Comp.returns_assert.mpr hsome, ?_⟩
  rcases hindex with ⟨hp0, hs1⟩ | ⟨hp1, hs0⟩
  · rw [hp0] at hpf
    rw [hs1] at hsf
    simp [hlen, hpf, hsf, hs1, hp0, Comp.returns_bind]
  · rw [hp1] at hpf
    rw [hs0] at hsf
    simp [hlen, hpf, hsf, hs0, hp1, Comp.returns_bind]

/-- The regex of an automaton with two states, one of them final and the other the start
state, denotes the words of its paths. -/
theorem convert_correct (B : FiniteAutomaton) (hB : B.InRange) (hlen : B.states.length = 2)
    (hfinal : (B.state 0).isFinal ≠ (B.state 1).isFinal)
    (hstart : ¬B.Final B.startStateIndex) (hparallel : ∀ i, B.NoParallel i)
    (hzero : ∀ p r q, B.Edge p r q → r.isZero = false) :
    (convert B).Ensures fun r => r.language = B.pathLanguage := by
  have htidy : B.Tidy := ⟨hB, fun he => hzero _ _ _ he⟩
  have hs := hB.start_lt
  rw [hlen] at hs
  -- of two flags that differ one is set
  have hflag : ∀ {a b : Bool}, a ≠ b → ¬a = true → b = true := by decide
  obtain ⟨p, hp, hother⟩ : ∃ p, B.Final p ∧ p + B.startStateIndex = 1 := by
    rcases (by omega : B.startStateIndex = 0 ∨ B.startStateIndex = 1) with hs0 | hs1
    · rw [hs0] at hstart ⊢
      exact ⟨1, hflag hfinal hstart, rfl⟩
    · rw [hs1] at hstart ⊢
      exact ⟨0, hflag hfinal.symm hstart, rfl⟩
  have hall : ∀ q < B.states.length, q = B.startStateIndex ∨ q = p := by
    intro q hq
    omega
  refine ⟨_, convert_two_states hlen hs hstart hp, ?_⟩
  apply language_two_states htidy hparallel hp (by omega) ?_ hall
  intro q hq
  rcases hall q hq.lt with h | h
  · rw [h] at hq
    exact absurd hq hstart
  · exact h

/-- Both loops, and one transition in each direction. -/
def fourEdges : FiniteAutomaton where
  alphabet := OrderedSet.insert 97 (OrderedSet.insert 98 ∅)
  states := [⟨false, [⟨.char 97, 0⟩, ⟨.sum [.char 98, .star (.char 97)], 1⟩]⟩,
    ⟨true, [⟨.char 98, 0⟩, ⟨.char 97, 1⟩]⟩]

theorem noParallel_fourEdges : ∀ i, fourEdges.NoParallel i
  | 0 => by simp [NoParallel, fourEdges, state]
  | 1 => by simp [NoParallel, fourEdges, state]
  | _ + 2 => by simp [NoParallel, fourEdges, state, default]

theorem convert_correct_fourEdges :
    (convert fourEdges).Ensures fun r => r.language = fourEdges.pathLanguage := by
  apply convert_correct fourEdges (by decide) rfl (by decide) Bool.false_ne_true
    noParallel_fourEdges
  rw [forall_edge_iff]
  decide

/-- What the converter returns: all words when the start state was the only final one, the
empty word when there was none, and the language otherwise. -/
structure Converts (A : FiniteAutomaton) (r : Regex) : Prop where
  of_not_final : (∀ p, ¬A.Final p) → r.language = 1
  of_start_final : A.Final A.startStateIndex → (∀ p, A.Final p → p = A.startStateIndex) →
    ∀ w, w ∈ r.language ↔ ∀ c ∈ w, c ∈ A.alphabet ∧ c ≠ 0
  of_other_final : ∀ p, A.Final p → p ≠ A.startStateIndex → r.language = A.pathLanguage

theorem convert_ensures (h : Collapsed A B) (hletters : A.LettersIn) :
    (convert B).Ensures (Converts A) := by
  have hlt := h.tidy.inRange.start_lt
  have hne := isEmpty_eq_false (B := B) (by omega)
  by_cases hother : ∃ p, B.Final p ∧ p ≠ B.startStateIndex
  · obtain ⟨p, hp, hstart⟩ := hother
    obtain ⟨hlen, hall⟩ := two_states h hp hstart
    have hnot : ¬B.Final B.startStateIndex := fun hf => hstart (h.oneFinal p _ hp hf)
    have hlanguage := (language_two_states h.tidy h.noParallel hp hstart
      (fun q hq => h.oneFinal q p hq hp) hall).trans h.pathLanguage_eq
    rw [hlen] at hlt
    refine ⟨_, convert_two_states hlen hlt hnot hp, ?_, ?_, ?_⟩
    · intro hnone
      obtain ⟨q, hq⟩ := h.exists_final.mp ⟨p, hp⟩
      exact absurd hq (hnone q)
    · intro hf hone
      exact absurd (h.start_final.mpr ⟨hf, hone⟩) hnot
    · exact fun _ _ _ => hlanguage
  · push Not at hother
    have hall : ∀ p < B.states.length, p = B.startStateIndex := by
      intro p hp
      rcases h.final_or_start p hp with hf | hf
      · exact hother p hf
      · exact hf
    have hlen := length_eq_one_of_start h hall
    have hzero : B.startStateIndex = 0 := by omega
    have hresult : (convert B).Returns
        (if (B.state 0).isFinal then alwaysTrueRegex B else Regex.empty) := by
      apply Comp.returns_bind.mpr
      refine ⟨(), Comp.returns_assert.mpr (by simp [hlen]), ?_⟩
      apply Comp.returns_bind.mpr
      refine ⟨(), Comp.returns_assert.mpr hne, ?_⟩
      simp [hlen]
    have hfinal : (B.state 0).isFinal = true ↔
        A.Final A.startStateIndex ∧ ∀ p, A.Final p → p = A.startStateIndex := by
      rw [← h.start_final, hzero]
      rfl
    refine ⟨_, hresult, ?_, ?_, ?_⟩
    · intro hnone
      have hnot : ¬(B.state 0).isFinal = true := fun hf => hnone _ (hfinal.mp hf).1
      rw [if_neg hnot, Regex.language_empty]
    · intro hf hone w
      rw [if_pos (hfinal.mpr ⟨hf, hone⟩), mem_language_alwaysTrueRegex,
        (h.keepsAlphabet hletters).2]
    · intro p hp hstart
      obtain ⟨x, hx⟩ := h.exists_final.mpr ⟨p, hp⟩
      rw [hother x hx] at hx
      exact absurd ((h.start_final.mp hx).2 p hp) hstart

/-- Collapsing and converting a deterministic automaton ends. -/
theorem toRegex_ensures (hA : A.Tidy) (hletters : A.LettersIn)
    (hdet : A.isDeterministic = true) :
    (collapse A >>= convert).Ensures (Converts A) := by
  apply Comp.ensures_bind.mpr
  apply (collapse_ensures hA hdet).mono
  intro B hB
  exact convert_ensures hB hletters

theorem lettersIn_of_isDfa (hA : A.IsDfa) : A.LettersIn := by
  intro p r q he c hc
  obtain ⟨d, hd, _, rfl⟩ := hA.label he
  rw [(Regex.mem_letters_char.mp hc).2]
  exact hd

theorem tidy_of_isDfa (hA : A.IsDfa) : A.Tidy where
  inRange := hA.inRange
  nonzero he := by
    obtain ⟨d, _, _, rfl⟩ := hA.label he
    rfl

/-! ## When the regex is right -/

/-- Nothing but the start state is reached. -/
def StaysAtStart (A : FiniteAutomaton) : Prop :=
  ∀ r q, A.Edge A.startStateIndex r q → q = A.startStateIndex

theorem mem_pathLanguage_of_staysAtStart (hA : A.IsDfa) (hf : A.Final A.startStateIndex)
    (hstay : StaysAtStart A) (hw : ∀ c ∈ w, c ∈ A.alphabet) : w ∈ A.pathLanguage := by
  induction w with
  | nil => exact hA.letterLabels.nil_mem_residual.mpr hf
  | cons c w ih =>
      obtain ⟨q, he⟩ := hA.cover hA.inRange.start_lt (hw c (by simp))
      refine hA.letterLabels.cons_mem_residual.mpr ⟨q, he, ?_⟩
      rw [hstay _ _ he]
      exact ih fun d hd => hw d (List.mem_cons_of_mem _ hd)

/-- The regex of a complete deterministic automaton has the right language exactly when some
state is final and, in case only the start state is, nothing else is reached. -/
theorem Converts.language_eq_iff (h : Converts A r) (hA : A.IsDfa) :
    r.language = A.pathLanguage ↔ (∃ p, A.Final p) ∧
      (A.Final A.startStateIndex → (∀ p, A.Final p → p = A.startStateIndex) →
        StaysAtStart A) := by
  constructor
  · intro heq
    constructor
    · by_contra hnone
      push Not at hnone
      have hnil : [] ∈ A.pathLanguage := by
        rw [← heq, h.of_not_final hnone]
        rfl
      exact hnone _ (hA.letterLabels.nil_mem_residual.mp hnil)
    · intro hf hone r' q he
      obtain ⟨c, hc, hc0, rfl⟩ := hA.label he
      have hmem : [c] ∈ A.pathLanguage := by
        rw [← heq, h.of_start_final hf hone]
        intro d hd
        rw [List.mem_singleton.mp hd]
        exact ⟨hc, hc0⟩
      have hq := (hA.cons_mem_residual_iff he).mp hmem
      exact hone q (hA.letterLabels.nil_mem_residual.mp hq)
  · intro hcond
    obtain ⟨⟨p, hp⟩, hstay⟩ := hcond
    by_cases hone : ∀ q, A.Final q → q = A.startStateIndex
    · have hf : A.Final A.startStateIndex := hone p hp ▸ hp
      ext w
      rw [h.of_start_final hf hone]
      constructor
      · intro hw
        exact mem_pathLanguage_of_staysAtStart hA hf (hstay hf hone) fun c hc => (hw c hc).1
      · intro hw c hc
        have hc := hA.mem_alphabet_of_mem_residual hw c hc
        exact ⟨hc, hA.ne_zero hc⟩
    · push Not at hone
      obtain ⟨q, hq, hne⟩ := hone
      exact h.of_other_final q hq hne

/-- Collapsing and converting gives the words the automaton accepts exactly when some state
is final and, in case only the start state is, all its transitions lead back to it. -/
theorem toRegex_correct_iff (A : FiniteAutomaton) (hA : A.InRange) (hletters : A.LettersIn)
    (heps : A.hasEpsilonTransitions = false) (hcomplete : A.isComplete = true)
    (hdet : A.isDeterministic = true) :
    (collapse A >>= convert).Ensures
        (fun r => ∀ w, w ∈ r.language ↔ (A.accepts w).Returns true) ↔
      (∃ p, A.Final p) ∧
        (A.Final A.startStateIndex → (∀ p, A.Final p → p = A.startStateIndex) →
          ∀ r q, A.Edge A.startStateIndex r q → q = A.startStateIndex) := by
  have hdfa := isDfa_of_predicates hA hletters heps hcomplete hdet
  obtain ⟨r, hr, hconv⟩ := toRegex_ensures (tidy_of_isDfa hdfa) hletters hdet
  have hlanguage : (∀ w, w ∈ r.language ↔ (A.accepts w).Returns true) ↔
      r.language = A.pathLanguage := by
    have hacc := fun w => (hdfa.letterLabels.accepts_ensures hA w).returns_true_iff
    constructor
    · intro h
      ext w
      rw [h w, hacc w]
    · intro h w
      rw [h, hacc w]
  refine Iff.trans ?_ (hconv.language_eq_iff hdfa)
  rw [← hlanguage]
  constructor
  · exact fun h => h.of_returns hr
  · exact fun h => ⟨r, hr, h⟩

/-- One state that is not final, with a loop for the letter `a`. -/
def rejecting : FiniteAutomaton where
  alphabet := OrderedSet.insert 97 ∅
  states := [⟨false, [⟨.char 97, 0⟩]⟩]

theorem toRegex_correct_iff_rejecting :
    (collapse rejecting >>= convert).Ensures
        (fun r => ∀ w, w ∈ r.language ↔ (rejecting.accepts w).Returns true) ↔
      (∃ p, rejecting.Final p) ∧
        (rejecting.Final rejecting.startStateIndex →
          (∀ p, rejecting.Final p → p = rejecting.startStateIndex) →
          ∀ r q, rejecting.Edge rejecting.startStateIndex r q → q = rejecting.startStateIndex) :=
  toRegex_correct_iff rejecting (by decide) (by decide) (by decide) (by decide) (by decide)

/-- The regex of an automaton that accepts no word has the empty word. -/
theorem toRegex_rejecting :
    (rejecting.InRange ∧ rejecting.LettersIn ∧ rejecting.hasEpsilonTransitions = false ∧
      rejecting.isComplete = true ∧ rejecting.isDeterministic = true) ∧
    ¬(collapse rejecting >>= convert).Ensures
      fun r => ∀ w, w ∈ r.language ↔ (rejecting.accepts w).Returns true := by
  refine ⟨⟨by decide, by decide, by decide, by decide, by decide⟩, ?_⟩
  intro h
  have hresult : (collapse rejecting >>= convert).Returns Regex.empty := ⟨2, rfl⟩
  have hnil : [] ∈ Regex.empty.language := by
    rw [Regex.language_empty]
    rfl
  have hfalse : (rejecting.accepts []).Returns false := ⟨2, rfl⟩
  cases hfalse.unique ((h.of_returns hresult []).mp hnil)

end FormalLanguages.AutomatonToRegexConverter
