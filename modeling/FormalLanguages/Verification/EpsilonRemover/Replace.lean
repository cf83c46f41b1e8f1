import FormalLanguages.Verification.EpsilonRemover.Search
import Mathlib.Order.ConditionallyCompleteLattice.Basic

/-! # Replacing an epsilon transition

The source of the transition receives copies of the target's transitions. No word is lost,
but a self-loop of the target turns into a self-loop of the source, which may add words. -/

namespace FormalLanguages.EpsilonRemover

open FiniteAutomaton
open scoped Computability

variable {A B : FiniteAutomaton} {i j p q t : ℕ} {r : Regex} {w : List CChar}

/-! ## The edges afterwards -/

/-- The target of the copy of a transition from `t` to `q`. -/
def redirect (i t q : ℕ) : ℕ := if q = t then i else q

theorem copy_foldl (ts : List FiniteAutomatonTransition) (hi : i < A.states.length) :
    let B := ts.foldl (fun A u => A.addTransition i (redirect i t u.targetIndex) u.regex) A
    (∀ p, p ≠ i → B.state p = A.state p) ∧
    (B.state i).isFinal = (A.state i).isFinal ∧
    (B.state i).transitions = (A.state i).transitions ++
      ts.map (fun u => ⟨u.regex, redirect i t u.targetIndex⟩) ∧
    B.states.length = A.states.length ∧ B.startStateIndex = A.startStateIndex ∧
    ((∀ u ∈ ts, ∀ c ∈ u.regex.letters, c ∈ A.alphabet) → B.alphabet = A.alphabet) := by
  induction ts generalizing A with
  | nil => simp
  | cons u ts ih =>
      obtain ⟨hother, hfinal, htrans, hlen, hstart, halpha⟩ :=
        ih (A := A.addTransition i (redirect i t u.targetIndex) u.regex) (by simpa using hi)
      refine ⟨?_, ?_, ?_, ?_, ?_, ?_⟩
      · intro p hp
        rw [List.foldl_cons, hother p hp, state_addTransition hi, if_neg hp]
      · rw [List.foldl_cons, hfinal, state_addTransition hi, if_pos rfl]
      · rw [List.foldl_cons, htrans, state_addTransition hi, if_pos rfl]
        simp
      · rw [List.foldl_cons, hlen, length_addTransition]
      · rw [List.foldl_cons, hstart, start_addTransition]
      · intro hts
        have hu : (A.addTransition i (redirect i t u.targetIndex) u.regex).alphabet = A.alphabet :=
          alphabet_addTransition (hts u (by simp))
        rw [List.foldl_cons, halpha, hu]
        intro v hv c hc
        rw [hu]
        exact hts v (List.mem_cons_of_mem _ hv) c hc

/-- `B` is `A` after the transition number `j` of state `i`, which leads to `t`, is replaced. -/
structure Replaced (A B : FiniteAutomaton) (i j t : ℕ) : Prop where
  state : ∀ {p}, p ≠ i → B.state p = A.state p
  isFinal : (B.state i).isFinal = ((A.state i).isFinal || (A.state t).isFinal)
  transitions : (B.state i).transitions = (A.state i).transitions.eraseIdx j ++
    (A.state t).transitions.map fun u => ⟨u.regex, redirect i t u.targetIndex⟩
  length_eq : B.states.length = A.states.length
  start_eq : B.startStateIndex = A.startStateIndex
  alphabet_eq : A.LettersIn → B.alphabet = A.alphabet

theorem replaced_removeEpsilonTransition (hit : i ≠ t)
    (hj : (A.state i).transitions[j]? = some ⟨Regex.empty, t⟩) :
    Replaced A (removeEpsilonTransition A i j) i j t := by
  have hi : i < A.states.length := (edge_of_getElem? hj).source_lt
  have hjlt : j < (A.state i).transitions.length := (List.getElem?_eq_some_iff.mp hj).1
  have hcopy : copyTransitions A i t = (A.state t).transitions.foldl
      (fun A u => A.addTransition i (redirect i t u.targetIndex) u.regex) A := rfl
  obtain ⟨hother, hfinal, htrans, hlen, hstart, halpha⟩ :=
    copy_foldl (A := A) (t := t) (A.state t).transitions hi
  rw [← hcopy] at hother hfinal htrans hlen hstart halpha
  rw [removeEpsilonTransition]
  rw [hj]
  simp only [if_neg hit]
  set B := copyTransitions A i t
  have hiB : i < B.states.length := by rwa [hlen]
  have ht : B.state t = A.state t := hother t hit.symm
  have herase : (B.state i).transitions.eraseIdx j = (A.state i).transitions.eraseIdx j ++
      (A.state t).transitions.map fun u => ⟨u.regex, redirect i t u.targetIndex⟩ := by
    rw [htrans, List.eraseIdx_append_of_lt_length hjlt]
  refine ⟨?_, ?_, ?_, ?_, ?_, ?_⟩
  · intro p hp
    rw [state_removeTransition, if_neg hp]
    split
    · rw [state_makeStateFinal hiB, if_neg hp, hother p hp]
    · exact hother p hp
  · rw [state_removeTransition, if_pos rfl]
    split
    · rename_i hf
      rw [state_makeStateFinal hiB, if_pos rfl, ← ht, hf, Bool.or_true]
    · rename_i hf
      rw [← ht, Bool.not_eq_true _ |>.mp hf, hfinal, Bool.or_false]
  · rw [state_removeTransition, if_pos rfl]
    split
    · rw [state_makeStateFinal hiB, if_pos rfl]
      exact herase
    · exact herase
  · rw [length_removeTransition]
    split
    · rw [length_makeStateFinal, hlen]
    · exact hlen
  · rw [start_removeTransition]
    split
    · rw [start_makeStateFinal, hstart]
    · exact hstart
  · intro hA
    rw [alphabet_removeTransition]
    have hB := halpha fun u hu c hc => hA t u.regex u.targetIndex hu c hc
    split
    · rw [alphabet_makeStateFinal, hB]
    · exact hB

theorem Replaced.final_iff (h : Replaced A B i j t) :
    B.Final p ↔ A.Final p ∨ (p = i ∧ A.Final t) := by
  by_cases hp : p = i
  · subst hp
    simp [Final, h.isFinal]
  · simp [Final, h.state hp, hp]

theorem Replaced.edge_cases (h : Replaced A B i j t) (he : B.Edge p r q) :
    A.Edge p r q ∨ (p = i ∧ ∃ q', A.Edge t r q' ∧ q = redirect i t q') := by
  by_cases hp : p = i
  · subst hp
    rw [Edge, h.transitions] at he
    rcases List.mem_append.mp he with he | he
    · exact .inl (List.mem_of_mem_eraseIdx he)
    · obtain ⟨u, hu, heq⟩ := List.mem_map.mp he
      obtain ⟨ru, qu⟩ := u
      cases heq
      exact .inr ⟨rfl, qu, hu, rfl⟩
  · rw [Edge, h.state hp] at he
    exact .inl he

/-- Every edge survives but the one that is replaced. -/
theorem Replaced.edge_of_edge (h : Replaced A B i j t)
    (hj : (A.state i).transitions[j]? = some ⟨Regex.empty, t⟩) (he : A.Edge p r q) :
    B.Edge p r q ∨ (p = i ∧ r = Regex.empty ∧ q = t) := by
  by_cases hp : p = i
  · subst hp
    obtain ⟨k, hk⟩ := List.mem_iff_getElem?.mp he
    by_cases hkj : k = j
    · subst hkj
      rw [hj] at hk
      cases hk
      exact .inr ⟨rfl, rfl, rfl⟩
    · left
      rw [Edge, h.transitions]
      exact List.mem_append_left _ (List.mem_eraseIdx_iff_getElem?.mpr ⟨k, hkj, hk⟩)
  · left
    rw [Edge, h.state hp]
    exact he

theorem Replaced.edge_copy (h : Replaced A B i j t) (he : A.Edge t r q) :
    B.Edge i r (redirect i t q) := by
  rw [Edge, h.transitions]
  exact List.mem_append_right _ (List.mem_map.mpr ⟨⟨r, q⟩, he, rfl⟩)

/-! ## No word is lost -/

/-- The residual languages of `B`, where the target keeps only what the source has as well. -/
def commonResidual (B : FiniteAutomaton) (i t p : ℕ) : Language CChar :=
  if p = t then B.residual t ⊓ B.residual i else B.residual p

theorem commonResidual_le : commonResidual B i t p ≤ B.residual p := by
  rw [commonResidual]
  split
  · rename_i hp
    rw [hp]
    exact inf_le_left
  · exact le_rfl

theorem commonResidual_le_redirect :
    commonResidual B i t p ≤ B.residual (redirect i t p) := by
  rw [commonResidual, redirect]
  split
  · exact inf_le_right
  · exact le_rfl

theorem commonResidual_target : commonResidual B i t t = B.residual t ⊓ B.residual i :=
  if_pos rfl

theorem commonResidual_of_ne (h : p ≠ t) : commonResidual B i t p = B.residual p := if_neg h

theorem commonResidual_source (hit : i ≠ t) : commonResidual B i t i = B.residual i :=
  if_neg hit

theorem Replaced.isSolution (h : Replaced A B i j t) (hit : i ≠ t)
    (hj : (A.state i).transitions[j]? = some ⟨Regex.empty, t⟩) :
    A.graph.IsSolution (commonResidual B i t) where
  edge_le := by
    intro p l q hex
    rcases hex with ⟨r, he, rfl⟩
    by_cases hpt : p = t
    · subst hpt
      have hB : B.Edge p r q :=
        (h.edge_of_edge hj he).resolve_right fun hpi => hit hpi.1.symm
      rw [commonResidual_target]
      refine le_inf ?_ ?_
      · exact (mul_le_mul_right commonResidual_le _).trans (edge_mul_residual_le hB)
      · exact (mul_le_mul_right commonResidual_le_redirect _).trans
          (edge_mul_residual_le (h.edge_copy he))
    · rw [commonResidual_of_ne hpt]
      rcases h.edge_of_edge hj he with hB | ⟨rfl, rfl, rfl⟩
      · exact (mul_le_mul_right commonResidual_le _).trans (edge_mul_residual_le hB)
      · rw [Regex.language_empty, one_mul, commonResidual_target]
        exact inf_le_right
  one_le := by
    intro p hp
    have hpB : B.Final p := h.final_iff.mpr (.inl hp)
    rw [commonResidual]
    split
    · rename_i hpt
      subst hpt
      exact le_inf (one_le_residual hpB)
        (one_le_residual (h.final_iff.mpr (.inr ⟨rfl, hp⟩)))
    · exact one_le_residual hpB

theorem Replaced.residual_le (h : Replaced A B i j t) (hit : i ≠ t)
    (hj : (A.state i).transitions[j]? = some ⟨Regex.empty, t⟩) (p : ℕ) :
    A.residual p ≤ B.residual p :=
  (LanguageGraph.residual_le (h.isSolution hit hj) p).trans commonResidual_le

/-- Paths of `A` to the source extend by what `B` spells from there. -/
theorem Replaced.between_mul_residual_le (h : Replaced A B i j t) (hit : i ≠ t)
    (hj : (A.state i).transitions[j]? = some ⟨Regex.empty, t⟩) (p : ℕ) :
    A.graph.between p i * B.residual i ≤ B.residual p := by
  rw [language_le_iff]
  intro w hex
  rcases hex with ⟨u, hu, v, hv, rfl⟩
  refine commonResidual_le ((h.isSolution hit hj).path_append hu ?_)
  rwa [commonResidual_source hit]

/-! ## When no word is added -/

/-- The words on the self-loops of `t`. -/
def loopLabels (A : FiniteAutomaton) (t : ℕ) : Language CChar :=
  {w | ∃ r, A.Edge t r t ∧ w ∈ r.language}

/-- Going from the start state to `i`, then round any mixture of self-loops of `t` and ways
of `A` from `i` back to `i`, and on to a final state spells only words of `A`. -/
def Harmless (A : FiniteAutomaton) (i t : ℕ) : Prop :=
  A.graph.between A.startStateIndex i * (loopLabels A t + A.graph.between i i)∗ * A.residual i ≤
    A.pathLanguage

theorem loopLabels_mul_le {l : Language CChar} {X : Language CChar}
    (h : ∀ r, A.Edge t r t → r.language * l ≤ X) : loopLabels A t * l ≤ X := by
  rw [language_le_iff]
  intro w hex
  rcases hex with ⟨u, ⟨r, he, hu⟩, v, hv, rfl⟩
  exact h r he ⟨u, hu, v, hv, rfl⟩

/-- Paths extend by an edge. -/
theorem between_mul_edge_le (h : A.Edge q r t) (p : ℕ) :
    A.graph.between p q * r.language ≤ A.graph.between p t := by
  rw [language_le_iff]
  intro w hex
  rcases hex with ⟨u, hu, v, hv, rfl⟩
  exact LanguageGraph.Path.trans hu (.single ⟨r, h, rfl⟩ hv)

theorem between_le_of_empty (h : A.Edge q Regex.empty t) (p : ℕ) :
    A.graph.between p q ≤ A.graph.between p t := by
  simpa using between_mul_edge_le h p

theorem between_mul_residual_le (p q : ℕ) :
    A.graph.between p q * A.residual q ≤ A.residual p := by
  rw [language_le_iff]
  intro w h
  rcases h with ⟨u, hu, v, hv, rfl⟩
  exact LanguageGraph.append_mem_residual hu hv

theorem between_le_residual (h : A.Final q) (p : ℕ) : A.graph.between p q ≤ A.residual p := by
  rw [language_le_iff]
  exact fun w hw => ⟨q, h, hw⟩

theorem one_le_between (p : ℕ) : 1 ≤ A.graph.between p p := by
  intro w h
  subst h
  exact LanguageGraph.nil_mem_between

/-- Where the target has no self-loop nothing can go wrong. -/
theorem harmless_of_no_loop (h : ∀ r, ¬A.Edge t r t) : Harmless A i t := by
  have hloop : loopLabels A t = 0 := by
    ext w
    constructor
    · intro hex
      rcases hex with ⟨r, he, _⟩
      exact absurd he (h r)
    · intro hw
      exact absurd hw (Language.notMem_zero w)
  rw [Harmless]
  rw [hloop, zero_add, mul_assoc]
  calc A.graph.between A.startStateIndex i * ((A.graph.between i i)∗ * A.residual i)
      ≤ A.graph.between A.startStateIndex i * A.residual i :=
        mul_le_mul_right (kstar_mul_le_self (between_mul_residual_le i i)) _
    _ ≤ A.pathLanguage := between_mul_residual_le _ i

/-- What `B` reads on its way to `p`, in terms of `A`: a path of `A`, or one that passes `i`
and goes round there any number of times. -/
def prefixBound (A : FiniteAutomaton) (i t s p : ℕ) : Language CChar :=
  A.graph.between s p +
    A.graph.between s i * (loopLabels A t + A.graph.between i i)∗ * A.graph.between i p

theorem prefixBound_mul_le {s : ℕ} (h : ∀ s, A.graph.between s p * r.language ≤
    A.graph.between s q) : prefixBound A i t s p * r.language ≤ prefixBound A i t s q := by
  rw [prefixBound]
  rw [add_mul, mul_assoc]
  exact add_le_add (h s) (mul_le_mul_right (h i) _)

/-- A copy of a self-loop of the target stays within the bound. -/
theorem prefixBound_mul_loop_le {s : ℕ} (h : A.Edge t r t) :
    prefixBound A i t s i * r.language ≤ prefixBound A i t s i := by
  set M := loopLabels A t + A.graph.between i i with hM
  have hr : r.language ≤ M := by
    have hloop : r.language ≤ loopLabels A t := fun w hw => ⟨r, h, hw⟩
    exact hloop.trans le_self_add
  have hi : A.graph.between i i ≤ M := le_add_self
  have hone : A.graph.between s i * M∗ ≤ A.graph.between s i * M∗ * A.graph.between i i := by
    simpa using mul_le_mul_right (one_le_between i) (A.graph.between s i * M∗)
  have hleft : A.graph.between s i * r.language ≤ A.graph.between s i * M∗ :=
    mul_le_mul_right (hr.trans le_kstar) _
  have hright : A.graph.between s i * M∗ * A.graph.between i i * r.language ≤
      A.graph.between s i * M∗ := by
    calc A.graph.between s i * M∗ * A.graph.between i i * r.language
        = A.graph.between s i * (M∗ * (A.graph.between i i * r.language)) := by
          simp only [mul_assoc]
      _ ≤ A.graph.between s i * (M∗ * (M∗ * M∗)) :=
          mul_le_mul_right (mul_le_mul_right
            (mul_le_mul' (hi.trans le_kstar) (hr.trans le_kstar)) _) _
      _ = A.graph.between s i * M∗ := by rw [kstar_mul_kstar, kstar_mul_kstar]
  rw [prefixBound]
  rw [← hM, add_mul]
  exact (add_le (hleft.trans hone) (hright.trans hone)).trans le_add_self

theorem Replaced.isPrefixSolution (h : Replaced A B i j t)
    (hj : (A.state i).transitions[j]? = some ⟨Regex.empty, t⟩) (s : ℕ) :
    B.graph.IsPrefixSolution s (prefixBound A i t s) where
  one_le := (one_le_between s).trans le_self_add
  mul_edge_le := by
    intro p l q hex
    rcases hex with ⟨r, he, rfl⟩
    rcases h.edge_cases he with hA | ⟨rfl, q', hA, rfl⟩
    · exact prefixBound_mul_le fun s => between_mul_edge_le hA s
    · rw [redirect]
      split
      · rename_i hq
        subst hq
        exact prefixBound_mul_loop_le hA
      · refine prefixBound_mul_le fun s => ?_
        exact (mul_le_mul_left (between_le_of_empty (edge_of_getElem? hj) s) _).trans
          (between_mul_edge_le hA s)

/-- What the words of `B` may be: those of `A`, and those that go round at `i`. -/
theorem Replaced.pathLanguage_le_rounds (h : Replaced A B i j t)
    (hj : (A.state i).transitions[j]? = some ⟨Regex.empty, t⟩) :
    B.pathLanguage ≤ A.pathLanguage +
      A.graph.between A.startStateIndex i * (loopLabels A t + A.graph.between i i)∗ *
        A.residual i := by
  have hfinal : ∀ {q}, B.Final q → ∀ s, A.graph.between s q ≤ A.residual s := by
    intro q hq s
    rcases h.final_iff.mp hq with hA | ⟨rfl, hA⟩
    · exact between_le_residual hA s
    · exact (between_le_of_empty (edge_of_getElem? hj) s).trans (between_le_residual hA s)
  rw [language_le_iff]
  intro w hw
  obtain ⟨q, hq, hw⟩ := hw
  rw [h.start_eq] at hw
  have hbound := LanguageGraph.between_le (h.isPrefixSolution hj A.startStateIndex) q hw
  exact add_le_add (hfinal hq _) (mul_le_mul_right (hfinal hq i) _) hbound

/-- Leaving the rounds out of a word of `B` gives a word of `A`. -/
theorem Replaced.exists_sublist (h : Replaced A B i j t)
    (hj : (A.state i).transitions[j]? = some ⟨Regex.empty, t⟩) (hw : w ∈ B.pathLanguage) :
    ∃ u ∈ A.pathLanguage, u.Sublist w := by
  rcases h.pathLanguage_le_rounds hj hw with hw | hw
  · exact ⟨w, hw, List.Sublist.refl w⟩
  · obtain ⟨_, ⟨x, hx, y, _, rfl⟩, z, hz, rfl⟩ := hw
    refine ⟨x ++ z, EpsilonRemover.between_mul_residual_le _ i ⟨x, hx, z, hz, rfl⟩, ?_⟩
    exact (List.sublist_append_left x y).append (List.Sublist.refl z)

/-- The replacement leaves the path language as it is exactly when it is harmless. -/
theorem Replaced.pathLanguage_eq_iff (h : Replaced A B i j t) (hit : i ≠ t)
    (hj : (A.state i).transitions[j]? = some ⟨Regex.empty, t⟩) :
    B.pathLanguage = A.pathLanguage ↔ Harmless A i t := by
  constructor
  · intro heq
    have hres : A.residual i ≤ B.residual i := h.residual_le hit hj i
    have hround : (loopLabels A t + A.graph.between i i) * B.residual i ≤ B.residual i := by
      rw [add_mul]
      refine add_le (loopLabels_mul_le fun r he => ?_) (h.between_mul_residual_le hit hj i)
      have hcopy := h.edge_copy he
      rw [redirect, if_pos rfl] at hcopy
      exact edge_mul_residual_le hcopy
    have hstart := h.between_mul_residual_le hit hj A.startStateIndex
    rw [Harmless]
    calc A.graph.between A.startStateIndex i * (loopLabels A t + A.graph.between i i)∗ *
          A.residual i
        ≤ A.graph.between A.startStateIndex i * ((loopLabels A t + A.graph.between i i)∗ *
          B.residual i) := by
          rw [mul_assoc]
          exact mul_le_mul_right (mul_le_mul_right hres _) _
      _ ≤ A.graph.between A.startStateIndex i * B.residual i :=
          mul_le_mul_right (kstar_mul_le_self hround) _
      _ ≤ B.residual A.startStateIndex := hstart
      _ = A.pathLanguage := by
          rw [← heq, pathLanguage, h.start_eq]
  · intro hharmless
    apply le_antisymm
    · exact (h.pathLanguage_le_rounds hj).trans (add_le le_rfl hharmless)
    · rw [pathLanguage, pathLanguage, h.start_eq]
      exact h.residual_le hit hj _

/-! ## What else the replacement preserves -/

theorem Replaced.inRange (h : Replaced A B i j t) (hA : A.InRange) : B.InRange where
  start_lt := by
    rw [h.start_eq, h.length_eq]
    exact hA.start_lt
  target_lt {p r q} he := by
    rw [h.length_eq]
    rcases h.edge_cases he with he | ⟨rfl, q', heA, rfl⟩
    · exact hA.target_lt he
    · rw [redirect]
      split
      · have := he.source_lt
        rwa [h.length_eq] at this
      · exact hA.target_lt heA

theorem Replaced.lettersIn (h : Replaced A B i j t) (hA : A.LettersIn) : B.LettersIn := by
  intro p r q he c hc
  rw [h.alphabet_eq hA]
  rcases h.edge_cases he with he | ⟨rfl, q', heA, rfl⟩
  · exact hA p r q he c hc
  · exact hA t r q' heA c hc

theorem Replaced.isSimple (h : Replaced A B i j t) (hA : A.isSimple = true) :
    B.isSimple = true := by
  rw [isSimple_iff] at hA ⊢
  intro p r q he
  rcases h.edge_cases he with he | ⟨rfl, q', heA, rfl⟩
  · exact hA p r q he
  · exact hA t r q' heA

/-- When no epsilon cycle is reachable from `i`, an epsilon edge afterwards is one of before
or a copy of one of the target, with the same target. -/
theorem Replaced.epsEdge_cases (h : Replaced A B i j t) (hacc : EpsAcc A i)
    (hj : (A.state i).transitions[j]? = some ⟨Regex.empty, t⟩) (he : EpsEdge B p q) :
    EpsEdge A p q ∨ (p = i ∧ EpsEdge A t q ∧ q ≠ i) := by
  have hit : EpsEdge A i t := edge_of_getElem? hj
  have hacct : EpsAcc A t := hacc.inv hit
  rcases h.edge_cases he with heA | ⟨rfl, q', heA, rfl⟩
  · exact .inl heA
  · have hq' : q' ≠ t := by
      intro heq
      subst heq
      exact hacct.not_cycle (.single heA)
    rw [redirect, if_neg hq']
    refine .inr ⟨rfl, heA, ?_⟩
    intro heq
    subst heq
    exact hacc.not_cycle (.head hit (.single heA))

end FormalLanguages.EpsilonRemover
