import FormalLanguages.Model.EpsilonRemover
import FormalLanguages.Verification.Automaton.RemoveState

/-! # Merging states

`merge_states` adds one state, copies to it the transitions that enter or leave the merged
states, and removes these. The result is the quotient that identifies them, without the
epsilon transitions among them. -/

namespace FormalLanguages.EpsilonRemover

open FiniteAutomaton

variable {A B C : FiniteAutomaton} {S : List ℕ} {i j n p q x y : ℕ} {r : Regex}
  {t : FiniteAutomatonTransition}

/-! ## One transition -/

/-- The edge that the transition `t` of state `j` contributes to the merged state `n`. -/
def Contributes (S : List ℕ) (n j : ℕ) (t : FiniteAutomatonTransition) (p : ℕ) (r : Regex)
    (q : ℕ) : Prop :=
  r = t.regex ∧
    ((j ∉ S ∧ t.targetIndex ∈ S ∧ p = j ∧ q = n) ∨
     (j ∈ S ∧ t.targetIndex ∉ S ∧ p = n ∧ q = t.targetIndex) ∨
     (j ∈ S ∧ t.targetIndex ∈ S ∧ t.regex ≠ Regex.empty ∧ p = n ∧ q = n))

/-- The new transitions that `merge_states` appends while it looks at state `j`. -/
theorem mergeTransition_cases (S : List ℕ) (n j : ℕ) (t : FiniteAutomatonTransition)
    (A : FiniteAutomaton) :
    (mergeTransition S n j t A = A ∧ ∀ p r q, ¬Contributes S n j t p r q) ∨
    ∃ p q, mergeTransition S n j t A = A.addTransition p q t.regex ∧
      (p = n ∨ (p = j ∧ q = n)) ∧
      ∀ p' r q', Contributes S n j t p' r q' ↔ p' = p ∧ r = t.regex ∧ q' = q := by
  unfold mergeTransition Contributes
  by_cases hj : j ∈ S <;> by_cases ht : t.targetIndex ∈ S
  · by_cases he : t.regex = Regex.empty
    · left
      simp [hj, ht, he, Regex.isCharOf, Regex.empty]
    · have hc : t.regex.isCharOf 0 = false := by
        rw [Bool.eq_false_iff, ne_eq, Regex.isCharOf_iff]
        exact he
      right
      refine ⟨n, n, by simp [hj, ht, hc], .inl rfl, ?_⟩
      intro p' r q'
      simp only [hj, ht, he, not_true_eq_false, false_and, true_and, ne_eq, not_false_eq_true,
        false_or]
      tauto
  · right
    refine ⟨n, t.targetIndex, by simp [hj, ht], .inl rfl, ?_⟩
    intro p' r q'
    simp only [hj, ht, not_true_eq_false, not_false_eq_true, false_and, true_and, false_or,
      or_false]
    tauto
  · right
    refine ⟨j, n, by simp [hj, ht], .inr ⟨rfl, rfl⟩, ?_⟩
    intro p' r q'
    simp only [hj, ht, not_false_eq_true, false_and, true_and, or_false]
    tauto
  · left
    simp [hj, ht]

/-! ## The transitions of one state -/

/-- `B` is `A` with more edges. -/
structure AddsEdges (A B : FiniteAutomaton) (New : ℕ → Regex → ℕ → Prop) : Prop where
  edge : ∀ {p r q}, B.Edge p r q ↔ A.Edge p r q ∨ New p r q
  final : ∀ {p}, B.Final p ↔ A.Final p
  length_eq : B.states.length = A.states.length
  start_eq : B.startStateIndex = A.startStateIndex
  lettersIn : A.LettersIn → B.LettersIn ∧ B.alphabet = A.alphabet

theorem AddsEdges.refl (A : FiniteAutomaton) : AddsEdges A A fun _ _ _ => False :=
  ⟨by simp, Iff.rfl, rfl, rfl, fun h => ⟨h, rfl⟩⟩

theorem AddsEdges.trans {New New' : ℕ → Regex → ℕ → Prop} (h : AddsEdges A B New)
    (h' : AddsEdges B C New') : AddsEdges A C fun p r q => New p r q ∨ New' p r q where
  edge := by
    intro p r q
    rw [h'.edge, h.edge, or_assoc]
  final := h'.final.trans h.final
  length_eq := h'.length_eq.trans h.length_eq
  start_eq := h'.start_eq.trans h.start_eq
  lettersIn hA := by
    obtain ⟨hB, hAB⟩ := h.lettersIn hA
    obtain ⟨hC, hBC⟩ := h'.lettersIn hB
    exact ⟨hC, hBC.trans hAB⟩

theorem AddsEdges.congr {New New' : ℕ → Regex → ℕ → Prop} (h : AddsEdges A B New)
    (hnew : ∀ p r q, New p r q ↔ New' p r q) : AddsEdges A B New' where
  edge := by
    intro p r q
    rw [h.edge, hnew]
  final := h.final
  length_eq := h.length_eq
  start_eq := h.start_eq
  lettersIn := h.lettersIn

/-- A copy of an edge between other states. -/
theorem addsEdges_addTransition (h : p < A.states.length) (hr : A.Edge x r y) :
    AddsEdges A (A.addTransition p q r) fun p' r' q' => p' = p ∧ r' = r ∧ q' = q where
  edge := edge_addTransition h
  final := final_addTransition
  length_eq := length_addTransition
  start_eq := rfl
  lettersIn hA := by
    have halpha : (A.addTransition p q r).alphabet = A.alphabet :=
      alphabet_addTransition (hA x r y hr)
    refine ⟨?_, halpha⟩
    intro p' r' q' h' c hc
    rw [halpha]
    rcases (edge_addTransition h).mp h' with h' | ⟨_, rfl, _⟩
    · exact hA p' r' q' h' c hc
    · exact hA x r' y hr c hc

theorem addsEdges_mergeTransition (hj : j < A.states.length) (hn : n < A.states.length)
    (ht : A.Edge j t.regex t.targetIndex) :
    AddsEdges A (mergeTransition S n j t A) (Contributes S n j t) := by
  rcases mergeTransition_cases S n j t A with ⟨heq, hnone⟩ | ⟨p, q, heq, hp, hiff⟩
  · rw [heq]
    exact (AddsEdges.refl A).congr fun p r q => iff_of_false id (hnone p r q)
  · rw [heq]
    have hplt : p < A.states.length := by
      rcases hp with rfl | ⟨rfl, _⟩
      · exact hn
      · exact hj
    exact (addsEdges_addTransition hplt ht).congr fun p' r q' => (hiff p' r q').symm

/-- At most one transition is appended to the scanned state, and it leads to `n`. -/
theorem transitions_mergeTransition (hS : n ∉ S) (hj : j < A.states.length)
    (hn : n < A.states.length) :
    ∃ E, ((mergeTransition S n j t A).state j).transitions = (A.state j).transitions ++ E ∧
      E.length ≤ 1 ∧ (∀ u ∈ E, u.targetIndex = n ∧ j ∉ S) ∧ (t.targetIndex = n → E = []) := by
  rcases mergeTransition_cases S n j t A with ⟨heq, _⟩ | ⟨p, q, heq, hp, hiff⟩
  · exact ⟨[], by rw [heq]; simp, by simp, by simp, fun _ => rfl⟩
  · rw [heq]
    have hplt : p < A.states.length := by
      rcases hp with rfl | ⟨rfl, _⟩
      · exact hn
      · exact hj
    rw [state_addTransition hplt]
    by_cases hjp : j = p
    · rw [if_pos hjp]
      refine ⟨[⟨t.regex, q⟩], rfl, le_rfl, ?_, ?_⟩
      · obtain ⟨_, hcase⟩ := (hiff p t.regex q).mpr ⟨rfl, rfl, rfl⟩
        rcases hcase with ⟨hjS, _, _, rfl⟩ | ⟨hjS, _, hpn, _⟩ | ⟨hjS, _, _, hpn, _⟩
        · simp [hjS]
        · exact absurd (hpn ▸ hjp ▸ hjS) hS
        · exact absurd (hpn ▸ hjp ▸ hjS) hS
      · intro htn
        obtain ⟨_, hcase⟩ := (hiff p t.regex q).mpr ⟨rfl, rfl, rfl⟩
        rcases hcase with ⟨_, htS, _⟩ | ⟨hjS, _, hpn, _⟩ | ⟨_, htS, _⟩
        · exact absurd (htn ▸ htS) hS
        · exact absurd (hpn ▸ hjp ▸ hjS) hS
        · exact absurd (htn ▸ htS) hS
    · rw [if_neg hjp]
      exact ⟨[], by simp, by simp, by simp, fun _ => rfl⟩

theorem not_contributes (ht : t.targetIndex = n) (hj : j ∉ S) (hS : n ∉ S) :
    ¬Contributes S n j t p r q := by
  intro h
  rcases h with ⟨_, ⟨_, htS, _⟩ | ⟨hjS, _⟩ | ⟨hjS, _⟩⟩
  · exact hS (ht ▸ htS)
  · exact hj hjS
  · exact hj hjS

/-- The scan over state `j` has met `k` transitions. What it has appended to the list meanwhile
leads to `n`. -/
structure MergeScan (A : FiniteAutomaton) (S : List ℕ) (n j : ℕ) (B : FiniteAutomaton) (k : ℕ) :
    Prop where
  appended : ∃ E, (B.state j).transitions = (A.state j).transitions ++ E ∧ E.length ≤ k ∧
    E.length ≤ (A.state j).transitions.length ∧ ∀ u ∈ E, u.targetIndex = n ∧ j ∉ S
  adds : AddsEdges A B fun p r q =>
    ∃ m < k, ∃ t, (A.state j).transitions[m]? = some t ∧ Contributes S n j t p r q

theorem MergeScan.start (A : FiniteAutomaton) (S : List ℕ) (n j : ℕ) :
    MergeScan A S n j A 0 where
  appended := ⟨[], by simp, by simp, by simp, by simp⟩
  adds := (AddsEdges.refl A).congr fun p r q => by simp

/-- At the end of the list all its transitions have been met. -/
theorem MergeScan.done {k : ℕ} (h : MergeScan A S n j B k)
    (hk : (B.state j).transitions[k]? = none) :
    AddsEdges A B fun p r q => ∃ t ∈ (A.state j).transitions, Contributes S n j t p r q := by
  obtain ⟨E, hE, _⟩ := h.appended
  have hlen : (A.state j).transitions.length + E.length ≤ k := by
    simpa [hE] using List.getElem?_eq_none_iff.mp hk
  refine h.adds.congr fun p r q => ?_
  constructor
  · intro hex
    rcases hex with ⟨m, _, t, ht, hc⟩
    exact ⟨t, List.mem_of_getElem? ht, hc⟩
  · intro hex
    rcases hex with ⟨t, ht, hc⟩
    obtain ⟨m, hm⟩ := List.mem_iff_getElem?.mp ht
    have hlt := (List.getElem?_eq_some_iff.mp hm).1
    exact ⟨m, by omega, t, hm, hc⟩

/-- The transition at the counter is an old one, or one that leads to `n`. -/
theorem MergeScan.old_or_appended {k : ℕ} (h : MergeScan A S n j B k)
    (hk : (B.state j).transitions[k]? = some t) :
    (A.state j).transitions[k]? = some t ∨
      ((A.state j).transitions[k]? = none ∧ t.targetIndex = n ∧ j ∉ S) := by
  obtain ⟨E, hE, _, _, htarget⟩ := h.appended
  by_cases hlt : k < (A.state j).transitions.length
  · left
    rwa [hE, List.getElem?_append_left hlt] at hk
  · right
    rw [hE, List.getElem?_append_right (not_lt.mp hlt)] at hk
    exact ⟨List.getElem?_eq_none (not_lt.mp hlt), htarget t (List.mem_of_getElem? hk)⟩

theorem MergeScan.lt {k : ℕ} (h : MergeScan A S n j B k)
    (hk : (B.state j).transitions[k]? = some t) : k < 2 * (A.state j).transitions.length := by
  obtain ⟨E, hE, _, hET, _⟩ := h.appended
  have hlt : k < (A.state j).transitions.length + E.length := by
    simpa [hE] using (List.getElem?_eq_some_iff.mp hk).1
  omega

/-- What was appended contributes nothing more. -/
theorem MergeScan.next {k : ℕ} (h : MergeScan A S n j B k) (hS : n ∉ S)
    (hj : j < A.states.length) (hn : n < A.states.length)
    (hk : (B.state j).transitions[k]? = some t) :
    MergeScan A S n j (mergeTransition S n j t B) (k + 1) := by
  have hjB : j < B.states.length := by rwa [h.adds.length_eq]
  have hnB : n < B.states.length := by rwa [h.adds.length_eq]
  have hcases := h.old_or_appended hk
  constructor
  · obtain ⟨E, hE, hEk, hET, htarget⟩ := h.appended
    obtain ⟨E', hE', hone, htarget', hnil⟩ := transitions_mergeTransition (t := t) hS hjB hnB
    refine ⟨E ++ E', ?_, ?_, ?_, ?_⟩
    · rw [hE', hE, List.append_assoc]
    · rw [List.length_append]
      omega
    · rcases hcases with hold | ⟨_, htn, _⟩
      · have hlt := (List.getElem?_eq_some_iff.mp hold).1
        rw [List.length_append]
        omega
      · rw [hnil htn, List.append_nil]
        exact hET
    · intro u hu
      rcases List.mem_append.mp hu with hu | hu
      · exact htarget u hu
      · exact htarget' u hu
  · have hnext := addsEdges_mergeTransition (S := S) hjB hnB (edge_of_getElem? hk)
    refine (h.adds.trans hnext).congr fun p r q => ?_
    constructor
    · intro hor
      rcases hor with ⟨m, hm, u, hu, hc⟩ | hc
      · exact ⟨m, by omega, u, hu, hc⟩
      · rcases hcases with hold | ⟨_, htn, hjS⟩
        · exact ⟨k, by omega, t, hold, hc⟩
        · exact absurd hc (not_contributes htn hjS hS)
    · intro hex
      rcases hex with ⟨m, hm, u, hu, hc⟩
      by_cases hmk : m < k
      · exact .inl ⟨m, hmk, u, hu, hc⟩
      · obtain rfl : m = k := by omega
        rcases hcases with hold | ⟨hnone, _⟩
        · cases hold.symm.trans hu
          exact .inr hc
        · cases hnone.symm.trans hu

/-- The scan over state `j` meets all its transitions. -/
theorem mergeFrom_ensures (hS : n ∉ S) (hj : j < A.states.length) (hn : n < A.states.length) :
    (mergeFrom S n A j).Ensures fun B =>
      AddsEdges A B fun p r q => ∃ t ∈ (A.state j).transitions, Contributes S n j t p r q := by
  refine Comp.loop_ensures_measure
    (fun s : FiniteAutomaton × ℕ => MergeScan A S n j s.1 s.2)
    (fun s => 2 * (A.state j).transitions.length - s.2) ?_ (MergeScan.start A S n j)
  intro s h
  cases hk : (s.1.state j).transitions[s.2]? with
  | none => exact Comp.ensures_pure.mpr (h.done hk)
  | some t =>
      have hlt := h.lt hk
      exact Comp.ensures_pure.mpr ⟨h.next hS hj hn hk, by simp only; omega⟩

/-! ## All states -/

/-- The edges that the states below `m` contribute to the merged state. -/
def MergedBelow (A : FiniteAutomaton) (S : List ℕ) (m p : ℕ) (r : Regex) (q : ℕ) : Prop :=
  ∃ j < m, ∃ y, A.Edge j r y ∧ Contributes S A.states.length j ⟨r, y⟩ p r q

/-- The edges that all states together contribute to the merged state. -/
def MergedEdge (A : FiniteAutomaton) (S : List ℕ) (p : ℕ) (r : Regex) (q : ℕ) : Prop :=
  ∃ j y, A.Edge j r y ∧ Contributes S A.states.length j ⟨r, y⟩ p r q

/-- An edge out of `m` that contributes was there before the merge. -/
theorem edge_of_contributes {b : Bool} {m : ℕ} (hS : A.states.length ∉ S)
    (hB : AddsEdges (A.addState b).1 B (MergedBelow A S m)) (ht : t ∈ (B.state m).transitions)
    (hc : Contributes S A.states.length m t p r q) : A.Edge m t.regex t.targetIndex := by
  rcases hB.edge.mp (show B.Edge m t.regex t.targetIndex from ht) with h | ⟨j, hj, y, _, _, h⟩
  · exact edge_addState.mp h
  · exfalso
    rcases h with ⟨_, _, rfl, _⟩ | ⟨_, hy, rfl, hq⟩ | ⟨_, _, _, rfl, hq⟩
    · exact lt_irrefl _ hj
    · obtain ⟨_, ⟨_, ht, _⟩ | ⟨hmS, _⟩ | ⟨hmS, _⟩⟩ := hc
      · exact hy (hq ▸ ht)
      · exact hS hmS
      · exact hS hmS
    · exact not_contributes hq hS hS hc

theorem mergedBelow_succ {b : Bool} {m : ℕ} (hS : A.states.length ∉ S)
    (hB : AddsEdges (A.addState b).1 B (MergedBelow A S m)) :
    (MergedBelow A S m p r q ∨
      ∃ t ∈ (B.state m).transitions, Contributes S A.states.length m t p r q) ↔
      MergedBelow A S (m + 1) p r q := by
  constructor
  · intro hcases
    rcases hcases with ⟨j, hj, y, he, hc⟩ | ⟨t, ht, hc⟩
    · exact ⟨j, by omega, y, he, hc⟩
    · have he := edge_of_contributes hS hB ht hc
      obtain ⟨r', y⟩ := t
      obtain rfl : r = r' := hc.1
      exact ⟨m, by omega, y, he, hc⟩
  · intro hex
    rcases hex with ⟨j, hj, y, he, hc⟩
    by_cases hjm : j < m
    · exact .inl ⟨j, hjm, y, he, hc⟩
    · obtain rfl : j = m := by omega
      exact .inr ⟨⟨r, y⟩, hB.edge.mpr (.inl (edge_addState.mpr he)), hc⟩

theorem mergeAll_ensures {b : Bool} (hS : ∀ s ∈ S, s < A.states.length) :
    ((List.range (A.addState b).1.states.length).foldlM (mergeFrom S A.states.length)
      (A.addState b).1).Ensures fun B => AddsEdges (A.addState b).1 B (MergedEdge A S) := by
  have hnS : A.states.length ∉ S := fun h => absurd (hS _ h) (lt_irrefl _)
  refine (Comp.foldlM_range_ensures
    (fun m B => AddsEdges (A.addState b).1 B (MergedBelow A S m)) ?_ ?_).mono ?_
  · intro m hm B hB
    rw [← hB.length_eq] at hm
    have hn : A.states.length < B.states.length := by
      rw [hB.length_eq, length_addState]
      exact Nat.lt_succ_self _
    exact (mergeFrom_ensures hnS hm hn).mono fun C hC =>
      (hB.trans hC).congr fun p r q => mergedBelow_succ hnS hB
  · exact (AddsEdges.refl _).congr fun p r q => by simp [MergedBelow]
  · intro B hB
    refine hB.congr fun p r q => ?_
    constructor
    · intro hex
      rcases hex with ⟨j, _, y, he, hc⟩
      exact ⟨j, y, he, hc⟩
    · intro hex
      rcases hex with ⟨j, y, he, hc⟩
      refine ⟨j, ?_, y, he, hc⟩
      rw [length_addState]
      exact he.source_lt.trans (Nat.lt_succ_self _)

/-! ## The quotient -/

/-- `B` is `A` with the states of `S` identified, without the epsilon edges among them. -/
structure MergedInto (A B : FiniteAutomaton) (S : List ℕ) (img : ℕ → ℕ) : Prop where
  edge : ∀ {x r y}, B.Edge x r y ↔ ∃ p q, A.Edge p r q ∧ img p = x ∧ img q = y ∧
    ¬(p ∈ S ∧ q ∈ S ∧ r = Regex.empty)
  final : ∀ {x}, B.Final x ↔ ∃ p, A.Final p ∧ img p = x
  inj : ∀ {p q}, p < A.states.length → q < A.states.length → img p = img q →
    p = q ∨ (p ∈ S ∧ q ∈ S)
  img_mem : ∀ {p q}, p ∈ S → q ∈ S → img p = img q
  img_lt : ∀ {p}, p < A.states.length → img p < B.states.length
  surj : ∀ {x}, x < B.states.length → ∃ p < A.states.length, img p = x
  length_eq : B.states.length + S.length = A.states.length + 1
  start_eq : A.startStateIndex ∉ S → B.startStateIndex = img A.startStateIndex
  start_lt : A.startStateIndex < A.states.length → B.startStateIndex < B.states.length
  alphabet_eq : A.LettersIn → B.alphabet = A.alphabet
  start_of_mem : A.startStateIndex ∈ S → B.startStateIndex = 0
  img_zero : ∀ {p}, p < A.states.length → p ∉ S → (∀ q < p, q ∈ S) → img p = 0

theorem pairwise_insertionSort_gt (h : S.Nodup) : (S.insertionSort (· ≥ ·)).Pairwise (· > ·) := by
  have hge : (S.insertionSort (· ≥ ·)).Pairwise (· ≥ ·) := List.pairwise_insertionSort _ S
  have hnodup : (S.insertionSort (· ≥ ·)).Nodup := (List.perm_insertionSort _ S).nodup_iff.mpr h
  exact hge.imp₂ (fun a b hab hne => lt_of_le_of_ne hab hne.symm) hnodup

section Quotient

variable {f : ℕ → ℕ}

/-- Where state `p` ends up: the states of `S` in the merged state `n`, each in its place
after the renumbering `f`. -/
def mergedImage (S : List ℕ) (n : ℕ) (f : ℕ → ℕ) (p : ℕ) : ℕ := if p ∈ S then f n else f p

theorem mergedImage_of_mem (hp : p ∈ S) : mergedImage S n f p = f n := if_pos hp

theorem mergedImage_of_notMem (hp : p ∉ S) : mergedImage S n f p = f p := if_neg hp

/-- With the states of `S` removed, what is left of the merged edges are the edges of the
quotient. -/
theorem edge_quotient (hf : Subgraph C B (· ∉ S) f) (hS : A.states.length ∉ S)
    (hC : ∀ {p r q}, C.Edge p r q ↔ A.Edge p r q ∨ MergedEdge A S p r q) :
    B.Edge x r y ↔ ∃ p q, A.Edge p r q ∧ mergedImage S A.states.length f p = x ∧
      mergedImage S A.states.length f q = y ∧ ¬(p ∈ S ∧ q ∈ S ∧ r = Regex.empty) := by
  set n := A.states.length
  rw [hf.edge]
  constructor
  · intro hex
    rcases hex with ⟨p, q, hp, hq, rfl, rfl, he⟩
    rcases hC.mp he with heA | ⟨j, z, heA, _, h⟩
    · exact ⟨p, q, heA, if_neg hp, if_neg hq, fun h => hp h.1⟩
    · rcases h with ⟨hj, hz, rfl, rfl⟩ | ⟨hj, hz, rfl, rfl⟩ | ⟨hj, hz, hr, rfl, rfl⟩
      · exact ⟨p, z, heA, if_neg hj, if_pos hz, fun h => hj h.1⟩
      · exact ⟨j, q, heA, if_pos hj, if_neg hz, fun h => hz h.2.1⟩
      · exact ⟨j, z, heA, if_pos hj, if_pos hz, fun h => hr h.2.2⟩
  · intro hex
    rcases hex with ⟨p, q, he, rfl, rfl, hno⟩
    by_cases hp : p ∈ S <;> by_cases hq : q ∈ S
    · have hr : r ≠ Regex.empty := fun h => hno ⟨hp, hq, h⟩
      rw [mergedImage_of_mem hp, mergedImage_of_mem hq]
      exact ⟨n, n, hS, hS, rfl, rfl, hC.mpr (.inr
        ⟨p, q, he, rfl, .inr (.inr ⟨hp, hq, hr, rfl, rfl⟩)⟩)⟩
    · rw [mergedImage_of_mem hp, mergedImage_of_notMem hq]
      exact ⟨n, q, hS, hq, rfl, rfl, hC.mpr (.inr
        ⟨p, q, he, rfl, .inr (.inl ⟨hp, hq, rfl, rfl⟩)⟩)⟩
    · rw [mergedImage_of_notMem hp, mergedImage_of_mem hq]
      exact ⟨p, n, hp, hS, rfl, rfl, hC.mpr (.inr
        ⟨p, q, he, rfl, .inl ⟨hp, hq, rfl, rfl⟩⟩)⟩
    · rw [mergedImage_of_notMem hp, mergedImage_of_notMem hq]
      exact ⟨p, q, hp, hq, rfl, rfl, hC.mpr (.inl he)⟩

theorem final_quotient (hf : Subgraph C B (· ∉ S) f) (hS : A.states.length ∉ S)
    (hC : ∀ {p}, C.Final p ↔ A.Final p ∨ (p = A.states.length ∧ ∃ s ∈ S, A.Final s)) :
    B.Final x ↔ ∃ p, A.Final p ∧ mergedImage S A.states.length f p = x := by
  rw [hf.final]
  constructor
  · intro hex
    rcases hex with ⟨p, hp, rfl, hfin⟩
    rcases hC.mp hfin with h | ⟨rfl, s, hs, hsf⟩
    · exact ⟨p, h, if_neg hp⟩
    · exact ⟨s, hsf, if_pos hs⟩
  · intro hex
    rcases hex with ⟨p, hfin, rfl⟩
    by_cases hp : p ∈ S
    · rw [mergedImage_of_mem hp]
      exact ⟨_, hS, rfl, hC.mpr (.inr ⟨rfl, p, hp, hfin⟩)⟩
    · rw [mergedImage_of_notMem hp]
      exact ⟨p, hp, rfl, hC.mpr (.inl hfin)⟩

/-- Only states of `S` are identified. -/
theorem mergedImage_inj (hf : Subgraph C B (· ∉ S) f) (hS : n ∉ S) (hp : p < n) (hq : q < n)
    (h : mergedImage S n f p = mergedImage S n f q) : p = q ∨ (p ∈ S ∧ q ∈ S) := by
  by_cases hpS : p ∈ S <;> by_cases hqS : q ∈ S
  · exact .inr ⟨hpS, hqS⟩
  · rw [mergedImage_of_mem hpS, mergedImage_of_notMem hqS] at h
    exact absurd (hf.inj hS hqS h) hq.ne'
  · rw [mergedImage_of_notMem hpS, mergedImage_of_mem hqS] at h
    exact absurd (hf.inj hpS hS h) hp.ne
  · rw [mergedImage_of_notMem hpS, mergedImage_of_notMem hqS] at h
    exact .inl (hf.inj hpS hqS h)

theorem mergedImage_lt (hf : Subgraph C B (· ∉ S) f) (hS : n ∉ S)
    (hlen : C.states.length = n + 1) (hp : p < n) :
    mergedImage S n f p < B.states.length := by
  by_cases hpS : p ∈ S
  · rw [mergedImage_of_mem hpS]
    exact hf.lt hS (by omega)
  · rw [mergedImage_of_notMem hpS]
    exact hf.lt hpS (by omega)

theorem mergedImage_surj (hf : Subgraph C B (· ∉ S) f) (hlen : C.states.length = n + 1)
    (hlt : ∀ s ∈ S, s < n) (hne : S ≠ []) (hx : x < B.states.length) :
    ∃ p < n, mergedImage S n f p = x := by
  obtain ⟨p, hp, hplt, rfl⟩ := hf.surj hx
  by_cases hpn : p = n
  · obtain ⟨s, hs⟩ := List.exists_mem_of_ne_nil S hne
    exact ⟨s, hlt s hs, hpn ▸ if_pos hs⟩
  · exact ⟨p, by omega, if_neg hp⟩

/-- The state that is renumbered to `0` is not before the first one off `S`, which is
renumbered to `0` too. -/
theorem mergedImage_eq_zero (hf : Subgraph C B (· ∉ S) f) (hmono : Monotone f)
    (hplt : p < C.states.length) (hp : p ∉ S) (hleast : ∀ q < p, q ∈ S) :
    mergedImage S n f p = 0 := by
  rw [mergedImage_of_notMem hp]
  obtain ⟨q, hqS, _, hq⟩ := hf.surj (Nat.zero_lt_of_lt (hf.lt hp hplt))
  rcases lt_trichotomy p q with hpq | rfl | hqp
  · have := hmono hpq.le
    omega
  · exact hq
  · exact absurd (hleast q hqp) hqS

end Quotient

/-- Merging a nonempty list of different states yields the quotient. -/
theorem mergeStates_ensures (hS : ∀ s ∈ S, s < A.states.length) (hnodup : S.Nodup)
    (hne : S ≠ []) : (mergeStates A S).Ensures fun B => ∃ img, MergedInto A B S img := by
  set n := A.states.length with hn
  have hnS : n ∉ S := fun h => absurd (hS n h) (lt_irrefl _)
  have hlenS : S.length ≤ n := length_le_of_nodup hnodup hS
  rw [mergeStates]
  set b := S.any fun i => (A.state i).isFinal with hb
  have hfinal : b = true ↔ ∃ s ∈ S, A.Final s := by simp [hb, Final]
  refine Comp.ensures_bind.mpr ((mergeAll_ensures (b := b) hS).mono fun C hC =>
    Comp.ensures_pure.mpr ?_)
  have hlenC : C.states.length = n + 1 := by rw [hC.length_eq, length_addState]
  have hstartC : C.startStateIndex = A.startStateIndex := by rw [hC.start_eq, start_addState]
  have hfinalC : ∀ {p}, C.Final p ↔ A.Final p ∨ (p = n ∧ ∃ s ∈ S, A.Final s) := by
    intro p
    rw [hC.final, final_addState, hfinal]
  have hdesc := pairwise_insertionSort_gt hnodup
  have hlt : ∀ s ∈ S.insertionSort (· ≥ ·), s < C.states.length := by
    intro s hs
    have := hS s ((List.mem_insertionSort _).mp hs)
    omega
  obtain ⟨f, hind⟩ := induces_foldl_removeState hdesc hlt
  have hf := (hind.congr fun p =>
    not_congr (List.mem_insertionSort (· ≥ ·) (l := S) (x := p))).subgraph
  refine ⟨mergedImage S n f, {
    edge := edge_quotient hf hnS fun {p r q} => by rw [hC.edge, edge_addState]
    final := final_quotient hf hnS hfinalC
    inj := mergedImage_inj hf hnS
    img_mem := fun hp hq => (mergedImage_of_mem hp).trans (mergedImage_of_mem hq).symm
    img_lt := mergedImage_lt hf hnS hlenC
    surj := mergedImage_surj hf hlenC hS hne
    length_eq := ?_
    start_eq := ?_
    start_lt := ?_
    alphabet_eq := ?_
    start_of_mem := ?_
    img_zero := fun hp => mergedImage_eq_zero hf hind.mono (by omega) }⟩
  · have := length_foldl_removeState hdesc hlt
    rw [List.length_insertionSort, hlenC] at this
    exact this
  · intro hstart
    rw [hf.start (by rwa [hstartC]), hstartC]
    exact (mergedImage_of_notMem hstart).symm
  · intro hstart
    refine start_foldl_removeState_lt hdesc hlt ?_ ?_
    · omega
    · rw [List.length_insertionSort]
      omega
  · intro hA
    have hA' : (A.addState b).1.LettersIn := fun p r q h => hA p r q (edge_addState.mp h)
    rw [hf.alphabet, (hC.lettersIn hA').2, alphabet_addState]
  · intro hstart
    refine start_foldl_removeState_eq_zero hdesc (.inr ?_)
    rwa [hstartC, List.mem_insertionSort]

/-! ## What merging preserves -/

section MergedInto

variable {img : ℕ → ℕ}

theorem MergedInto.inRange (h : MergedInto A B S img) (hA : A.InRange) : B.InRange where
  start_lt := h.start_lt hA.start_lt
  target_lt he := by
    obtain ⟨p, q, heA, _, rfl, _⟩ := h.edge.mp he
    exact h.img_lt (hA.target_lt heA)

theorem MergedInto.lettersIn (h : MergedInto A B S img) (hA : A.LettersIn) : B.LettersIn := by
  intro x r y he c hc
  obtain ⟨p, q, heA, _⟩ := h.edge.mp he
  rw [h.alphabet_eq hA]
  exact hA p r q heA c hc

theorem MergedInto.isSimple (h : MergedInto A B S img) (hA : A.isSimple = true) :
    B.isSimple = true := by
  rw [isSimple_iff] at hA ⊢
  intro x r y he
  obtain ⟨p, q, heA, _⟩ := h.edge.mp he
  exact hA p r q heA

/-- Merged states that spell the same words spell them afterwards too. -/
theorem MergedInto.residual_eq (h : MergedInto A B S img) (hA : A.InRange)
    (hS : ∀ p ∈ S, ∀ q ∈ S, A.residual p ≤ A.residual q) (hp : p < A.states.length) :
    B.residual (img p) = A.residual p := by
  apply le_antisymm
  · have hsol : B.residual (img p) ≤
        ({w | ∀ p' < A.states.length, img p' = img p → w ∈ A.residual p'} :
          Language CChar) := by
      have hclass : ∀ {p p'}, p < A.states.length → p' < A.states.length → img p' = img p →
          A.residual p ≤ A.residual p' := by
        intro p p' hp hp' hpp
        rcases h.inj hp' hp hpp with rfl | ⟨hpS', hpS⟩
        · exact le_rfl
        · exact hS p hpS p' hpS'
      refine FiniteAutomaton.residual_le
        (X := fun x => {w | ∀ p' < A.states.length, img p' = x → w ∈ A.residual p'})
        ?_ ?_ (img p)
      · intro x r y he
        obtain ⟨p, q, heA, rfl, rfl, _⟩ := h.edge.mp he
        intro w hex p' hp' hpp
        rcases hex with ⟨u, hu, v, hv, rfl⟩
        have hvq : v ∈ A.residual q := hv q (hA.target_lt heA) rfl
        exact hclass heA.source_lt hp' hpp (edge_mul_residual_le heA ⟨u, hu, v, hvq, rfl⟩)
      · intro x hx
        obtain ⟨p, hf, rfl⟩ := h.final.mp hx
        intro w heq p' hp' hpp
        subst heq
        exact hclass hf.lt hp' hpp (one_le_residual hf rfl)
    exact fun w hw => hsol hw p hp rfl
  · refine FiniteAutomaton.residual_le (X := fun p => B.residual (img p)) ?_ ?_ p
    · intro p r q he
      by_cases hno : p ∈ S ∧ q ∈ S ∧ r = Regex.empty
      · obtain ⟨hpS, hqS, rfl⟩ := hno
        simp only [h.img_mem hpS hqS, Regex.language_empty, one_mul, le_refl]
      · exact edge_mul_residual_le (h.edge.mpr ⟨p, q, he, rfl, rfl, hno⟩)
    · intro p hf
      exact one_le_residual (h.final.mpr ⟨p, hf, rfl⟩)

end MergedInto

end FormalLanguages.EpsilonRemover
