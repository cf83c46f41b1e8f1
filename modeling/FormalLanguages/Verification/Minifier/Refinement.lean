import FormalLanguages.Verification.Minifier.Round

/-! # The refinement loop

The numbers never separate states that spell the same words, and never join a final state
with one that is not. Every round keeps the numbers or makes more classes, so the loop ends,
and then states with equal numbers spell the same words. -/

namespace FormalLanguages.AutomatonMinifier

open FiniteAutomaton

variable {A : FiniteAutomaton} {p q i : ℕ} {v : List ℕ} {s s' : Refinement}

/-! ## What a round does -/

/-- The numbers are the ranks of the keys, which are made of the previous numbers. -/
structure Rounded (A : FiniteAutomaton) (s : Refinement) : Prop where
  length_eq : s.classIndices.length = A.states.length
  length_new : s.newClassIndices.length = A.states.length
  groups : Groups A s.newClassIndices (List.range A.states.length) s.equivClasses
  number : ∀ p < A.states.length, s.classIndices.getD p 0 =
    (OrdMap.keys s.equivClasses).rank (classKey A s.newClassIndices p)

theorem refine_ensures (hA : A.IsDfa) (hv : s.classIndices.length = A.states.length)
    (hw : s.newClassIndices.length = A.states.length) :
    (refine A s).Ensures fun r =>
      (s.classIndices = s.newClassIndices ∧ r = .inr s) ∨
      (s.classIndices ≠ s.newClassIndices ∧
        ∃ s', r = .inl s' ∧ s'.newClassIndices = s.classIndices ∧ Rounded A s') := by
  rw [refine]
  by_cases h : s.classIndices = s.newClassIndices
  · rw [if_neg (not_not.mpr h)]
    exact Comp.ensures_pure.mpr (.inl ⟨h, rfl⟩)
  · rw [if_pos h]
    apply Comp.ensures_bind.mpr
    apply (classifyAll_ensures hA s.classIndices).mono
    intro E hE
    apply Comp.ensures_pure.mpr
    right
    refine ⟨h, _, rfl, rfl, ?_, hv, hE, ?_⟩
    · exact (getD_renumber hE hw hA.inRange.start_lt).1
    · intro p hp
      exact (getD_renumber hE hw hp).2

/-! ## Keys and numbers -/

theorem Rounded.mem_keys (h : Rounded A s) (hp : p < A.states.length) :
    classKey A s.newClassIndices p ∈ OrdMap.keys s.equivClasses :=
  OrdMap.mem_keys.mpr (h.groups.cover p (List.mem_range.mpr hp))

theorem Rounded.exists_of_mem_keys (h : Rounded A s) {k : AutomatonMinifierEquivalenceClass}
    (hk : k ∈ OrdMap.keys s.equivClasses) :
    ∃ p < A.states.length, classKey A s.newClassIndices p = k := by
  obtain ⟨S, hS⟩ := OrdMap.mem_keys.mp hk
  obtain ⟨p, hp, hpk⟩ := (h.groups.sound k S hS).1
  exact ⟨p, List.mem_range.mp hp, hpk⟩

/-- Equal numbers come from equal keys. -/
theorem Rounded.number_eq_iff (h : Rounded A s) (hp : p < A.states.length)
    (hq : q < A.states.length) :
    s.classIndices.getD p 0 = s.classIndices.getD q 0 ↔
      classKey A s.newClassIndices p = classKey A s.newClassIndices q := by
  rw [h.number p hp, h.number q hq]
  constructor
  · exact OrdSet.rank_inj (h.mem_keys hp)
  · intro heq
    rw [heq]

theorem Rounded.number_lt (h : Rounded A s) (hp : p < A.states.length) :
    s.classIndices.getD p 0 < s.equivClasses.size := by
  rw [h.number p hp, ← OrdMap.size_keys]
  exact OrdSet.rank_lt (h.mem_keys hp)

theorem Rounded.exists_number (h : Rounded A s) (hi : i < s.equivClasses.size) :
    ∃ p < A.states.length, s.classIndices.getD p 0 = i := by
  rw [← OrdMap.size_keys] at hi
  obtain ⟨k, hk, rfl⟩ := OrdSet.exists_rank_eq hi
  obtain ⟨p, hp, rfl⟩ := h.exists_of_mem_keys hk
  exact ⟨p, hp, h.number p hp⟩

theorem Rounded.size_le (h : Rounded A s) : s.equivClasses.size ≤ A.states.length := by
  have hsub : Finset.range s.equivClasses.size ⊆
      (Finset.range A.states.length).image fun p => s.classIndices.getD p 0 := by
    intro i hi
    obtain ⟨p, hp, hpi⟩ := h.exists_number (Finset.mem_range.mp hi)
    exact Finset.mem_image.mpr ⟨p, Finset.mem_range.mpr hp, hpi⟩
  have hcard := (Finset.card_le_card hsub).trans Finset.card_image_le
  rwa [Finset.card_range, Finset.card_range] at hcard

/-! ## Progress -/

theorem classIndex_mono (x y : AutomatonMinifierEquivalenceClass) (h : x ≤ y) :
    x.classIndex ≤ y.classIndex := by
  rcases Prod.Lex.le_iff.mp (show toLex (x.classIndex, x.transitions) ≤
    toLex (y.classIndex, y.transitions) from h) with h | h
  · exact h.le
  · exact h.1.le

/-- After a round that starts from consecutive numbers there are at least as many classes,
and the same numbers when there are as many. -/
theorem Rounded.next (h : Rounded A s) (h' : Rounded A s')
    (hnew : s'.newClassIndices = s.classIndices) :
    s.equivClasses.size ≤ s'.equivClasses.size ∧
      (s'.equivClasses.size = s.equivClasses.size → s'.classIndices = s.classIndices) := by
  have hsurj : ∀ i < s.equivClasses.size, ∃ k ∈ OrdMap.keys s'.equivClasses,
      k.classIndex = i := by
    intro i hi
    obtain ⟨p, hp, hpi⟩ := h.exists_number hi
    refine ⟨_, h'.mem_keys hp, ?_⟩
    rw [hnew]
    exact hpi
  constructor
  · rw [← OrdMap.size_keys s'.equivClasses]
    exact OrdSet.le_size hsurj
  · intro hsize
    have hlt : ∀ k ∈ OrdMap.keys s'.equivClasses, k.classIndex < s.equivClasses.size := by
      intro k hk
      obtain ⟨p, hp, rfl⟩ := h'.exists_of_mem_keys hk
      rw [hnew]
      exact h.number_lt hp
    apply List.ext_getElem (h'.length_eq.trans h.length_eq.symm)
    intro p hp' hp
    have hpA : p < A.states.length := by rwa [h'.length_eq] at hp'
    have hrank := OrdSet.rank_eq_of_size_eq (s := OrdMap.keys s'.equivClasses) classIndex_mono
      hsurj hlt ((OrdMap.size_keys _).trans hsize) (h'.mem_keys hpA)
    rw [← h'.number p hpA, hnew] at hrank
    rwa [List.getD_eq_getElem _ _ hp', classKey, List.getD_eq_getElem _ _ hp] at hrank

/-! ## What the numbers respect -/

/-- States with the same residual language have the same number, and states with the same
number are both final or both not. -/
structure Respects (A : FiniteAutomaton) (v : List ℕ) : Prop where
  joins : ∀ p < A.states.length, ∀ q < A.states.length, A.residual p = A.residual q →
    v.getD p 0 = v.getD q 0
  separates : ∀ p < A.states.length, ∀ q < A.states.length, v.getD p 0 = v.getD q 0 →
    (A.Final p ↔ A.Final q)

theorem residual_successor_eq (hA : A.IsDfa) (hp : p < A.states.length)
    (hq : q < A.states.length) (h : A.residual p = A.residual q) {c : CChar}
    (hc : c ∈ A.alphabet) :
    A.residual (A.successor p c) = A.residual (A.successor q c) := by
  ext w
  rw [← hA.cons_mem_residual_successor hp hc, ← hA.cons_mem_residual_successor hq hc, h]

theorem Respects.classKey_eq (h : Respects A v) (hA : A.IsDfa) (hp : p < A.states.length)
    (hq : q < A.states.length) (hpq : A.residual p = A.residual q) :
    classKey A v p = classKey A v q := by
  rw [classKey, signature]
  rw [h.joins p hp q hq hpq]
  congr 1
  apply List.map_congr_left
  intro c hc
  rw [h.joins _ (hA.successor_lt hp hc) _ (hA.successor_lt hq hc)
    (residual_successor_eq hA hp hq hpq hc)]

theorem Respects.round (h : Respects A s.newClassIndices) (hA : A.IsDfa) (hs : Rounded A s) :
    Respects A s.classIndices where
  joins p hp q hq hpq := (hs.number_eq_iff hp hq).mpr (h.classKey_eq hA hp hq hpq)
  separates p hp q hq hpq := by
    have hkey := (hs.number_eq_iff hp hq).mp hpq
    exact h.separates p hp q hq (congrArg AutomatonMinifierEquivalenceClass.classIndex hkey)

theorem getD_initial (hp : p < A.states.length) :
    (initial A).classIndices.getD p 0 = if (A.state p).isFinal then 1 else 0 := by
  rw [initial]
  simp only [List.getD_eq_getElem?_getD, List.getElem?_map, List.getElem?_eq_getElem hp]
  rw [state_of_lt hp]
  rfl

theorem respects_initial (hA : A.IsDfa) : Respects A (initial A).classIndices where
  joins p hp q hq hpq := by
    have hfinal : A.Final p ↔ A.Final q := by
      rw [← hA.letterLabels.nil_mem_residual, ← hA.letterLabels.nil_mem_residual, hpq]
    have heq : (A.state p).isFinal = (A.state q).isFinal := Bool.eq_iff_iff.mpr hfinal
    rw [getD_initial hp, getD_initial hq, heq]
  separates p hp q hq hpq := by
    rw [getD_initial hp, getD_initial hq] at hpq
    unfold Final
    by_cases hfp : (A.state p).isFinal = true <;> by_cases hfq : (A.state q).isFinal = true <;>
      simp [hfp, hfq] at hpq ⊢

/-! ## The end of the loop -/

/-- The loop has ended: another round would give the same numbers. -/
structure Stable (A : FiniteAutomaton) (s : Refinement) : Prop extends Rounded A s where
  same : s.newClassIndices = s.classIndices
  respects : Respects A s.classIndices

theorem refinement_ensures (hA : A.IsDfa) (hfinal : ∃ p, A.Final p) :
    (Comp.loop (refine A) (initial A)).Ensures (Stable A) := by
  classical
  apply Comp.loop_ensures_measure
    (fun s => s = initial A ∨ (Rounded A s ∧ Respects A s.classIndices))
    (fun s => 2 * (A.states.length - s.equivClasses.size) +
      if s.classIndices = s.newClassIndices then 0 else 1)
  · intro s hs
    have hinitial : (initial A).classIndices ≠ (initial A).newClassIndices := by
      obtain ⟨p, hp⟩ := hfinal
      intro heq
      have hone := getD_initial hp.lt
      rw [heq, if_pos (show (A.state p).isFinal = true from hp)] at hone
      simp [initial, List.getD_eq_getElem?_getD, hp.lt] at hone
    have hlen : s.classIndices.length = A.states.length ∧
        s.newClassIndices.length = A.states.length ∧ Respects A s.classIndices := by
      rcases hs with rfl | ⟨hr, hresp⟩
      · exact ⟨by simp [initial], by simp [initial], respects_initial hA⟩
      · exact ⟨hr.length_eq, hr.length_new, hresp⟩
    apply (refine_ensures hA hlen.1 hlen.2.1).mono
    intro r hr
    rcases hr with ⟨heq, rfl⟩ | ⟨hne, s', rfl, hnew, hround⟩
    · rcases hs with rfl | ⟨hr, hresp⟩
      · exact absurd heq hinitial
      · exact ⟨hr, heq.symm, hresp⟩
    · have hresp' : Respects A s'.classIndices :=
        Respects.round (hnew ▸ hlen.2.2) hA hround
      refine ⟨.inr ⟨hround, hresp'⟩, ?_⟩
      rw [if_neg hne]
      have hsize := hround.size_le
      rcases hs with rfl | ⟨hr, _⟩
      · -- the first round leaves at least one class
        have hpos := hround.number_lt hA.inRange.start_lt
        have hzero : (initial A).equivClasses.size = 0 := rfl
        split <;> omega
      · obtain ⟨hle, hsame⟩ := hr.next hround hnew
        rcases hle.lt_or_eq with hlt | heq
        · split <;> omega
        · rw [if_pos (by rw [hsame heq.symm, hnew])]
          omega
  · exact .inl rfl

/-- At the end equal numbers mean equal residual languages. -/
theorem Stable.residual_eq_iff (h : Stable A s) (hA : A.IsDfa) (hp : p < A.states.length)
    (hq : q < A.states.length) :
    s.classIndices.getD p 0 = s.classIndices.getD q 0 ↔ A.residual p = A.residual q := by
  constructor
  · intro hpq
    ext w
    induction w generalizing p q with
    | nil =>
        rw [hA.letterLabels.nil_mem_residual, hA.letterLabels.nil_mem_residual]
        exact h.respects.separates p hp q hq hpq
    | cons c w ih =>
        by_cases hc : c ∈ A.alphabet
        · rw [hA.cons_mem_residual_successor hp hc, hA.cons_mem_residual_successor hq hc]
          apply ih (hA.successor_lt hp hc) (hA.successor_lt hq hc)
          have hkey := (h.toRounded.number_eq_iff hp hq).mp hpq
          have hsig : signature A s.newClassIndices p = signature A s.newClassIndices q :=
            congrArg AutomatonMinifierEquivalenceClass.transitions hkey
          rw [h.same] at hsig
          exact congrArg AutomatonMinifierTransition.target (List.map_inj_left.mp hsig c hc)
        · apply iff_of_false
          · exact fun hw => hc (hA.mem_alphabet_of_mem_residual hw c (by simp))
          · exact fun hw => hc (hA.mem_alphabet_of_mem_residual hw c (by simp))
  · exact h.respects.joins p hp q hq

end FormalLanguages.AutomatonMinifier
