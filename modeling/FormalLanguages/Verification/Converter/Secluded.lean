import FormalLanguages.Verification.Converter.Built
import FormalLanguages.Verification.Regex.Secluded

/-! # The stars that state elimination builds

A label between two states comes from paths with letters, so it begins and ends with one. Only
the labels to the state that `ensure_one_output` adds may end with a star or have the empty
word, and no way leads on from there. -/

namespace FormalLanguages

open FiniteAutomaton Regex

variable {A B : FiniteAutomaton} {r s : Regex} {i p q : ℕ}

/-- No way leads on from the final state `q`. -/
def FinalSink (A : FiniteAutomaton) (q : ℕ) : Prop := A.Final q ∧ ∀ r p, ¬A.Edge q r p

/-- What the label of a transition to `q` may be. -/
def LabelTo (A : FiniteAutomaton) (q : ℕ) (r : Regex) : Prop :=
  Secluded false .inner r ∨ (Secluded false .last r ∧ FinalSink A q)

def LabelsSecluded (A : FiniteAutomaton) : Prop := ∀ p r q, A.Edge p r q → LabelTo A q r

theorem LabelTo.last (h : LabelTo A q r) : Secluded false .last r := by
  rcases h with h | h
  · exact h.mono id (.inr ⟨rfl, by simp⟩)
  · exact h.1

theorem LabelTo.inner (h : LabelTo A q r) (hq : ¬FinalSink A q) : Secluded false .inner r :=
  h.resolve_right fun hsink => hq hsink.2

theorem not_finalSink_of_edge (he : A.Edge p r q) : ¬FinalSink A p := fun h => h.2 r q he

/-- What leads on afterwards leads on before, perhaps with another label. -/
theorem FinalSink.mono (h : FinalSink A q) (hfinal : A.Final q → B.Final q)
    (hedge : ∀ r p, B.Edge q r p → ∃ r p, A.Edge q r p) : FinalSink B q := by
  refine ⟨hfinal h.1, fun r p he => ?_⟩
  obtain ⟨r, p, he⟩ := hedge r p he
  exact h.2 r p he

namespace AutomatonCollapser

theorem secluded_sumRegex {target : Target} {ts : List FiniteAutomatonTransition}
    (hr : Secluded false target r) (hts : ∀ t ∈ ts, Secluded false target t.regex) :
    Secluded false target (sumRegex ts r) :=
  hr.foldl_addAssign (List.forall_mem_map.mpr hts)

/-! ## Parallel transitions -/

theorem collapseMultipleEdges_secluded (hA : LabelsSecluded A)
    (h : collapseMultipleEdges A i = some B) : LabelsSecluded B := by
  obtain ⟨_, _, _, _, target, hcount, hstate⟩ := collapseMultipleEdges_eq_some h
  have hedge := @edge_of_mergedTransitions A B i target hstate
  have hmem : ∃ r, A.Edge i r target := by
    obtain ⟨t, ht, htarget⟩ := List.mem_map.mp (List.count_pos_iff.mp
      (by omega : 0 < (targets (A.state i).transitions).count target))
    exact ⟨t.regex, htarget ▸ ht⟩
  have hsink : ∀ {q}, FinalSink A q → FinalSink B q := by
    intro q hq
    refine hq.mono ?_ ?_
    · intro hf
      rw [Final, hstate]
      split
      · exact hf
      · exact hf
    · intro r p he
      rcases hedge.mp he with ⟨he, _⟩ | ⟨rfl, _, rfl⟩
      · exact ⟨r, p, he⟩
      · obtain ⟨r, hr⟩ := hmem
        exact ⟨r, _, hr⟩
  intro p r q he
  rcases hedge.mp he with ⟨he, _⟩ | ⟨_, rfl, rfl⟩
  · exact (hA p r q he).imp id fun hr => ⟨hr.1, hsink hr.2⟩
  · have hlabels : ∀ t ∈ (A.state i).transitions.filter fun t => t.targetIndex == q,
        LabelTo A q t.regex := by
      intro t ht
      obtain ⟨ht, htarget⟩ := List.mem_filter.mp ht
      have heq : t.targetIndex = q := by simpa using htarget
      exact heq ▸ hA i _ _ ht
    by_cases hq : FinalSink A q
    · exact .inr ⟨secluded_sumRegex secluded_zero fun t ht => (hlabels t ht).last, hsink hq⟩
    · exact .inl (secluded_sumRegex secluded_zero fun t ht => (hlabels t ht).inner hq)

theorem collapseAllMultipleEdges_secluded (hA : LabelsSecluded A)
    (h : (collapseAllMultipleEdges A i).Returns B) :
    LabelsSecluded B ∧ B.states.length = A.states.length := by
  let Inv := fun C : FiniteAutomaton => LabelsSecluded C ∧ C.states.length = A.states.length
  refine Comp.loop_returns_of Inv Inv ?_ ⟨hA, rfl⟩ h
  intro C x hC hx
  cases hmore : collapseMultipleEdges C i with
  | none =>
      simp only [hmore] at hx
      cases Comp.returns_pure.mp hx
      exact hC
  | some D =>
      simp only [hmore] at hx
      cases Comp.returns_pure.mp hx
      obtain ⟨_, hlen, _⟩ := collapseMultipleEdges_eq_some hmore
      exact ⟨collapseMultipleEdges_secluded hC.1 hmore, hlen.trans hC.2⟩

theorem collapseAllMultipleEdges_foldlM {l : List ℕ} (hA : LabelsSecluded A)
    (h : (l.foldlM collapseAllMultipleEdges A).Returns B) :
    LabelsSecluded B ∧ B.states.length = A.states.length := by
  refine Comp.foldlM_returns_of
    (fun C => LabelsSecluded C ∧ C.states.length = A.states.length) ?_ ⟨hA, rfl⟩ h
  intro C x D hC hD
  obtain ⟨hD, hlen⟩ := collapseAllMultipleEdges_secluded hC.1 hD
  exact ⟨hD, hlen.trans hC.2⟩

/-! ## Eliminating a state -/

theorem secluded_loopRegex (hA : LabelsSecluded A) :
    Secluded false .operandEnd (loopRegex i (A.state i).transitions) := by
  rw [loopRegex_eq]
  refine secluded_sumRegex (.empty (.inr (by simp))) fun t ht => ?_
  obtain ⟨ht, htarget⟩ := List.mem_filter.mp ht
  have hloop : A.Edge i t.regex i := by
    have : t.targetIndex = i := by simpa using htarget
    exact this ▸ ht
  exact ((hA _ _ _ hloop).inner (not_finalSink_of_edge hloop)).mono id (.inr ⟨rfl, by simp⟩)

theorem secluded_throughRegex {target : Target} {loop : Regex}
    (hr : Secluded false .inner r) (hloop : Secluded false .operandEnd loop)
    (hs : Secluded false target s) (htarget : target = .inner ∨ target = .last) :
    Secluded false target (throughRegex loop.unaryStar r s) := by
  have hmul : throughRegex loop.unaryStar r s = (r.mulAssign loop.unaryStar).mulAssign s := by
    rw [throughRegex]
    split
    · rfl
    · rename_i hempty
      have heq : loop.unaryStar = Regex.empty := isEmpty_iff.mp (by simpa using hempty)
      rw [heq, mulAssign_empty]
  rw [hmul]
  exact hr.mulAssign_star hr.ne_empty hloop hs htarget

theorem removeState_secluded (hi : i < A.states.length) (hA : LabelsSecluded A) :
    LabelsSecluded (A.removeState i) := by
  have hsub := subgraph_removeState hi
  intro x r y he
  obtain ⟨p, q, _, hq, _, rfl, heA⟩ := hsub.edge.mp he
  refine (hA p r q heA).imp id fun hr => ⟨hr.1, hsub.final.mpr ⟨q, hq, rfl, hr.2.1⟩, ?_⟩
  intro r' y he'
  obtain ⟨q', y', hq', _, heq, _, heA'⟩ := hsub.edge.mp he'
  obtain rfl : q' = q := hsub.inj hq' hq heq
  exact hr.2.2 r' y' heA'

/-- The state is not final, so the ways to it end with a letter. -/
theorem collapseState_secluded (hi : i < A.states.length) (hnot : ¬A.Final i)
    (hA : LabelsSecluded A) (h : (collapseState A i).Returns B) : LabelsSecluded B := by
  obtain ⟨C, hC, hB⟩ := Comp.returns_bind.mp h
  cases Comp.returns_pure.mp hB
  obtain ⟨hbypass, _⟩ := bypassed A i
  have hsink : ∀ {q}, FinalSink A q → FinalSink
      ((doubleTransitions A i).foldl (addDoubleTransition (starredLoop A i)) A) q := by
    intro q hq
    refine hq.mono (hbypass.final_iff q).mpr fun r p he => ?_
    rcases (hbypass.edge_iff q r p).mp he with he | ⟨t, _, ht, _⟩
    · exact ⟨r, p, he⟩
    · exact ⟨t, i, ht⟩
  have hall : LabelsSecluded
      ((doubleTransitions A i).foldl (addDoubleTransition (starredLoop A i)) A) := by
    intro p r q he
    rcases (hbypass.edge_iff p r q).mp he with he | ⟨t, u, ht, hu, _, rfl⟩
    · exact (hA p r q he).imp id fun hr => ⟨hr.1, hsink hr.2⟩
    · have ht := (hA _ _ _ ht).inner fun h => hnot h.1
      have hloop := secluded_loopRegex (i := i) hA
      rcases hA _ _ _ hu with hu | hu
      · exact .inl (starredLoop_eq A i ▸ secluded_throughRegex ht hloop hu (.inl rfl))
      · exact .inr ⟨starredLoop_eq A i ▸ secluded_throughRegex ht hloop hu.1 (.inr rfl),
          hsink hu.2⟩
  obtain ⟨hC, hlen⟩ := collapseAllMultipleEdges_foldlM hall hC
  refine removeState_secluded ?_ hC
  rw [hlen, hbypass.length_eq]
  exact hi

theorem ensureOneOutput_secluded (hA : ∀ p r q, A.Edge p r q → Secluded false .inner r) :
    LabelsSecluded (ensureOneOutput A) := by
  rw [ensureOneOutput]
  split
  · exact fun p r q he => .inl (hA p r q he)
  · intro p r q he
    rcases (redirected A).edge.mp he with he | ⟨_, rfl, rfl⟩
    · exact .inl (hA p r q he)
    · refine .inr ⟨.empty (.inr (by simp)), (redirected A).final.mpr rfl, fun r p he => ?_⟩
      rcases (redirected A).edge.mp he with he | ⟨hf, _, _⟩
      · exact lt_irrefl _ he.source_lt
      · exact lt_irrefl _ hf.lt

theorem collapse_secluded (hA : ∀ p r q, A.Edge p r q → Secluded false .inner r)
    (h : (collapse A).Returns B) : LabelsSecluded B := by
  obtain ⟨_, _, h⟩ := Comp.returns_bind.mp h
  obtain ⟨C, hC, h⟩ := Comp.returns_bind.mp h
  have hC := (collapseAllMultipleEdges_foldlM (ensureOneOutput_secluded hA) hC).1
  refine Comp.loop_returns_of LabelsSecluded LabelsSecluded ?_ hC h
  intro D x hD hx
  cases hpick : pickStateToCollapse D with
  | none =>
      simp only [hpick] at hx
      cases Comp.returns_pure.mp hx
      exact hD
  | some s =>
      simp only [hpick] at hx
      obtain ⟨D', hD', hx⟩ := Comp.returns_bind.mp hx
      cases Comp.returns_pure.mp hx
      obtain ⟨hs, hnot, _⟩ := pickStateToCollapse_eq_some hpick
      exact collapseState_secluded hs hnot hD hD'

end AutomatonCollapser

/-! ## The converter -/

namespace AutomatonToRegexConverter

theorem alwaysTrueRegex_secluded : Secluded true .last (alwaysTrueRegex A) := by
  have hsum : Secluded false .operandEnd
      ((A.alphabet.toList.map Regex.char).foldl Regex.addAssign Regex.empty) := by
    refine Secluded.foldl_addAssign (.empty (.inr (by simp))) ?_
    refine List.forall_mem_map.mpr fun c _ => ?_
    by_cases hc : c = 0
    · rw [hc]
      exact .empty (.inr (by simp))
    · exact .letter hc (by simp)
  rw [List.foldl_map] at hsum
  exact hsum.unaryStar

theorem secluded_loop (hA : LabelsSecluded A) (p q : ℕ) :
    Secluded false .operandEnd (loopAndCross A p q).1 := by
  rcases (loopAndCross_cases A p q).1 with hloop | hloop
  · rw [hloop]
    exact .empty (.inr (by simp))
  · exact ((hA _ _ _ hloop).inner (not_finalSink_of_edge hloop)).mono id (.inr ⟨rfl, by simp⟩)

theorem secluded_cross (hA : LabelsSecluded A) (hq : ¬FinalSink A q) :
    Secluded false .inner (loopAndCross A p q).2 := by
  rcases (loopAndCross_cases A p q).2 with hcross | hcross
  · rw [hcross]
    exact secluded_zero
  · exact (hA _ _ _ hcross).inner hq

/-- From the start state, round its loop, to the final state, and round there. -/
theorem regexForStates_secluded (hA : LabelsSecluded A) (hp : ¬A.Final p) :
    Secluded true .last (regexForStates A p q) := by
  have hloop := secluded_loop hA p q
  have hback : Secluded false .inner (loopAndCross A q p).2 := secluded_cross hA fun h => hp h.1
  rw [regexForStates]
  by_cases hq : FinalSink A q
  · have hcross : Secluded false .last (loopAndCross A p q).2 := by
      rcases (loopAndCross_cases A p q).2 with hcross | hcross
      · rw [hcross]
        exact secluded_zero
      · exact (hA _ _ _ hcross).last
    -- no way leads on from the final state
    have hnoLoop : (loopAndCross A q p).1 = Regex.empty :=
      (loopAndCross_cases A q p).1.resolve_right fun he => hq.2 _ _ he
    have hnoBack : (loopAndCross A q p).2 = Regex.zero :=
      (loopAndCross_cases A q p).2.resolve_right fun he => hq.2 _ _ he
    rw [hnoLoop, hnoBack]
    change Secluded true .last
      (((loopAndCross A p q).1.unaryStar.mulAssign (loopAndCross A p q).2).mulAssign Regex.empty)
    rw [mulAssign_empty]
    exact hloop.unaryStar_mulAssign hcross (.inr rfl)
  · have hcross : Secluded false .inner (loopAndCross A p q).2 := secluded_cross hA hq
    have hthere := hloop.unaryStar_mulAssign hcross (.inl rfl)
    have hround := hback.mulAssign_star hback.ne_empty hloop hcross (.inl rfl)
    have hoperand := (secluded_loop hA q p).addAssign (hround.mono id (.inr ⟨rfl, by simp⟩))
    refine hthere.mulAssign ?_ hoperand.unaryStar rfl (by simp)
    rw [Bool.eq_false_iff]
    intro hempty
    have hnot := isEmpty_of_mulAssign hempty
    rw [hcross.ne_empty] at hnot
    cases hnot

/-- The regex of a deterministic automaton has its stars set apart. -/
theorem toRegex_secluded (hA : ∀ p r q, A.Edge p r q → Secluded false .inner r)
    (h : (AutomatonCollapser.collapse A >>= convert).Returns r) : Secluded true .last r := by
  obtain ⟨B, hB, h⟩ := Comp.returns_bind.mp h
  have hB := AutomatonCollapser.collapse_secluded hA hB
  obtain ⟨_, _, h⟩ := Comp.returns_bind.mp h
  obtain ⟨_, _, h⟩ := Comp.returns_bind.mp h
  split at h
  · cases Comp.returns_pure.mp h
    split
    · exact alwaysTrueRegex_secluded
    · exact .empty (.inl rfl)
  · obtain ⟨_, hone, h⟩ := Comp.returns_bind.mp h
    obtain ⟨_, _, h⟩ := Comp.returns_bind.mp h
    cases Comp.returns_pure.mp h
    have hone : (B.state 0).isFinal ≠ (B.state 1).isFinal := by
      simpa using Comp.returns_assert.mp hone
    apply regexForStates_secluded hB
    intro hfinal
    split at hfinal
    · rename_i hfirst
      exact hone (hfirst.trans hfinal.symm)
    · rename_i hfirst
      exact hfirst hfinal

end AutomatonToRegexConverter

end FormalLanguages
