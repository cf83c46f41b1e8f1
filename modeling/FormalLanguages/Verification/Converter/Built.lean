import FormalLanguages.Verification.Converter.Correctness
import FormalLanguages.Verification.Regex.Expression
import FormalLanguages.Verification.Regex.Printing

/-! # What state elimination builds

The collapser and the converter make their regexes with the operators only. So the result is
one that the rest of the program can work with: it has no empty `Concat` and no letters but
those of the automaton, and its text can be read back. -/

namespace FormalLanguages

open FiniteAutomaton

variable {A B : FiniteAutomaton} {X Y : OrdSet CChar} {r s : Regex} {rs : List Regex}
  {i p q t : ℕ}

/-! ## Regexes from letters and operators -/

namespace Regex

/-- The operators make the regex of letters from `X`. -/
inductive Built (X : OrdSet CChar) : Regex → Prop
  | letter {c : CChar} : c ∈ X → Built X (.char c)
  | zero : Built X .zero
  | empty : Built X .empty
  | add {r s : Regex} : Built X r → Built X s → Built X (r.addAssign s)
  | mul {r s : Regex} : Built X r → Built X s → Built X (r.mulAssign s)
  | star {r : Regex} : Built X r → Built X r.unaryStar

theorem Built.noEmptyConcat (h : Built X r) : r.noEmptyConcat = true := by
  induction h with
  | letter => rfl
  | zero => rfl
  | empty => rfl
  | add _ _ ihr ihs => exact noEmptyConcat_addAssign ihr ihs
  | mul _ _ ihr ihs => exact noEmptyConcat_mulAssign ihr ihs
  | star _ ih => exact noEmptyConcat_unaryStar ih

theorem Built.branching (h : Built X r) : r.Branching := by
  induction h with
  | letter => exact .char _
  | zero => exact branching_zero
  | empty => exact .char 0
  | add _ _ ihr ihs => exact branching_addAssign ihr ihs
  | mul _ _ ihr ihs => exact branching_mulAssign ihr ihs
  | star _ ih => exact branching_unaryStar ih

theorem Built.mem_of_mem_letters (h : Built X r) {c : CChar} (hc : c ∈ r.letters) : c ∈ X := by
  induction h with
  | letter hX =>
      rw [(mem_letters_char.mp hc).2]
      exact hX
  | zero => exact absurd hc OrderedSet.notMem_empty
  | empty => exact absurd hc notMem_letters_empty
  | add _ _ ihr ihs => exact (mem_letters_addAssign hc).elim ihr ihs
  | mul _ _ ihr ihs => exact (mem_letters_mulAssign hc).elim ihr ihs
  | star _ ih => exact ih (mem_letters_unaryStar hc)

theorem Built.foldl_addAssign (hr : Built X r) (hrs : ∀ s ∈ rs, Built X s) :
    Built X (rs.foldl addAssign r) := by
  induction rs generalizing r with
  | nil => exact hr
  | cons s rs ih =>
      exact ih (hr.add (hrs s List.mem_cons_self)) fun t ht => hrs t (List.mem_cons_of_mem _ ht)

end Regex

open Regex

/-- The labels are built of letters from `X`. -/
def LabelsBuilt (X : OrdSet CChar) (A : FiniteAutomaton) : Prop :=
  ∀ p r q, A.Edge p r q → Built X r

namespace AutomatonCollapser

theorem built_sumRegex {ts : List FiniteAutomatonTransition} (hr : Built X r)
    (hts : ∀ t ∈ ts, Built X t.regex) : Built X (sumRegex ts r) :=
  hr.foldl_addAssign (List.forall_mem_map.mpr hts)

/-! ## Parallel transitions -/

theorem collapseMultipleEdges_built (hA : LabelsBuilt X A)
    (h : collapseMultipleEdges A i = some B) : LabelsBuilt X B := by
  obtain ⟨_, _, _, _, target, _, hstate⟩ := collapseMultipleEdges_eq_some h
  intro p r q he
  rcases (edge_of_mergedTransitions hstate).mp he with ⟨he, _⟩ | ⟨_, rfl, _⟩
  · exact hA p r q he
  · exact built_sumRegex .zero fun t ht => hA i _ _ (List.mem_filter.mp ht).1

theorem collapseAllMultipleEdges_built (hA : LabelsBuilt X A)
    (h : (collapseAllMultipleEdges A i).Returns B) : LabelsBuilt X B := by
  refine Comp.loop_returns_of (LabelsBuilt X) (LabelsBuilt X) ?_ hA h
  intro C x hC hx
  cases hmore : collapseMultipleEdges C i with
  | none =>
      simp only [hmore] at hx
      cases Comp.returns_pure.mp hx
      exact hC
  | some D =>
      simp only [hmore] at hx
      cases Comp.returns_pure.mp hx
      exact collapseMultipleEdges_built hC hmore

/-! ## Eliminating a state -/

theorem built_throughRegex {loop : Regex} (hloop : Built X loop) (hr : Built X r)
    (hs : Built X s) : Built X (throughRegex loop r s) := by
  rw [throughRegex]
  split
  · exact (hr.mul hloop).mul hs
  · exact hr.mul hs

theorem built_starredLoop (hA : LabelsBuilt X A) : Built X (starredLoop A i) := by
  rw [starredLoop_eq, loopRegex_eq]
  exact (built_sumRegex .empty fun t ht => hA i _ _ (List.mem_filter.mp ht).1).star

theorem removeState_built (hA : LabelsBuilt X A) : LabelsBuilt X (A.removeState i) := by
  intro p r q he
  rw [Edge] at he
  rw [state_removeState, dropTarget_eq_map_filter] at he
  obtain ⟨t, ht, heq⟩ := List.mem_map.mp he
  cases heq
  exact hA _ _ _ (List.mem_filter.mp ht).1

theorem collapseState_built (hA : LabelsBuilt X A) (h : (collapseState A i).Returns B) :
    LabelsBuilt X B := by
  obtain ⟨C, hC, hB⟩ := Comp.returns_bind.mp h
  cases Comp.returns_pure.mp hB
  obtain ⟨hbypass, _⟩ := bypassed A i
  apply removeState_built
  refine Comp.foldlM_returns_of (LabelsBuilt X)
    (fun _ _ _ => collapseAllMultipleEdges_built) ?_ hC
  intro p r q he
  rcases (hbypass.edge_iff p r q).mp he with he | ⟨t, u, ht, hu, _, rfl⟩
  · exact hA p r q he
  · exact built_throughRegex (built_starredLoop hA) (hA _ _ _ ht) (hA _ _ _ hu)

theorem ensureOneOutput_built (hA : LabelsBuilt X A) : LabelsBuilt X (ensureOneOutput A) := by
  rw [ensureOneOutput]
  split
  · exact hA
  · intro p r q he
    rcases (redirected A).edge.mp he with he | ⟨_, rfl, _⟩
    · exact hA p r q he
    · exact .empty

theorem collapse_built (hA : LabelsBuilt X A) (h : (collapse A).Returns B) :
    LabelsBuilt X B := by
  obtain ⟨_, _, h⟩ := Comp.returns_bind.mp h
  obtain ⟨C, hC, h⟩ := Comp.returns_bind.mp h
  have hC := Comp.foldlM_returns_of (LabelsBuilt X)
    (fun _ _ _ => collapseAllMultipleEdges_built) (ensureOneOutput_built hA) hC
  refine Comp.loop_returns_of (LabelsBuilt X) (LabelsBuilt X) ?_ hC h
  intro D x hD hx
  cases hpick : pickStateToCollapse D with
  | none =>
      simp only [hpick] at hx
      cases Comp.returns_pure.mp hx
      exact hD
  | some s =>
      simp only [hpick] at hx
      obtain ⟨D', hD', hx⟩ := Comp.returns_bind.mp hx
      cases Comp.returns_pure.mp hx
      exact collapseState_built hD hD'

end AutomatonCollapser

/-! ## The converter -/

namespace AutomatonToRegexConverter

/-- The two regexes are labels, where there are such transitions. -/
theorem loopAndCross_cases (A : FiniteAutomaton) (p q : ℕ) :
    ((loopAndCross A p q).1 = Regex.empty ∨ A.Edge p (loopAndCross A p q).1 p) ∧
      ((loopAndCross A p q).2 = Regex.zero ∨ A.Edge p (loopAndCross A p q).2 q) := by
  have hfold : ∀ (ts : List FiniteAutomatonTransition) (labels : Regex × Regex),
      (∀ t ∈ ts, A.Edge p t.regex t.targetIndex) →
      (labels.1 = Regex.empty ∨ A.Edge p labels.1 p) →
      (labels.2 = Regex.zero ∨ A.Edge p labels.2 q) →
      let labels := ts.foldl (fun l t =>
        if t.targetIndex = p then (t.regex, l.2)
        else if t.targetIndex = q then (l.1, t.regex)
        else l) labels
      (labels.1 = Regex.empty ∨ A.Edge p labels.1 p) ∧
        (labels.2 = Regex.zero ∨ A.Edge p labels.2 q) := by
    intro ts
    induction ts with
    | nil => exact fun _ _ hloop hcross => ⟨hloop, hcross⟩
    | cons t ts ih =>
        intro labels hts hloop hcross
        have ht := hts t List.mem_cons_self
        have hrest : ∀ u ∈ ts, A.Edge p u.regex u.targetIndex :=
          fun u hu => hts u (List.mem_cons_of_mem _ hu)
        rw [List.foldl_cons]
        by_cases hp : t.targetIndex = p
        · rw [if_pos hp]
          exact ih _ hrest (.inr (hp ▸ ht)) hcross
        · rw [if_neg hp]
          by_cases hq : t.targetIndex = q
          · rw [if_pos hq]
            exact ih _ hrest hloop (.inr (hq ▸ ht))
          · rw [if_neg hq]
            exact ih _ hrest hloop hcross
  exact hfold _ _ (fun t ht => ht) (.inl rfl) (.inl rfl)

theorem loopAndCross_built (hA : LabelsBuilt X A) :
    Built X (loopAndCross A p q).1 ∧ Built X (loopAndCross A p q).2 := by
  obtain ⟨hloop, hcross⟩ := loopAndCross_cases A p q
  constructor
  · rcases hloop with hloop | hloop
    · rw [hloop]
      exact .empty
    · exact hA _ _ _ hloop
  · rcases hcross with hcross | hcross
    · rw [hcross]
      exact .zero
    · exact hA _ _ _ hcross

theorem alwaysTrueRegex_built (h : ∀ c ∈ A.alphabet, c ∈ X) : Built X (alwaysTrueRegex A) := by
  have hletters : ∀ r ∈ A.alphabet.toList.map Regex.char, Built X r :=
    List.forall_mem_map.mpr fun c hc => .letter (h c hc)
  have hsum := Built.empty.foldl_addAssign hletters
  rw [List.foldl_map] at hsum
  exact hsum.star

theorem regexForStates_built (hA : LabelsBuilt X A) : Built X (regexForStates A p q) := by
  obtain ⟨hloop, hcross⟩ := loopAndCross_built (p := p) (q := q) hA
  obtain ⟨hloop', hback⟩ := loopAndCross_built (p := q) (q := p) hA
  exact (hloop.star.mul hcross).mul ((hloop'.add ((hback.mul hloop.star).mul hcross)).star)

theorem convert_built (hA : LabelsBuilt X A) (halphabet : ∀ c ∈ A.alphabet, c ∈ X)
    (h : (convert A).Returns r) : Built X r := by
  obtain ⟨_, _, h⟩ := Comp.returns_bind.mp h
  obtain ⟨_, _, h⟩ := Comp.returns_bind.mp h
  split at h
  · cases Comp.returns_pure.mp h
    split
    · exact alwaysTrueRegex_built halphabet
    · exact .empty
  · obtain ⟨_, _, h⟩ := Comp.returns_bind.mp h
    obtain ⟨_, _, h⟩ := Comp.returns_bind.mp h
    cases Comp.returns_pure.mp h
    exact regexForStates_built hA

/-- The regex of a complete deterministic automaton is built of the letters of its alphabet. -/
theorem toRegex_built (hA : A.IsDfa) (hdet : A.isDeterministic = true)
    (h : (AutomatonCollapser.collapse A >>= convert).Returns r) : Built A.alphabet r := by
  obtain ⟨B, hB, hr⟩ := Comp.returns_bind.mp h
  have hlabels : LabelsBuilt A.alphabet A := by
    intro p x q he
    obtain ⟨c, hc, _, rfl⟩ := hA.label he
    exact .letter hc
  have hcollapsed := (AutomatonCollapser.collapse_ensures (tidy_of_isDfa hA) hdet).of_returns hB
  obtain ⟨_, halphabet⟩ := hcollapsed.keepsAlphabet (lettersIn_of_isDfa hA)
  refine convert_built (AutomatonCollapser.collapse_built hlabels hB) ?_ hr
  rw [halphabet]
  exact fun _ hc => hc

end AutomatonToRegexConverter

end FormalLanguages
