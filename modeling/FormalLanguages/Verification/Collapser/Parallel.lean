import FormalLanguages.Model.Collapser
import FormalLanguages.Verification.Automaton.Basic

/-! # Parallel transitions

The collapser replaces the transitions from one state to one target by a single one, whose
label is their sum. The words between two states stay the same. -/

namespace FormalLanguages

namespace FiniteAutomaton

variable {A B C : FiniteAutomaton} {p q i : ℕ} {r : Regex} {w : List CChar}

/-! ## What the words between two states determine -/

/-- The words on the transitions from `p` to `q`. -/
def label (A : FiniteAutomaton) (p q : ℕ) : Language CChar := A.graph.label p q

theorem mem_label : w ∈ A.label p q ↔ ∃ r, A.Edge p r q ∧ w ∈ r.language := by
  constructor
  · intro h
    obtain ⟨l, ⟨r, he, rfl⟩, hw⟩ := h
    exact ⟨r, he, hw⟩
  · intro h
    obtain ⟨r, he, hw⟩ := h
    exact ⟨r.language, ⟨r, he, rfl⟩, hw⟩

theorem le_label (h : A.Edge p r q) : r.language ≤ A.label p q :=
  fun _ hw => mem_label.mpr ⟨r, h, hw⟩

/-- No two transitions of state `i` have the same target. -/
def NoParallel (A : FiniteAutomaton) (i : ℕ) : Prop :=
  ((A.state i).transitions.map FiniteAutomatonTransition.targetIndex).Nodup

theorem NoParallel.congr (h : A.NoParallel i) (hstate : B.state i = A.state i) :
    B.NoParallel i := by
  rw [NoParallel]
  rwa [hstate]

/-- With one transition to each target the label is the word set of that one. -/
theorem NoParallel.label_eq (h : A.NoParallel p) (he : A.Edge p r q) :
    A.label p q = r.language := by
  apply le_antisymm
  · intro w hw
    obtain ⟨r', he', hw⟩ := mem_label.mp hw
    have heq := List.inj_on_of_nodup_map h he he' rfl
    cases heq
    exact hw
  · exact le_label he

/-- What the collapser keeps true of the automaton it works on. -/
structure Tidy (A : FiniteAutomaton) : Prop where
  inRange : A.InRange
  nonzero : ∀ {p r q}, A.Edge p r q → r.isZero = false

/-- `B` has the states of `A`, and the same words lead from one to another. -/
structure Relabels (A B : FiniteAutomaton) : Prop where
  length_eq : B.states.length = A.states.length
  start_eq : B.startStateIndex = A.startStateIndex
  keepsAlphabet : KeepsAlphabet A B
  final_iff : ∀ p, B.Final p ↔ A.Final p
  label_eq : ∀ p q, B.label p q = A.label p q

theorem Relabels.refl (A : FiniteAutomaton) : Relabels A A :=
  ⟨rfl, rfl, .refl A, fun _ => Iff.rfl, fun _ _ => rfl⟩

theorem Relabels.trans (h : Relabels A B) (h' : Relabels B C) : Relabels A C where
  length_eq := h'.length_eq.trans h.length_eq
  start_eq := h'.start_eq.trans h.start_eq
  keepsAlphabet := h.keepsAlphabet.trans h'.keepsAlphabet
  final_iff p := (h'.final_iff p).trans (h.final_iff p)
  label_eq p q := (h'.label_eq p q).trans (h.label_eq p q)

theorem Relabels.residual_eq (h : Relabels A B) (p : ℕ) : B.residual p = A.residual p :=
  LanguageGraph.residual_congr h.label_eq h.final_iff p

theorem Relabels.pathLanguage_eq (h : Relabels A B) : B.pathLanguage = A.pathLanguage := by
  rw [pathLanguage, h.start_eq]
  exact h.residual_eq _

end FiniteAutomaton

namespace AutomatonCollapser

open FiniteAutomaton

variable {A B : FiniteAutomaton} {p q i : ℕ} {r : Regex} {ts : List FiniteAutomatonTransition}
  {w : List CChar} {target : ℕ}

/-! ## Finding a target that is met twice -/

/-- The targets of a list of transitions. -/
def targets (ts : List FiniteAutomatonTransition) : List ℕ :=
  ts.map FiniteAutomatonTransition.targetIndex

theorem multipleTarget_eq_none {met : OrdSet ℕ} {found : Option ℕ}
    (h : multipleTarget ts met found = none) :
    found = none ∧ (targets ts).Nodup ∧ ∀ t ∈ targets ts, t ∉ met := by
  induction ts generalizing met found with
  | nil => exact ⟨h, List.nodup_nil, by simp [targets]⟩
  | cons t ts ih =>
      rw [multipleTarget] at h
      split at h
      · exact absurd (ih h).1 (by simp)
      · rename_i hmet
        rw [OrdSet.contains_iff] at hmet
        obtain ⟨hfound, hnodup, hnew⟩ := ih h
        refine ⟨hfound, List.nodup_cons.mpr ⟨?_, hnodup⟩, ?_⟩
        · intro hmem
          exact hnew _ hmem (OrdSet.mem_insert.mpr (.inl rfl))
        · intro u hu
          rcases List.mem_cons.mp hu with rfl | hu
          · exact hmet
          · exact fun hin => hnew u hu (OrdSet.mem_insert.mpr (.inr hin))

theorem multipleTarget_eq_some {met : OrdSet ℕ} {found : Option ℕ}
    (h : multipleTarget ts met found = some target) :
    found = some target ∨ (target ∈ targets ts ∧ target ∈ met) ∨
      2 ≤ (targets ts).count target := by
  induction ts generalizing met found with
  | nil => exact .inl h
  | cons t ts ih =>
      have hcons : targets (t :: ts) = t.targetIndex :: targets ts := rfl
      rw [multipleTarget] at h
      split at h
      · rename_i hmet
        rw [OrdSet.contains_iff] at hmet
        rcases ih h with heq | ⟨hmem, hin⟩ | hcount
        · cases heq
          exact .inr (.inl ⟨by simp [hcons], hmet⟩)
        · exact .inr (.inl ⟨List.mem_cons_of_mem _ hmem, hin⟩)
        · exact .inr (.inr (hcount.trans List.count_le_count_cons))
      · rcases ih h with heq | ⟨hmem, hin⟩ | hcount
        · exact .inl heq
        · rcases OrdSet.mem_insert.mp hin with rfl | hin
          · right
            right
            rw [hcons, List.count_cons_self]
            have := List.count_pos_iff.mpr hmem
            omega
          · exact .inr (.inl ⟨List.mem_cons_of_mem _ hmem, hin⟩)
        · exact .inr (.inr (hcount.trans List.count_le_count_cons))

/-! ## Taking the transitions to one target out of a list -/

/-- The positions at which a list has a transition to the target. -/
def positions (ts : List FiniteAutomatonTransition) (target : ℕ) : List ℕ :=
  (List.range ts.length).filter fun j =>
    (ts[j]?.map FiniteAutomatonTransition.targetIndex) == some target

theorem positions_cons (t : FiniteAutomatonTransition) :
    positions (t :: ts) target =
      (if t.targetIndex = target then [0] else []) ++ (positions ts target).map Nat.succ := by
  unfold positions
  rw [List.length_cons, List.range_succ_eq_map, List.filter_cons, List.filter_map]
  by_cases h : t.targetIndex = target
  · simp [h, Function.comp_def]
  · simp [h, Function.comp_def]

theorem filterMap_positions :
    (positions ts target).filterMap (ts[·]?) = ts.filter fun t => t.targetIndex == target := by
  induction ts with
  | nil => rfl
  | cons t ts ih =>
      rw [positions_cons, List.filterMap_append, List.filterMap_map, List.filter_cons]
      have hcomp : ((fun j => (t :: ts)[j]?) ∘ Nat.succ) = (ts[·]?) := by
        funext j
        simp
      rw [hcomp, ih]
      by_cases h : t.targetIndex = target
      · simp [h]
      · simp [h]

theorem foldl_eraseIdx_succ (js : List ℕ) (t : FiniteAutomatonTransition) :
    (js.map Nat.succ).foldl List.eraseIdx (t :: ts) = t :: js.foldl List.eraseIdx ts := by
  induction js generalizing ts with
  | nil => rfl
  | cons j js ih => exact ih

/-- Erasing the positions from the last to the first leaves the other transitions. -/
theorem foldl_eraseIdx_positions :
    (positions ts target).reverse.foldl List.eraseIdx ts =
      ts.filter fun t => t.targetIndex != target := by
  induction ts with
  | nil => rfl
  | cons t ts ih =>
      rw [positions_cons, List.reverse_append, ← List.map_reverse, List.foldl_append,
        foldl_eraseIdx_succ, ih, List.filter_cons]
      by_cases h : t.targetIndex = target
      · simp [h]
      · simp [h]

theorem foldl_removeTransition (js : List ℕ) :
    (js.foldl (fun B j => B.removeTransition i j) A).states.length = A.states.length ∧
    (js.foldl (fun B j => B.removeTransition i j) A).startStateIndex = A.startStateIndex ∧
    (js.foldl (fun B j => B.removeTransition i j) A).alphabet = A.alphabet ∧
    ∀ p, (js.foldl (fun B j => B.removeTransition i j) A).state p =
      if p = i then
        { A.state p with transitions := js.foldl List.eraseIdx (A.state p).transitions }
      else A.state p := by
  induction js generalizing A with
  | nil => simp
  | cons j js ih =>
      obtain ⟨hlen, hstart, halpha, hstate⟩ := ih (A := A.removeTransition i j)
      rw [List.foldl_cons]
      refine ⟨hlen.trans length_removeTransition, hstart, halpha, ?_⟩
      intro p
      rw [hstate, state_removeTransition]
      by_cases hp : p = i
      · simp [hp]
      · simp [hp]

/-! ## The sum of the labels -/

/-- The labels are added one after the other. -/
def sumRegex (ts : List FiniteAutomatonTransition) (r : Regex) : Regex :=
  (ts.map FiniteAutomatonTransition.regex).foldl Regex.addAssign r

theorem mem_language_sumRegex :
    w ∈ (sumRegex ts r).language ↔ w ∈ r.language ∨ ∃ t ∈ ts, w ∈ t.regex.language := by
  rw [sumRegex, Regex.mem_language_foldl_addAssign]
  simp

theorem mem_letters_sumRegex {c : CChar} (h : c ∈ (sumRegex ts r).letters) :
    c ∈ r.letters ∨ ∃ t ∈ ts, c ∈ t.regex.letters := by
  simpa using Regex.mem_letters_foldl_addAssign h

theorem isZero_sumRegex :
    (sumRegex ts r).isZero = true ↔ r.isZero = true ∧ ∀ t ∈ ts, t.regex.isZero = true := by
  rw [sumRegex, Regex.isZero_foldl_addAssign, List.forall_mem_map]

/-- A loop over the positions that adds the label at each of them computes the sum. -/
theorem foldl_positions {step : Regex → ℕ → Regex}
    (hstep : ∀ regex j, step regex j = (ts[j]?).elim regex fun t => regex.addAssign t.regex) :
    (positions ts target).foldl step r =
      sumRegex (ts.filter fun t => t.targetIndex == target) r := by
  rw [← filterMap_positions, sumRegex, List.foldl_map, List.foldl_filterMap]
  congr 1
  funext regex j
  rw [hstep]
  cases ts[j]? with
  | none => rfl
  | some t => rfl

/-! ## One call of `collapse_multiple_edges` -/

/-- What one call leaves of the transitions of the state. -/
def mergedTransitions (ts : List FiniteAutomatonTransition) (target : ℕ) :
    List FiniteAutomatonTransition :=
  (ts.filter fun t => t.targetIndex != target) ++
    [⟨sumRegex (ts.filter fun t => t.targetIndex == target) Regex.zero, target⟩]

theorem mem_mergedTransitions {t : FiniteAutomatonTransition} :
    t ∈ mergedTransitions ts target ↔ (t ∈ ts ∧ t.targetIndex ≠ target) ∨
      t = ⟨sumRegex (ts.filter fun t => t.targetIndex == target) Regex.zero, target⟩ := by
  simp [mergedTransitions]

theorem length_mergedTransitions (h : 2 ≤ (targets ts).count target) :
    (mergedTransitions ts target).length < ts.length := by
  have hsplit := List.length_eq_length_filter_add (l := ts) fun t => t.targetIndex == target
  have hcount : (targets ts).count target =
      (ts.filter fun t => t.targetIndex == target).length := by
    rw [targets, List.count, List.countP_map, List.countP_eq_length_filter]
    rfl
  have hne : (ts.filter fun t => !(t.targetIndex == target)).length =
      (ts.filter fun t => t.targetIndex != target).length := rfl
  rw [mergedTransitions, List.length_append, List.length_singleton]
  omega

theorem collapseMultipleEdges_eq_none (h : collapseMultipleEdges A i = none) :
    A.NoParallel i := by
  rw [collapseMultipleEdges] at h
  by_cases hlen : (A.state i).transitions.length ≤ 1
  · apply List.Nodup.map_on ?_ ?_
    · intro t ht u hu _
      obtain ⟨j, hj, rfl⟩ := List.mem_iff_getElem.mp ht
      obtain ⟨k, hk, rfl⟩ := List.mem_iff_getElem.mp hu
      have hjk : j = k := by omega
      subst hjk
      rfl
    · rw [List.nodup_iff_injective_get]
      intro j k _
      have hj := j.isLt
      have hk := k.isLt
      exact Fin.ext (by omega)
  · simp only [if_neg hlen] at h
    split at h
    · rename_i hnone
      exact (multipleTarget_eq_none hnone).2.1
    · cases h

/-- The automaton after one call, state by state. -/
theorem collapseMultipleEdges_eq_some (h : collapseMultipleEdges A i = some B) :
    i < A.states.length ∧ B.states.length = A.states.length ∧
    B.startStateIndex = A.startStateIndex ∧ (A.LettersIn → B.alphabet = A.alphabet) ∧
    ∃ target, 2 ≤ (targets (A.state i).transitions).count target ∧
      ∀ p, B.state p = if p = i then
        { A.state p with transitions := mergedTransitions (A.state p).transitions target }
        else A.state p := by
  rw [collapseMultipleEdges] at h
  by_cases hlen : (A.state i).transitions.length ≤ 1
  · rw [if_pos hlen] at h
    cases h
  · simp only [if_neg hlen] at h
    split at h
    · cases h
    · rename_i target hsome
      have hi : i < A.states.length := by
        by_contra hi
        rw [state_of_le (not_lt.mp hi)] at hlen
        exact hlen (by simp [default])
      have hcount : 2 ≤ (targets (A.state i).transitions).count target := by
        rcases multipleTarget_eq_some hsome with heq | ⟨_, hin⟩ | hcount
        · cases heq
        · exact absurd hin OrderedSet.notMem_empty
        · exact hcount
      obtain ⟨hlen', hstart, halpha, hstate⟩ := foldl_removeTransition (A := A) (i := i)
        (positions (A.state i).transitions target).reverse
      have hB : B = ((positions (A.state i).transitions target).reverse.foldl
          (fun A j => A.removeTransition i j) A).addTransition i target
          (sumRegex ((A.state i).transitions.filter fun t => t.targetIndex == target)
            Regex.zero) := by
        refine (Option.some.inj h).symm.trans (congrArg _ (foldl_positions ?_))
        intro regex j
        cases (A.state i).transitions[j]? with
        | none => rfl
        | some t => rfl
      subst hB
      refine ⟨hi, length_addTransition.trans hlen', hstart, ?_, target, hcount, ?_⟩
      · intro hA
        rw [alphabet_addTransition, halpha]
        intro c hc
        rw [halpha]
        rcases mem_letters_sumRegex hc with hc | ⟨t, ht, hc⟩
        · exact absurd hc OrderedSet.notMem_empty
        · exact hA i _ _ (List.mem_filter.mp ht).1 c hc
      · intro p
        rw [state_addTransition (by rwa [hlen']), hstate]
        by_cases hp : p = i
        · subst hp
          simp only [if_true]
          rw [foldl_eraseIdx_positions, mergedTransitions]
        · simp [hp]

/-- The label of the transition that replaces the ones to the target. -/
def mergedLabel (A : FiniteAutomaton) (i target : ℕ) : Regex :=
  sumRegex ((A.state i).transitions.filter fun t => t.targetIndex == target) Regex.zero

theorem mem_mergedLabel {target : ℕ} {w : List CChar} :
    w ∈ (mergedLabel A i target).language ↔ ∃ r, A.Edge i r target ∧ w ∈ r.language := by
  rw [mergedLabel, mem_language_sumRegex]
  constructor
  · intro hw
    rcases hw with hw | ⟨t, ht, hw⟩
    · rw [Regex.language_zero] at hw
      exact absurd hw (Language.notMem_zero w)
    · obtain ⟨ht, htarget⟩ := List.mem_filter.mp ht
      refine ⟨t.regex, ?_, hw⟩
      rw [← beq_iff_eq.mp htarget]
      exact ht
  · intro hw
    obtain ⟨r, he, hw⟩ := hw
    exact .inr ⟨⟨r, target⟩, List.mem_filter.mpr ⟨he, by simp⟩, hw⟩

/-- The edges after one call: one to the target, and the ones to other states. -/
theorem edge_of_mergedTransitions {target : ℕ}
    (hstate : ∀ p, B.state p = if p = i then
      { A.state p with transitions := mergedTransitions (A.state p).transitions target }
      else A.state p) {p q : ℕ} {r : Regex} :
    B.Edge p r q ↔ (A.Edge p r q ∧ ¬(p = i ∧ q = target)) ∨
      (p = i ∧ r = mergedLabel A i target ∧ q = target) := by
  unfold Edge
  rw [hstate]
  by_cases hp : p = i
  · subst hp
    simp [mem_mergedTransitions, mergedLabel]
  · simp [hp]

/-- One call keeps the words between all states and shortens the list of transitions. -/
theorem collapseMultipleEdges_relabels (hA : A.Tidy) (h : collapseMultipleEdges A i = some B) :
    Relabels A B ∧ B.Tidy ∧
      (B.state i).transitions.length < (A.state i).transitions.length ∧
      ∀ p, p ≠ i → B.state p = A.state p := by
  obtain ⟨hi, hlen, hstart, halpha, target, hcount, hstate⟩ :=
    collapseMultipleEdges_eq_some h
  have hedge := @edge_of_mergedTransitions A B i target hstate
  have hmem : ∃ t ∈ (A.state i).transitions, t.targetIndex = target :=
    List.mem_map.mp (List.count_pos_iff.mp (by omega : 0 < (targets (A.state i).transitions).count
      target))
  refine ⟨⟨hlen, hstart, ?_, ?_, ?_⟩, ⟨⟨?_, ?_⟩, ?_⟩, ?_, ?_⟩
  · intro hletters
    refine ⟨?_, halpha hletters⟩
    intro p r q he c hc
    rw [halpha hletters]
    rcases hedge.mp he with ⟨he, _⟩ | ⟨_, rfl, _⟩
    · exact hletters p r q he c hc
    · rcases mem_letters_sumRegex hc with hc | ⟨t, ht, hc⟩
      · exact absurd hc OrderedSet.notMem_empty
      · exact hletters i _ _ (List.mem_filter.mp ht).1 c hc
  · intro p
    unfold Final
    rw [hstate]
    split <;> rfl
  · intro p q
    ext w
    simp only [mem_label, hedge]
    by_cases hpq : p = i ∧ q = target
    · obtain ⟨rfl, rfl⟩ := hpq
      simp [mem_mergedLabel]
    · have hnew : ∀ r, ¬(p = i ∧ r = mergedLabel A i target ∧ q = target) :=
        fun r h => hpq ⟨h.1, h.2.2⟩
      simp only [hpq, hnew, not_false_eq_true, and_true, or_false]
  · rw [hstart, hlen]
    exact hA.inRange.start_lt
  · intro p r q he
    rw [hlen]
    rcases hedge.mp he with ⟨he, _⟩ | ⟨_, _, rfl⟩
    · exact hA.inRange.target_lt he
    · obtain ⟨t, ht, rfl⟩ := hmem
      exact hA.inRange.target_lt ht
  · intro p r q he
    rcases hedge.mp he with ⟨he, _⟩ | ⟨_, rfl, _⟩
    · exact hA.nonzero he
    · rw [Bool.eq_false_iff]
      intro hzero
      obtain ⟨t, ht, htarget⟩ := hmem
      have htzero := (isZero_sumRegex.mp hzero).2 t
        (List.mem_filter.mpr ⟨ht, beq_iff_eq.mpr htarget⟩)
      rw [hA.nonzero (show A.Edge i t.regex t.targetIndex from ht)] at htzero
      cases htzero
  · rw [hstate, if_pos rfl]
    exact length_mergedTransitions hcount
  · intro p hp
    rw [hstate, if_neg hp]

/-! ## Calls until nothing changes -/

theorem collapseAllMultipleEdges_ensures (hA : A.Tidy) (i : ℕ) :
    (collapseAllMultipleEdges A i).Ensures fun B =>
      Relabels A B ∧ B.Tidy ∧ B.NoParallel i ∧ ∀ p, p ≠ i → B.state p = A.state p := by
  apply Comp.loop_ensures_measure
    (fun B => Relabels A B ∧ B.Tidy ∧ ∀ p, p ≠ i → B.state p = A.state p)
    (fun B => (B.state i).transitions.length)
  · intro B hB
    obtain ⟨hrel, htidy, hother⟩ := hB
    cases h : collapseMultipleEdges B i with
    | none =>
        exact Comp.ensures_pure.mpr ⟨hrel, htidy, collapseMultipleEdges_eq_none h, hother⟩
    | some C =>
        obtain ⟨hrel', htidy', hlt, hother'⟩ := collapseMultipleEdges_relabels htidy h
        apply Comp.ensures_pure.mpr
        refine ⟨⟨hrel.trans hrel', htidy', ?_⟩, hlt⟩
        intro p hp
        rw [hother' p hp, hother p hp]
  · exact ⟨Relabels.refl A, hA, fun _ _ => rfl⟩

/-- The calls for a list of states leave no parallel transitions there, and bring none. -/
theorem foldlM_collapse_ensures (hA : A.Tidy) (l : List ℕ) :
    (l.foldlM collapseAllMultipleEdges A).Ensures fun B =>
      Relabels A B ∧ B.Tidy ∧ ∀ i, i ∈ l ∨ A.NoParallel i → B.NoParallel i := by
  apply Comp.foldlM_ensures (fun done B =>
    Relabels A B ∧ B.Tidy ∧ ∀ i, i ∈ done ∨ A.NoParallel i → B.NoParallel i)
  · intro done i rest B _ hB
    obtain ⟨hrel, htidy, hdone⟩ := hB
    apply (collapseAllMultipleEdges_ensures htidy i).mono
    intro C hC
    obtain ⟨hrel', htidy', hi, hother⟩ := hC
    refine ⟨hrel.trans hrel', htidy', ?_⟩
    intro p hp
    by_cases hpi : p = i
    · rwa [hpi]
    · apply NoParallel.congr _ (hother p hpi)
      apply hdone
      simpa [hpi] using hp
  · exact ⟨Relabels.refl A, hA, by simp⟩

end AutomatonCollapser

end FormalLanguages
