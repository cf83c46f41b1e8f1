import FormalLanguages.Model.Optimizer
import FormalLanguages.Verification.Automaton.InPlace

/-! # Correctness of the optimizer

Zero transitions spell no word, and what is left after the removal of the unmarked states
is the part that is reachable from the start state. -/

namespace FormalLanguages.AutomatonOptimizer

open FiniteAutomaton

variable {A B : FiniteAutomaton} {p q : ℕ} {r : Regex} {m : Marking}

/-! ## Zero transitions -/

theorem dropZero_eq_filter (ts : List FiniteAutomatonTransition) :
    dropZero ts = ts.filter fun t => !t.regex.isZero := by
  induction ts with
  | nil => rfl
  | cons t ts ih =>
      rw [dropZero, List.filter_cons, ih]
      by_cases h : t.regex.isZero <;> simp [h]

theorem state_removeZeroTransitions : (removeZeroTransitions A).state p =
    { A.state p with transitions := dropZero (A.state p).transitions } := by
  unfold removeZeroTransitions state
  simp only [List.getD_eq_getElem?_getD, List.getElem?_map]
  cases A.states[p]? <;> rfl

theorem edge_removeZeroTransitions :
    (removeZeroTransitions A).Edge p r q ↔ A.Edge p r q ∧ r.isZero = false := by
  simp [Edge, state_removeZeroTransitions, dropZero_eq_filter]

theorem final_removeZeroTransitions : (removeZeroTransitions A).Final p ↔ A.Final p := by
  rw [Final, state_removeZeroTransitions]
  rfl

theorem length_removeZeroTransitions :
    (removeZeroTransitions A).states.length = A.states.length :=
  List.length_map ..

theorem residual_removeZeroTransitions (p : ℕ) :
    (removeZeroTransitions A).residual p = A.residual p := by
  apply le_antisymm
  · exact FiniteAutomaton.residual_le
      (fun p r q h => edge_mul_residual_le (edge_removeZeroTransitions.mp h).1)
      (fun p h => one_le_residual (final_removeZeroTransitions.mp h)) p
  · refine FiniteAutomaton.residual_le (fun p r q h => ?_)
      (fun p h => one_le_residual (final_removeZeroTransitions.mpr h)) p
    cases hz : r.isZero with
    | true =>
        rw [Regex.isZero_iff.mp hz]
        simp
    | false => exact edge_mul_residual_le (edge_removeZeroTransitions.mpr ⟨h, hz⟩)

/-! ## Marking the reachable states -/

def Marking.Marked (m : Marking) (p : ℕ) : Prop := m.reachable.getD p false = true

/-- Twice the unmarked states and the stack: a mark takes two and a push gives one back. -/
def Marking.work (m : Marking) : ℕ :=
  2 * ((Finset.range m.reachable.length).filter fun p => m.reachable.getD p false = false).card +
    m.currentStates.length

/-- The part of a marking that one transition changes. -/
structure Marks (ts : List FiniteAutomatonTransition) (m m' : Marking) : Prop where
  length_eq : m'.reachable.length = m.reachable.length
  marked : ∀ p, m'.Marked p ↔ m.Marked p ∨ ∃ t ∈ ts, t.targetIndex = p
  stack : ∀ p ∈ m.currentStates, p ∈ m'.currentStates
  pushed : ∀ p ∈ m'.currentStates, p ∈ m.currentStates ∨ m'.Marked p
  fresh : ∀ p, m'.Marked p → m.Marked p ∨ p ∈ m'.currentStates
  work_le : m'.work ≤ m.work

theorem marks_markTarget {t : FiniteAutomatonTransition}
    (ht : t.targetIndex < m.reachable.length) : Marks [t] m (markTarget m t) := by
  unfold markTarget
  split
  · rename_i h
    refine ⟨rfl, fun p => ?_, fun _ h => h, fun _ h => .inl h, fun _ h => .inl h, le_rfl⟩
    simp only [List.mem_singleton, exists_eq_left]
    refine ⟨.inl, ?_⟩
    intro hcases
    rcases hcases with hp | rfl
    · exact hp
    · exact h
  · rename_i h
    have hmarked : ∀ p, (Marking.mk (m.reachable.set t.targetIndex true)
        (t.targetIndex :: m.currentStates)).Marked p ↔ p = t.targetIndex ∨ m.Marked p :=
      fun p => getD_set_true ht p
    refine ⟨List.length_set, fun p => ?_, fun p hp => List.mem_cons_of_mem _ hp, fun p hp => ?_,
      fun p hp => ?_, ?_⟩
    · rw [hmarked]
      simp only [List.mem_singleton, exists_eq_left]
      rw [or_comm, eq_comm]
    · rcases List.mem_cons.mp hp with rfl | hp
      · exact .inr ((hmarked _).mpr (.inl rfl))
      · exact .inl hp
    · rcases (hmarked p).mp hp with rfl | hp
      · exact .inr (by simp)
      · exact .inl hp
    · have hcard : ((Finset.range m.reachable.length).filter fun p =>
          (m.reachable.set t.targetIndex true).getD p false = false).card <
          ((Finset.range m.reachable.length).filter fun p =>
            m.reachable.getD p false = false).card := by
        apply Finset.card_lt_card
        rw [Finset.ssubset_iff_of_subset]
        · refine ⟨t.targetIndex, ?_, ?_⟩
          · simpa [ht] using h
          · simp only [Finset.mem_filter, not_and, Bool.not_eq_false]
            exact fun _ => (getD_set_true ht _).mpr (.inl rfl)
        · intro p hp
          obtain ⟨hlt, hp⟩ := Finset.mem_filter.mp hp
          refine Finset.mem_filter.mpr ⟨hlt, ?_⟩
          rw [← Bool.not_eq_true] at hp ⊢
          exact fun hm => hp ((getD_set_true ht p).mpr (.inr hm))
      unfold Marking.work
      simp only [List.length_set, List.length_cons]
      omega

theorem marks_foldl {ts : List FiniteAutomatonTransition}
    (hts : ∀ t ∈ ts, t.targetIndex < m.reachable.length) : Marks ts m (ts.foldl markTarget m) := by
  induction ts generalizing m with
  | nil => exact ⟨rfl, by simp, fun _ h => h, fun _ h => .inl h, fun _ h => .inl h, le_rfl⟩
  | cons t ts ih =>
      have h := marks_markTarget (hts t (by simp))
      have h' := ih (m := markTarget m t) (by
        intro u hu
        rw [h.length_eq]
        exact hts u (List.mem_cons_of_mem _ hu))
      rw [List.foldl_cons]
      refine ⟨h'.length_eq.trans h.length_eq, fun p => ?_, fun p hp => h'.stack p (h.stack p hp),
        fun p hp => ?_, fun p hp => ?_, h'.work_le.trans h.work_le⟩
      · rw [h'.marked, h.marked]
        simp [or_assoc]
      · rcases h'.pushed p hp with hp | hp
        · rcases h.pushed p hp with hp | hp
          · exact .inl hp
          · exact .inr ((h'.marked p).mpr (.inl hp))
        · exact .inr hp
      · rcases h'.fresh p hp with hp | hp
        · rcases h.fresh p hp with hp | hp
          · exact .inl hp
          · exact .inr (h'.stack p hp)
        · exact .inr hp

/-- The search has marked only reachable states, and all successors of the states it is
done with. -/
structure MarkInv (A : FiniteAutomaton) (m : Marking) : Prop where
  length_eq : m.reachable.length = A.states.length
  sound : ∀ p, m.Marked p → A.Reachable p
  start : m.Marked A.startStateIndex
  stack : ∀ p ∈ m.currentStates, m.Marked p
  closed : ∀ p, m.Marked p → p ∉ m.currentStates → ∀ r q, A.Edge p r q → m.Marked q

theorem MarkInv.round {i : ℕ} {stack : List ℕ} (hA : A.InRange) (h : MarkInv A m)
    (hm : m.currentStates = i :: stack) :
    MarkInv A ((A.state i).transitions.foldl markTarget ⟨m.reachable, stack⟩) ∧
      ((A.state i).transitions.foldl markTarget ⟨m.reachable, stack⟩).work < m.work := by
  have hts : ∀ t ∈ (A.state i).transitions, t.targetIndex < m.reachable.length := by
    intro t ht
    rw [h.length_eq]
    exact hA.target_lt (r := t.regex) ht
  have hmarks := marks_foldl (m := ⟨m.reachable, stack⟩) hts
  set m' := (A.state i).transitions.foldl markTarget ⟨m.reachable, stack⟩
  have hi : m.Marked i := h.stack i (by simp [hm])
  have hkeep : ∀ p, m.Marked p → m'.Marked p := fun p hp => (hmarks.marked p).mpr (.inl hp)
  refine ⟨⟨hmarks.length_eq.trans h.length_eq, fun p hp => ?_, hkeep _ h.start, fun p hp => ?_,
    fun p hp hps r q he => ?_⟩, ?_⟩
  · rcases (hmarks.marked p).mp hp with hp | ⟨t, ht, rfl⟩
    · exact h.sound p hp
    · exact (h.sound i hi).edge (r := t.regex) ht
  · rcases hmarks.pushed p hp with hp | hp
    · exact hkeep p (h.stack p (by simp only at hp; simp [hm, hp]))
    · exact hp
  · by_cases hpi : p = i
    · subst hpi
      exact (hmarks.marked q).mpr (.inr ⟨⟨r, q⟩, he, rfl⟩)
    · have hpm : m.Marked p := (hmarks.fresh p hp).resolve_right hps
      refine hkeep q (h.closed p hpm ?_ r q he)
      rw [hm]
      intro hmem
      exact hps (hmarks.stack p ((List.mem_cons.mp hmem).resolve_left hpi))
  · refine hmarks.work_le.trans_lt ?_
    unfold Marking.work
    simp only [hm, List.length_cons]
    omega

theorem markReachable_ensures (hA : A.InRange) : (markReachable A).Ensures fun marks =>
    marks.length = A.states.length ∧ ∀ p, marks.getD p false = true ↔ A.Reachable p := by
  refine Comp.loop_ensures_measure (MarkInv A) Marking.work ?_ ?_
  · intro h hm
    rcases h with ⟨marks, stack⟩
    cases stack with
    | nil =>
        refine Comp.ensures_pure.mpr ⟨hm.length_eq, fun p => ⟨hm.sound p, fun hp => ?_⟩⟩
        induction hp with
        | refl => exact hm.start
        | tail _ he ih =>
            obtain ⟨r, he⟩ := he
            exact hm.closed _ ih (by simp) r _ he
    | cons i stack => exact Comp.ensures_pure.mpr (hm.round hA rfl)
  · have hlt : A.startStateIndex < (List.replicate A.states.length false).length := by
      rw [List.length_replicate]
      exact hA.start_lt
    have hmarked : ∀ p, (Marking.mk ((List.replicate A.states.length false).set
        A.startStateIndex true) [A.startStateIndex]).Marked p ↔ p = A.startStateIndex := by
      intro p
      refine (getD_set_true hlt p).trans ?_
      rw [List.getD_eq_getElem?_getD, List.getElem?_replicate]
      split <;> simp
    refine ⟨by simp, fun p hp => ?_, (hmarked _).mpr rfl, fun p hp => ?_, fun p hp hps => ?_⟩
    · rw [(hmarked p).mp hp]
      exact .refl
    · exact (hmarked p).mpr (by simpa using hp)
    · exact absurd ((hmarked p).mp hp) (by simpa using hps)

/-! ## Removing the unmarked states -/

/-- The indices below `n` without a mark, the highest first. -/
def unmarked (marks : List Bool) (n : ℕ) : List ℕ :=
  (List.range n).reverse.filter fun p => !marks.getD p false

theorem removeUnmarked_eq_foldl (marks : List Bool) (n : ℕ) (A : FiniteAutomaton) :
    removeUnmarked marks n A = (unmarked marks n).foldl (fun B s => B.removeState s) A := by
  induction n generalizing A with
  | zero => rfl
  | succ n ih =>
      rw [removeUnmarked, ih, unmarked, unmarked, List.range_succ, List.reverse_append]
      simp only [List.reverse_cons, List.reverse_nil, List.nil_append, List.singleton_append,
        List.filter_cons]
      cases marks.getD n false <;> simp

theorem pairwise_unmarked (marks : List Bool) (n : ℕ) : (unmarked marks n).Pairwise (· > ·) :=
  (List.pairwise_reverse.mpr List.pairwise_lt_range).filter _

theorem mem_unmarked {marks : List Bool} {n p : ℕ} :
    p ∈ unmarked marks n ↔ p < n ∧ marks.getD p false ≠ true := by
  simp [unmarked]

open scoped Classical in
/-- The unreachable states are removed, and the others renumbered. -/
theorem removeUnreachableStates_ensures (hA : A.InRange) :
    (removeUnreachableStates A).Ensures fun B =>
      ∃ f, Induces A B (fun p => A.Reachable p ∨ A.states.length ≤ p) f := by
  refine Comp.ensures_bind.mpr ((markReachable_ensures hA).mono ?_)
  intro marks h
  rcases h with ⟨hlen, hmarks⟩
  refine Comp.ensures_pure.mpr ?_
  rw [removeUnmarked_eq_foldl, hlen]
  obtain ⟨f, hf⟩ := induces_foldl_removeState (pairwise_unmarked marks A.states.length)
    (fun s hs => (mem_unmarked.mp hs).1)
  refine ⟨f, hf.congr fun p => ?_⟩
  rw [mem_unmarked, ne_eq, hmarks]
  by_cases hp : p < A.states.length
  · simp [hp]
  · simp [hp, not_lt.mp hp]

/-! ## The result -/

theorem inRange_removeZeroTransitions (hA : A.InRange) : (removeZeroTransitions A).InRange where
  start_lt := by
    rw [length_removeZeroTransitions]
    exact hA.start_lt
  target_lt h := by
    rw [length_removeZeroTransitions]
    exact hA.target_lt (edge_removeZeroTransitions.mp h).1

/-- What the optimizer keeps of its input, and what it achieves. -/
structure Optimizes (A B : FiniteAutomaton) : Prop where
  inRange : B.InRange
  isSimple : A.isSimple = true → B.isSimple = true
  lettersIn : A.LettersIn → B.LettersIn
  alphabet_eq : B.alphabet = A.alphabet
  epsilonFree : A.hasEpsilonTransitions = false → B.hasEpsilonTransitions = false
  pathLanguage_eq : B.pathLanguage = A.pathLanguage

open scoped Classical in
theorem optimize_ensures (hA : A.InRange) : (optimize A).Ensures (Optimizes A) := by
  set Z := removeZeroTransitions A with hZ
  have hedge : ∀ {p r q}, Z.Edge p r q → A.Edge p r q :=
    fun h => (edge_removeZeroTransitions.mp h).1
  have hZrange : Z.InRange := inRange_removeZeroTransitions hA
  refine (removeUnreachableStates_ensures hZrange).mono ?_
  intro B hex
  rcases hex with ⟨f, hind⟩
  have hf := hind.subgraph
  have hstart : Z.Reachable Z.startStateIndex ∨ Z.states.length ≤ Z.startStateIndex :=
    .inl .refl
  refine ⟨hf.inRange hZrange hstart, fun h => hf.isSimple ?_, fun h => hf.lettersIn ?_,
    hf.alphabet, fun h => ?_, ?_⟩
  · rw [isSimple_iff] at h ⊢
    exact fun p r q he => h p r q (hedge he)
  · exact fun p r q he => h p r q (hedge he)
  · rw [Bool.eq_false_iff, ne_eq, hasEpsilonTransitions_iff] at h ⊢
    intro hex
    rcases hex with ⟨x, y, he⟩
    obtain ⟨p, q, _, _, _, _, heZ⟩ := hf.edge.mp he
    exact h ⟨p, q, hedge heZ⟩
  · rw [pathLanguage, hf.start hstart, hf.residual_eq _ hstart, residual_removeZeroTransitions]
    · rfl
    · rintro p r q (hp | hp) he
      · exact .inl (hp.edge he)
      · exact absurd he.source_lt (not_lt.mpr hp)

/-! ## The part that is left -/

/-- Some path without zero transitions leads from the start state to `p`. -/
def NonzeroReachable (A : FiniteAutomaton) (p : ℕ) : Prop :=
  Relation.ReflTransGen (fun p q => ∃ r, A.Edge p r q ∧ r.isZero = false) A.startStateIndex p

theorem NonzeroReachable.lt (hA : A.InRange) (h : NonzeroReachable A p) :
    p < A.states.length := by
  cases h with
  | refl => exact hA.start_lt
  | tail _ he =>
      obtain ⟨r, he, _⟩ := he
      exact hA.target_lt he

theorem reachable_removeZeroTransitions :
    (removeZeroTransitions A).Reachable p ↔ NonzeroReachable A p := by
  have hstep : (removeZeroTransitions A).Step =
      fun p q => ∃ r, A.Edge p r q ∧ r.isZero = false := by
    funext p q
    simp only [Step, edge_removeZeroTransitions]
  rw [Reachable, hstep, NonzeroReachable]
  rfl

/-- `B` consists of the states of `A` that are reachable over transitions other than zero, in
their order and renumbered by `f`, each with its flag and its transitions other than zero. -/
structure ReachablePart (A B : FiniteAutomaton) (f : ℕ → ℕ) : Prop where
  strictMono : ∀ {p q}, NonzeroReachable A p → NonzeroReachable A q → p < q → f p < f q
  lt : ∀ {p}, NonzeroReachable A p → f p < B.states.length
  surj : ∀ {x}, x < B.states.length → ∃ p, NonzeroReachable A p ∧ f p = x
  isFinal : ∀ {p}, NonzeroReachable A p → (B.state (f p)).isFinal = (A.state p).isFinal
  transitions : ∀ {p}, NonzeroReachable A p → (B.state (f p)).transitions =
    ((A.state p).transitions.filter fun t => !t.regex.isZero).map (retarget f)
  start : B.startStateIndex = f A.startStateIndex

open scoped Classical in
theorem optimize_reachablePart (hA : A.InRange) :
    (optimize A).Ensures fun B => ∃ f, ReachablePart A B f := by
  refine (removeUnreachableStates_ensures (inRange_removeZeroTransitions hA)).mono ?_
  intro B hex
  rcases hex with ⟨f, hf⟩
  have hf : Induces (removeZeroTransitions A) B
      (fun p => NonzeroReachable A p ∨ A.states.length ≤ p) f := hf.congr fun p => by
    rw [reachable_removeZeroTransitions, length_removeZeroTransitions]
  refine ⟨f, ⟨fun hp hq => hf.strictMono (.inl hp) (.inl hq), fun {p} hp => ?_, fun {x} hx => ?_,
    fun {p} hp => ?_, fun {p} hp => ?_, hf.start (.inl .refl)⟩⟩
  · refine hf.lt (.inl hp) ?_
    rw [length_removeZeroTransitions]
    exact hp.lt hA
  · obtain ⟨p, hp, hlt, hpx⟩ := hf.surj hx
    rw [length_removeZeroTransitions] at hlt
    exact ⟨p, hp.resolve_right (not_le.mpr hlt), hpx⟩
  · rw [hf.isFinal (.inl hp) (by rw [length_removeZeroTransitions]; exact hp.lt hA),
      state_removeZeroTransitions]
  · rw [hf.transitions (.inl hp) (by rw [length_removeZeroTransitions]; exact hp.lt hA),
      state_removeZeroTransitions, dropZero_eq_filter]
    congr 1
    refine List.filter_eq_self.mpr fun t ht => decide_eq_true (.inl ?_)
    obtain ⟨ht, hz⟩ := List.mem_filter.mp ht
    exact hp.tail ⟨t.regex, ht, by simpa using hz⟩

theorem ReachablePart.isZero_eq_false {f : ℕ → ℕ} (h : ReachablePart A B f)
    (he : B.Edge p r q) : r.isZero = false := by
  obtain ⟨x, hx, rfl⟩ := h.surj he.source_lt
  rw [Edge] at he
  rw [h.transitions hx] at he
  obtain ⟨t, ht, heq⟩ := List.mem_map.mp he
  cases heq
  simpa using (List.mem_filter.mp ht).2

/-- A path to a kept state stays within the kept states. -/
theorem ReachablePart.allReachable {f : ℕ → ℕ} (h : ReachablePart A B f) : B.AllReachable := by
  intro x hx
  obtain ⟨p, hp, rfl⟩ := h.surj hx
  induction hp with
  | refl =>
      rw [← h.start]
      exact .refl
  | @tail p q hp he ih =>
      obtain ⟨r, he, hz⟩ := he
      refine (ih (h.lt hp)).edge (r := r) ?_
      rw [Edge]
      rw [h.transitions hp]
      exact List.mem_map.mpr ⟨⟨r, q⟩, List.mem_filter.mpr ⟨he, by simpa using hz⟩, rfl⟩

/-! ## In place -/

namespace InPlace

theorem filterMap_eraseZero (ts : List FiniteAutomatonTransition) :
    ts.filterMap eraseZero = dropZero ts := by
  induction ts with
  | nil => rfl
  | cons t ts ih =>
      rw [dropZero, ← ih]
      by_cases hz : t.regex.isZero
      · rw [if_pos hz, List.filterMap_cons_none (by simp [eraseZero, hz])]
      · have hkeep : eraseZero t = some t := if_neg hz
        rw [if_neg hz, List.filterMap_cons_some hkeep]

theorem removeZeroTransitions_ensures (A : FiniteAutomaton) :
    (removeZeroTransitions A).Ensures fun B =>
      B = AutomatonOptimizer.removeZeroTransitions A := by
  refine (InPlace.scanStates_ensures eraseZero A).mono ?_
  intro B hB
  simp only [filterMap_eraseZero] at hB
  exact hB

theorem removeUnmarked_ensures (marks : List Bool) (n : ℕ) (A : FiniteAutomaton) :
    (removeUnmarked marks n A).Ensures fun B =>
      B = AutomatonOptimizer.removeUnmarked marks n A := by
  induction n generalizing A with
  | zero => exact Comp.ensures_pure.mpr rfl
  | succ n ih =>
      rw [removeUnmarked, AutomatonOptimizer.removeUnmarked]
      split
      · exact ih A
      · refine Comp.ensures_bind.mpr ((InPlace.removeState_ensures A n).mono ?_)
        intro B hB
        subst hB
        exact ih _

/-- In place, the optimizer leaves what it leaves list by list. -/
theorem ensures_optimize {Q : FiniteAutomaton → Prop}
    (h : (AutomatonOptimizer.optimize A).Ensures Q) : (optimize A).Ensures Q := by
  refine Comp.ensures_bind.mpr ((removeZeroTransitions_ensures A).mono ?_)
  intro Z hZ
  subst hZ
  refine Comp.ensures_bind.mpr ((Comp.ensures_bind.mp h).mono ?_)
  intro marks hQ
  refine (removeUnmarked_ensures marks _ _).mono ?_
  intro B hB
  rw [hB]
  exact Comp.ensures_pure.mp hQ

end InPlace

/-- The optimizer ends, keeps the path language and leaves the part of the automaton that is
reachable over transitions other than zero. -/
theorem optimize_correct (A : FiniteAutomaton) (hA : A.InRange) :
    (InPlace.optimize A).Ensures fun B =>
      B.pathLanguage = A.pathLanguage ∧ (∀ p r q, B.Edge p r q → r.isZero = false) ∧
        B.AllReachable ∧ ∃ f, ReachablePart A B f := by
  refine InPlace.ensures_optimize (((optimize_ensures hA).and (optimize_reachablePart hA)).mono ?_)
  intro B h
  rcases h with ⟨hopt, f, hpart⟩
  exact ⟨hopt.pathLanguage_eq, fun p r q he => hpart.isZero_eq_false he, hpart.allReachable,
    f, hpart⟩

/-- A cycle of two states behind a zero transition, and a final state that is reached. -/
def zeroToCycle : FiniteAutomaton where
  states := [⟨false, [⟨.zero, 1⟩, ⟨.char 97, 3⟩]⟩, ⟨true, [⟨.char 97, 2⟩]⟩,
    ⟨false, [⟨.char 98, 1⟩]⟩, ⟨true, [⟨.char 98, 3⟩, ⟨.zero, 0⟩]⟩]

theorem optimize_correct_zeroToCycle : (InPlace.optimize zeroToCycle).Ensures fun B =>
    B.pathLanguage = zeroToCycle.pathLanguage ∧ (∀ p r q, B.Edge p r q → r.isZero = false) ∧
      B.AllReachable ∧ ∃ f, ReachablePart zeroToCycle B f :=
  optimize_correct zeroToCycle (by decide)

end FormalLanguages.AutomatonOptimizer
