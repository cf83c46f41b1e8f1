import FormalLanguages.Verification.Collapser.Eliminate
import Mathlib.Data.Nat.Count

/-! # Correctness of the collapser

At most two states are left: the start state and, when it is another one, the final state.
The words stay the same. -/

namespace FormalLanguages.AutomatonCollapser

open FiniteAutomaton

variable {A B C : FiniteAutomaton} {p q f : ℕ} {r : Regex} {l : List ℕ}

/-! ## One final state -/

/-- No two states are final. -/
def OneFinal (A : FiniteAutomaton) : Prop := ∀ p q, A.Final p → A.Final q → p = q

theorem getFinalStateCount_le_one : getFinalStateCount A ≤ 1 ↔ OneFinal A := by
  classical
  have hstates : A.states = (List.range A.states.length).map A.state := by
    apply List.ext_getElem
    · simp
    · intro p hp _
      rw [List.getElem_map, List.getElem_range, state_of_lt hp]
  have hcard : getFinalStateCount A =
      ((Finset.range A.states.length).filter fun p => A.Final p).card := by
    rw [getFinalStateCount]
    conv_lhs => rw [hstates]
    rw [List.countP_map, ← Nat.count_eq_card_filter_range, Nat.count]
    apply List.countP_congr
    intro p _
    rw [decide_eq_true_iff]
    rfl
  rw [hcard, Finset.card_le_one]
  simp only [Finset.mem_filter, Finset.mem_range]
  constructor
  · intro h p q hp hq
    exact h p ⟨hp.lt, hp⟩ q ⟨hq.lt, hq⟩
  · intro h p hp q hq
    exact h p q hp.2 hq.2

theorem redirectFinal_spec (hp : p < B.states.length) :
    (redirectFinal f B p).states.length = B.states.length ∧
    (redirectFinal f B p).startStateIndex = B.startStateIndex ∧
    (redirectFinal f B p).alphabet = B.alphabet ∧
    (∀ q, (redirectFinal f B p).Final q ↔ B.Final q ∧ (q = p → q = f)) ∧
    ∀ x r y, (redirectFinal f B p).Edge x r y ↔
      B.Edge x r y ∨ (x = p ∧ p ≠ f ∧ B.Final p ∧ r = Regex.empty ∧ y = f) := by
  rw [redirectFinal]
  cases hfinal : (B.state p).isFinal with
  | false =>
      have hnot : ¬B.Final p := by simp [Final, hfinal]
      refine ⟨rfl, rfl, rfl, ?_, ?_⟩
      · intro q
        constructor
        · intro hq
          refine ⟨hq, ?_⟩
          intro hqp
          exact absurd (hqp ▸ hq) hnot
        · exact fun h => h.1
      · simp [hnot]
  | true =>
      have hyes : B.Final p := hfinal
      by_cases hpf : p = f
      · subst hpf
        simp
      · have hlen : (B.makeStateFinal p false).states.length = B.states.length :=
          length_makeStateFinal
        simp only [Bool.not_true, Bool.false_eq_true, if_false, hpf]
        refine ⟨length_addTransition.trans hlen, rfl, ?_, ?_, ?_⟩
        · rw [alphabet_addTransition]
          · rfl
          · intro c hc
            exact absurd hc Regex.notMem_letters_empty
        · intro q
          rw [final_addTransition, final_makeStateFinal hp]
          by_cases hqp : q = p
          · simp [hqp, hpf]
          · simp [hqp]
        · intro x r y
          rw [edge_addTransition (by rwa [hlen]), edge_makeStateFinal]
          simp [hyes, hpf]

/-- Every final state of the list but `f` is redirected to `f`. -/
theorem foldl_redirectFinal (hl : ∀ p ∈ l, p < B.states.length) :
    let C := l.foldl (redirectFinal f) B
    C.states.length = B.states.length ∧ C.startStateIndex = B.startStateIndex ∧
    C.alphabet = B.alphabet ∧ (∀ q, C.Final q ↔ B.Final q ∧ (q ∈ l → q = f)) ∧
    ∀ x r y, C.Edge x r y ↔
      B.Edge x r y ∨ (x ∈ l ∧ x ≠ f ∧ B.Final x ∧ r = Regex.empty ∧ y = f) := by
  induction l generalizing B with
  | nil => simp
  | cons p l ih =>
      obtain ⟨hlen, hstart, halpha, hfinal, hedge⟩ :=
        redirectFinal_spec (f := f) (hl p (by simp))
      obtain ⟨hlen', hstart', halpha', hfinal', hedge'⟩ := ih (B := redirectFinal f B p) (by
        intro q hq
        rw [hlen]
        exact hl q (List.mem_cons_of_mem _ hq))
      rw [List.foldl_cons]
      refine ⟨hlen'.trans hlen, hstart'.trans hstart, halpha'.trans halpha, ?_, ?_⟩
      · intro q
        rw [hfinal', hfinal, List.mem_cons, or_imp, and_assoc]
      · intro x r y
        rw [hedge', hedge, hfinal, List.mem_cons]
        by_cases hxp : x = p
        · subst hxp
          by_cases hxf : x = f
          · simp [hxf]
          · simp [hxf]
        · simp [hxp]

/-- One more state, which is the only final one and which the final states of `A` lead to. -/
structure Redirected (A B : FiniteAutomaton) : Prop where
  length_eq : B.states.length = A.states.length + 1
  start_eq : B.startStateIndex = A.startStateIndex
  alphabet_eq : B.alphabet = A.alphabet
  final : ∀ {p}, B.Final p ↔ p = A.states.length
  edge : ∀ {p r q}, B.Edge p r q ↔ A.Edge p r q ∨
    (A.Final p ∧ r = Regex.empty ∧ q = A.states.length)

theorem redirected (A : FiniteAutomaton) :
    Redirected A ((List.range (A.addState true).1.states.length).foldl
      (redirectFinal A.states.length) (A.addState true).1) := by
  obtain ⟨hlen, hstart, halpha, hfinal, hedge⟩ := foldl_redirectFinal
    (B := (A.addState true).1) (f := A.states.length)
    (l := List.range (A.addState true).1.states.length) (fun p hp => List.mem_range.mp hp)
  refine ⟨hlen.trans length_addState, hstart, halpha, ?_, ?_⟩
  · intro p
    rw [hfinal, final_addState, List.mem_range, length_addState]
    constructor
    · intro h
      obtain ⟨hp | hp, hlt⟩ := h
      · exact hlt (by have := hp.lt; omega)
      · exact hp.1
    · intro h
      exact ⟨.inr ⟨h, rfl⟩, fun _ => h⟩
  · intro p r q
    rw [hedge, edge_addState, List.mem_range, length_addState, final_addState]
    apply or_congr_right
    constructor
    · intro h
      obtain ⟨_, hne, hp | hp, hr, hq⟩ := h
      · exact ⟨hp, hr, hq⟩
      · exact absurd hp.1 hne
    · intro h
      obtain ⟨hp, hr, hq⟩ := h
      have hlt := hp.lt
      exact ⟨by omega, hlt.ne, .inl hp, hr, hq⟩

theorem Redirected.residual_eq (h : Redirected A B) (hA : A.InRange) (hp : p < A.states.length) :
    B.residual p = A.residual p := by
  apply le_antisymm
  · -- the new state spells the empty word
    have hle : B.residual p ≤ if p = A.states.length then 1 else A.residual p := by
      apply FiniteAutomaton.residual_le
        (X := fun p => if p = A.states.length then 1 else A.residual p)
      · intro p r q he
        rcases h.edge.mp he with he | ⟨hp, rfl, rfl⟩
        · rw [if_neg he.source_lt.ne, if_neg (hA.target_lt he).ne]
          exact edge_mul_residual_le he
        · rw [if_pos rfl, if_neg hp.lt.ne, Regex.language_empty, one_mul]
          exact one_le_residual hp
      · intro p hf
        rw [if_pos (h.final.mp hf)]
    rwa [if_neg hp.ne] at hle
  · apply FiniteAutomaton.residual_le
    · intro p r q he
      exact edge_mul_residual_le (h.edge.mpr (.inl he))
    · intro p hf
      exact (one_le_residual (h.final.mpr rfl)).trans
        (residual_le_of_empty (h.edge.mpr (.inr ⟨hf, rfl, rfl⟩)))

theorem Redirected.tidy (h : Redirected A B) (hA : A.Tidy) : B.Tidy := by
  refine ⟨⟨?_, ?_⟩, ?_⟩
  · have := hA.inRange.start_lt
    rw [h.start_eq, h.length_eq]
    omega
  · intro p r q he
    rw [h.length_eq]
    rcases h.edge.mp he with he | ⟨_, _, rfl⟩
    · have := hA.inRange.target_lt he
      omega
    · omega
  · intro p r q he
    rcases h.edge.mp he with he | ⟨_, rfl, _⟩
    · exact hA.nonzero he
    · rfl

theorem Redirected.keepsAlphabet (h : Redirected A B) : KeepsAlphabet A B := by
  intro hletters
  refine ⟨?_, h.alphabet_eq⟩
  intro p r q he c hc
  rw [h.alphabet_eq]
  rcases h.edge.mp he with he | ⟨_, rfl, _⟩
  · exact hletters p r q he c hc
  · exact absurd hc Regex.notMem_letters_empty

/-- One final state is left, which is the start state only where it was the only one. -/
structure OneOutput (A B : FiniteAutomaton) : Prop where
  tidy : B.Tidy
  keepsAlphabet : KeepsAlphabet A B
  oneFinal : OneFinal B
  pathLanguage_eq : B.pathLanguage = A.pathLanguage
  exists_final : (∃ p, B.Final p) ↔ ∃ p, A.Final p
  start_final : B.Final B.startStateIndex ↔
    A.Final A.startStateIndex ∧ ∀ p, A.Final p → p = A.startStateIndex

/-- Where there are several final states, the new one takes their place. -/
theorem Redirected.oneOutput (h : Redirected A B) (hA : A.Tidy) (hmany : ¬OneFinal A) :
    OneOutput A B := by
  refine ⟨h.tidy hA, h.keepsAlphabet, ?_, ?_, ?_, ?_⟩
  · intro p q hp hq
    rw [h.final.mp hp, h.final.mp hq]
  · rw [pathLanguage, h.start_eq]
    exact h.residual_eq hA.inRange hA.inRange.start_lt
  · constructor
    · intro _
      by_contra hnone
      push Not at hnone
      exact hmany fun p q hp _ => absurd hp (hnone p)
    · intro _
      exact ⟨_, h.final.mpr rfl⟩
  · rw [h.final, h.start_eq]
    constructor
    · intro heq
      exact absurd heq hA.inRange.start_lt.ne
    · intro hone
      exact absurd (fun p q hp hq => (hone.2 p hp).trans (hone.2 q hq).symm) hmany

theorem oneOutput (hA : A.Tidy) : OneOutput A (ensureOneOutput A) := by
  rw [ensureOneOutput]
  by_cases hcount : getFinalStateCount A ≤ 1
  · rw [if_pos hcount]
    have hone := getFinalStateCount_le_one.mp hcount
    refine ⟨hA, .refl A, hone, rfl, Iff.rfl, ?_⟩
    constructor
    · intro h
      exact ⟨h, fun p hp => hone _ _ hp h⟩
    · exact fun h => h.1
  · rw [if_neg hcount]
    exact (redirected A).oneOutput hA fun h => hcount (getFinalStateCount_le_one.mpr h)

/-! ## All rounds -/

theorem OneOutput.relabels (h : OneOutput A B) (hrel : Relabels B C) (htidy : C.Tidy) :
    OneOutput A C where
  tidy := htidy
  keepsAlphabet := h.keepsAlphabet.trans hrel.keepsAlphabet
  oneFinal p q hp hq := h.oneFinal p q ((hrel.final_iff p).mp hp) ((hrel.final_iff q).mp hq)
  pathLanguage_eq := hrel.pathLanguage_eq.trans h.pathLanguage_eq
  exists_final := (exists_congr hrel.final_iff).trans h.exists_final
  start_final := by
    rw [hrel.start_eq, hrel.final_iff]
    exact h.start_final

theorem OneOutput.eliminated {s : ℕ} (h : OneOutput A B) (hC : Eliminated B C s)
    (hfinal : ¬B.Final s) (hstart : B.startStateIndex ≠ s) : OneOutput A C where
  tidy := hC.tidy
  keepsAlphabet := h.keepsAlphabet.trans hC.keepsAlphabet
  oneFinal x y hx hy := by
    obtain ⟨p, _, rfl, hp⟩ := (hC.final_iff x).mp hx
    obtain ⟨q, _, rfl, hq⟩ := (hC.final_iff y).mp hy
    rw [h.oneFinal p q hp hq]
  pathLanguage_eq := by
    rw [pathLanguage, hC.start_eq, hC.residual_eq _ hstart]
    exact h.pathLanguage_eq
  exists_final := by
    rw [← h.exists_final]
    constructor
    · intro hex
      obtain ⟨x, hx⟩ := hex
      obtain ⟨p, _, _, hp⟩ := (hC.final_iff x).mp hx
      exact ⟨p, hp⟩
    · intro hex
      obtain ⟨p, hp⟩ := hex
      have hps : p ≠ s := fun heq => hfinal (heq ▸ hp)
      exact ⟨skip s p, (hC.final_iff _).mpr ⟨p, hps, rfl, hp⟩⟩
  start_final := by
    rw [← h.start_final, hC.start_eq, hC.final_iff]
    constructor
    · intro hex
      obtain ⟨p, hps, heq, hp⟩ := hex
      rwa [skip_inj hps hstart heq] at hp
    · intro hf
      exact ⟨_, hstart, rfl, hf⟩

/-- The automaton the collapser leaves. -/
structure Collapsed (A B : FiniteAutomaton) : Prop extends OneOutput A B where
  noParallel : ∀ i, B.NoParallel i
  final_or_start : ∀ p < B.states.length, B.Final p ∨ p = B.startStateIndex

theorem pickStateToCollapse_eq_none (h : pickStateToCollapse B = none) (hp : p < B.states.length) :
    B.Final p ∨ p = B.startStateIndex := by
  have hnot := List.find?_eq_none.mp h p (List.mem_range.mpr hp)
  by_contra hno
  rw [not_or] at hno
  apply hnot
  simp only [Bool.and_eq_true, Bool.not_eq_true', bne_iff_ne, ne_eq]
  exact ⟨Bool.eq_false_iff.mpr hno.1, hno.2⟩

theorem pickStateToCollapse_eq_some (h : pickStateToCollapse B = some p) :
    p < B.states.length ∧ ¬B.Final p ∧ B.startStateIndex ≠ p := by
  have hp := List.find?_some h
  simp only [Bool.and_eq_true, Bool.not_eq_true', bne_iff_ne, ne_eq] at hp
  refine ⟨List.mem_range.mp (List.mem_of_find?_eq_some h), ?_, fun heq => hp.2 heq.symm⟩
  rw [Final]
  rw [hp.1]
  exact Bool.false_ne_true

/-- On a deterministic automaton the collapser ends. -/
theorem collapse_ensures (hA : A.Tidy) (hdet : A.isDeterministic = true) :
    (collapse A).Ensures (Collapsed A) := by
  apply Comp.ensures_bind.mpr
  apply Comp.ensures_assert.mpr
  refine ⟨hdet, ?_⟩
  have hone := oneOutput hA
  apply Comp.ensures_bind.mpr
  apply (foldlM_collapse_ensures hone.tidy (List.range (ensureOneOutput A).states.length)).mono
  intro B hB
  obtain ⟨hrel, htidy, hparallel⟩ := hB
  apply Comp.loop_ensures_measure (fun C => OneOutput A C ∧ ∀ i, C.NoParallel i)
    (fun C => C.states.length)
  · intro C hC
    obtain ⟨hC, hparallel⟩ := hC
    cases hpick : pickStateToCollapse C with
    | none =>
        exact Comp.ensures_pure.mpr ⟨hC, hparallel, fun p => pickStateToCollapse_eq_none hpick⟩
    | some s =>
        obtain ⟨hs, hfinal, hstart⟩ := pickStateToCollapse_eq_some hpick
        apply Comp.ensures_bind.mpr
        apply (collapseState_ensures hC.tidy hparallel hs hfinal hstart).mono
        intro D hD
        apply Comp.ensures_pure.mpr
        refine ⟨⟨hC.eliminated hD hfinal hstart, hD.noParallel⟩, ?_⟩
        rw [hD.length_eq]
        omega
  · refine ⟨hone.relabels hrel htidy, ?_⟩
    intro i
    apply hparallel
    by_cases hi : i < (ensureOneOutput A).states.length
    · exact .inl (List.mem_range.mpr hi)
    · right
      rw [NoParallel]
      rw [state_of_le (not_lt.mp hi)]
      exact List.nodup_nil

theorem tidy_of_isDeterministic (hA : A.InRange) (hdet : A.isDeterministic = true) : A.Tidy := by
  refine ⟨hA, fun he => ?_⟩
  obtain ⟨c, rfl⟩ := isSimple_iff.mp (isDeterministic_iff.mp hdet).1 _ _ _ he
  rfl

/-- Collapsing ends and keeps the words of the paths. At most the start state and one final
state are left, with at most one transition between two states, and none of them zero. -/
theorem collapse_correct (A : FiniteAutomaton) (hA : A.InRange)
    (hdet : A.isDeterministic = true) :
    (collapse A).Ensures fun B =>
      B.InRange ∧ B.pathLanguage = A.pathLanguage ∧
      (∀ p < B.states.length, p = B.startStateIndex ∨ B.Final p) ∧
      (∀ p q, B.Final p → B.Final q → p = q) ∧ B.states.length ≤ 2 ∧
      (∀ i, B.NoParallel i) ∧ (∀ p r q, B.Edge p r q → r.isZero = false) ∧
      (B.states.length = 2 → (B.state 0).isFinal ≠ (B.state 1).isFinal ∧
        (B.state 0).isFinal ≠ (B.startStateIndex == 0)) := by
  apply (collapse_ensures (tidy_of_isDeterministic hA hdet) hdet).mono
  intro B hB
  have hor : ∀ p < B.states.length, p = B.startStateIndex ∨ B.Final p :=
    fun p hp => (hB.final_or_start p hp).symm
  have hstart := hB.tidy.inRange.start_lt
  -- of three states two would be final
  have hlen : B.states.length ≤ 2 := by
    by_contra hlen
    have h0 := hor 0 (by omega)
    have h1 := hor 1 (by omega)
    have h2 := hor 2 (by omega)
    have hne : ∀ {p q}, p ≠ q → ¬(B.Final p ∧ B.Final q) :=
      fun hpq h => hpq (hB.oneFinal _ _ h.1 h.2)
    have h01 := hne (p := 0) (q := 1) (by decide)
    have h02 := hne (p := 0) (q := 2) (by decide)
    have h12 := hne (p := 1) (q := 2) (by decide)
    grind
  refine ⟨hB.tidy.inRange, hB.pathLanguage_eq, hor, hB.oneFinal, hlen, hB.noParallel,
    fun p r q he => hB.tidy.nonzero he, ?_⟩
  intro htwo
  have h0 := hor 0 (by omega)
  have h1 := hor 1 (by omega)
  have hnot : ¬(B.Final 0 ∧ B.Final 1) := fun h => absurd (hB.oneFinal 0 1 h.1 h.2) (by decide)
  rcases (by omega : B.startStateIndex = 0 ∨ B.startStateIndex = 1) with hs | hs
  · have hf1 : B.Final 1 := h1.resolve_left (by omega)
    have hf0 : ¬B.Final 0 := fun h => hnot ⟨h, hf1⟩
    rw [Final] at hf0 hf1
    simp [hf0, hf1, hs]
  · have hf0 : B.Final 0 := h0.resolve_left (by omega)
    have hf1 : ¬B.Final 1 := fun h => hnot ⟨hf0, h⟩
    rw [Final] at hf0 hf1
    simp [hf0, hf1, hs]

/-- Three states on a cycle for the letter `a`, the second and the third one final. -/
def cycle : FiniteAutomaton where
  alphabet := OrderedSet.insert 97 ∅
  states := [⟨false, [⟨.char 97, 1⟩]⟩, ⟨true, [⟨.char 97, 2⟩]⟩, ⟨true, [⟨.char 97, 0⟩]⟩]

theorem collapse_correct_cycle :
    (collapse cycle).Ensures fun B =>
      B.InRange ∧ B.pathLanguage = cycle.pathLanguage ∧
      (∀ p < B.states.length, p = B.startStateIndex ∨ B.Final p) ∧
      (∀ p q, B.Final p → B.Final q → p = q) ∧ B.states.length ≤ 2 ∧
      (∀ i, B.NoParallel i) ∧ (∀ p r q, B.Edge p r q → r.isZero = false) ∧
      (B.states.length = 2 → (B.state 0).isFinal ≠ (B.state 1).isFinal ∧
        (B.state 0).isFinal ≠ (B.startStateIndex == 0)) :=
  collapse_correct cycle (by decide) (by decide)

end FormalLanguages.AutomatonCollapser
