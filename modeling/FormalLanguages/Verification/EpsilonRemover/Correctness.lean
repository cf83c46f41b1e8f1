import FormalLanguages.Verification.Automaton.Accepts
import FormalLanguages.Verification.EpsilonRemover.Termination

/-! # What the epsilon remover achieves

The scan always ends in an automaton without epsilon transitions. When the start state is
on no epsilon cycle it loses no word, and it adds none exactly when every replacement of the
run is harmless. -/

namespace FormalLanguages.EpsilonRemover

open FiniteAutomaton

variable {A B : FiniteAutomaton} {S : List ℕ} {i j p q t x y : ℕ} {r : Regex} {s s' : Scan}
  {img : ℕ → ℕ}

/-! ## The start state stays off the epsilon cycles -/

def StartOffCycle (A : FiniteAutomaton) : Prop :=
  ¬Relation.TransGen (EpsEdge A) A.startStateIndex A.startStateIndex

theorem StartOffCycle.notMem (h : StartOffCycle A) (hS : EpsCycle A S) : A.startStateIndex ∉ S :=
  fun hm => h (hS.reach hm hm)

/-- An epsilon path of the quotient comes from one of the automaton. -/
theorem MergedInto.transGen_lift (h : MergedInto A B S img) (hA : A.InRange) (hS : EpsCycle A S)
    (hxy : Relation.TransGen (EpsEdge B) x y) :
    ∃ p q, img p = x ∧ img q = y ∧ q < A.states.length ∧ Relation.TransGen (EpsEdge A) p q := by
  induction hxy with
  | single he =>
      obtain ⟨p, q, heA, hp, hq, _⟩ := h.edge.mp he
      exact ⟨p, q, hp, hq, hA.target_lt heA, .single heA⟩
  | tail _ he ih =>
      obtain ⟨p, q, hp, hq, hqlt, hpq⟩ := ih
      obtain ⟨p', q', heA, hp', hq', _⟩ := h.edge.mp he
      refine ⟨p, q', hp, hq', hA.target_lt heA, ?_⟩
      rcases h.inj hqlt heA.source_lt (hq.trans hp'.symm) with rfl | ⟨hqS, hpS⟩
      · exact hpq.tail heA
      · exact (hpq.trans (hS.reach hqS hpS)).tail heA

theorem MergedInto.startOffCycle (h : MergedInto A B S img) (hA : A.InRange) (hS : EpsCycle A S)
    (hstart : StartOffCycle A) : StartOffCycle B := by
  intro hcycle
  rw [h.start_eq (hstart.notMem hS)] at hcycle
  obtain ⟨p, q, hp, hq, hqlt, hpq⟩ := h.transGen_lift hA hS hcycle
  have hplt : p < A.states.length := by
    obtain ⟨_, he, _⟩ := Relation.TransGen.head'_iff.mp hpq
    exact he.source_lt
  have hstartS := hstart.notMem hS
  have hpstart : p = A.startStateIndex :=
    (h.inj hplt hA.start_lt hp).resolve_right fun hm => hstartS hm.2
  have hqstart : q = A.startStateIndex :=
    (h.inj hqlt hA.start_lt hq).resolve_right fun hm => hstartS hm.2
  rw [hpstart, hqstart] at hpq
  exact hstart hpq

theorem Replaced.startOffCycle (h : Replaced A B i j t) (hacc : EpsAcc A i)
    (hj : (A.state i).transitions[j]? = some ⟨Regex.empty, t⟩) (hstart : StartOffCycle A) :
    StartOffCycle B := by
  intro hcycle
  rw [h.start_eq] at hcycle
  refine hstart (Relation.TransGen.closed (fun p q he => ?_) _ _ hcycle)
  rcases h.epsEdge_cases hacc hj he with he | ⟨rfl, he, _⟩
  · exact .single he
  · exact .head (edge_of_getElem? hj) (.single he)

theorem ScanCase.startOffCycle (h : ScanCase s (.inl s')) (hA : s.automaton.InRange)
    (hstart : StartOffCycle s.automaton) : StartOffCycle s'.automaton := by
  cases h with
  | endOfState => exact hstart
  | letter => exact hstart
  | merged hS hB => exact hB.startOffCycle hA hS hstart
  | replaced hj _ hacc hB => exact hB.startOffCycle hacc hj hstart

/-! ## The path language during the run -/

/-- When the start state is merged, the first state that is not takes its place. It has to
spell the same words. -/
def StartReplaced (A : FiniteAutomaton) (S : List ℕ) : Prop :=
  A.startStateIndex ∈ S → ∀ p < A.states.length, p ∉ S → (∀ q < p, q ∈ S) →
    A.residual p = A.pathLanguage

/-- Merging states that spell the same words keeps the path language exactly when the start
state is kept or well replaced. -/
theorem MergedInto.pathLanguage_eq_iff (h : MergedInto A B S img) (hA : A.InRange)
    (hS : ∀ p ∈ S, ∀ q ∈ S, A.residual p ≤ A.residual q) :
    B.pathLanguage = A.pathLanguage ↔ StartReplaced A S := by
  by_cases hstart : A.startStateIndex ∈ S
  · have hzero := h.start_of_mem hstart
    rw [pathLanguage, hzero]
    by_cases hall : ∀ p < A.states.length, p ∈ S
    · -- nothing but the merged state is left
      obtain ⟨p, hp, hp0⟩ := h.surj (hzero ▸ h.start_lt hA.start_lt)
      rw [← hp0, ← h.img_mem hstart (hall p hp), h.residual_eq hA hS hA.start_lt]
      exact iff_of_true rfl fun _ p hp hpS => absurd (hall p hp) hpS
    · push Not at hall
      classical
      obtain ⟨hp, hpS⟩ := Nat.find_spec hall
      set p := Nat.find hall
      have hleast : ∀ q < p, q ∈ S := by
        intro q hq
        by_contra hqS
        exact Nat.find_min hall hq ⟨hq.trans hp, hqS⟩
      rw [← h.img_zero hp hpS hleast, h.residual_eq hA hS hp]
      constructor
      · intro heq _ q hq hqS hleast'
        have hqp : q = p := by
          rcases lt_trichotomy q p with hlt | heq | hlt
          · exact absurd (hleast q hlt) hqS
          · exact heq
          · exact absurd (hleast' p hlt) hpS
        rwa [hqp]
      · exact fun hreplaced => hreplaced hstart p hp hpS hleast
  · rw [pathLanguage, h.start_eq hstart, h.residual_eq hA hS hA.start_lt]
    exact iff_of_true rfl fun hm => absurd hm hstart

/-- Merging an epsilon cycle keeps the path language. -/
theorem MergedInto.pathLanguage_eq (h : MergedInto A B S img) (hA : A.InRange)
    (hS : EpsCycle A S) (hstart : A.startStateIndex ∉ S) : B.pathLanguage = A.pathLanguage := by
  refine (h.pathLanguage_eq_iff hA fun p hp q hq => ?_).mpr fun hm => absurd hm hstart
  exact residual_le_of_reach (hS.reach hq hp).to_reflTransGen

/-- Merging the states of an epsilon cycle ends. It keeps the path language exactly when the
start state is off the cycle, or the first state off the cycle, if any, spells the same
words. -/
theorem mergeStates_correct_iff (A : FiniteAutomaton) (S : List ℕ) (hA : A.InRange)
    (hS : ForwardCycle A S) :
    (mergeStates A S).Ensures fun B => B.pathLanguage = A.pathLanguage ↔
      (A.startStateIndex ∈ S → ∀ p < A.states.length, p ∉ S → (∀ q < p, q ∈ S) →
        A.residual p = A.pathLanguage) := by
  apply (mergeStates_ensures (fun _ hs => hS.lt hs) hS.nodup hS.ne_nil).mono
  intro B hB
  obtain ⟨img, hB⟩ := hB
  exact hB.pathLanguage_eq_iff hA fun p hp q hq => hS.residual_le hp hq

/-- The start state `1` is final and has an epsilon self-loop; state `0` accepts nothing. -/
def startOnCycle : FiniteAutomaton where
  states := [⟨false, []⟩, ⟨true, [⟨Regex.empty, 1⟩]⟩]
  startStateIndex := 1

theorem forwardCycle_startOnCycle : ForwardCycle startOnCycle [1] where
  ne_nil := by simp
  nodup := by simp
  chain := .singleton 1
  close := by simp [EpsEdge, Edge, state, startOnCycle]

theorem mergeStates_correct_iff_startOnCycle :
    (mergeStates startOnCycle [1]).Ensures fun B =>
      B.pathLanguage = startOnCycle.pathLanguage ↔
        (startOnCycle.startStateIndex ∈ [1] → ∀ p < startOnCycle.states.length, p ∉ [1] →
          (∀ q < p, q ∈ [1]) → startOnCycle.residual p = startOnCycle.pathLanguage) :=
  mergeStates_correct_iff startOnCycle [1] (by decide) forwardCycle_startOnCycle

/-- Merging the start state alone loses the empty word. -/
theorem mergeStates_startOnCycle :
    startOnCycle.InRange ∧ ForwardCycle startOnCycle [1] ∧
      (mergeStates startOnCycle [1]).Ensures fun B =>
        B.pathLanguage ≠ startOnCycle.pathLanguage := by
  refine ⟨by decide, forwardCycle_startOnCycle, ?_⟩
  have hresult : (mergeStates startOnCycle [1]).Returns
      { states := [⟨false, []⟩, ⟨true, []⟩] } := ⟨3, rfl⟩
  refine ⟨_, hresult, ?_⟩
  intro heq
  have hfinal : startOnCycle.Final startOnCycle.startStateIndex := rfl
  have hletter : LetterLabels { states := [⟨false, []⟩, ⟨true, []⟩] } :=
    letterLabels_iff.mpr ⟨rfl, rfl⟩
  have hmem : [] ∈ startOnCycle.pathLanguage := one_le_residual hfinal rfl
  rw [← heq] at hmem
  exact Bool.false_ne_true (hletter.nil_mem_residual.mp hmem)

theorem Replaced.pathLanguage_le (h : Replaced A B i j t) (hit : i ≠ t)
    (hj : (A.state i).transitions[j]? = some ⟨Regex.empty, t⟩) :
    A.pathLanguage ≤ B.pathLanguage := by
  rw [pathLanguage, pathLanguage, h.start_eq]
  exact h.residual_le hit hj _

theorem ScanCase.pathLanguage_le (h : ScanCase s (.inl s')) (hA : s.automaton.InRange)
    (hstart : StartOffCycle s.automaton) :
    s.automaton.pathLanguage ≤ s'.automaton.pathLanguage := by
  cases h with
  | endOfState => exact le_rfl
  | letter => exact le_rfl
  | merged hS hB => exact (hB.pathLanguage_eq hA hS (hstart.notMem hS)).ge
  | replaced hj _ hacc hB => exact hB.pathLanguage_le (hacc.ne (edge_of_getElem? hj)) hj

theorem ScanCase.exists_sublist (h : ScanCase s (.inl s')) (hA : s.automaton.InRange)
    (hstart : StartOffCycle s.automaton) {w : List CChar} (hw : w ∈ s'.automaton.pathLanguage) :
    ∃ u ∈ s.automaton.pathLanguage, u.Sublist w := by
  cases h with
  | endOfState => exact ⟨w, hw, List.Sublist.refl w⟩
  | letter => exact ⟨w, hw, List.Sublist.refl w⟩
  | merged hS hB =>
      rw [hB.pathLanguage_eq hA hS (hstart.notMem hS)] at hw
      exact ⟨w, hw, List.Sublist.refl w⟩
  | replaced hj _ _ hB => exact hB.exists_sublist hj hw

/-! ## What the scan has dealt with -/

/-- No epsilon transition is left in the states before `i` and among the first `j`
transitions of state `i`. -/
structure Scanned (s : Scan) : Prop where
  states : ∀ p < s.i, ∀ q, ¬EpsEdge s.automaton p q
  transitions : ∀ k < s.j, ∀ q,
    (s.automaton.state s.i).transitions[k]? ≠ some ⟨Regex.empty, q⟩

theorem Scanned.next (hs : Scanned s) (h : ScanCase s (.inl s')) : Scanned s' := by
  cases h with
  | endOfState _ hj =>
      refine ⟨fun p hp q he => ?_, fun k hk => absurd hk (Nat.not_lt_zero k)⟩
      by_cases hpi : p = s.i
      · subst hpi
        obtain ⟨k, hk⟩ := List.mem_iff_getElem?.mp he
        have hklt := (List.getElem?_eq_some_iff.mp hk).1
        have hjle := List.getElem?_eq_none_iff.mp hj
        exact hs.transitions k (hklt.trans_le hjle) q hk
      · simp only at hp
        exact hs.states p (by omega) q he
  | letter hj hr =>
      refine ⟨hs.states, fun k hk q hkq => ?_⟩
      simp only at hk hkq
      by_cases hkj : k = s.j
      · subst hkj
        rw [hj] at hkq
        cases hkq
        exact hr rfl
      · exact hs.transitions k (by omega) q hkq
  | merged _ _ =>
      exact ⟨fun p hp => absurd hp (Nat.not_lt_zero p), fun k hk => absurd hk (Nat.not_lt_zero k)⟩
  | replaced hj _ _ hB =>
      refine ⟨fun p hp q he => ?_, fun k hk q hkq => ?_⟩
      · simp only at hp he
        refine hs.states p hp q ?_
        rw [EpsEdge, Edge] at he ⊢
        rwa [hB.state hp.ne] at he
      · simp only at hk hkq
        refine hs.transitions k hk q ?_
        have hjlt := (List.getElem?_eq_some_iff.mp hj).1
        rw [hB.transitions, List.getElem?_append_left, List.getElem?_eraseIdx_of_lt hk] at hkq
        · exact hkq
        · rw [List.length_eraseIdx_of_lt hjlt]
          omega

/-! ## The result -/

/-- What the remover keeps of its input. -/
structure Removes (A B : FiniteAutomaton) : Prop where
  inRange : B.InRange
  isSimple : A.isSimple = true → B.isSimple = true
  lettersIn : A.LettersIn → B.LettersIn ∧ B.alphabet = A.alphabet
  pathLanguage_le : StartOffCycle A → StartOffCycle B ∧ A.pathLanguage ≤ B.pathLanguage
  exists_sublist : StartOffCycle A → ∀ w ∈ B.pathLanguage, ∃ u ∈ A.pathLanguage, u.Sublist w

theorem Removes.next (h : Removes A s.automaton) (hs : ScanCase s (.inl s')) :
    Removes A s'.automaton where
  inRange := hs.inRange h.inRange
  isSimple hA := by
    cases hs with
    | endOfState => exact h.isSimple hA
    | letter => exact h.isSimple hA
    | merged _ hB => exact hB.isSimple (h.isSimple hA)
    | replaced _ _ _ hB => exact hB.isSimple (h.isSimple hA)
  lettersIn hA := by
    obtain ⟨hl, halpha⟩ := h.lettersIn hA
    cases hs with
    | endOfState => exact ⟨hl, halpha⟩
    | letter => exact ⟨hl, halpha⟩
    | merged _ hB => exact ⟨hB.lettersIn hl, (hB.alphabet_eq hl).trans halpha⟩
    | replaced _ _ _ hB => exact ⟨hB.lettersIn hl, (hB.alphabet_eq hl).trans halpha⟩
  pathLanguage_le hA := by
    obtain ⟨hstart, hle⟩ := h.pathLanguage_le hA
    exact ⟨hs.startOffCycle h.inRange hstart, hle.trans (hs.pathLanguage_le h.inRange hstart)⟩
  exists_sublist hA w hw := by
    obtain ⟨v, hv, hvw⟩ := hs.exists_sublist h.inRange (h.pathLanguage_le hA).1 hw
    obtain ⟨u, hu, huv⟩ := h.exists_sublist hA v hv
    exact ⟨u, hu, huv.trans hvw⟩

theorem Removes.refl (hA : A.InRange) : Removes A A :=
  ⟨hA, id, fun h => ⟨h, rfl⟩, fun h => ⟨h, le_rfl⟩, fun _ w hw => ⟨w, hw, List.Sublist.refl w⟩⟩

theorem simplify_ensures (hA : A.InRange) :
    (simplify A).Ensures fun B => Removes A B ∧ B.hasEpsilonTransitions = false := by
  refine Comp.loop_ensures (fun s => Removes A s.automaton ∧ Scanned s) ?_
    (scanAcc _ A hA (Nat.lt_succ_self _) 0 0)
    ⟨.refl hA, fun p hp => absurd hp (Nat.not_lt_zero p),
      fun k hk => absurd hk (Nat.not_lt_zero k)⟩
  intro s h
  rcases h with ⟨hs, hscanned⟩
  refine (scanStep_ensures hs.inRange).mono ?_
  rintro (s' | B) hcase
  · exact ⟨hs.next hcase, hscanned.next hcase⟩
  · cases hcase with
    | finished hi =>
        refine ⟨hs, ?_⟩
        rw [Bool.eq_false_iff, ne_eq, hasEpsilonTransitions_iff]
        intro h
        rcases h with ⟨p, q, he⟩
        exact hscanned.states p (he.source_lt.trans_le hi) q he

/-- The remover ends, and its result is a well-formed automaton without epsilon transitions. -/
theorem simplify_wellFormed (A : FiniteAutomaton) (hA : A.InRange) :
    (simplify A).Ensures fun B => B.hasEpsilonTransitions = false ∧ B.states ≠ [] ∧
      B.InRange ∧ (A.isSimple = true → B.isSimple = true) := by
  apply (simplify_ensures hA).mono
  intro B hB
  obtain ⟨hrem, heps⟩ := hB
  have hne : B.states ≠ [] := List.ne_nil_of_length_pos (Nat.zero_lt_of_lt hrem.inRange.start_lt)
  exact ⟨heps, hne, hrem.inRange, hrem.isSimple⟩

theorem simplify_wellFormed_startOnCycle :
    (simplify startOnCycle).Ensures fun B => B.hasEpsilonTransitions = false ∧ B.states ≠ [] ∧
      B.InRange ∧ (startOnCycle.isSimple = true → B.isSimple = true) :=
  simplify_wellFormed startOnCycle (by decide)

/-- The remover loses no word when the start state is on no epsilon cycle. -/
theorem simplify_keeps_words (A : FiniteAutomaton) (hs : A.isSimple = true) (hA : A.InRange)
    (hstart : ¬Relation.TransGen (EpsEdge A) A.startStateIndex A.startStateIndex) :
    (simplify A).Ensures fun B => ∀ w : List CChar, (∀ c ∈ w, c ≠ 0) →
      (A.accepts w).Returns true → (B.accepts w).Returns true := by
  apply (simplify_ensures hA).mono
  intro B hB w hw htrue
  obtain ⟨hrem, _⟩ := hB
  have hmem : w ∈ A.pathLanguage := (accepts_ensures hs hA hw).returns_true_iff.mp htrue
  have hmemB : w ∈ B.pathLanguage := (hrem.pathLanguage_le hstart).2 hmem
  exact (accepts_ensures (hrem.isSimple hs) hrem.inRange hw).returns_true_iff.mpr hmemB

/-- The start state `0` leads to the cycle of the states `1` and `2`. -/
def cycleBehindStart : FiniteAutomaton where
  alphabet := OrderedSet.insert 97 ∅
  states := [⟨false, [⟨.char 97, 1⟩]⟩, ⟨false, [⟨Regex.empty, 2⟩]⟩,
    ⟨true, [⟨Regex.empty, 1⟩]⟩]

theorem startOffCycle_cycleBehindStart : StartOffCycle cycleBehindStart := by
  intro hcycle
  obtain ⟨q, _, he⟩ := Relation.TransGen.tail'_iff.mp hcycle
  have hne : ∀ p r q, cycleBehindStart.Edge p r q → q ≠ 0 := by
    rw [forall_edge_iff]
    decide
  exact hne _ _ _ he rfl

theorem simplify_keeps_words_cycleBehindStart :
    (simplify cycleBehindStart).Ensures fun B => ∀ w : List CChar, (∀ c ∈ w, c ≠ 0) →
      (cycleBehindStart.accepts w).Returns true → (B.accepts w).Returns true :=
  simplify_keeps_words cycleBehindStart (by decide) (by decide) startOffCycle_cycleBehindStart

/-! ## When no word is added -/

/-- Whenever the run from `A` replaces an epsilon transition, the step is harmless. -/
def HarmlessRun (A : FiniteAutomaton) : Prop :=
  ∀ s t, Comp.Reaches scanStep ⟨A, 0, 0⟩ s →
    (s.automaton.state s.i).transitions[s.j]? = some ⟨Regex.empty, t⟩ →
    (removeEpsilonLoop s.automaton s.i).Returns (false, s.automaton) →
    Harmless s.automaton s.i t

theorem removes_of_reaches (hA : A.InRange) (h : Comp.Reaches scanStep ⟨A, 0, 0⟩ s) :
    Removes A s.automaton :=
  Comp.Reaches.invariant (fun s => Removes A s.automaton)
    (fun _ _ hs hstep => hs.next ((scanStep_ensures hs.inRange).of_returns hstep)) h (.refl hA)

/-- From any state of the run on, words are only added. -/
theorem pathLanguage_le_of_loop (hA : s.automaton.InRange) (hstart : StartOffCycle s.automaton)
    (h : (Comp.loop scanStep s).Returns B) : s.automaton.pathLanguage ≤ B.pathLanguage := by
  obtain ⟨u, hu, hB⟩ := Comp.loop_returns_iff.mp h
  obtain ⟨hinv, hle⟩ := Comp.Reaches.invariant
    (fun u => (u.automaton.InRange ∧ StartOffCycle u.automaton) ∧
      s.automaton.pathLanguage ≤ u.automaton.pathLanguage)
    (fun v v' hv hstep => by
      have hcase := (scanStep_ensures hv.1.1).of_returns hstep
      exact ⟨⟨hcase.inRange hv.1.1, hcase.startOffCycle hv.1.1 hv.1.2⟩,
        hv.2.trans (hcase.pathLanguage_le hv.1.1 hv.1.2)⟩) hu ⟨⟨hA, hstart⟩, le_rfl⟩
  cases (scanStep_ensures hinv.1).of_returns hB with
  | finished => exact hle

theorem next_replaced (hi : s.i < s.automaton.states.length)
    (hj : (s.automaton.state s.i).transitions[s.j]? = some ⟨Regex.empty, t⟩)
    (hloop : (removeEpsilonLoop s.automaton s.i).Returns (false, s.automaton)) :
    Comp.Next scanStep s ⟨removeEpsilonTransition s.automaton s.i s.j, s.i, s.j⟩ := by
  have hchar : (Regex.empty).isCharOf 0 = true := rfl
  rw [Comp.Next, scanStep]
  rw [if_neg (not_le.mpr hi), hj]
  simp only [hchar, if_true]
  exact Comp.returns_bind.mpr ⟨_, hloop, by simp⟩

/-- The remover keeps the path language exactly when all its replacements are harmless. -/
theorem pathLanguage_eq_iff_harmlessRun (hA : A.InRange) (hstart : StartOffCycle A)
    (hB : (simplify A).Returns B) : B.pathLanguage = A.pathLanguage ↔ HarmlessRun A := by
  constructor
  · intro heq s t hs hj hloop
    have hrem := removes_of_reaches hA hs
    obtain ⟨hstart', hle⟩ := hrem.pathLanguage_le hstart
    have hi := (edge_of_getElem? hj).source_lt
    obtain ⟨_, hacc⟩ := ((removeEpsilonLoop_ensures hrem.inRange hi).of_returns hloop).2 rfl
    have hne := hacc.ne (edge_of_getElem? hj)
    have hrep := replaced_removeEpsilonTransition hne hj
    set C := removeEpsilonTransition s.automaton s.i s.j
    have hnext : Comp.Next scanStep s ⟨C, s.i, s.j⟩ := next_replaced hi hj hloop
    have hC : C.pathLanguage ≤ B.pathLanguage :=
      pathLanguage_le_of_loop (s := ⟨C, s.i, s.j⟩) (hrep.inRange hrem.inRange)
        (hrep.startOffCycle hacc hj hstart') (Comp.Reaches.loop_returns (hs.tail hnext) hB)
    refine (hrep.pathLanguage_eq_iff hne hj).mp (le_antisymm ?_ (hrep.pathLanguage_le hne hj))
    exact hC.trans (heq.le.trans hle)
  · intro hrun
    obtain ⟨u, hu, hBu⟩ := Comp.loop_returns_iff.mp hB
    obtain ⟨hreach, heq⟩ := Comp.Reaches.invariant
      (fun u => Comp.Reaches scanStep ⟨A, 0, 0⟩ u ∧
        u.automaton.pathLanguage = A.pathLanguage)
      (fun v v' hv hstep => by
        have hrem := removes_of_reaches hA hv.1
        refine ⟨hv.1.tail hstep, ?_⟩
        cases (scanStep_ensures hrem.inRange).of_returns hstep with
        | endOfState => exact hv.2
        | letter => exact hv.2
        | merged hS hC =>
            have hstart' := (hrem.pathLanguage_le hstart).1
            exact (hC.pathLanguage_eq hrem.inRange hS (hstart'.notMem hS)).trans hv.2
        | replaced hj hloop hacc hC =>
            have hne := hacc.ne (edge_of_getElem? hj)
            exact ((hC.pathLanguage_eq_iff hne hj).mpr (hrun v _ hv.1 hj hloop)).trans hv.2)
      hu ⟨.refl, rfl⟩
    cases (scanStep_ensures (removes_of_reaches hA hreach).inRange).of_returns hBu with
    | finished => exact heq

end FormalLanguages.EpsilonRemover
