import FormalLanguages.Verification.EpsilonRemover.Replace
import Mathlib.Logic.Hydra
import Mathlib.Tactic.Abel
import Mathlib.Tactic.Linarith

/-! # Termination of the scan

A merge leaves fewer states, or as many with one epsilon self-loop less. Between two merges
the scan only moves on or replaces an epsilon transition of the state it looks at by those
of the target, from which no cycle is reachable: a descent of the multiset of targets. -/

namespace FormalLanguages.EpsilonRemover

open FiniteAutomaton

variable {A A₀ B : FiniteAutomaton} {S : List ℕ} {i j n p q t : ℕ} {r : Regex} {s : Scan}
  {img : ℕ → ℕ}

/-! ## One round of the scan -/

/-- What one round does. -/
inductive ScanCase (s : Scan) : Scan ⊕ FiniteAutomaton → Prop
  | finished : s.automaton.states.length ≤ s.i → ScanCase s (.inr s.automaton)
  | endOfState : s.i < s.automaton.states.length →
      (s.automaton.state s.i).transitions[s.j]? = none →
      ScanCase s (.inl ⟨s.automaton, s.i + 1, 0⟩)
  | letter {r : Regex} {t : ℕ} : (s.automaton.state s.i).transitions[s.j]? = some ⟨r, t⟩ →
      r ≠ Regex.empty → ScanCase s (.inl ⟨s.automaton, s.i, s.j + 1⟩)
  | merged {S : List ℕ} {B : FiniteAutomaton} {img : ℕ → ℕ} : EpsCycle s.automaton S →
      MergedInto s.automaton B S img → ScanCase s (.inl ⟨B, 0, 0⟩)
  | replaced {t : ℕ} {B : FiniteAutomaton} :
      (s.automaton.state s.i).transitions[s.j]? = some ⟨Regex.empty, t⟩ →
      (removeEpsilonLoop s.automaton s.i).Returns (false, s.automaton) →
      EpsAcc s.automaton s.i → Replaced s.automaton B s.i s.j t →
      ScanCase s (.inl ⟨B, s.i, s.j⟩)

theorem EpsAcc.ne (h : EpsAcc A i) (he : EpsEdge A i t) : i ≠ t := by
  intro heq
  subst heq
  exact h.not_cycle (.single he)

theorem scanStep_ensures (hA : s.automaton.InRange) : (scanStep s).Ensures (ScanCase s) := by
  rw [scanStep]
  split
  · rename_i hi
    exact Comp.ensures_pure.mpr (.finished hi)
  · rename_i hi
    have hi : s.i < s.automaton.states.length := not_le.mp hi
    cases hj : (s.automaton.state s.i).transitions[s.j]? with
    | none => exact Comp.ensures_pure.mpr (.endOfState hi hj)
    | some u =>
        obtain ⟨r, t⟩ := u
        simp only
        split
        · rename_i hr
          obtain rfl : r = Regex.empty := Regex.isCharOf_iff.mp hr
          refine Comp.ensures_bind.mpr ?_
          obtain ⟨⟨found, B⟩, hB, htrue, hfalse⟩ := removeEpsilonLoop_ensures hA hi
          refine ⟨(found, B), hB, ?_⟩
          cases found with
          | true =>
              obtain ⟨S, hS, _, hmerge⟩ := htrue rfl
              obtain ⟨img, himg⟩ := (mergeStates_cycle hS).of_returns hmerge
              exact Comp.ensures_pure.mpr (.merged hS himg)
          | false =>
              obtain ⟨rfl, hacc⟩ := hfalse rfl
              exact Comp.ensures_pure.mpr (.replaced hj hB hacc
                (replaced_removeEpsilonTransition (hacc.ne (edge_of_getElem? hj)) hj))
        · rename_i hr
          refine Comp.ensures_pure.mpr (.letter hj ?_)
          intro h
          subst h
          exact hr rfl

theorem ScanCase.inRange {s' : Scan} (h : ScanCase s (.inl s')) (hA : s.automaton.InRange) :
    s'.automaton.InRange := by
  cases h with
  | endOfState => exact hA
  | letter => exact hA
  | merged _ hB => exact hB.inRange hA
  | replaced _ _ _ hB => exact hB.inRange hA

/-! ## What a merge decreases -/

open scoped Classical in
/-- The states with an epsilon self-loop. -/
noncomputable def selfLoops (A : FiniteAutomaton) : Finset ℕ :=
  (Finset.range A.states.length).filter fun p => EpsEdge A p p

theorem mem_selfLoops : p ∈ selfLoops A ↔ EpsEdge A p p := by
  simp only [selfLoops, Finset.mem_filter, Finset.mem_range, and_iff_right_iff_imp]
  exact fun h => h.source_lt

theorem card_selfLoops_le : (selfLoops A).card ≤ A.states.length := by
  classical
  refine (Finset.card_filter_le _ _).trans ?_
  rw [Finset.card_range]

/-- The states weigh more than all the self-loops. -/
noncomputable def cycleWeight (A : FiniteAutomaton) : ℕ :=
  A.states.length * (A.states.length + 1) + (selfLoops A).card

theorem cycleWeight_lt_of_length_lt (h : B.states.length < A.states.length) :
    cycleWeight B < cycleWeight A := by
  have hB := card_selfLoops_le (A := B)
  unfold cycleWeight
  nlinarith

theorem MergedInto.selfLoops_subset (h : MergedInto A B S img) (hA : A.InRange) :
    selfLoops B ⊆ ((selfLoops A).filter (· ∉ S)).image img := by
  intro x hx
  obtain ⟨p, q, he, rfl, hq, hno⟩ := h.edge.mp (mem_selfLoops.mp hx)
  have hqlt : q < A.states.length := hA.target_lt he
  rcases h.inj he.source_lt hqlt hq.symm with rfl | ⟨hp, hq⟩
  · refine Finset.mem_image.mpr ⟨p, Finset.mem_filter.mpr ⟨mem_selfLoops.mpr he, ?_⟩, rfl⟩
    exact fun hp => hno ⟨hp, hp, rfl⟩
  · exact absurd ⟨hp, hq, rfl⟩ hno

theorem cycleWeight_merged (h : MergedInto A B S img) (hA : A.InRange) (hS : EpsCycle A S) :
    cycleWeight B < cycleWeight A := by
  have hlen := h.length_eq
  rcases hS' : S with _ | ⟨a, _ | ⟨b, l⟩⟩
  · exact absurd hS' hS.ne_nil
  · -- a single state with a self-loop that disappears
    subst hS'
    have ha : a ∈ selfLoops A := mem_selfLoops.mpr hS.close
    have hcard : (selfLoops B).card < (selfLoops A).card := by
      refine (Finset.card_le_card (h.selfLoops_subset hA)).trans_lt ?_
      refine Finset.card_image_le.trans_lt (Finset.card_lt_card ?_)
      exact Finset.filter_ssubset.mpr ⟨a, ha, by simp⟩
    have hlenB : B.states.length = A.states.length := by simpa using hlen
    unfold cycleWeight
    rw [hlenB]
    omega
  · apply cycleWeight_lt_of_length_lt
    rw [hS'] at hlen
    simp only [List.length_cons] at hlen
    omega

theorem cycleWeight_replaced (h : Replaced A B i j t) (hacc : EpsAcc A i)
    (hj : (A.state i).transitions[j]? = some ⟨Regex.empty, t⟩) :
    cycleWeight B ≤ cycleWeight A := by
  have hsub : selfLoops B ⊆ selfLoops A := by
    intro p hp
    rcases h.epsEdge_cases hacc hj (mem_selfLoops.mp hp) with he | ⟨hpi, _, hne⟩
    · exact mem_selfLoops.mpr he
    · exact absurd hpi hne
  have hcard := Finset.card_le_card hsub
  unfold cycleWeight
  rw [h.length_eq]
  omega

/-! ## What a replacement decreases -/

/-- The targets of the epsilon transitions of `p`. -/
def epsTargets (A : FiniteAutomaton) (p : ℕ) : Multiset ℕ :=
  (((A.state p).transitions.filter fun u => u.regex.isEmpty).map
    FiniteAutomatonTransition.targetIndex : List ℕ)

theorem mem_epsTargets : q ∈ epsTargets A p ↔ EpsEdge A p q := by
  simp only [epsTargets, Multiset.mem_coe, List.mem_map, List.mem_filter]
  constructor
  · intro hex
    rcases hex with ⟨⟨r, t⟩, ⟨hu, hr⟩, rfl⟩
    obtain rfl : r = Regex.empty := Regex.isEmpty_iff.mp hr
    exact hu
  · intro h
    exact ⟨⟨Regex.empty, q⟩, ⟨h, rfl⟩, rfl⟩

theorem epsTargets_replaced (h : Replaced A B i j t) (hacc : EpsAcc A i)
    (hj : (A.state i).transitions[j]? = some ⟨Regex.empty, t⟩) :
    epsTargets B i + {t} = epsTargets A i + epsTargets A t := by
  set T := (A.state i).transitions with hT
  obtain ⟨hjlt, hjt⟩ := List.getElem?_eq_some_iff.mp hj
  have hsplit : T = T.take j ++ ⟨Regex.empty, t⟩ :: T.drop (j + 1) := by
    rw [← hjt, List.getElem_cons_drop, List.take_append_drop]
  -- the target has no epsilon self-loop, so no copied epsilon transition is redirected
  have hcopy : (((A.state t).transitions.map fun u : FiniteAutomatonTransition =>
        (⟨u.regex, redirect i t u.targetIndex⟩ : FiniteAutomatonTransition)).filter
          fun u => u.regex.isEmpty).map FiniteAutomatonTransition.targetIndex =
      ((A.state t).transitions.filter fun u => u.regex.isEmpty).map
        FiniteAutomatonTransition.targetIndex := by
    rw [List.filter_map, List.map_map]
    refine List.map_congr_left fun u hu => ?_
    obtain ⟨hu, hr⟩ := List.mem_filter.mp hu
    obtain ⟨r, q⟩ := u
    obtain rfl : r = Regex.empty := Regex.isEmpty_iff.mp hr
    have hq : q ≠ t := by
      intro heq
      subst heq
      have hacct : EpsAcc A q := hacc.inv (edge_of_getElem? hj)
      exact hacct.ne hu rfl
    exact if_neg hq
  unfold epsTargets
  rw [h.transitions, ← hT, List.filter_append, List.map_append, hcopy,
    List.eraseIdx_eq_take_drop_succ]
  conv_rhs => rw [hsplit]
  rw [List.filter_append, List.filter_append, List.filter_cons_of_pos (by rfl)]
  simp only [List.map_append, List.map_cons, ← Multiset.coe_add, ← Multiset.cons_coe,
    ← Multiset.singleton_add]
  abel

/-- The order on targets while state `i` is rewritten: one epsilon step further on, from a
state other than `i` that reaches no cycle. -/
def Below (A : FiniteAutomaton) (i q p : ℕ) : Prop := EpsEdge A p q ∧ p ≠ i ∧ EpsAcc A p

theorem wellFounded_below (A : FiniteAutomaton) (i : ℕ) : WellFounded (Below A i) := by
  have hacc : ∀ p, EpsAcc A p → Acc (Below A i) p := fun p h =>
    Subrelation.accessible (fun hb => hb.1) h
  exact ⟨fun p => ⟨p, fun q hq => hacc q (hq.2.2.inv hq.1)⟩⟩

/-- The scan ends from `s`. -/
def ScanAcc (s : Scan) : Prop := Acc (fun u s => Comp.Next scanStep s u) s

/-- Within one state the scan moves on until it merges, replaces or leaves the state. -/
theorem scanAcc_of (hA : A.InRange)
    (hmerged : ∀ S B img, EpsCycle A S → MergedInto A B S img → ScanAcc ⟨B, 0, 0⟩)
    (hend : i < A.states.length → ScanAcc ⟨A, i + 1, 0⟩)
    (hreplaced : ∀ j t B, (A.state i).transitions[j]? = some ⟨Regex.empty, t⟩ → EpsAcc A i →
      Replaced A B i j t → ScanAcc ⟨B, i, j⟩) (j : ℕ) : ScanAcc ⟨A, i, j⟩ := by
  have hrest : ∀ n j, (A.state i).transitions.length - j < n → ScanAcc ⟨A, i, j⟩ := by
    intro n
    induction n with
    | zero => intro j hn; omega
    | succ n ih =>
        intro j hn
        refine Acc.intro _ fun s' hs' => ?_
        have hcase := (scanStep_ensures (s := ⟨A, i, j⟩) hA).of_returns hs'
        cases hcase with
        | endOfState hi _ => exact hend hi
        | letter hj _ =>
            have := (List.getElem?_eq_some_iff.mp hj).1
            exact ih (j + 1) (by simp only at this; omega)
        | merged hS hB => exact hmerged _ _ _ hS hB
        | replaced hj _ hacc hB => exact hreplaced _ _ _ hj hacc hB
  exact hrest _ j (Nat.lt_succ_self _)

/-- The scan of one state from which no cycle is reachable. `A₀` is the automaton at its
start, and `M` the targets that are left. -/
theorem scanAcc_of_epsAcc (hacc₀ : EpsAcc A₀ i)
    (hmerged : ∀ A S B img, A.InRange → cycleWeight A ≤ cycleWeight A₀ → EpsCycle A S →
      MergedInto A B S img → ScanAcc ⟨B, 0, 0⟩)
    (hend : ∀ A, A.InRange → cycleWeight A ≤ cycleWeight A₀ →
      A.states.length = A₀.states.length → i < A.states.length → ScanAcc ⟨A, i + 1, 0⟩)
    (M : Multiset ℕ) : ∀ A : FiniteAutomaton, A.InRange → cycleWeight A ≤ cycleWeight A₀ →
      A.states.length = A₀.states.length → (∀ p, p ≠ i → A.state p = A₀.state p) →
      (∀ p q, EpsEdge A p q → Relation.TransGen (EpsEdge A₀) p q) → epsTargets A i = M →
      ∀ j, ScanAcc ⟨A, i, j⟩ := by
  induction M using (wellFounded_below A₀ i).cutExpand.induction with
  | _ M ih =>
      intro A hA hweight hlen hstate htrans hM
      refine scanAcc_of hA (fun S B img => hmerged A S B img hA hweight) (hend A hA hweight hlen) ?_
      intro j t B hj hacc hB
      have hit : EpsEdge A i t := edge_of_getElem? hj
      have hne : t ≠ i := (hacc.ne hit).symm
      have hedge : ∀ q, EpsEdge A t q → EpsEdge A₀ t q := by
        intro q hq
        rw [EpsEdge, Edge] at hq ⊢
        rwa [← hstate t hne]
      have hacct : EpsAcc A₀ t := hacc₀.of_reach (htrans i t hit).to_reflTransGen
      refine ih (epsTargets B i) ⟨epsTargets A t, t, ?_, ?_⟩ B (hB.inRange hA)
        ((cycleWeight_replaced hB hacc hj).trans hweight) (hB.length_eq.trans hlen) ?_ ?_ rfl j
      · intro q hq
        exact ⟨hedge q (mem_epsTargets.mp hq), hne, hacct⟩
      · rw [epsTargets_replaced hB hacc hj, hM]
      · intro p hp
        rw [hB.state hp, hstate p hp]
      · intro p q hpq
        rcases hB.epsEdge_cases hacc hj hpq with he | ⟨rfl, he, _⟩
        · exact htrans p q he
        · exact (htrans p t hit).tail (hedge q he)

/-- The scan ends from every position of every automaton with indices in range. -/
theorem scanAcc (n : ℕ) : ∀ A : FiniteAutomaton, A.InRange → cycleWeight A < n →
    ∀ i j, ScanAcc ⟨A, i, j⟩ := by
  induction n with
  | zero => intro A _ h; omega
  | succ n ih =>
      have hmerged : ∀ A S B img, A.InRange → cycleWeight A ≤ n → EpsCycle A S →
          MergedInto A B S img → ScanAcc ⟨B, 0, 0⟩ := by
        intro A S B img hA hn hS hB
        exact ih B (hB.inRange hA) ((cycleWeight_merged hB hA hS).trans_le hn) 0 0
      -- the states that are left, counted up to the last one
      have hstates : ∀ k i A, A.InRange → cycleWeight A ≤ n → A.states.length - i < k →
          ∀ j, ScanAcc ⟨A, i, j⟩ := by
        intro k
        induction k with
        | zero => intro i A _ _ h; omega
        | succ k ihk =>
            intro i A hA hn hk
            have hend : ∀ B : FiniteAutomaton, B.InRange → cycleWeight B ≤ cycleWeight A →
                B.states.length = A.states.length → i < B.states.length →
                ScanAcc ⟨B, i + 1, 0⟩ := by
              intro B hB hw hlen hi
              exact ihk (i + 1) B hB (hw.trans hn) (by omega) 0
            by_cases hacc : EpsAcc A i
            · exact scanAcc_of_epsAcc hacc
                (fun B S C img hB hw => hmerged B S C img hB (hw.trans hn)) hend _ A hA le_rfl rfl
                (fun _ _ => rfl) (fun _ _ h => .single h) rfl
            · exact scanAcc_of hA (fun S B img => hmerged A S B img hA hn)
                (hend A hA le_rfl rfl) (fun _ _ _ _ h => absurd h hacc)
      intro A hA hn i j
      exact hstates _ i A hA (by omega) (Nat.lt_succ_self _) j

end FormalLanguages.EpsilonRemover
