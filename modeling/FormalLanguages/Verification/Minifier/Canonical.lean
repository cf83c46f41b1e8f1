import FormalLanguages.Verification.Minifier.Correctness

/-! # The minimised automaton is canonical

Two runs on automata with the same language go in lock step: states with the same residual
language have the same number after every round, whatever their numbers in the inputs. -/

namespace FormalLanguages.AutomatonMinifier

open FiniteAutomaton

variable {A B M N : FiniteAutomaton} {p q : ℕ} {v u : List ℕ} {s s' t t' : Refinement}

/-! ## Matching states -/

/-- Every state of one automaton spells what some state of the other spells. -/
structure Matched (A B : FiniteAutomaton) : Prop where
  left : A.IsDfa
  right : B.IsDfa
  alphabet_eq : B.alphabet = A.alphabet
  forth : ∀ p < A.states.length, ∃ q < B.states.length, A.residual p = B.residual q
  back : ∀ q < B.states.length, ∃ p < A.states.length, A.residual p = B.residual q

theorem matched (hA : A.IsDfa) (hB : B.IsDfa) (halpha : B.alphabet = A.alphabet)
    (hreachA : A.AllReachable) (hreachB : B.AllReachable)
    (hlang : B.pathLanguage = A.pathLanguage) : Matched A B where
  left := hA
  right := hB
  alphabet_eq := halpha
  forth p hp := by
    obtain ⟨q, hq, hres⟩ := hA.exists_residual_eq hB halpha hlang (hreachA p hp)
    exact ⟨q, hq, hres.symm⟩
  back q hq := hB.exists_residual_eq hA halpha.symm hlang.symm (hreachB q hq)

/-- Matching states have the same number. -/
def Agree (A B : FiniteAutomaton) (v u : List ℕ) : Prop :=
  ∀ p < A.states.length, ∀ q < B.states.length, A.residual p = B.residual q →
    v.getD p 0 = u.getD q 0

theorem Matched.final_iff (h : Matched A B) (hpq : A.residual p = B.residual q) :
    A.Final p ↔ B.Final q := by
  rw [← h.left.letterLabels.nil_mem_residual, ← h.right.letterLabels.nil_mem_residual, hpq]

theorem Matched.residual_successor (h : Matched A B) (hp : p < A.states.length)
    (hq : q < B.states.length) (hpq : A.residual p = B.residual q) {c : CChar}
    (hc : c ∈ A.alphabet) : A.residual (A.successor p c) = B.residual (B.successor q c) := by
  have hcB : c ∈ B.alphabet := by rwa [h.alphabet_eq]
  ext w
  rw [← h.left.cons_mem_residual_successor hp hc, ← h.right.cons_mem_residual_successor hq hcB,
    hpq]

theorem Agree.classKey_eq (h : Agree A B v u) (hm : Matched A B) (hp : p < A.states.length)
    (hq : q < B.states.length) (hpq : A.residual p = B.residual q) :
    classKey A v p = classKey B u q := by
  unfold classKey signature
  rw [hm.alphabet_eq, h p hp q hq hpq]
  congr 1
  apply List.map_congr_left
  intro c hc
  have hcB : c ∈ B.alphabet := by rwa [hm.alphabet_eq]
  rw [h _ (hm.left.successor_lt hp hc) _ (hm.right.successor_lt hq hcB)
    (hm.residual_successor hp hq hpq hc)]

/-! ## One round of both runs -/

theorem keys_eq (hm : Matched A B) (hs : Rounded A s) (ht : Rounded B t)
    (h : Agree A B s.newClassIndices t.newClassIndices) :
    OrdMap.keys s.equivClasses = OrdMap.keys t.equivClasses := by
  apply OrdSet.ext_mem
  intro k
  constructor
  · intro hk
    obtain ⟨p, hp, rfl⟩ := hs.exists_of_mem_keys hk
    obtain ⟨q, hq, hpq⟩ := hm.forth p hp
    rw [h.classKey_eq hm hp hq hpq]
    exact ht.mem_keys hq
  · intro hk
    obtain ⟨q, hq, rfl⟩ := ht.exists_of_mem_keys hk
    obtain ⟨p, hp, hpq⟩ := hm.back q hq
    rw [← h.classKey_eq hm hp hq hpq]
    exact hs.mem_keys hp

/-- A number is the rank of a key among the same keys in both runs. -/
theorem Agree.round (hm : Matched A B) (hs : Rounded A s) (ht : Rounded B t)
    (h : Agree A B s.newClassIndices t.newClassIndices) :
    Agree A B s.classIndices t.classIndices := by
  intro p hp q hq hpq
  rw [hs.number p hp, ht.number q hq, keys_eq hm hs ht h, h.classKey_eq hm hp hq hpq]

/-- Both runs are at the head of the loop with agreeing numbers. -/
structure Locked (A B : FiniteAutomaton) (s t : Refinement) : Prop where
  length_left : s.classIndices.length = A.states.length ∧
    s.newClassIndices.length = A.states.length
  length_right : t.classIndices.length = B.states.length ∧
    t.newClassIndices.length = B.states.length
  agree : Agree A B s.classIndices t.classIndices
  agree_new : Agree A B s.newClassIndices t.newClassIndices

theorem eq_iff_getD {n : ℕ} (hv : v.length = n) (hu : u.length = n) :
    v = u ↔ ∀ p < n, v.getD p 0 = u.getD p 0 := by
  constructor
  · intro h p _
    rw [h]
  · intro h
    apply List.ext_getElem (hv.trans hu.symm)
    intro p hp hp'
    have hget := h p (hv ▸ hp)
    rwa [List.getD_eq_getElem _ _ hp, List.getD_eq_getElem _ _ hp'] at hget

/-- The two runs leave the loop together. -/
theorem Locked.stops_iff (h : Locked A B s t) (hm : Matched A B) :
    s.classIndices = s.newClassIndices ↔ t.classIndices = t.newClassIndices := by
  rw [eq_iff_getD h.length_left.1 h.length_left.2, eq_iff_getD h.length_right.1 h.length_right.2]
  constructor
  · intro heq q hq
    obtain ⟨p, hp, hpq⟩ := hm.back q hq
    rw [← h.agree p hp q hq hpq, ← h.agree_new p hp q hq hpq]
    exact heq p hp
  · intro heq p hp
    obtain ⟨q, hq, hpq⟩ := hm.forth p hp
    rw [h.agree p hp q hq hpq, h.agree_new p hp q hq hpq]
    exact heq q hq

theorem locked_initial (hm : Matched A B) : Locked A B (initial A) (initial B) where
  length_left := by simp [initial]
  length_right := by simp [initial]
  agree p hp q hq hpq := by
    have hfinal : (A.state p).isFinal = (B.state q).isFinal :=
      Bool.eq_iff_iff.mpr (hm.final_iff hpq)
    rw [getD_initial hp, getD_initial hq, hfinal]
  agree_new p hp q hq _ := by simp [initial, List.getD_eq_getElem?_getD, hp, hq]

theorem Locked.next (h : Locked A B s t) (hm : Matched A B)
    (hs : Comp.Next (refine A) s s') : ∃ t', Comp.Next (refine B) t t' ∧ Locked A B s' t' := by
  rcases (refine_ensures hm.left h.length_left.1 h.length_left.2).of_returns hs with
    ⟨_, hr⟩ | ⟨hne, s'', hr, hnew, hround⟩
  · cases hr
  · cases hr
    obtain ⟨r, hret, hr⟩ := refine_ensures hm.right h.length_right.1 h.length_right.2
    rcases hr with ⟨heq, _⟩ | ⟨_, t', rfl, hnew', hround'⟩
    · exact absurd ((h.stops_iff hm).mpr heq) hne
    · have hagree : Agree A B s'.newClassIndices t'.newClassIndices := by
        rw [hnew, hnew']
        exact h.agree
      refine ⟨t', hret, ?_⟩
      exact ⟨⟨hround.length_eq, hround.length_new⟩, ⟨hround'.length_eq, hround'.length_new⟩,
        hagree.round hm hround hround', hagree⟩

theorem Locked.stop (h : Locked A B s t) (hm : Matched A B)
    (hs : (refine A s).Returns (.inr s')) :
    ∃ t', (refine B t).Returns (.inr t') ∧ Agree A B s'.classIndices t'.classIndices := by
  rcases (refine_ensures hm.left h.length_left.1 h.length_left.2).of_returns hs with
    ⟨heq, hr⟩ | ⟨_, s'', hr, _, _⟩
  · cases hr
    obtain ⟨r, hret, hr⟩ := refine_ensures hm.right h.length_right.1 h.length_right.2
    rcases hr with ⟨_, rfl⟩ | ⟨hne, _⟩
    · exact ⟨t, hret, h.agree⟩
    · exact absurd ((h.stops_iff hm).mp heq) hne
  · cases hr

/-! ## Equal results -/

theorem length_le_of_agree (hm : Matched A B) (hM : Minimal A M v) (hN : Minimal B N u)
    (h : Agree A B v u) : M.states.length ≤ N.states.length := by
  by_contra hlt
  obtain ⟨p, hp, hpi⟩ := hM.exists_number N.states.length (by omega)
  obtain ⟨q, hq, hpq⟩ := hm.forth p hp
  have hnumber := hN.number_lt q hq
  rw [← h p hp q hq hpq, hpi] at hnumber
  exact lt_irrefl _ hnumber

theorem Matched.symm (h : Matched A B) : Matched B A where
  left := h.right
  right := h.left
  alphabet_eq := h.alphabet_eq.symm
  forth q hq := by
    obtain ⟨p, hp, hpq⟩ := h.back q hq
    exact ⟨p, hp, hpq.symm⟩
  back p hp := by
    obtain ⟨q, hq, hpq⟩ := h.forth p hp
    exact ⟨q, hq, hpq.symm⟩

theorem Agree.symm (h : Agree A B v u) : Agree B A u v :=
  fun q hq p hp hqp => (h p hp q hq hqp.symm).symm

/-- Quotients by agreeing numbers are the same automaton. -/
theorem states_eq_of_agree (hm : Matched A B) (hM : Minimal A M v) (hN : Minimal B N u)
    (h : Agree A B v u) : M.states = N.states := by
  have hlen : M.states.length = N.states.length :=
    le_antisymm (length_le_of_agree hm hM hN h) (length_le_of_agree hm.symm hN hM h.symm)
  apply List.ext_getElem hlen
  intro i hi hi'
  obtain ⟨p, hp, rfl⟩ := hM.exists_number i hi
  obtain ⟨q, hq, hpq⟩ := hm.forth p hp
  have hfinal : (A.state p).isFinal = (B.state q).isFinal :=
    Bool.eq_iff_iff.mpr (hm.final_iff hpq)
  have hsignature : signature A v p = signature B u q :=
    congrArg AutomatonMinifierEquivalenceClass.transitions (h.classKey_eq hm hp hq hpq)
  rw [← state_of_lt hi, ← state_of_lt hi', hM.state_eq p hp, h p hp q hq hpq, hN.state_eq q hq,
    hfinal, hsignature]

/-- Minimisation of equivalent automata gives the same states in the same order. -/
theorem minify_eq (hm : Matched A B) (hstart : A.pathLanguage = B.pathLanguage)
    (hfinalA : ∃ p, A.Final p) (hfinalB : ∃ p, B.Final p) :
    (minify A).Ensures fun M => (minify B).Ensures fun N =>
      M.states = N.states ∧ M.startStateIndex = N.startStateIndex := by
  apply Comp.ensures_bind.mpr
  obtain ⟨s, hs, hstable⟩ := refinement_ensures hm.left hfinalA
  refine ⟨s, hs, Comp.ensures_pure.mpr ?_⟩
  obtain ⟨t, ht, hagree⟩ := Comp.loop_returns_rel (Locked A B)
    (fun s t => Agree A B s.classIndices t.classIndices)
    (fun _ _ _ h hs => h.next hm hs) (fun _ _ _ h hs => h.stop hm hs) (locked_initial hm) hs
  apply Comp.ensures_bind.mpr
  refine ⟨t, ht, Comp.ensures_pure.mpr ?_⟩
  have hM := minimal_build hm.left hstable
  have hN := minimal_build hm.right ((refinement_ensures hm.right hfinalB).of_returns ht)
  constructor
  · exact states_eq_of_agree hm hM hN hagree
  · rw [hM.start_eq, hN.start_eq]
    exact hagree _ hm.left.inRange.start_lt _ hm.right.inRange.start_lt hstart

/-- Minimisation is a canonical form: over one alphabet the results are equal, state for
state and transition for transition, exactly when the inputs accept the same words. -/
theorem minify_canonical (A B : FiniteAutomaton) (hA : A.InRange) (hB : B.InRange)
    (halphabet : A.alphabet = B.alphabet)
    (hlettersA : A.LettersIn) (hlettersB : B.LettersIn)
    (hepsA : A.hasEpsilonTransitions = false) (hepsB : B.hasEpsilonTransitions = false)
    (hcompleteA : A.isComplete = true) (hcompleteB : B.isComplete = true)
    (hdetA : A.isDeterministic = true) (hdetB : B.isDeterministic = true)
    (hreachA : A.AllReachable) (hreachB : B.AllReachable)
    (hfinalA : ∃ p, A.Final p) (hfinalB : ∃ p, B.Final p) :
    (minify A).Ensures fun M => (minify B).Ensures fun N =>
      ((M.states = N.states ∧ M.startStateIndex = N.startStateIndex) ↔
        ∀ w, (A.accepts w).Returns true ↔ (B.accepts w).Returns true) := by
  have hdfaA := isDfa_of_predicates hA hlettersA hepsA hcompleteA hdetA
  have hdfaB := isDfa_of_predicates hB hlettersB hepsB hcompleteB hdetB
  have hiff : (∀ w, (A.accepts w).Returns true ↔ (B.accepts w).Returns true) ↔
      A.pathLanguage = B.pathLanguage := by
    constructor
    · intro h
      ext w
      rw [← (hdfaA.letterLabels.accepts_ensures hA w).returns_true_iff,
        ← (hdfaB.letterLabels.accepts_ensures hB w).returns_true_iff]
      exact h w
    · intro h w
      rw [(hdfaA.letterLabels.accepts_ensures hA w).returns_true_iff,
        (hdfaB.letterLabels.accepts_ensures hB w).returns_true_iff, h]
  obtain ⟨M, hM, v, hMin⟩ := minify_ensures hdfaA hfinalA
  obtain ⟨N, hN, u, hNin⟩ := minify_ensures hdfaB hfinalB
  refine ⟨M, hM, N, hN, ?_⟩
  rw [hiff]
  constructor
  · intro hex
    rcases hex with ⟨hstates, hstart⟩
    rw [← hMin.pathLanguage_eq hdfaA, ← hNin.pathLanguage_eq hdfaB]
    exact pathLanguage_congr hstates hstart
  · intro hlang
    have hm := matched hdfaA hdfaB halphabet.symm hreachA hreachB hlang.symm
    exact ((minify_eq hm hlang hfinalA hfinalB).of_returns hM).of_returns hN

/-- One final state with a loop for the letter `a`. -/
def round : FiniteAutomaton where
  alphabet := OrderedSet.insert 97 ∅
  states := [⟨true, [⟨.char 97, 0⟩]⟩]

theorem allReachable_round : round.AllReachable := by
  intro p hp
  obtain rfl : p = 0 := Nat.lt_one_iff.mp hp
  exact .refl

theorem allReachable_toAndFro : toAndFro.AllReachable := by
  intro p hp
  have hcases : p = 0 ∨ p = 1 := by
    have : p < 2 := hp
    omega
  rcases hcases with rfl | rfl
  · exact .refl
  · have he : toAndFro.Edge toAndFro.startStateIndex (.char 97) 1 := List.mem_singleton.mpr rfl
    exact Reachable.edge .refl he

theorem minify_canonical_round :
    (minify round).Ensures fun M => (minify toAndFro).Ensures fun N =>
      ((M.states = N.states ∧ M.startStateIndex = N.startStateIndex) ↔
        ∀ w, (round.accepts w).Returns true ↔ (toAndFro.accepts w).Returns true) :=
  minify_canonical round toAndFro (by decide) (by decide) rfl (by decide) (by decide) (by decide)
    (by decide) (by decide) (by decide) (by decide) (by decide) allReachable_round
    allReachable_toAndFro ⟨0, rfl⟩ ⟨0, rfl⟩

end FormalLanguages.AutomatonMinifier
