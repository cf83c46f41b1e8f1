import FormalLanguages.Verification.Converter.Secluded
import FormalLanguages.Verification.EpsilonRemover.Settled
import FormalLanguages.Verification.Pipeline.RoundTrip
import FormalLanguages.Verification.Pipeline.ToRegex
import FormalLanguages.Verification.Simplifier.Places

/-! # Reading back what was written

The stars of a regex from the converter are set apart, so the simplified automaton is settled
and no replacement adds a word. What the program writes it reads rightly, unlike some regexes
written by hand. -/

namespace FormalLanguages

open FiniteAutomaton Regex

variable {A : FiniteAutomaton} {p q : ℕ} {x : Regex} {X : OrdSet CChar}

/-! ## The simplified automaton -/

namespace AutomatonSimplifier

variable {place : ℕ → Place}

/-- States with nothing to do but to take an epsilon transition have the words of its target. -/
theorem residual_eq_of_only (he : A.Edge p Regex.empty q)
    (honly : ∀ r t, A.Edge p r t → r = Regex.empty ∧ t = q) (hfinal : ¬A.Final p) :
    A.residual p = A.residual q := by
  have hle : A.residual q ≤ A.residual p := residual_le_of_empty he
  apply le_antisymm
  · have hsub := FiniteAutomaton.residual_le (A := A)
      (X := fun t => if t = p then A.residual q else A.residual t) ?_ ?_ p
    · simpa using hsub
    · intro t r u htu
      by_cases ht : t = p
      · subst ht
        obtain ⟨rfl, rfl⟩ := honly r u htu
        rw [if_pos rfl, Regex.language_empty, one_mul]
        split
        · exact le_rfl
        · exact le_rfl
      · rw [if_neg ht]
        split
        · rename_i hu
          subst hu
          exact le_trans (mul_le_mul_right hle _) (edge_mul_residual_le htu)
        · exact edge_mul_residual_le htu
    · intro t ht
      have hne : t ≠ p := by
        rintro rfl
        exact hfinal ht
      simpa [hne] using one_le_residual ht
  · exact hle

theorem Placed.residual_eq (h : Placed A place) (he : A.Edge p Regex.empty q)
    (hsingle : (place p).single = true) : A.residual p = A.residual q := by
  have hfinal : ¬A.Final p := fun hp => h.places.last he (h.final hp)
  cases hp : place p with
  | alone =>
      exact residual_eq_of_only he (fun r t ht => eq_of_outDegree_le (h.alone hp) he ht) hfinal
  | operandEnd start =>
      obtain ⟨_, hq⟩ := h.places.back he hp
      refine residual_eq_of_only he (fun r t ht => ?_) hfinal
      rw [hq]
      exact h.places.back ht hp
  | last => rw [hp] at hsingle; cases hsingle
  | behindStar => rw [hp] at hsingle; cases hsingle
  | branching => rw [hp] at hsingle; cases hsingle

/-- The end and the states behind a star. -/
def Quiet (place : ℕ → Place) (p : ℕ) : Prop := place p = .last ∨ place p = .behindStar

theorem Placed.into_quiet (h : Placed A place) (hs : A.isSimple = true) (hq : Quiet place q) :
    (∀ p r, A.Edge p r q → r = Regex.empty) ∨ ∀ r p, ¬A.Edge q r p := by
  rcases hq with hq | hq
  · exact .inr fun r p he => h.places.last he hq
  · left
    intro p r he
    obtain ⟨c, rfl⟩ := isSimple_iff.mp hs _ _ _ he
    have hlabel := h.places.label he
    rw [hq] at hlabel
    rw [hlabel.eq_zero]
    rfl

/-- What an epsilon transition may lead to from where several ways lead on. -/
theorem Placed.target_cases (h : Placed A place) (he : A.Edge p Regex.empty q)
    (hsingle : (place p).single = false) : Quiet place q ∨ place q = .operandEnd p := by
  have htarget := (secluded_empty.mp (h.places.label he)).resolve_left (by simp [hsingle])
  cases hq : place q with
  | last => exact .inl (.inl hq)
  | behindStar => exact .inl (.inr hq)
  | operandEnd start =>
      rw [hq, Place.target] at htarget
      split at htarget
      · rename_i hstart
        rw [hstart]
        exact .inr rfl
      · exact absurd rfl htarget
  | alone =>
      rw [hq] at htarget
      exact absurd rfl htarget
  | branching =>
      rw [hq] at htarget
      exact absurd rfl htarget

theorem Quiet.single (h : Quiet place p) : (place p).single = false := by
  rcases h with h | h
  · rw [h]
    rfl
  · rw [h]
    rfl

theorem Placed.quiet_out (h : Placed A place) (hp : Quiet place p)
    (he : A.Edge p Regex.empty q) : Quiet place q := by
  refine (h.target_cases he hp.single).resolve_right fun hq => ?_
  -- the target would be the end of the operand of a star that begins in a quiet state
  have hbegin := h.places.start hq
  rcases hp with hp | hp
  · rw [hp] at hbegin
    cases hbegin
  · rw [hp] at hbegin
    cases hbegin

theorem settled_of_placed (h : Placed A place) (hs : A.isSimple = true) :
    EpsilonRemover.Settled A (Quiet place) where
  into hq := h.into_quiet hs hq
  out hp he := h.quiet_out hp he
  same {p q} he := by
    by_cases hsingle : (place p).single = true
    · exact .inr (h.residual_eq he hsingle)
    · rw [Bool.not_eq_true] at hsingle
      rcases h.target_cases he hsingle with hq | hq
      · exact .inl hq
      · -- the transition is the one over a star, and another leads back
        exact .inr (le_antisymm (residual_le_of_empty (h.back hq)) (residual_le_of_empty he))

end AutomatonSimplifier

/-- On a regex with its stars set apart no replacement adds a word. -/
theorem harmlessRun_of_secluded (hx : x.noEmptyConcat = true) (hsecluded : Secluded true .last x)
    (h0 : 0 ∉ X) :
    ∃ S, (AutomatonSimplifier.simplify ((ofRegex x).extendAlphabet X)).Returns S ∧
      EpsilonRemover.HarmlessRun S := by
  have hinput := pipelineInput_ofRegex hx h0
  obtain ⟨S, hS, hsimple, hrange, _⟩ :=
    AutomatonSimplifier.simplify_ensures hinput.inRange hinput.labelsOk
  obtain ⟨place, hplace⟩ := AutomatonSimplifier.placed_ofRegex hsecluded
  obtain ⟨place, hplace⟩ := AutomatonSimplifier.simplify_placed hinput.inRange hinput.labelsOk
    ⟨place, ⟨hplace.places, hplace.alone, hplace.back, hplace.final⟩⟩ hS
  exact ⟨S, hS, EpsilonRemover.harmlessRun_of_settled hrange
    ⟨_, AutomatonSimplifier.settled_of_placed hplace hsimple⟩⟩

/-- The regex of a complete deterministic automaton has its stars set apart. -/
theorem IsDfa.secluded (hA : A.IsDfa)
    (hx : (AutomatonCollapser.collapse A >>= AutomatonToRegexConverter.convert).Returns x) :
    Secluded true .last x := by
  refine AutomatonToRegexConverter.toRegex_secluded ?_ hx
  intro p r q he
  obtain ⟨c, _, hc0, rfl⟩ := hA.label he
  exact .letter hc0 (by simp)

theorem extendAlphabet_of_subset (h : ∀ c ∈ x.letters, c ∈ X) : invertAlphabet x X = X := by
  apply OrdSet.ext_mem
  intro c
  rw [mem_invertAlphabet]
  exact or_iff_right_of_imp (h c)

/-- The words of the regex are those of the automaton, or all words. -/
theorem Minified.language_cases {D M : FiniteAutomaton} (h : Minified D M) (hx : Regexed M x) :
    D.pathLanguage = x.language ∨ (SoleFinal M ∧ InsideLeadsBack x.language D.alphabet) := by
  by_cases hsole : SoleFinal M
  · right
    refine ⟨hsole, insideLeadsBack_of_all fun w => ?_⟩
    rw [hx.of_sole hsole, AutomatonToRegexConverter.mem_language_alwaysTrueRegex, ← h.alphabet_eq]
    exact forall₂_congr fun c _ => and_iff_left_of_imp h.isDfa.ne_zero
  · left
    rw [hx.of_other hsole, h.language_eq]

/-- What `to_regex` makes of a well-formed automaton does not change the second time, whatever the
orders of iteration. -/
theorem toRegex_idempotent (order order' : IterationOrder) (A : FiniteAutomaton)
    (hA : WellFormed A) (x : Regex) (hx : (toRegex order A).Returns x) :
    (toRegex order' ((ofRegex x).extendAlphabet A.alphabet)).Returns x := by
  obtain ⟨S, E, D, h⟩ := exists_regexFrontEnd order hA
  have hfinal : ∃ p, D.Final p := by
    by_contra hnone
    obtain ⟨M, hM, hrun⟩ := h.toRegex_returns_iff.mp hx
    cases hM.unique (minifyPass_of_not_final (not_exists.mp hnone))
    exact hrun.not_throws (throws_of_no_states _)
  obtain ⟨M, hM⟩ := exists_minified h.isDfa h.allReachable hfinal
  obtain ⟨y, hy⟩ := hM.exists_regexed
  obtain rfl := (h.toRegex_returns_iff.mpr ⟨M, hM.minified, hy.returns⟩).unique hx
  have hbuilt := AutomatonToRegexConverter.toRegex_built hM.isDfa hM.isDeterministic hy.returns
  rw [hM.alphabet_eq, h.alphabet_eq] at hbuilt
  have hinput := pipelineInput_ofRegex hbuilt.noEmptyConcat hA.zero_notMem
  have hrun := harmlessRun_of_secluded hbuilt.noEmptyConcat
    (IsDfa.secluded hM.isDfa hy.returns) hA.zero_notMem
  obtain ⟨S', E', D', h'⟩ := exists_regexFrontEnd order' hinput.toWellFormed
  have hlang : D'.pathLanguage = y.language :=
    (h'.language_of_harmless (hinput.exists_startOffCycle hrun)).trans
      (AutomatonSimplifier.pathLanguage_ofRegex y)
  have halphabet : D'.alphabet = D.alphabet := by
    rw [h'.alphabet_eq, h.alphabet_eq]
    exact extendAlphabet_of_subset fun c hc => hbuilt.mem_of_mem_letters hc
  have hcases := hM.language_cases hy
  rw [← hlang, ← halphabet] at hcases
  have hfinal' : ∃ p, D'.Final p := by
    rw [exists_final_iff h'.isDfa h'.allReachable]
    rcases hcases with heq | ⟨_, hback⟩
    · rw [← heq]
      exact (exists_final_iff h.isDfa h.allReachable).mp hfinal
    · exact ⟨[], hback.1⟩
  obtain ⟨M', hM'⟩ := exists_minified h'.isDfa h'.allReachable hfinal'
  obtain ⟨z, hz⟩ := hM'.exists_regexed
  have heq : y = z := by
    refine (Regexed.eq_iff hM hM' halphabet ?_ hy hz).mpr ?_
    · intro heq
      obtain ⟨N, hN, hN'⟩ := minifyPass_returns_same h.isDfa h'.isDfa h.allReachable
        h'.allReachable halphabet heq.symm
      rw [hM.minified.unique hN, hM'.minified.unique hN']
    · exact hcases.imp id fun hback => ⟨hback.1, hM'.soleFinal_iff.mpr hback.2⟩
  have hreturns := h'.toRegex_returns_iff.mpr ⟨M', hM'.minified, hz.returns⟩
  rwa [← heq] at hreturns

/-- `*"a"_r * "aa"_r` comes back as `"aa"_r * *"a"_r`. -/
theorem toRegex_idempotent_star :
    (toRegex .insertion ((ofRegex ((Regex.literal [97]).unaryStar *
      Regex.literal [97, 97])).extendAlphabet ∅)).Returns
        (.concat [.char 97, .char 97, .star (.char 97)]) ∧
    (toRegex .reversed ((ofRegex (.concat [.char 97, .char 97, .star (.char 97)])).extendAlphabet
      ((ofRegex ((Regex.literal [97]).unaryStar *
        Regex.literal [97, 97])).extendAlphabet ∅).alphabet)).Returns
          (.concat [.char 97, .char 97, .star (.char 97)]) :=
  ⟨⟨60, rfl⟩, toRegex_idempotent .insertion .reversed _
    (pipelineInput_ofRegex (by decide) (by decide)).toWellFormed _ ⟨60, rfl⟩⟩

end FormalLanguages
