import FormalLanguages.Verification.Pipeline.Invert
import FormalLanguages.Verification.Simplifier.Levels

/-! # Regexes that all passes treat rightly

The simplified automaton of a tame regex has levels, and so has every automaton of the scan that
removes the epsilon transitions. On levels no state that is entered by an epsilon transition has
a self-loop, so no replacement adds a word. -/

namespace FormalLanguages

open FiniteAutomaton AutomatonSimplifier

namespace EpsilonRemover

variable {A B : FiniteAutomaton} {f g : ℕ → ℕ} {i j p q t : ℕ} {r : Regex} {S : List ℕ}
  {s s' : Scan}

/-! ## The scan on levels -/

theorem no_selfLoop (h : Levels A.Edge f g) (hs : A.isSimple = true)
    (he : A.Edge i Regex.empty t) : ¬A.Edge t r t := by
  intro hloop
  rcases h.ending t with hends | hends
  · obtain ⟨c, rfl⟩ := isSimple_iff.mp hs _ _ _ hloop
    have hc : c = 0 := by simpa [Regex.endsWith] using hends _ _ hloop rfl
    subst hc
    exact lt_irrefl _ (h.lt hloop (by
      rw [Regex.language_char_zero]
      rfl))
  · cases hends _ _ he

theorem no_epsCycle (h : Levels A.Edge f g) (hS : EpsCycle A S) : False := by
  have hnil : ([] : List CChar) ∈ Regex.empty.language := by
    rw [Regex.language_empty]
    rfl
  have hlt : ∀ {p q}, Relation.TransGen (EpsEdge A) p q → g p < g q := by
    intro p q hpq
    induction hpq with
    | single he => exact h.lt he hnil
    | tail _ he ih => exact ih.trans (h.lt he hnil)
  obtain ⟨p, hp⟩ := List.exists_mem_of_ne_nil S hS.ne_nil
  exact lt_irrefl _ (hlt (hS.reach hp hp))

/-- The copies of the target's edges skip a level at most. -/
theorem Replaced.levels (h : Replaced A B i j t) (hs : A.isSimple = true)
    (hj : (A.state i).transitions[j]? = some ⟨Regex.empty, t⟩) (hA : Levels A.Edge f g) :
    Levels B.Edge f g := by
  have hit : A.Edge i Regex.empty t := edge_of_getElem? hj
  have hle := hA.le hit
  have hlt := hA.lt hit (by
    rw [Regex.language_empty]
    rfl)
  have hcases : ∀ {p r q}, B.Edge p r q → A.Edge p r q ∨ (p = i ∧ A.Edge t r q) := by
    intro p r q he
    rcases h.edge_cases he with he | ⟨rfl, q', hcopy, rfl⟩
    · exact .inl he
    · rw [redirect, if_neg]
      · exact .inr ⟨rfl, hcopy⟩
      · rintro rfl
        exact no_selfLoop hA hs hit hcopy
  refine ⟨?_, ?_, ?_, ?_⟩
  · intro p r q he
    rcases hcases he with he | ⟨rfl, he⟩
    · exact hA.le he
    · exact hle.trans (hA.le he)
  · intro p r q he hpq
    rcases hcases he with he | ⟨rfl, he⟩
    · exact hA.tame he hpq
    · obtain ⟨c, rfl⟩ := isSimple_iff.mp hs _ _ _ he
      rfl
  · intro q
    rcases hA.ending q with hends | hends
    · left
      intro p r he hpq
      rcases hcases he with he | ⟨rfl, he⟩
      · exact hends p r he hpq
      · have := hA.le he
        exact hends t r he (by omega)
    · right
      intro p r he
      rcases hcases he with he | ⟨rfl, he⟩
      · exact hends p r he
      · exact hends t r he
  · intro p r q he hr
    rcases hcases he with he | ⟨rfl, he⟩
    · exact hA.lt he hr
    · exact hlt.trans (hA.lt he hr)

theorem ScanCase.levels (h : ScanCase s (.inl s')) (hs : s.automaton.isSimple = true)
    (hA : Levels s.automaton.Edge f g) : Levels s'.automaton.Edge f g := by
  cases h with
  | endOfState => exact hA
  | letter => exact hA
  | merged hS _ => exact (no_epsCycle hA hS).elim
  | replaced hj _ _ hB => exact hB.levels hs hj hA

/-- From a simple automaton with levels no replacement adds a word. -/
theorem harmlessRun_of_leveled (hA : A.InRange) (hs : A.isSimple = true) (h : Leveled A) :
    HarmlessRun A := by
  obtain ⟨f, g, h⟩ := h
  intro s t hreach hj _
  have hlevels := Comp.Reaches.invariant
    (fun s => (s.automaton.InRange ∧ s.automaton.isSimple = true) ∧ Levels s.automaton.Edge f g)
    (fun u v hu hstep => by
      have hcase := (scanStep_ensures hu.1.1).of_returns hstep
      refine ⟨⟨hcase.inRange hu.1.1, ?_⟩, hcase.levels hu.1.2 hu.2⟩
      exact ((Removes.refl hu.1.1).next hcase).isSimple hu.1.2)
    hreach ⟨⟨hA, hs⟩, h⟩
  exact harmless_of_no_loop fun r => no_selfLoop hlevels.2 hlevels.1.2 (edge_of_getElem? hj)

end EpsilonRemover

/-! ## The passes on a tame regex -/

variable {A S E O C D : FiniteAutomaton} {r : Regex} {alphabet : OrdSet CChar}
  {order : IterationOrder} {n : ℕ}

theorem harmlessRun_of_tame (hr : r.noEmptyConcat = true) (htame : r.tame = true)
    (h0 : 0 ∉ alphabet) :
    ∃ S, (simplify ((ofRegex r).extendAlphabet alphabet)).Returns S ∧
      EpsilonRemover.HarmlessRun S := by
  have hinput := pipelineInput_ofRegex hr h0
  obtain ⟨S, hS, hsimple, hrange, _⟩ := simplify_ensures hinput.inRange hinput.labelsOk
  have hlevel : Leveled ((ofRegex r).extendAlphabet alphabet) := leveled_ofRegex htame
  exact ⟨S, hS, EpsilonRemover.harmlessRun_of_leveled hrange hsimple
    (simplify_leveled hinput.inRange hinput.labelsOk hlevel hS)⟩

end FormalLanguages
