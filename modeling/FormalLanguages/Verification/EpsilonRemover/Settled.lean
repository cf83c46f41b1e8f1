import FormalLanguages.Verification.EpsilonRemover.Correctness

/-! # Automata on which no replacement goes wrong

A self-loop that moves from the target of an epsilon transition to its source adds no word when
both states have the same words. The scan keeps a set of states that never get a self-loop, and
the other epsilon transitions lead between states with the same words. -/

namespace FormalLanguages.EpsilonRemover

open FiniteAutomaton

variable {A B : FiniteAutomaton} {S : List ℕ} {i j p q t x y : ℕ} {r : Regex} {s s' : Scan}
  {img : ℕ → ℕ} {quiet : ℕ → Prop}

/-- The quiet states are entered by epsilon transitions only, or nothing leads on from them. -/
structure Settled (A : FiniteAutomaton) (quiet : ℕ → Prop) : Prop where
  into : ∀ {q}, quiet q → (∀ p r, A.Edge p r q → r = Regex.empty) ∨ ∀ r p, ¬A.Edge q r p
  out : ∀ {p q}, quiet p → EpsEdge A p q → quiet q
  same : ∀ {p q}, EpsEdge A p q → quiet q ∨ A.residual p = A.residual q

theorem Settled.into_of_edge (h : Settled A quiet) (hq : quiet q) {u : Regex}
    (he : A.Edge q u x) (hp : A.Edge p r q) : r = Regex.empty := by
  rcases h.into hq with hinto | hsink
  · exact hinto p r hp
  · exact absurd he (hsink u x)

theorem Settled.reach (h : Settled A quiet) (hp : quiet p)
    (hpq : Relation.TransGen (EpsEdge A) p q) : quiet q := by
  induction hpq with
  | single he => exact h.out hp he
  | tail _ he ih => exact h.out ih he

/-! ## A replacement -/

/-- The self-loops of the target add no word to the source. -/
theorem Settled.loop_le (h : Settled A quiet) (he : EpsEdge A i t) (hloop : A.Edge t r t) :
    r.language * A.residual i ≤ A.residual i := by
  rcases h.same he with hquiet | heq
  · rw [h.into_of_edge hquiet hloop hloop, Regex.language_empty, one_mul]
  · rw [heq]
    exact edge_mul_residual_le hloop

theorem Replaced.residual_eq (h : Replaced A B i j t) (hit : i ≠ t)
    (hj : (A.state i).transitions[j]? = some ⟨Regex.empty, t⟩)
    (hloop : ∀ r, A.Edge t r t → r.language * A.residual i ≤ A.residual i) (p : ℕ) :
    B.residual p = A.residual p := by
  have hle : A.residual t ≤ A.residual i := residual_le_of_empty (edge_of_getElem? hj)
  apply le_antisymm
  · refine FiniteAutomaton.residual_le ?_ ?_ p
    · intro p r q he
      rcases h.edge_cases he with heA | ⟨rfl, q', heA, rfl⟩
      · exact edge_mul_residual_le heA
      · rw [redirect]
        split
        · rename_i hq
          exact hloop r (hq ▸ heA)
        · exact (edge_mul_residual_le heA).trans hle
    · intro p hp
      rcases h.final_iff.mp hp with hp | ⟨rfl, ht⟩
      · exact one_le_residual hp
      · exact (one_le_residual ht).trans hle
  · exact h.residual_le hit hj p

theorem Settled.replaced (h : Settled A quiet) (hB : Replaced A B i j t) (hit : i ≠ t)
    (hj : (A.state i).transitions[j]? = some ⟨Regex.empty, t⟩) :
    (∀ p, B.residual p = A.residual p) ∧ Settled B quiet := by
  have het : EpsEdge A i t := edge_of_getElem? hj
  have hres := hB.residual_eq hit hj fun r hloop => h.loop_le het hloop
  refine ⟨hres, ?_, ?_, ?_⟩
  · intro q hq
    rcases h.into hq with hinto | hsink
    · left
      intro p r he
      rcases hB.edge_cases he with heA | ⟨rfl, q', heA, heq⟩
      · exact hinto p r heA
      · rw [redirect] at heq
        split at heq
        · rename_i hq'
          subst hq' heq
          exact h.into_of_edge (h.out hq het) heA heA
        · exact hinto t r (heq ▸ heA)
    · right
      intro r p he
      rcases hB.edge_cases he with he | ⟨rfl, _, _, _⟩
      · exact hsink r p he
      · exact hsink _ _ het
  · intro p q hp he
    rcases hB.edge_cases he with heA | ⟨rfl, q', heA, rfl⟩
    · exact h.out hp heA
    · rw [redirect]
      split
      · exact hp
      · exact h.out (h.out hp het) heA
  · intro p q he
    rw [hres, hres]
    rcases hB.edge_cases he with heA | ⟨rfl, q', heA, rfl⟩
    · exact h.same heA
    · rw [redirect]
      split
      · exact .inr rfl
      · rcases h.same het with ht | ht
        · exact .inl (h.out ht heA)
        · exact (h.same heA).imp id ht.trans

/-! ## A merged cycle -/

theorem Settled.merged (h : Settled A quiet) (hB : MergedInto A B S img) (hA : A.InRange)
    (hS : EpsCycle A S) : Settled B fun x => ∃ p < A.states.length, quiet p ∧ img p = x := by
  have hsame : ∀ {p q}, p < A.states.length → q < A.states.length → img p = img q → quiet p →
      quiet q := by
    intro p q hp hq heq hquiet
    rcases hB.inj hp hq heq with rfl | ⟨hpS, hqS⟩
    · exact hquiet
    · exact h.reach hquiet (hS.reach hpS hqS)
  have hres : ∀ {p}, p < A.states.length → B.residual (img p) = A.residual p :=
    fun hp => hB.residual_eq hA (fun p hp q hq =>
      residual_le_of_reach (hS.reach hq hp).to_reflTransGen) hp
  refine ⟨?_, ?_, ?_⟩
  · rintro _ ⟨q, hqlt, hq, rfl⟩
    by_cases hsink : ∀ r p, ¬A.Edge q r p
    · right
      intro r y he
      obtain ⟨p, _, heA, hp, _, _⟩ := hB.edge.mp he
      rcases hB.inj heA.source_lt hqlt hp with rfl | ⟨_, hqS⟩
      · exact hsink _ _ heA
      · obtain ⟨_, hon, _⟩ := Relation.TransGen.head'_iff.mp (hS.reach hqS hqS)
        exact hsink _ _ hon
    · left
      push Not at hsink
      obtain ⟨u, z, hon⟩ := hsink
      intro y r he
      obtain ⟨p, q', heA, _, hq', _⟩ := hB.edge.mp he
      rcases hB.inj hqlt (hA.target_lt heA) hq'.symm with rfl | ⟨hqS, hqS'⟩
      · exact h.into_of_edge hq hon heA
      · obtain ⟨_, hon', _⟩ := Relation.TransGen.head'_iff.mp (hS.reach hqS' hqS')
        exact h.into_of_edge (h.reach hq (hS.reach hqS hqS')) hon' heA
  · rintro _ y ⟨p, hplt, hp, rfl⟩ he
    obtain ⟨p', q, heA, heq, hy, _⟩ := hB.edge.mp he
    exact ⟨q, hA.target_lt heA, h.out (hsame hplt heA.source_lt heq.symm hp) heA, hy⟩
  · intro x y he
    obtain ⟨p, q, heA, rfl, rfl, _⟩ := hB.edge.mp he
    rw [hres heA.source_lt, hres (hA.target_lt heA)]
    exact (h.same heA).imp (fun hq => ⟨q, hA.target_lt heA, hq, rfl⟩) id

/-! ## The scan -/

theorem ScanCase.settled (h : ScanCase s (.inl s')) (hA : s.automaton.InRange)
    (hs : ∃ quiet, Settled s.automaton quiet) : ∃ quiet, Settled s'.automaton quiet := by
  obtain ⟨quiet, hs⟩ := hs
  cases h with
  | endOfState => exact ⟨quiet, hs⟩
  | letter => exact ⟨quiet, hs⟩
  | merged hS hB => exact ⟨_, hs.merged hB hA hS⟩
  | replaced hj _ hacc hB => exact ⟨quiet, (hs.replaced hB (hacc.ne (edge_of_getElem? hj)) hj).2⟩

/-- From a settled automaton no replacement adds a word. -/
theorem harmlessRun_of_settled (hA : A.InRange) (h : ∃ quiet, Settled A quiet) :
    HarmlessRun A := by
  intro s t hreach hj hloop
  obtain ⟨hrange, quiet, hs⟩ := Comp.Reaches.invariant
    (fun s => s.automaton.InRange ∧ ∃ quiet, Settled s.automaton quiet)
    (fun u v hu hstep => by
      have hcase := (scanStep_ensures hu.1).of_returns hstep
      exact ⟨hcase.inRange hu.1, hcase.settled hu.1 hu.2⟩)
    hreach ⟨hA, h⟩
  have he : EpsEdge s.automaton s.i t := edge_of_getElem? hj
  obtain ⟨_, hacc⟩ := ((removeEpsilonLoop_ensures hrange he.source_lt).of_returns hloop).2 rfl
  have hrep := replaced_removeEpsilonTransition (hacc.ne he) hj
  apply (hrep.pathLanguage_eq_iff (hacc.ne he) hj).mp
  rw [pathLanguage, pathLanguage, hrep.start_eq]
  exact (hs.replaced hrep (hacc.ne he) hj).1 _

end FormalLanguages.EpsilonRemover
