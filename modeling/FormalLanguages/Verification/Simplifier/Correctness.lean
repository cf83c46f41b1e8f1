import FormalLanguages.Verification.Simplifier.Gadgets
import FormalLanguages.Verification.Automaton.Accepts

/-! # Correctness of the simplifier -/

namespace FormalLanguages.AutomatonSimplifier

open FiniteAutomaton

variable {A B C : FiniteAutomaton} {i j p q s t : ℕ} {r : Regex} {operands : List Regex}
  {New : ℕ → Regex → ℕ → Prop}

/-! ## What rewriting preserves -/

/-- No label contains a `Concat` node with zero operands. -/
def LabelsOk (A : FiniteAutomaton) : Prop := ∀ p r q, A.Edge p r q → r.noEmptyConcat = true

/-- `B` has the states of `A`, with the same residual languages, and fresh ones. -/
structure Simplifies (A B : FiniteAutomaton) : Prop where
  length_le : A.states.length ≤ B.states.length
  start_eq : B.startStateIndex = A.startStateIndex
  final : ∀ {p}, B.Final p ↔ A.Final p
  residual_eq : ∀ {p}, p < A.states.length → B.residual p = A.residual p
  lettersIn : A.LettersIn → B.LettersIn ∧ B.alphabet = A.alphabet
  noIncoming : ∀ {p}, p < A.states.length → (∀ q r, ¬A.Edge q r p) → ∀ q r, ¬B.Edge q r p

theorem Simplifies.refl (A : FiniteAutomaton) : Simplifies A A :=
  ⟨le_rfl, rfl, Iff.rfl, fun _ => rfl, fun h => ⟨h, rfl⟩, fun _ h => h⟩

theorem Simplifies.trans (h : Simplifies A B) (h' : Simplifies B C) : Simplifies A C where
  length_le := h.length_le.trans h'.length_le
  start_eq := h'.start_eq.trans h.start_eq
  final := h'.final.trans h.final
  residual_eq hp := (h'.residual_eq (hp.trans_le h.length_le)).trans (h.residual_eq hp)
  lettersIn hA := by
    obtain ⟨hB, hAB⟩ := h.lettersIn hA
    obtain ⟨hC, hBC⟩ := h'.lettersIn hB
    exact ⟨hC, hBC.trans hAB⟩
  noIncoming hp hn := h'.noIncoming (hp.trans_le h.length_le) (h.noIncoming hp hn)

/-! ## One rewriting step -/

/-- What one call of `shorten_transition` achieves. -/
structure StepSpec (A B : FiniteAutomaton) : Prop where
  inRange : B.InRange
  labelsOk : LabelsOk B ↔ LabelsOk A
  simplifies : Simplifies A B
  weight_lt : B.totalWeight < A.totalWeight

theorem Gadget.step (g : Gadget A B New operands s t r.language) (hA : A.InRange)
    (hj : (A.state s).transitions[j]? = some ⟨r, t⟩) (hr : r ≠ Regex.empty)
    (hok : r.noEmptyConcat = true ↔ ∀ x ∈ operands, x.noEmptyConcat = true)
    (hletters : ∀ x ∈ operands, ∀ c ∈ x.letters, c ∈ r.letters)
    (hweight : Regex.weightAll operands < r.weight) : StepSpec A (B.removeTransition s j) := by
  have hedge : A.Edge s r t := edge_of_getElem? hj
  have hrop : r ∉ operands := by
    intro h
    have := Regex.weight_le_weightAll h
    omega
  have hlen := g.length_le
  refine ⟨⟨?_, ?_⟩, ?_, ⟨?_, g.start_eq, ?_, ?_, ?_, ?_⟩, ?_⟩
  · rw [start_removeTransition, length_removeTransition, g.start_eq]
    exact hA.start_lt.trans_le hlen
  · intro p x q h
    rw [length_removeTransition]
    rcases g.edge.mp h.of_removeTransition with h | h
    · exact (hA.target_lt h).trans_le hlen
    · exact (g.target h).1
  · constructor
    · intro hl p x q h
      rcases g.edge_removeTransition hj (g.edge.mpr (.inl h)) with h | ⟨_, rfl, _⟩
      · exact hl p x q h
      · refine hok.mpr fun y hy => ?_
        obtain ⟨p, q, hnew⟩ := g.operand hy
        exact hl p y q (g.edge_of_new hj hr hrop hnew)
    · intro hl p x q h
      rcases g.edge.mp h.of_removeTransition with h | h
      · exact hl p x q h
      · rcases g.label h with rfl | h
        · rfl
        · exact hok.mp (hl s r t hedge) x h
  · rwa [length_removeTransition]
  · intro p
    rw [final_removeTransition, g.final]
  · exact g.residual_eq hA hj hr hrop
  · intro hin
    have halpha := g.alphabet_eq fun x hx c hc => hin s r t hedge c (hletters x hx c hc)
    refine ⟨?_, by rw [alphabet_removeTransition, halpha]⟩
    intro p x q h c hc
    rw [alphabet_removeTransition, halpha]
    rcases g.edge.mp h.of_removeTransition with h | h
    · exact hin p x q h c hc
    · rcases g.label h with rfl | h
      · exact absurd hc Regex.notMem_letters_empty
      · exact hin s r t hedge c (hletters x h c hc)
  · intro p hp hno q x h
    rcases g.edge.mp h.of_removeTransition with h | h
    · exact hno q x h
    · rcases (g.target h).2 with rfl | hpA
      · exact hno s r hedge
      · omega
  · have := totalWeight_removeTransition (g.getElem? hj)
    have hw := g.weight
    simp only at this
    omega

/-- A long transition is rewritten without a fault, unless it is a `Concat` without operands. -/
theorem shortenTransition_ensures (hA : A.InRange)
    (hj : (A.state s).transitions[j]? = some ⟨r, t⟩) (hr : r.isCharTransition = false)
    (hne : r ≠ .concat []) : (shortenTransition A s j).Ensures (StepSpec A) := by
  have hedge : A.Edge s r t := edge_of_getElem? hj
  have hs := hedge.source_lt
  have ht := hA.target_lt hedge
  rw [shortenTransition]
  rw [hj]
  cases r with
  | char c => simp [Regex.isCharTransition] at hr
  | concat operands =>
      have hne : operands ≠ [] := fun h => hne (by rw [h])
      refine Comp.ensures_bind.mpr ((shortenConcat_ensures hne hs ht).mono ?_)
      intro B h
      rcases h with ⟨New, g⟩
      rw [← Regex.language_concat] at g
      refine Comp.ensures_pure.mpr (g.step hA hj (by simp [Regex.empty]) ?_ ?_ ?_)
      · rw [Regex.noEmptyConcat_concat, and_iff_right hne]
      · exact fun x hx c hc => Regex.mem_letters_concat.mpr ⟨x, hx, hc⟩
      · rw [Regex.weight]
        omega
  | sum operands =>
      have g := gadget_shortenSum operands hs ht
      rw [← Regex.language_sum] at g
      refine Comp.ensures_pure.mpr (g.step hA hj (by simp [Regex.empty])
        Regex.noEmptyConcat_sum ?_ ?_)
      · exact fun x hx c hc => Regex.mem_letters_sum.mpr ⟨x, hx, hc⟩
      · rw [Regex.weight]
        omega
  | star operand =>
      obtain ⟨New, g⟩ := gadget_shortenStar (r := operand) hs ht
      rw [← Regex.language_star] at g
      refine Comp.ensures_pure.mpr (g.step hA hj (by simp [Regex.empty]) ?_ ?_ ?_)
      · simp
      · simp
      · rw [Regex.weight, Regex.weightAll, Regex.weightAll]
        omega

/-! ## The search for a long transition -/

theorem findLongTransition_eq_some {l : List FiniteAutomatonState} {k : ℕ}
    (h : findLongTransition k l = some (i, j)) :
    ∃ n st u, i = k + n ∧ l[n]? = some st ∧ st.transitions[j]? = some u ∧
      u.regex.isCharTransition = false := by
  induction l generalizing k with
  | nil => simp [findLongTransition] at h
  | cons st l ih =>
      rw [findLongTransition] at h
      cases hfind : st.transitions.findIdx? (fun t => !t.regex.isCharTransition) with
      | none =>
          simp only [hfind] at h
          obtain ⟨n, st', u, rfl, hst, hu⟩ := ih h
          exact ⟨n + 1, st', u, by omega, by simpa using hst, hu⟩
      | some j' =>
          simp only [hfind, Option.some.injEq, Prod.mk.injEq] at h
          obtain ⟨rfl, rfl⟩ := h
          obtain ⟨hj, hc, _⟩ := List.findIdx?_eq_some_iff_getElem.mp hfind
          exact ⟨0, st, st.transitions[j'], rfl, rfl, List.getElem?_eq_getElem hj, by simpa using hc⟩

theorem getLongTransition_eq_some (h : getLongTransition A = some (i, j)) :
    ∃ r t, (A.state i).transitions[j]? = some ⟨r, t⟩ ∧ r.isCharTransition = false := by
  obtain ⟨n, st, u, hi, hst, hu, hc⟩ := findLongTransition_eq_some h
  obtain rfl : i = n := by omega
  refine ⟨u.regex, u.targetIndex, ?_, hc⟩
  rw [state]
  rw [List.getD_eq_getElem?_getD, hst]
  exact hu

theorem findLongTransition_eq_none {l : List FiniteAutomatonState} {k : ℕ}
    (h : findLongTransition k l = none) :
    ∀ st ∈ l, ∀ u ∈ st.transitions, u.regex.isCharTransition = true := by
  induction l generalizing k with
  | nil => simp
  | cons st l ih =>
      rw [findLongTransition] at h
      cases hfind : st.transitions.findIdx? (fun t => !t.regex.isCharTransition) with
      | none =>
          simp only [hfind] at h
          intro st' hst'
          rcases List.mem_cons.mp hst' with rfl | hst'
          · intro u hu
            simpa using List.findIdx?_eq_none_iff.mp hfind u hu
          · exact ih h st' hst'
      | some j' => simp [hfind] at h

theorem isSimple_of_getLongTransition (h : getLongTransition A = none) : A.isSimple = true := by
  rw [isSimple, List.all_eq_true]
  intro st hst
  rw [List.all_eq_true]
  exact findLongTransition_eq_none h st hst

/-! ## The worklist -/

/-- The simplifier ends with a simple automaton whose old states spell the same words. -/
theorem simplify_ensures (hA : A.InRange) (hl : LabelsOk A) :
    (simplify A).Ensures fun B => B.isSimple = true ∧ B.InRange ∧ Simplifies A B := by
  refine Comp.loop_ensures_measure (fun B => B.InRange ∧ LabelsOk B ∧ Simplifies A B)
    totalWeight ?_ ⟨hA, hl, .refl A⟩
  intro B h
  rcases h with ⟨hB, hlB, hsim⟩
  cases hlong : getLongTransition B with
  | none => exact Comp.ensures_pure.mpr ⟨isSimple_of_getLongTransition hlong, hB, hsim⟩
  | some ij =>
      obtain ⟨i, j⟩ := ij
      obtain ⟨r, t, hj, hr⟩ := getLongTransition_eq_some hlong
      have hne : r ≠ .concat [] := by
        intro h
        subst h
        exact Bool.false_ne_true (hlB i _ t (edge_of_getElem? hj))
      refine Comp.ensures_bind.mpr ((shortenTransition_ensures hB hj hr hne).mono ?_)
      intro C hC
      exact Comp.ensures_pure.mpr
        ⟨⟨hC.inRange, hC.labelsOk.mpr hlB, hsim.trans hC.simplifies⟩, hC.weight_lt⟩

/-- What every rewriting preserves holds at the end. -/
theorem simplify_invariant (Inv : FiniteAutomaton → Prop)
    (hstep : ∀ B C i j, B.InRange → Inv B → (shortenTransition B i j).Returns C → Inv C)
    (hA : A.InRange) (hl : LabelsOk A) (h : Inv A) (hB : (simplify A).Returns B) : Inv B := by
  refine Comp.loop_returns_of (fun C => C.InRange ∧ LabelsOk C ∧ Inv C) Inv ?_ ⟨hA, hl, h⟩ hB
  intro C x hinv hx
  obtain ⟨hC, hlC, hinvC⟩ := hinv
  cases hlong : getLongTransition C with
  | none =>
      simp only [hlong] at hx
      cases Comp.returns_pure.mp hx
      exact hinvC
  | some ij =>
      obtain ⟨i, j⟩ := ij
      simp only [hlong] at hx
      obtain ⟨D, hD, hx⟩ := Comp.returns_bind.mp hx
      cases Comp.returns_pure.mp hx
      obtain ⟨r, t, hj, hr⟩ := getLongTransition_eq_some hlong
      have hne : r ≠ .concat [] := by
        intro heq
        subst heq
        exact Bool.false_ne_true (hlC i _ t (edge_of_getElem? hj))
      have hspec := (shortenTransition_ensures hC hj hr hne).of_returns hD
      exact ⟨hspec.inRange, hspec.labelsOk.mpr hlC, hstep C D i j hC hinvC hD⟩

/-- A label with an empty `Concat` node is rewritten until the node is the label. -/
theorem simplify_throws (hA : A.InRange) (hl : ¬LabelsOk A) :
    (simplify A).Throws .indexOutOfRange := by
  induction hn : A.totalWeight using Nat.strong_induction_on generalizing A with
  | _ n ih =>
      subst hn
      cases hlong : getLongTransition A with
      | none =>
          refine absurd (fun p r q he => ?_) hl
          obtain ⟨c, rfl⟩ := isSimple_iff.mp (isSimple_of_getLongTransition hlong) p r q he
          rfl
      | some ij =>
          obtain ⟨i, j⟩ := ij
          obtain ⟨r, t, hj, hr⟩ := getLongTransition_eq_some hlong
          by_cases hne : r = .concat []
          · refine Comp.loop_throws ?_
            simp only [hlong, shortenTransition, hj, hne, shortenConcat]
            exact Comp.throws_bind (Comp.throws_bind (Comp.throws_throw _))
          · obtain ⟨B, hB, hspec⟩ := shortenTransition_ensures hA hj hr hne
            have hlB : ¬LabelsOk B := fun h => hl (hspec.labelsOk.mp h)
            refine Comp.loop_throws_of_next ?_ (ih _ hspec.weight_lt hspec.inRange hlB rfl)
            rw [Comp.Next]
            simp only [hlong]
            exact Comp.returns_bind.mpr ⟨B, hB, Comp.returns_pure.mpr rfl⟩

theorem Simplifies.pathLanguage_eq (h : Simplifies A B) (hA : A.InRange) :
    B.pathLanguage = A.pathLanguage := by
  rw [pathLanguage, h.start_eq, h.residual_eq hA.start_lt]
  rfl

/-! ## The automaton of a regex -/

theorem edge_ofRegex {x : Regex} :
    (FiniteAutomaton.ofRegex r).Edge p x t ↔ p = 0 ∧ x = r ∧ t = 1 := by
  rw [Edge, state, ofRegex]
  rcases p with _ | _ | p <;> simp [default]

theorem final_ofRegex : (FiniteAutomaton.ofRegex r).Final p ↔ p = 1 := by
  rw [Final, state, ofRegex]
  rcases p with _ | _ | p <;> simp [default]

theorem inRange_ofRegex (r : Regex) : (FiniteAutomaton.ofRegex r).InRange where
  start_lt := by simp [ofRegex]
  target_lt h := by
    rw [(edge_ofRegex.mp h).2.2]
    simp [ofRegex]

theorem labelsOk_ofRegex_iff : LabelsOk (FiniteAutomaton.ofRegex r) ↔ r.noEmptyConcat = true := by
  constructor
  · intro h
    exact h 0 r 1 (edge_ofRegex.mpr ⟨rfl, rfl, rfl⟩)
  · intro h p x q hx
    rwa [(edge_ofRegex.mp hx).2.1]

theorem labelsOk_ofRegex (h : r.noEmptyConcat = true) : LabelsOk (FiniteAutomaton.ofRegex r) :=
  labelsOk_ofRegex_iff.mpr h

theorem pathLanguage_ofRegex (r : Regex) :
    (FiniteAutomaton.ofRegex r).pathLanguage = r.language := by
  apply le_antisymm
  · refine FiniteAutomaton.residual_le
      (X := fun p => if p = 0 then r.language else 1) ?_ ?_ 0
    · intro p x q h
      obtain ⟨rfl, rfl, rfl⟩ := edge_ofRegex.mp h
      simp
    · intro p h
      obtain rfl := final_ofRegex.mp h
      simp
  · have hone : 1 ≤ (FiniteAutomaton.ofRegex r).residual 1 :=
      one_le_residual (final_ofRegex.mpr rfl)
    calc r.language = r.language * 1 := (mul_one _).symm
      _ ≤ r.language * (FiniteAutomaton.ofRegex r).residual 1 := mul_le_mul_right hone _
      _ ≤ (FiniteAutomaton.ofRegex r).residual 0 :=
          edge_mul_residual_le (edge_ofRegex.mpr ⟨rfl, rfl, rfl⟩)

/-- Simplification ends for every automaton whose labels have no `Concat` node with zero
operands. The result is simple and has the same path language. The simplified automaton of
a regex accepts exactly the words of its language. -/
theorem simplify_correct :
    (∀ A : FiniteAutomaton, A.InRange → LabelsOk A →
      (simplify A).Ensures fun B => B.isSimple = true ∧ B.pathLanguage = A.pathLanguage) ∧
    ∀ (r : Regex) (w : List CChar), r.noEmptyConcat = true → (∀ c ∈ w, c ≠ 0) →
      (simplify (.ofRegex r) >>= fun B => B.accepts w).Ensures fun b =>
        b = true ↔ w ∈ r.language := by
  refine ⟨fun A hA hl => (simplify_ensures hA hl).mono fun B hB =>
    ⟨hB.1, hB.2.2.pathLanguage_eq hA⟩, fun r w hr hw => Comp.ensures_bind.mpr ?_⟩
  refine (simplify_ensures (inRange_ofRegex r) (labelsOk_ofRegex hr)).mono ?_
  intro B h
  rcases h with ⟨hsimple, hB, hsim⟩
  have hlang : B.pathLanguage = r.language :=
    (hsim.pathLanguage_eq (inRange_ofRegex r)).trans (pathLanguage_ofRegex r)
  rw [← hlang]
  exact accepts_ensures hsimple hB hw

/-- The theorem at the regex `a*b`. -/
theorem simplify_correct_concat :
    (simplify (.ofRegex (.concat [.star (.char 97), .char 98]))).Ensures (fun B =>
      B.isSimple = true ∧
        B.pathLanguage = (FiniteAutomaton.ofRegex (.concat [.star (.char 97), .char 98])).pathLanguage) ∧
    (simplify (.ofRegex (.concat [.star (.char 97), .char 98])) >>= fun B => B.accepts [97, 98]).Ensures
      fun b => b = true ↔ [97, 98] ∈ (Regex.concat [.star (.char 97), .char 98]).language :=
  ⟨simplify_correct.1 _ (by decide) (labelsOk_ofRegex (by decide)),
    simplify_correct.2 _ _ (by decide) (by decide +kernel)⟩

end FormalLanguages.AutomatonSimplifier
