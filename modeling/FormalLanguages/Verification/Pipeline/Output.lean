import FormalLanguages.Verification.Automaton.Printing
import FormalLanguages.Verification.Determinator.Orders
import FormalLanguages.Verification.Minifier.Canonical
import FormalLanguages.Verification.Pipeline.Tame

/-! # What the program prints

The numbers of the states of the subset automaton, and the order in which each lists its
transitions, depend on the order in which the hash map is read. The minifier numbers its classes by what they are, so from there on nothing depends on
it: what is printed is a function of the alphabet and the language. -/

namespace FormalLanguages

open FiniteAutomaton

variable {A S E O C D M I S' E' O' C' D' M' I' B : FiniteAutomaton} {r r' : Regex} {n : ℕ}
  {order order' : IterationOrder} {alphabet alphabet' : OrdSet CChar}

/-! ## The second half of the program -/

/-- What `invert_regex` does after the subset construction. -/
def invertTail (D : FiniteAutomaton) : Comp Fault (List CChar × Regex) := do
  let A ← minifyPass D
  let A := AutomatonInverter.invert A
  let output := AutomatonGraphvizPrinter.print A ++ text "\n"
  let A ← AutomatonCollapser.collapse A
  let result ← AutomatonToRegexConverter.convert A
  pure (output, result)

theorem invertRegexOutput_finishes_iff
    (h : FrontEnd order ((ofRegex r).extendAlphabet alphabet) S E O C D)
    {o : Except Fault (List CChar × Regex)} :
    (invertRegexOutput order r alphabet).Finishes o ↔ (invertTail D).Finishes o := by
  rw [invertRegexOutput, h.simplified.finishes_bind, h.removed.finishes_bind,
    h.optimized.finishes_bind]
  simp only [h.completed]
  rw [h.determined.finishes_bind, invertTail]

theorem BackEnd.invertTail_returns (h : BackEnd D M I) {result : Regex}
    (hresult : (AutomatonCollapser.collapse I >>= AutomatonToRegexConverter.convert).Returns
      result) :
    (invertTail D).Returns (AutomatonGraphvizPrinter.print I ++ text "\n", result) := by
  obtain ⟨X, hX, hresult⟩ := Comp.returns_bind.mp hresult
  apply Comp.returns_bind.mpr
  refine ⟨M, h.minified, ?_⟩
  rw [h.inverted]
  exact Comp.returns_bind.mpr ⟨X, hX, Comp.returns_bind.mpr
    ⟨result, hresult, Comp.returns_pure.mpr rfl⟩⟩

/-- Without a final state the converter fails its second assertion. -/
theorem invertTail_throws (hnone : ∀ p, ¬D.Final p) : (invertTail D).Throws .statesNotEmpty := by
  apply (minifyPass_of_not_final hnone).finishes_bind.mpr
  have hthrows := Comp.throws_bind (throws_of_no_states D.alphabet)
    (f := fun result => pure (AutomatonGraphvizPrinter.print
      (AutomatonInverter.invert ⟨D.alphabet, [], 0⟩) ++ text "\n", result))
  rwa [Comp.bind_assoc] at hthrows

theorem FrontEnd.invertTail_finishes (h : FrontEnd order A S E O C D) :
    ∃ o, (invertTail D).Finishes o := by
  by_cases hfinal : ∃ p, D.Final p
  · obtain ⟨M, I, hb⟩ := exists_backEnd h.isDfa h.allReachable hfinal
    obtain ⟨result, hresult, _⟩ := hb.converts_ensures
    exact ⟨_, hb.invertTail_returns hresult⟩
  · exact ⟨_, invertTail_throws (not_exists.mp hfinal)⟩

/-- On automata with the same language the minifier returns the same, final states or not. -/
theorem minifyPass_returns_same (hD : D.IsDfa) (hD' : D'.IsDfa) (hreach : D.AllReachable)
    (hreach' : D'.AllReachable) (halphabet : D'.alphabet = D.alphabet)
    (hlang : D'.pathLanguage = D.pathLanguage) :
    ∃ M, (minifyPass D).Returns M ∧ (minifyPass D').Returns M := by
  have hword : (∃ p, D'.Final p) ↔ ∃ p, D.Final p := by
    rw [exists_final_iff hD' hreach', exists_final_iff hD hreach, hlang]
  by_cases hfinal : ∃ p, D.Final p
  · have hmatched := AutomatonMinifier.matched hD hD' halphabet hreach hreach' hlang
    obtain ⟨B, hB, B', hB', hstates, hstart⟩ :=
      AutomatonMinifier.minify_eq hmatched hlang.symm hfinal (hword.mpr hfinal)
    refine ⟨D.assign B, Comp.returns_bind.mpr ⟨B, hB, Comp.returns_pure.mpr rfl⟩,
      Comp.returns_bind.mpr ⟨B', hB', Comp.returns_pure.mpr ?_⟩⟩
    rw [assign, assign, halphabet, hstates, hstart]
  · have hnone : ∀ p, ¬D.Final p := not_exists.mp hfinal
    have hnone' : ∀ p, ¬D'.Final p := not_exists.mp fun h => hfinal (hword.mp h)
    refine ⟨_, minifyPass_of_not_final hnone, ?_⟩
    rw [← halphabet]
    exact minifyPass_of_not_final hnone'

/-! ## The order of iteration -/

theorem FrontEnd.same (h : FrontEnd order A S E O C D) (h' : FrontEnd order' A S' E' O' C' D') :
    S' = S ∧ E' = E ∧ O' = O ∧ C' = C := by
  obtain rfl := h'.simplified.unique h.simplified
  obtain rfl := h'.removed.unique h.removed
  obtain rfl := h'.optimized.unique h.optimized
  exact ⟨rfl, rfl, rfl, h'.completed.symm.trans h.completed⟩

/-- The subset automata of two orders are equal up to the numbers of the states and the order of
each state's transitions. -/
theorem FrontEnd.renumbers (h : FrontEnd order A S E O C D)
    (h' : FrontEnd order' A S' E' O' C' D') : ∃ f, Renumbers D D' f := by
  obtain ⟨rfl, rfl, rfl, rfl⟩ := h.same h'
  obtain ⟨B, hB, hD⟩ := Comp.returns_bind.mp h.determined
  obtain ⟨B', hB', hD'⟩ := Comp.returns_bind.mp h'.determined
  cases Comp.returns_pure.mp hD
  cases Comp.returns_pure.mp hD'
  obtain ⟨f, hf⟩ := AutomatonDeterminator.renumbers_of_returns h.inRange.2.2.2 hB hB'
  exact ⟨f, hf.assign _⟩

theorem FrontEnd.minifyPass_returns_same (h : FrontEnd order A S E O C D)
    (h' : FrontEnd order' A S' E' O' C' D') :
    ∃ M, (minifyPass D).Returns M ∧ (minifyPass D').Returns M := by
  obtain ⟨rfl, rfl, rfl, rfl⟩ := h.same h'
  exact FormalLanguages.minifyPass_returns_same h.isDfa h'.isDfa h.allReachable h'.allReachable
    (h'.alphabet_eq.trans h.alphabet_eq.symm)
    (h'.language_determined.trans h.language_determined.symm)

theorem invertPass_order (hn : n ≠ 4) : invertPass order A n = invertPass order' A n := by
  match n, hn with
  | 0, _ | 1, _ | 2, _ | 3, _ | 5, _ | 6, _ | 7, _ => simp only [invertPass]
  | _ + 8, _ => simp only [invertPass]

theorem beforePass_order_le (hn : n ≤ 4) :
    beforePass order r alphabet n = beforePass order' r alphabet n := by
  induction n with
  | zero => rfl
  | succ n ih =>
      rw [beforePass, beforePass, ih (by omega)]
      congr 1
      funext A
      exact invertPass_order (by omega)

theorem beforePass_order_ge (h6 : ∃ M, (beforePass order r alphabet 6).Returns M ∧
    (beforePass order' r alphabet 6).Returns M) (hn : 6 ≤ n) :
    (beforePass order r alphabet n).Returns B ↔ (beforePass order' r alphabet n).Returns B := by
  induction n, hn using Nat.le_induction generalizing B with
  | base =>
      obtain ⟨M, hM, hM'⟩ := h6
      exact ⟨fun h => h.unique hM ▸ hM', fun h => h.unique hM' ▸ hM⟩
  | succ n hn ih =>
      rw [beforePass, beforePass, Comp.returns_bind, Comp.returns_bind]
      have hpass : ∀ A, invertPass order A n = invertPass order' A n := fun A =>
        invertPass_order (by omega)
      simp only [ih, hpass]

/-- The program ends, and whatever the order in which the entries of the hash map are met: the
automata before all passes but the minifier are the same, the subset automaton up to the
numbers of its states and the order of each state's transitions, and so is everything that is
printed. -/
theorem mainOutput_orders (order order' : IterationOrder) (r : Regex) (alphabet : OrdSet CChar)
    (hr : r.noEmptyConcat = true) (h0 : 0 ∉ alphabet) :
    (∀ pass, pass ≠ 5 → ∀ B, (beforePass order r alphabet pass).Returns B ↔
      (beforePass order' r alphabet pass).Returns B) ∧
    ((beforePass order r alphabet 5).Ensures fun B =>
      (beforePass order' r alphabet 5).Ensures fun C => ∃ f, Renumbers B C f) ∧
    ∃ o, (mainOutput order r alphabet).Finishes o ∧ (mainOutput order' r alphabet).Finishes o := by
  have hinput := pipelineInput_ofRegex hr h0
  obtain ⟨S, E, O, C, D, h⟩ := exists_frontEnd order hinput.toWellFormed
  obtain ⟨S', E', O', C', D', h'⟩ := exists_frontEnd order' hinput.toWellFormed
  obtain ⟨_, _, _, _, h5⟩ := beforePass_frontEnd h
  obtain ⟨_, _, _, _, h5'⟩ := beforePass_frontEnd h'
  obtain ⟨M, hM, hM'⟩ := h.minifyPass_returns_same h'
  refine ⟨?_, ⟨D, h5, D', h5', h.renumbers h'⟩, ?_⟩
  · intro pass hpass B
    by_cases hle : pass ≤ 4
    · rw [beforePass_order_le hle]
    · exact beforePass_order_ge
        ⟨M, returns_beforePass_succ h5 hM, returns_beforePass_succ h5' hM'⟩ (by omega)
  · obtain ⟨o, ho⟩ := h.invertTail_finishes
    have ho' : (invertTail D').Finishes o :=
      hM'.finishes_bind.mpr (hM.finishes_bind.mp ho)
    exact ⟨_, ((invertRegexOutput_finishes_iff h).mpr ho).bind_pure _,
      ((invertRegexOutput_finishes_iff h').mpr ho').bind_pure _⟩

theorem mainOutput_orders_mainRegex :
    (∀ pass, pass ≠ 5 → ∀ B,
      (beforePass .insertion mainRegex (.insert 97 (.insert 98 ∅)) pass).Returns B ↔
        (beforePass .reversed mainRegex (.insert 97 (.insert 98 ∅)) pass).Returns B) ∧
    ((beforePass .insertion mainRegex (.insert 97 (.insert 98 ∅)) 5).Ensures fun B =>
      (beforePass .reversed mainRegex (.insert 97 (.insert 98 ∅)) 5).Ensures fun C =>
        ∃ f, Renumbers B C f) ∧
    ∃ o, (mainOutput .insertion mainRegex (.insert 97 (.insert 98 ∅))).Finishes o ∧
      (mainOutput .reversed mainRegex (.insert 97 (.insert 98 ∅))).Finishes o :=
  mainOutput_orders .insertion .reversed mainRegex (.insert 97 (.insert 98 ∅)) (by decide)
    (by decide)

/-! ## Equal languages -/

/-- Inverted automata of different languages have different graphs. -/
theorem BackEnd.language_eq_of_graph_eq (h : BackEnd D M I) (h' : BackEnd D' M' I')
    (halphabet : D'.alphabet = D.alphabet)
    (hprint : AutomatonGraphvizPrinter.print I = AutomatonGraphvizPrinter.print I') :
    D'.pathLanguage = D.pathLanguage := by
  have hI := AutomatonGraphvizPrinter.pathLanguage_eq_of_print_eq h.isDfa_inverted.letterLabels
    h'.isDfa_inverted.letterLabels hprint
  ext w
  by_cases hw : ∀ c ∈ w, c ∈ D.alphabet
  · have hmem : w ∈ I.pathLanguage ↔ w ∈ I'.pathLanguage := by rw [hI]
    rw [h.mem_inverted, h'.mem_inverted, halphabet] at hmem
    tauto
  · apply iff_of_false
    · intro hm
      apply hw
      have hover := h'.mem_alphabet_of_mem hm
      rwa [h'.alphabet_eq, halphabet] at hover
    · intro hm
      apply hw
      have hover := h.mem_alphabet_of_mem hm
      rwa [h.alphabet_eq] at hover

/-- Over one alphabet the printed graph and the result are a function of the language, and the
graph alone tells languages apart. -/
theorem invertRegexOutput_canonical (order order' : IterationOrder) (r r' : Regex)
    (alphabet alphabet' : OrdSet CChar) (hr : r.noEmptyConcat = true)
    (hr' : r'.noEmptyConcat = true) (h0 : 0 ∉ alphabet) (h0' : 0 ∉ alphabet')
    (halphabet : invertAlphabet r alphabet = invertAlphabet r' alphabet')
    (hrun : ∃ S, (AutomatonSimplifier.simplify ((ofRegex r).extendAlphabet alphabet)).Returns S ∧
      EpsilonRemover.HarmlessRun S)
    (hrun' : ∃ S, (AutomatonSimplifier.simplify
      ((ofRegex r').extendAlphabet alphabet')).Returns S ∧ EpsilonRemover.HarmlessRun S)
    (hword : ∃ w, w ∈ r.language) (hword' : ∃ w, w ∈ r'.language) :
    (invertRegexOutput order r alphabet).Ensures fun p =>
      (invertRegexOutput order' r' alphabet').Ensures fun p' =>
        (p = p' ↔ r.language = r'.language) ∧ (p.1 = p'.1 ↔ r.language = r'.language) := by
  have hinput := pipelineInput_ofRegex hr h0
  have hinput' := pipelineInput_ofRegex hr' h0'
  obtain ⟨S, E, O, C, D, h⟩ := exists_frontEnd order hinput.toWellFormed
  obtain ⟨S', E', O', C', D', h'⟩ := exists_frontEnd order' hinput'.toWellFormed
  have hlang : D.pathLanguage = r.language := h.language_eq_regex hinput hrun
  have hlang' : D'.pathLanguage = r'.language := h'.language_eq_regex hinput' hrun'
  have hsame : D'.alphabet = D.alphabet :=
    h'.alphabet_eq.trans (halphabet.symm.trans h.alphabet_eq.symm)
  rw [← hlang] at hword
  rw [← hlang'] at hword'
  obtain ⟨M, I, hb⟩ := exists_backEnd h.isDfa h.allReachable
    ((exists_final_iff h.isDfa h.allReachable).mpr hword)
  obtain ⟨M', I', hb'⟩ := exists_backEnd h'.isDfa h'.allReachable
    ((exists_final_iff h'.isDfa h'.allReachable).mpr hword')
  obtain ⟨result, hresult, _⟩ := hb.converts_ensures
  obtain ⟨result', hresult', _⟩ := hb'.converts_ensures
  have hgraph : AutomatonGraphvizPrinter.print I ++ text "\n" =
      AutomatonGraphvizPrinter.print I' ++ text "\n" → r.language = r'.language := by
    intro heq
    rw [← hlang, ← hlang']
    exact (hb.language_eq_of_graph_eq hb' hsame (List.append_cancel_right heq)).symm
  have hequal : r.language = r'.language → I = I' ∧ result = result' := by
    intro heq
    rw [← hlang, ← hlang'] at heq
    obtain ⟨N, hN, hN'⟩ := minifyPass_returns_same h.isDfa h'.isDfa h.allReachable
      h'.allReachable hsame heq.symm
    obtain rfl := hb.minified.unique hN
    obtain rfl := hb'.minified.unique hN'
    have hI : I = I' := hb.inverted.symm.trans hb'.inverted
    rw [← hI] at hresult'
    exact ⟨hI, hresult.unique hresult'⟩
  refine ⟨_, (invertRegexOutput_finishes_iff h).mpr (hb.invertTail_returns hresult), _,
    (invertRegexOutput_finishes_iff h').mpr (hb'.invertTail_returns hresult'), ?_, ?_⟩
  · rw [Prod.mk.injEq]
    refine ⟨fun heq => hgraph heq.1, fun heq => ?_⟩
    obtain ⟨rfl, rfl⟩ := hequal heq
    exact ⟨rfl, rfl⟩
  · refine ⟨hgraph, fun heq => ?_⟩
    rw [(hequal heq).1]

theorem nil_mem_language_of_nullable (h : r.nullable = true) : ∃ w, w ∈ r.language :=
  ⟨[], Regex.nullable_iff.mp h⟩

/-- The regexes `a*` and `a* + aa`. -/
theorem invertRegexOutput_canonical_star :
    (invertRegexOutput .insertion (.star (.char 97)) ∅).Ensures fun p =>
      (invertRegexOutput .reversed (.sum [.star (.char 97), Regex.literal [97, 97]]) ∅).Ensures
        fun p' =>
          (p = p' ↔ (Regex.star (.char 97)).language =
            (Regex.sum [.star (.char 97), Regex.literal [97, 97]]).language) ∧
          (p.1 = p'.1 ↔ (Regex.star (.char 97)).language =
            (Regex.sum [.star (.char 97), Regex.literal [97, 97]]).language) :=
  invertRegexOutput_canonical .insertion .reversed (.star (.char 97))
    (.sum [.star (.char 97), Regex.literal [97, 97]]) ∅ ∅ (by decide) (by decide) (by decide)
    (by decide) rfl (harmlessRun_of_tame (by decide) (by decide) (by decide))
    (harmlessRun_of_tame (by decide) (by decide) (by decide))
    (nil_mem_language_of_nullable (by decide)) (nil_mem_language_of_nullable (by decide))

end FormalLanguages
