import FormalLanguages.Model.Harness
import FormalLanguages.Verification.Pipeline.Output

/-! # From an automaton to a canonical regex

The regex is read off the minimised automaton, so automata with the same language give the same
regex, node for node. Different languages give different ones, except where every word of both
leads back to the start: there the converter returns the regex of all words. -/

namespace FormalLanguages

open FiniteAutomaton AutomatonToRegexConverter

variable {A S E D M M' B X : FiniteAutomaton} {x y : Regex} {order order' : IterationOrder}
  {l l' : Language CChar} {letters : OrdSet CChar}

/-! ## The passes without the optimizer -/

/-- The automata of `to_regex` up to the subset construction. -/
structure RegexFrontEnd (order : IterationOrder) (A S E D : FiniteAutomaton) : Prop where
  simplified : (AutomatonSimplifier.simplify A).Returns S
  removed : (EpsilonRemover.simplify S).Returns E
  determined : (determinePass order (AutomatonCompleter.complete E)).Returns D
  inRange : S.InRange
  isDfa : D.IsDfa
  allReachable : D.AllReachable
  alphabet_eq : D.alphabet = A.alphabet
  language_simplified : S.pathLanguage = A.pathLanguage
  language_determined : D.pathLanguage = E.pathLanguage

theorem exists_regexFrontEnd (order : IterationOrder) (hA : WellFormed A) :
    ∃ S E D, RegexFrontEnd order A S E D := by
  obtain ⟨S, E, h⟩ := exists_removal hA
  have h0 : 0 ∉ E.alphabet := by
    rw [h.alphabet_eq]
    exact hA.zero_notMem
  obtain ⟨D, hD, hdet⟩ := determinePass_complete_ensures order h.removes.inRange
    (h.removes.isSimple h.isSimple) h.epsilonFree h.lettersIn h0
  exact ⟨S, E, D, {
    simplified := h.simplified
    removed := h.removed
    determined := hD
    inRange := h.inRange
    isDfa := hdet.isDfa
    allReachable := hdet.allReachable
    alphabet_eq := hdet.alphabet_eq.trans h.alphabet_eq
    language_simplified := h.language_simplified
    language_determined := hdet.pathLanguage_eq }⟩

theorem RegexFrontEnd.language_of_harmless (h : RegexFrontEnd order A S E D)
    (hrun : ∃ S, (AutomatonSimplifier.simplify A).Returns S ∧ EpsilonRemover.StartOffCycle S ∧
      EpsilonRemover.HarmlessRun S) : D.pathLanguage = A.pathLanguage := by
  obtain ⟨S', hS', hstart, hrun⟩ := hrun
  obtain rfl := h.simplified.unique hS'
  rw [h.language_determined, ← h.language_simplified]
  exact (EpsilonRemover.pathLanguage_eq_iff_harmlessRun h.inRange hstart h.removed).mpr hrun

theorem RegexFrontEnd.toRegex_returns_iff (h : RegexFrontEnd order A S E D) :
    (toRegex order A).Returns x ↔ ∃ M, (minifyPass D).Returns M ∧
      (AutomatonCollapser.collapse M >>= convert).Returns x := by
  rw [toRegex, Comp.Returns, h.simplified.finishes_bind, h.removed.finishes_bind,
    h.determined.finishes_bind]
  exact Comp.returns_bind

/-! ## The minimised automaton -/

/-- The minimised automaton of a language that is not empty. -/
structure Minified (D M : FiniteAutomaton) : Prop where
  minified : (minifyPass D).Returns M
  isDfa : M.IsDfa
  isDeterministic : M.isDeterministic = true
  allReachable : M.AllReachable
  alphabet_eq : M.alphabet = D.alphabet
  language_eq : M.pathLanguage = D.pathLanguage
  distinguished : ∀ p < M.states.length, ∀ q < M.states.length,
    (∀ w : List CChar, (∀ c ∈ w, c ∈ M.alphabet) → (w ∈ M.residual p ↔ w ∈ M.residual q)) → p = q
  exists_final : ∃ p, M.Final p

theorem exists_minified (hD : D.IsDfa) (hreach : D.AllReachable) (hfinal : ∃ p, D.Final p) :
    ∃ M, Minified D M := by
  obtain ⟨M, I, h⟩ := exists_backEnd hD hreach hfinal
  obtain ⟨v, hmin⟩ := (minifyPass_ensures hD hfinal).of_returns h.minified
  refine ⟨M, {
    minified := h.minified
    isDfa := h.isDfa
    isDeterministic := hmin.isDeterministic hD
    allReachable := h.allReachable
    alphabet_eq := h.alphabet_eq
    language_eq := h.language_minified
    distinguished := h.distinguished
    exists_final := ?_ }⟩
  obtain ⟨p, hp⟩ := hfinal
  exact ⟨_, (hmin.final_iff hp.lt).mpr hp⟩

/-- The words of a language lead back to where they started, as far as the language can tell. -/
def InsideLeadsBack (l : Language CChar) (letters : OrdSet CChar) : Prop :=
  [] ∈ l ∧ ∀ u ∈ l, ∀ v : List CChar, (∀ c ∈ v, c ∈ letters) → (u ++ v ∈ l ↔ v ∈ l)

/-- Only the start state is final. -/
def SoleFinal (M : FiniteAutomaton) : Prop :=
  M.Final M.startStateIndex ∧ ∀ p, M.Final p → p = M.startStateIndex

theorem Minified.soleFinal_iff (h : Minified D M) :
    SoleFinal M ↔ InsideLeadsBack D.pathLanguage D.alphabet := by
  have hstart := h.isDfa.inRange.start_lt
  have hrun := fun u hu => h.isDfa.runFrom_spec hstart (w := u) hu
  have hnil : [] ∈ M.pathLanguage ↔ M.Final M.startStateIndex :=
    h.isDfa.letterLabels.nil_mem_residual
  have hmem : ∀ u : List CChar, (∀ c ∈ u, c ∈ M.alphabet) →
      (u ∈ M.pathLanguage ↔ M.Final (M.runFrom M.startStateIndex u)) := by
    intro u hu
    rw [← h.isDfa.letterLabels.nil_mem_residual, ← (hrun u hu).2 [], List.append_nil]
    rfl
  rw [← h.language_eq, ← h.alphabet_eq]
  constructor
  · intro hsole
    obtain ⟨hf, hone⟩ := hsole
    refine ⟨hnil.mpr hf, ?_⟩
    intro u hu v _
    have hover := h.isDfa.mem_alphabet_of_mem_residual hu
    have hend := hone _ ((hmem u hover).mp hu)
    have happend := (hrun u hover).2 v
    rw [hend] at happend
    exact happend
  · intro hback
    obtain ⟨hin, hlead⟩ := hback
    refine ⟨hnil.mp hin, ?_⟩
    intro p hp
    obtain ⟨u, hu, rfl⟩ := h.isDfa.exists_word (h.allReachable p hp.lt)
    apply h.distinguished _ hp.lt _ hstart
    intro v hv
    rw [← (hrun u hu).2 v]
    exact hlead u ((hmem u hu).mpr hp) v hv

/-- In the language of all words every word leads back. -/
theorem insideLeadsBack_of_all (hl : ∀ w, w ∈ l ↔ ∀ c ∈ w, c ∈ letters) :
    InsideLeadsBack l letters := by
  refine ⟨(hl []).mpr (by simp), ?_⟩
  intro u hu v hv
  refine iff_of_true ((hl _).mpr ?_) ((hl v).mpr hv)
  intro c hc
  rcases List.mem_append.mp hc with hc | hc
  · exact (hl u).mp hu c hc
  · exact hv c hc

/-! ## The regex -/

/-- The collapser leaves one state, which becomes the regex of all words. -/
theorem convert_of_soleFinal (h : AutomatonCollapser.Collapsed A B) (hletters : A.LettersIn)
    (hsole : SoleFinal A) : (convert B).Returns (alwaysTrueRegex A) := by
  have hstart : B.Final B.startStateIndex := h.start_final.mpr hsole
  have hall : ∀ p < B.states.length, p = B.startStateIndex := by
    intro p hp
    rcases h.final_or_start p hp with hf | hf
    · exact h.oneFinal p _ hf hstart
    · exact hf
  have hlen := length_eq_one_of_start h hall
  have hlt := h.tidy.inRange.start_lt
  have hzero : B.startStateIndex = 0 := by omega
  have hfinal : (B.state 0).isFinal = true := hzero ▸ hstart
  have halways : alwaysTrueRegex B = alwaysTrueRegex A := by
    rw [alwaysTrueRegex, alwaysTrueRegex, (h.keepsAlphabet hletters).2]
  apply Comp.returns_bind.mpr
  refine ⟨(), Comp.returns_assert.mpr (by simp [hlen]), ?_⟩
  apply Comp.returns_bind.mpr
  refine ⟨(), Comp.returns_assert.mpr (isEmpty_eq_false (B := B) (by omega)), ?_⟩
  simp [hlen, hfinal, halways]

/-- What `to_regex` returns for a minimised automaton. -/
structure Regexed (M : FiniteAutomaton) (x : Regex) : Prop where
  returns : (AutomatonCollapser.collapse M >>= convert).Returns x
  of_sole : SoleFinal M → x = alwaysTrueRegex M
  of_other : ¬SoleFinal M → x.language = M.pathLanguage

theorem Minified.exists_regexed (h : Minified D M) : ∃ x, Regexed M x := by
  have htidy := tidy_of_isDfa h.isDfa
  have hletters := lettersIn_of_isDfa h.isDfa
  obtain ⟨B, hB, hcollapsed⟩ := AutomatonCollapser.collapse_ensures htidy h.isDeterministic
  obtain ⟨x, hx, hconv⟩ := convert_ensures hcollapsed hletters
  refine ⟨x, Comp.returns_bind.mpr ⟨B, hB, hx⟩, ?_, ?_⟩
  · exact fun hsole => hx.unique (convert_of_soleFinal hcollapsed hletters hsole)
  · intro hnot
    have hother : ∃ p, M.Final p ∧ p ≠ M.startStateIndex := by
      by_contra hno
      push Not at hno
      obtain ⟨p, hp⟩ := h.exists_final
      exact hnot ⟨hno p hp ▸ hp, hno⟩
    obtain ⟨p, hp, hne⟩ := hother
    exact hconv.of_other_final p hp hne

/-- Only for a sole final state or for the language of all words, whose minimal automaton has
one state, the result is the regex of all words. -/
theorem Minified.soleFinal_of_eq (h : Minified D M) (hx : Regexed M x)
    (hall : x = alwaysTrueRegex M) : SoleFinal M := by
  by_contra hnot
  have hlang := hx.of_other hnot
  apply hnot
  rw [h.soleFinal_iff, ← h.language_eq, ← h.alphabet_eq]
  apply insideLeadsBack_of_all
  intro w
  constructor
  · exact h.isDfa.mem_alphabet_of_mem_residual
  · intro hw
    rw [← hlang, hall]
    apply mem_language_alwaysTrueRegex.mpr
    exact fun c hc => ⟨hw c hc, h.isDfa.ne_zero (hw c hc)⟩

theorem Regexed.eq_iff (h : Minified D M) (h' : Minified X M') (halphabet : X.alphabet = D.alphabet)
    (hsame : D.pathLanguage = X.pathLanguage → M = M') (hx : Regexed M x) (hy : Regexed M' y) :
    x = y ↔ D.pathLanguage = X.pathLanguage ∨ (SoleFinal M ∧ SoleFinal M') := by
  have halways : alwaysTrueRegex M' = alwaysTrueRegex M := by
    rw [alwaysTrueRegex, alwaysTrueRegex, h.alphabet_eq, h'.alphabet_eq, halphabet]
  constructor
  · intro heq
    by_cases hsole : SoleFinal M
    · right
      refine ⟨hsole, h'.soleFinal_of_eq hy ?_⟩
      rw [← heq, hx.of_sole hsole, halways]
    · left
      have hsole' : ¬SoleFinal M' := by
        intro hsole'
        apply hsole
        apply h.soleFinal_of_eq hx
        rw [heq, hy.of_sole hsole', halways]
      rw [← h.language_eq, ← h'.language_eq, ← hx.of_other hsole, ← hy.of_other hsole', heq]
  · intro hcases
    rcases hcases with hlang | ⟨hsole, hsole'⟩
    · obtain rfl := hsame hlang
      exact hx.returns.unique hy.returns
    · rw [hx.of_sole hsole, hy.of_sole hsole', halways]

/-- Over one alphabet `to_regex` gives equal regexes exactly for equal languages, or when in both
languages every word leads back to the start. The epsilon remover has to keep the languages for
that: it finds the start state on no epsilon cycle and replaces only harmless transitions. -/
theorem toRegex_canonical (order order' : IterationOrder) (A B : FiniteAutomaton)
    (hA : WellFormed A) (hB : WellFormed B) (halphabet : A.alphabet = B.alphabet)
    (hrunA : ∃ S, (AutomatonSimplifier.simplify A).Returns S ∧ EpsilonRemover.StartOffCycle S ∧
      EpsilonRemover.HarmlessRun S)
    (hrunB : ∃ S, (AutomatonSimplifier.simplify B).Returns S ∧ EpsilonRemover.StartOffCycle S ∧
      EpsilonRemover.HarmlessRun S)
    (hwordA : ∃ w, w ∈ A.pathLanguage) (hwordB : ∃ w, w ∈ B.pathLanguage) :
    (toRegex order A).Ensures fun x => (toRegex order' B).Ensures fun y =>
      ((x == y) = true ↔ A.pathLanguage = B.pathLanguage ∨
        (InsideLeadsBack A.pathLanguage A.alphabet ∧
          InsideLeadsBack B.pathLanguage B.alphabet)) := by
  obtain ⟨S, E, D, h⟩ := exists_regexFrontEnd order hA
  obtain ⟨S', E', D', h'⟩ := exists_regexFrontEnd order' hB
  have hlang := h.language_of_harmless hrunA
  have hlang' := h'.language_of_harmless hrunB
  have hsame : D'.alphabet = D.alphabet :=
    h'.alphabet_eq.trans (halphabet.symm.trans h.alphabet_eq.symm)
  rw [← hlang] at hwordA
  rw [← hlang'] at hwordB
  obtain ⟨M, hM⟩ := exists_minified h.isDfa h.allReachable
    ((exists_final_iff h.isDfa h.allReachable).mpr hwordA)
  obtain ⟨M', hM'⟩ := exists_minified h'.isDfa h'.allReachable
    ((exists_final_iff h'.isDfa h'.allReachable).mpr hwordB)
  obtain ⟨x, hx⟩ := hM.exists_regexed
  obtain ⟨y, hy⟩ := hM'.exists_regexed
  refine ⟨x, h.toRegex_returns_iff.mpr ⟨M, hM.minified, hx.returns⟩, y,
    h'.toRegex_returns_iff.mpr ⟨M', hM'.minified, hy.returns⟩, ?_⟩
  beta_reduce
  rw [beq_iff_eq, ← hlang, ← hlang', ← h.alphabet_eq, ← h'.alphabet_eq, ← hM.soleFinal_iff,
    ← hM'.soleFinal_iff]
  apply Regexed.eq_iff hM hM' hsame ?_ hx hy
  intro heq
  obtain ⟨N, hN, hN'⟩ := minifyPass_returns_same h.isDfa h'.isDfa h.allReachable h'.allReachable
    hsame heq.symm
  rw [hM.minified.unique hN, hM'.minified.unique hN']

/-- `*"a"_r` and `*"a"_r + "aaa"_r + "a"_r` over the letters `a` and `b`. -/
theorem toRegex_canonical_star :
    let A := (ofRegex (Regex.literal [97]).unaryStar).extendAlphabet (.insert 97 (.insert 98 ∅))
    let B := (ofRegex ((Regex.literal [97]).unaryStar + Regex.literal [97, 97, 97] +
      Regex.literal [97])).extendAlphabet (.insert 97 (.insert 98 ∅))
    (toRegex .insertion A).Ensures fun x => (toRegex .reversed B).Ensures fun y =>
      ((x == y) = true ↔ A.pathLanguage = B.pathLanguage ∨
        (InsideLeadsBack A.pathLanguage A.alphabet ∧
          InsideLeadsBack B.pathLanguage B.alphabet)) := by
  intro A B
  have hwordA : ∃ w, w ∈ A.pathLanguage := by
    rw [pathLanguage_extendAlphabet, AutomatonSimplifier.pathLanguage_ofRegex]
    exact nil_mem_language_of_nullable (by decide)
  have hwordB : ∃ w, w ∈ B.pathLanguage := by
    rw [pathLanguage_extendAlphabet, AutomatonSimplifier.pathLanguage_ofRegex]
    exact nil_mem_language_of_nullable (by decide)
  have hA : PipelineInput A := pipelineInput_ofRegex (by decide) (by decide)
  have hB : PipelineInput B := pipelineInput_ofRegex (by decide) (by decide)
  exact toRegex_canonical .insertion .reversed A B hA.toWellFormed hB.toWellFormed rfl
    (hA.exists_startOffCycle (harmlessRun_of_tame (by decide) (by decide) (by decide)))
    (hB.exists_startOffCycle (harmlessRun_of_tame (by decide) (by decide) (by decide)))
    hwordA hwordB

end FormalLanguages
