import FormalLanguages.Verification.Converter.Correctness
import FormalLanguages.Verification.Minifier.Correctness
import FormalLanguages.Verification.Pipeline.FrontEnd

/-! # Inverting a regex

The run ends without a failed assertion exactly when the language is not empty: without a
final state the minifier leaves no state at all. The result is the complement unless the
epsilon remover adds a word, the language has all words, or every word outside it leads the
minimal automaton back to its start state. -/

namespace FormalLanguages

open FiniteAutomaton

variable {A S E O C D M I B X : FiniteAutomaton} {r result : Regex} {p q n : ℕ} {v : List ℕ}
  {w : List CChar} {order : IterationOrder} {alphabet : OrdSet CChar}

/-! ## Minimisation under the old alphabet -/

theorem AutomatonMinifier.Minimal.assign (h : AutomatonMinifier.Minimal D B v) :
    AutomatonMinifier.Minimal D (D.assign B) v where
  alphabet_eq := rfl
  start_eq := h.start_eq
  number_lt := h.number_lt
  exists_number := h.exists_number
  state_eq := h.state_eq
  number_eq_iff := h.number_eq_iff

theorem minifyPass_ensures (hD : D.IsDfa) (hfinal : ∃ p, D.Final p) :
    (minifyPass D).Ensures fun M => ∃ v, AutomatonMinifier.Minimal D M v := by
  apply Comp.ensures_bind.mpr
  apply (AutomatonMinifier.minify_ensures hD hfinal).mono
  intro B hB
  obtain ⟨v, hB⟩ := hB
  exact Comp.ensures_pure.mpr ⟨v, hB.assign⟩

/-- Without a final state the refinement loop is not entered and no state is built. -/
theorem minifyPass_of_not_final (hnone : ∀ p, ¬D.Final p) :
    (minifyPass D).Returns ⟨D.alphabet, [], 0⟩ := by
  have hclass : (AutomatonMinifier.initial D).classIndices =
      (AutomatonMinifier.initial D).newClassIndices := by
    apply List.ext_getElem
    · simp [AutomatonMinifier.initial]
    · intro p hp _
      have hp : p < D.states.length := by simpa [AutomatonMinifier.initial] using hp
      have hfalse : D.states[p].isFinal = false := by
        rw [← state_of_lt hp]
        exact Bool.eq_false_iff.mpr (hnone p)
      simp [AutomatonMinifier.initial, hfalse]
  have hloop : (Comp.loop (AutomatonMinifier.refine D) (AutomatonMinifier.initial D)).Returns
      (AutomatonMinifier.initial D) := by
    apply Comp.loop_returns_step.mpr
    left
    rw [AutomatonMinifier.refine]
    rw [if_neg (not_not.mpr hclass)]
    exact Comp.returns_pure.mpr rfl
  apply Comp.returns_bind.mpr
  refine ⟨_, Comp.returns_bind.mpr ⟨_, hloop, Comp.returns_pure.mpr rfl⟩, ?_⟩
  exact Comp.returns_pure.mpr rfl

/-- The converter then fails its second assertion. -/
theorem throws_of_no_states (X : OrdSet CChar) :
    (AutomatonCollapser.collapse (AutomatonInverter.invert ⟨X, [], 0⟩) >>=
      AutomatonToRegexConverter.convert).Throws .statesNotEmpty :=
  ⟨1, rfl⟩

/-! ## The stages of the run -/

theorem returns_beforePass_succ (h : (beforePass order r alphabet n).Returns B)
    (hX : (invertPass order B n).Returns X) : (beforePass order r alphabet (n + 1)).Returns X :=
  Comp.returns_bind.mpr ⟨B, h, hX⟩

theorem beforePass_frontEnd (h : FrontEnd order ((ofRegex r).extendAlphabet alphabet) S E O C D) :
    (beforePass order r alphabet 1).Returns S ∧ (beforePass order r alphabet 2).Returns E ∧
    (beforePass order r alphabet 3).Returns O ∧ (beforePass order r alphabet 4).Returns C ∧
    (beforePass order r alphabet 5).Returns D := by
  have h0 : (beforePass order r alphabet 0).Returns ((ofRegex r).extendAlphabet alphabet) :=
    Comp.returns_pure.mpr rfl
  have h1 := returns_beforePass_succ h0 h.simplified
  have h2 := returns_beforePass_succ h1 h.removed
  have h3 := returns_beforePass_succ h2 h.optimized
  have h4 : (beforePass order r alphabet 4).Returns C :=
    returns_beforePass_succ h3 (Comp.returns_pure.mpr h.completed.symm)
  exact ⟨h1, h2, h3, h4, returns_beforePass_succ h4 h.determined⟩

/-- `invert_regex` is the conversion after the passes. -/
theorem invertRegex_returns_iff
    (h : FrontEnd order ((ofRegex r).extendAlphabet alphabet) S E O C D) :
    (invertRegex order r alphabet).Returns result ↔
      ∃ M, (minifyPass D).Returns M ∧ (AutomatonCollapser.collapse (AutomatonInverter.invert M) >>=
        AutomatonToRegexConverter.convert).Returns result := by
  rw [invertRegex]
  simp only [Comp.returns_bind]
  constructor
  · intro hrun
    obtain ⟨S', hS, E', hE, O', hO, D', hD, M, hM, hrun⟩ := hrun
    cases h.simplified.unique hS
    cases h.removed.unique hE
    cases h.optimized.unique hO
    rw [h.completed] at hD
    cases h.determined.unique hD
    exact ⟨M, hM, hrun⟩
  · intro hrun
    obtain ⟨M, hM, hrun⟩ := hrun
    refine ⟨S, h.simplified, E, h.removed, O, h.optimized, D, ?_, M, hM, hrun⟩
    rw [h.completed]
    exact h.determined

/-! ## Languages and final states -/

/-- A state that is reached and final is the end of a word. -/
theorem exists_final_iff (hD : D.IsDfa) (hreach : D.AllReachable) :
    (∃ p, D.Final p) ↔ ∃ w, w ∈ D.pathLanguage := by
  constructor
  · intro hex
    obtain ⟨p, hp⟩ := hex
    obtain ⟨w, hw, rfl⟩ := hD.exists_word (hreach p hp.lt)
    refine ⟨w ++ [], ((hD.runFrom_spec hD.inRange.start_lt hw).2 []).mpr ?_⟩
    exact hD.letterLabels.nil_mem_residual.mpr hp
  · intro hex
    obtain ⟨w, p, hp, _⟩ := hex
    exact ⟨p, hp⟩

theorem FrontEnd.exists_mem_iff (h : FrontEnd order A S E O C D) (hA : PipelineInput A) :
    (∃ w, w ∈ D.pathLanguage) ↔ ∃ w, w ∈ A.pathLanguage := by
  have hstart := hA.startOffCycle h.simplified
  rw [h.language_determined, ← h.language_simplified]
  constructor
  · intro hex
    obtain ⟨w, hw⟩ := hex
    obtain ⟨u, hu, _⟩ := h.removes.exists_sublist hstart w hw
    exact ⟨u, hu⟩
  · intro hex
    obtain ⟨w, hw⟩ := hex
    exact ⟨w, (h.removes.pathLanguage_le hstart).2 hw⟩

theorem FrontEnd.nil_mem_iff (h : FrontEnd order A S E O C D) (hA : PipelineInput A) :
    [] ∈ D.pathLanguage ↔ [] ∈ A.pathLanguage := by
  have hstart := hA.startOffCycle h.simplified
  rw [h.language_determined, ← h.language_simplified]
  constructor
  · intro hnil
    obtain ⟨u, hu, hsub⟩ := h.removes.exists_sublist hstart [] hnil
    rwa [List.sublist_nil.mp hsub] at hu
  · intro hnil
    exact (h.removes.pathLanguage_le hstart).2 hnil

/-! ## The second half of the run -/

/-- The automata after the minifier and the inverter, when some state was final. -/
structure BackEnd (D M I : FiniteAutomaton) : Prop where
  minified : (minifyPass D).Returns M
  isDfa : M.IsDfa
  allReachable : M.AllReachable
  alphabet_eq : M.alphabet = D.alphabet
  language_minified : M.pathLanguage = D.pathLanguage
  distinguished : ∀ p < M.states.length, ∀ q < M.states.length,
    (∀ w : List CChar, (∀ c ∈ w, c ∈ M.alphabet) → (w ∈ M.residual p ↔ w ∈ M.residual q)) → p = q
  inverts : AutomatonInverter.Inverts M I
  inverted : AutomatonInverter.invert M = I
  isDeterministic : I.isDeterministic = true

theorem exists_backEnd (hD : D.IsDfa) (hreach : D.AllReachable) (hfinal : ∃ p, D.Final p) :
    ∃ M I, BackEnd D M I := by
  obtain ⟨M, hM, v, hmin⟩ := minifyPass_ensures hD hfinal
  have hinv := AutomatonInverter.inverts_invert M
  refine ⟨M, _, {
    minified := hM
    isDfa := hmin.isDfa hD
    allReachable := ?_
    alphabet_eq := hmin.alphabet_eq
    language_minified := hmin.pathLanguage_eq hD
    distinguished := ?_
    inverts := hinv
    inverted := rfl
    isDeterministic := hinv.isDeterministic (hmin.isDeterministic hD) }⟩
  · intro i hi
    obtain ⟨p, hp, rfl⟩ := hmin.exists_number i hi
    exact hmin.reachable hD (hreach p hp)
  · intro i hi j hj hsame
    by_contra hne
    obtain ⟨w, hw, hdiff⟩ := hmin.distinguished hD hi hj hne
    rw [← hmin.alphabet_eq] at hw
    exact hdiff (hsame w hw)

theorem BackEnd.isDfa_inverted (h : BackEnd D M I) : I.IsDfa := h.inverts.isDfa h.isDfa

theorem BackEnd.mem_inverted (h : BackEnd D M I) :
    w ∈ I.pathLanguage ↔ (∀ c ∈ w, c ∈ D.alphabet) ∧ w ∉ D.pathLanguage := by
  rw [h.inverts.mem_pathLanguage h.isDfa, h.alphabet_eq, h.language_minified]

theorem BackEnd.final_iff (h : BackEnd D M I) (hp : p < M.states.length) :
    I.Final p ↔ ¬M.Final p :=
  h.inverts.final hp

theorem BackEnd.exists_final_iff (h : BackEnd D M I) :
    (∃ p, I.Final p) ↔ ∃ w : List CChar, (∀ c ∈ w, c ∈ D.alphabet) ∧ w ∉ D.pathLanguage := by
  have hreach : I.AllReachable := by
    intro p hp
    rw [h.inverts.length_eq] at hp
    have hreachM := h.allReachable p hp
    rw [Reachable] at hreachM ⊢
    rw [h.inverts.start_eq]
    refine Relation.ReflTransGen.mono ?_ _ _ hreachM
    intro x y hxy
    obtain ⟨l, he⟩ := hxy
    exact ⟨l, h.inverts.edge.mpr he⟩
  rw [FormalLanguages.exists_final_iff h.isDfa_inverted hreach]
  simp only [h.mem_inverted]

/-- The words outside a language lead back to where they started, as far as the language can
tell. -/
def OutsideLeadsBack (l : Language CChar) (letters : OrdSet CChar) : Prop :=
  [] ∉ l ∧ ∀ u : List CChar, (∀ c ∈ u, c ∈ letters) → u ∉ l →
    ∀ v : List CChar, (∀ c ∈ v, c ∈ letters) → (u ++ v ∈ l ↔ v ∈ l)

/-- The start state is the only final one after inversion exactly when all words outside the
language lead back to it. -/
theorem BackEnd.start_final_iff (h : BackEnd D M I) :
    (I.Final I.startStateIndex ∧ ∀ p, I.Final p → p = I.startStateIndex) ↔
      OutsideLeadsBack D.pathLanguage D.alphabet := by
  have hstart := h.isDfa.inRange.start_lt
  have hrun := fun u hu => h.isDfa.runFrom_spec hstart (w := u) hu
  have hnil : [] ∈ M.pathLanguage ↔ M.Final M.startStateIndex :=
    h.isDfa.letterLabels.nil_mem_residual
  -- the state a word leads to is final exactly when the word is accepted
  have hmem : ∀ u : List CChar, (∀ c ∈ u, c ∈ M.alphabet) →
      (u ∈ M.pathLanguage ↔ M.Final (M.runFrom M.startStateIndex u)) := by
    intro u hu
    rw [← h.isDfa.letterLabels.nil_mem_residual, ← (hrun u hu).2 [], List.append_nil]
    rfl
  rw [h.inverts.start_eq, h.final_iff hstart, ← h.language_minified, ← h.alphabet_eq]
  constructor
  · intro hsole
    obtain ⟨hnot, hone⟩ := hsole
    refine ⟨fun hn => hnot (hnil.mp hn), ?_⟩
    intro u hu hout v _
    have hlt := (hrun u hu).1
    have hend : M.runFrom M.startStateIndex u = M.startStateIndex := by
      apply hone
      exact (h.final_iff hlt).mpr fun hf => hout ((hmem u hu).mpr hf)
    have happend := (hrun u hu).2 v
    rw [hend] at happend
    exact happend
  · intro hback
    obtain ⟨hnot, hlead⟩ := hback
    refine ⟨fun hf => hnot (hnil.mpr hf), ?_⟩
    intro p hp
    have hplt : p < M.states.length := by
      have := hp.lt
      rwa [h.inverts.length_eq] at this
    obtain ⟨u, hu, rfl⟩ := h.isDfa.exists_word (h.allReachable p hplt)
    have hout : u ∉ M.pathLanguage := fun hm =>
      (h.final_iff hplt).mp hp ((hmem u hu).mp hm)
    apply h.distinguished _ hplt _ hstart
    intro v hv
    rw [← (hrun u hu).2 v]
    exact hlead u hu hout v hv

/-- The regex at the end of the run, in terms of the inverted automaton. -/
theorem BackEnd.converts_ensures (h : BackEnd D M I) :
    (AutomatonCollapser.collapse I >>= AutomatonToRegexConverter.convert).Ensures
      (AutomatonToRegexConverter.Converts I) :=
  AutomatonToRegexConverter.toRegex_ensures
    (AutomatonToRegexConverter.tidy_of_isDfa h.isDfa_inverted)
    (AutomatonToRegexConverter.lettersIn_of_isDfa h.isDfa_inverted) h.isDeterministic

/-! ## When nothing fails -/

theorem beforePass_backEnd (hD : (beforePass order r alphabet 5).Returns D) (h : BackEnd D M I) :
    (beforePass order r alphabet 6).Returns M ∧ (beforePass order r alphabet 7).Returns I := by
  have h6 := returns_beforePass_succ hD h.minified
  exact ⟨h6, returns_beforePass_succ h6 (Comp.returns_pure.mpr h.inverted.symm)⟩

/-- Before every pass all indices are in range and no assertion fails, if and only if some
word is in the language. -/
theorem invertRegex_safe_iff (order : IterationOrder) (r : Regex) (alphabet : OrdSet CChar)
    (hr : r.noEmptyConcat = true) (h0 : 0 ∉ alphabet) :
    ((∀ pass ≤ 8, (beforePass order r alphabet pass).Ensures InRange) ∧
      ∃ result, (invertRegex order r alphabet).Returns result) ↔ ∃ w, w ∈ r.language := by
  have hinput := pipelineInput_ofRegex hr h0
  obtain ⟨S, E, O, C, D, h⟩ := exists_frontEnd order hinput.toWellFormed
  obtain ⟨h1, h2, h3, h4, h5⟩ := beforePass_frontEnd h
  have hword : (∃ p, D.Final p) ↔ ∃ w, w ∈ r.language := by
    rw [exists_final_iff h.isDfa h.allReachable, h.exists_mem_iff hinput, pathLanguage_extendAlphabet,
      AutomatonSimplifier.pathLanguage_ofRegex]
  rw [← hword]
  constructor
  · intro hsafe
    by_contra hnone
    push Not at hnone
    have hrange := (hsafe.1 6 (by decide)).of_returns
      (returns_beforePass_succ h5 (minifyPass_of_not_final hnone))
    exact Nat.not_lt_zero _ hrange.start_lt
  · intro hfinal
    obtain ⟨M, I, hb⟩ := exists_backEnd h.isDfa h.allReachable hfinal
    obtain ⟨h6, h7⟩ := beforePass_backEnd h5 hb
    obtain ⟨hrS, hrE, hrO, hrC⟩ := h.inRange
    have htidy := AutomatonToRegexConverter.tidy_of_isDfa hb.isDfa_inverted
    obtain ⟨B, hB, hcollapsed⟩ := AutomatonCollapser.collapse_ensures htidy hb.isDeterministic
    constructor
    · intro pass hpass
      have hcases : pass = 0 ∨ pass = 1 ∨ pass = 2 ∨ pass = 3 ∨ pass = 4 ∨ pass = 5 ∨ pass = 6 ∨
          pass = 7 ∨ pass = 8 := by omega
      rcases hcases with rfl | rfl | rfl | rfl | rfl | rfl | rfl | rfl | rfl
      · exact Comp.ensures_pure.mpr hinput.inRange
      · exact ⟨S, h1, hrS⟩
      · exact ⟨E, h2, hrE⟩
      · exact ⟨O, h3, hrO⟩
      · exact ⟨C, h4, hrC⟩
      · exact ⟨D, h5, h.isDfa.inRange⟩
      · exact ⟨M, h6, hb.isDfa.inRange⟩
      · exact ⟨I, h7, hb.isDfa_inverted.inRange⟩
      · exact ⟨B, returns_beforePass_succ h7 hB, hcollapsed.tidy.inRange⟩
    · obtain ⟨result, hresult, _⟩ := hb.converts_ensures
      refine ⟨result, (invertRegex_returns_iff h).mpr ⟨M, hb.minified, ?_⟩⟩
      rwa [hb.inverted]

theorem invertRegex_safe_iff_zero :
    ((∀ pass ≤ 8, (beforePass .insertion Regex.zero ∅ pass).Ensures InRange) ∧
      ∃ result, (invertRegex .insertion Regex.zero ∅).Returns result) ↔
    ∃ w, w ∈ Regex.zero.language :=
  invertRegex_safe_iff .insertion Regex.zero ∅ (by decide) (by decide)

/-- Inverting the regex without words fails an assertion of the converter. -/
theorem invertRegex_zero :
    (Regex.zero.noEmptyConcat = true ∧ 0 ∉ (∅ : OrdSet CChar)) ∧
    (invertRegex .insertion Regex.zero ∅).Throws .statesNotEmpty ∧
    ¬((∀ pass ≤ 8, (beforePass .insertion Regex.zero ∅ pass).Ensures InRange) ∧
      ∃ result, (invertRegex .insertion Regex.zero ∅).Returns result) := by
  have hthrows : (invertRegex .insertion Regex.zero ∅).Throws .statesNotEmpty := ⟨20, rfl⟩
  refine ⟨by decide, hthrows, ?_⟩
  intro h
  obtain ⟨result, hresult⟩ := h.2
  exact hresult.not_throws hthrows

/-! ## When the result is the complement -/

/-- The letters of the regex and the extra ones. -/
def invertAlphabet (r : Regex) (alphabet : OrdSet CChar) : OrdSet CChar :=
  ((ofRegex r).extendAlphabet alphabet).alphabet

theorem mem_invertAlphabet {c : CChar} :
    c ∈ invertAlphabet r alphabet ↔ c ∈ r.letters ∨ c ∈ alphabet :=
  mem_alphabet_extendAlphabet

/-- `w` is a word over the letters of the regex and the extra ones that is not in its
language. -/
def InComplement (r : Regex) (alphabet : OrdSet CChar) (w : List CChar) : Prop :=
  (∀ c ∈ w, c ∈ r.letters ∨ c ∈ alphabet) ∧ w ∉ r.language

theorem BackEnd.mem_alphabet_of_mem (h : BackEnd D M I) {w : List CChar}
    (hw : w ∈ D.pathLanguage) : ∀ c ∈ w, c ∈ M.alphabet := by
  rw [← h.language_minified] at hw
  exact h.isDfa.mem_alphabet_of_mem_residual hw

/-- When only the start state is final the regex has all words, also one of the language. -/
theorem BackEnd.not_complement_of_sole (h : BackEnd D M I)
    (hresult : AutomatonToRegexConverter.Converts I result) {l : Language CChar}
    (hsole : I.Final I.startStateIndex ∧ ∀ p, I.Final p → p = I.startStateIndex)
    (hsub : l ≤ D.pathLanguage) (hl : ∃ w, w ∈ l) :
    ¬∀ w, w ∈ result.language ↔ (∀ c ∈ w, c ∈ D.alphabet) ∧ w ∉ l := by
  intro hcomp
  obtain ⟨w, hw⟩ := hl
  have hall : w ∈ result.language := by
    apply (hresult.of_start_final hsole.1 hsole.2 w).mpr
    intro c hc
    have hcM := h.mem_alphabet_of_mem (hsub hw) c hc
    exact ⟨h.inverts.alphabet_eq ▸ hcM, h.isDfa.ne_zero hcM⟩
  exact ((hcomp w).mp hall).2 hw

/-- When another state is final the regex has the language of the inverted automaton. -/
theorem BackEnd.complement_iff_of_other (h : BackEnd D M I)
    (hresult : AutomatonToRegexConverter.Converts I result) {l : Language CChar}
    (hfinal : ∃ p, I.Final p)
    (hsole : ¬(I.Final I.startStateIndex ∧ ∀ p, I.Final p → p = I.startStateIndex))
    (hsub : l ≤ D.pathLanguage) :
    (∀ w, w ∈ result.language ↔ (∀ c ∈ w, c ∈ D.alphabet) ∧ w ∉ l) ↔ D.pathLanguage = l := by
  have hother : ∃ p, I.Final p ∧ p ≠ I.startStateIndex := by
    by_contra hno
    push Not at hno
    obtain ⟨p, hp⟩ := hfinal
    exact hsole ⟨hno p hp ▸ hp, hno⟩
  obtain ⟨p, hp, hne⟩ := hother
  rw [hresult.of_other_final p hp hne]
  simp only [h.mem_inverted]
  constructor
  · intro hcomp
    apply le_antisymm
    · rw [language_le_iff]
      intro w hw
      have hover := h.mem_alphabet_of_mem hw
      rw [h.alphabet_eq] at hover
      by_contra hno
      exact ((hcomp w).mpr ⟨hover, hno⟩).2 hw
    · exact hsub
  · intro heq w
    rw [heq]

/-- When no state is final every word over the alphabet is accepted before the inversion. -/
theorem BackEnd.mem_of_not_final (h : BackEnd D M I) (hfinal : ¬∃ p, I.Final p)
    {w : List CChar} (hw : ∀ c ∈ w, c ∈ D.alphabet) : w ∈ D.pathLanguage := by
  by_contra hno
  exact hfinal (h.exists_final_iff.mpr ⟨w, hw, hno⟩)

/-- When no state is final the regex has the empty word, which the language has too. -/
theorem BackEnd.not_complement_of_not_final (h : BackEnd D M I)
    (hresult : AutomatonToRegexConverter.Converts I result) {l : Language CChar}
    (hfinal : ¬∃ p, I.Final p) (hnil : [] ∈ D.pathLanguage → [] ∈ l) :
    ¬∀ w, w ∈ result.language ↔ (∀ c ∈ w, c ∈ D.alphabet) ∧ w ∉ l := by
  intro hcomp
  have hmem : [] ∈ result.language := by
    rw [hresult.of_not_final (not_exists.mp hfinal)]
    rfl
  exact ((hcomp []).mp hmem).2 (hnil (h.mem_of_not_final hfinal (by simp)))

theorem BackEnd.language_eq_iff (h : BackEnd D M I)
    (hresult : AutomatonToRegexConverter.Converts I result) {l : Language CChar}
    (hsub : l ≤ D.pathLanguage) (hnil : [] ∈ D.pathLanguage → [] ∈ l)
    (hl : ∃ w, w ∈ l) :
    (∀ w, w ∈ result.language ↔ (∀ c ∈ w, c ∈ D.alphabet) ∧ w ∉ l) ↔
      D.pathLanguage = l ∧ (∃ w : List CChar, (∀ c ∈ w, c ∈ D.alphabet) ∧ w ∉ l) ∧
        ¬OutsideLeadsBack l D.alphabet := by
  by_cases hfinal : ∃ p, I.Final p
  · by_cases hsole : I.Final I.startStateIndex ∧ ∀ p, I.Final p → p = I.startStateIndex
    · have hback := h.start_final_iff.mp hsole
      refine iff_of_false (h.not_complement_of_sole hresult hsole hsub hl) ?_
      intro hcond
      obtain ⟨heq, _, hnot⟩ := hcond
      rw [heq] at hback
      exact hnot hback
    · rw [h.complement_iff_of_other hresult hfinal hsole hsub]
      constructor
      · intro heq
        refine ⟨heq, ?_, ?_⟩
        · rw [← heq]
          exact h.exists_final_iff.mp hfinal
        · rw [← heq]
          exact fun hback => hsole (h.start_final_iff.mpr hback)
      · exact fun hcond => hcond.1
  · refine iff_of_false (h.not_complement_of_not_final hresult hfinal hnil) ?_
    intro hcond
    obtain ⟨heq, ⟨w, hw, hno⟩, _⟩ := hcond
    rw [← heq] at hno
    exact hno (h.mem_of_not_final hfinal hw)

/-- The result of `invert_regex` has exactly the words outside the language, if and only if
every epsilon replacement of the run is harmless, the language is neither empty nor has all
words, and not every word outside it leads back to the start. -/
theorem invertRegex_correct_iff (order : IterationOrder) (r : Regex) (alphabet : OrdSet CChar)
    (hr : r.noEmptyConcat = true) (h0 : 0 ∉ alphabet) :
    ((invertRegex order r alphabet).Ensures fun result =>
        ∀ w, w ∈ result.language ↔ InComplement r alphabet w) ↔
      (∃ S, (AutomatonSimplifier.simplify ((ofRegex r).extendAlphabet alphabet)).Returns S ∧
        EpsilonRemover.HarmlessRun S) ∧
      (∃ w, w ∈ r.language) ∧ (∃ w, InComplement r alphabet w) ∧
      ¬OutsideLeadsBack r.language (invertAlphabet r alphabet) := by
  have hinput := pipelineInput_ofRegex hr h0
  obtain ⟨S, E, O, C, D, h⟩ := exists_frontEnd order hinput.toWellFormed
  have hlang : ((ofRegex r).extendAlphabet alphabet).pathLanguage = r.language :=
    AutomatonSimplifier.pathLanguage_ofRegex r
  have hword : (∃ p, D.Final p) ↔ ∃ w, w ∈ r.language := by
    rw [exists_final_iff h.isDfa h.allReachable, h.exists_mem_iff hinput, hlang]
  have halphabet : D.alphabet = invertAlphabet r alphabet := h.alphabet_eq
  have hcomplement : ∀ w, InComplement r alphabet w ↔
      (∀ c ∈ w, c ∈ D.alphabet) ∧ w ∉ r.language := by
    intro w
    rw [halphabet]
    simp only [mem_invertAlphabet]
    rfl
  have hstart := hinput.startOffCycle h.simplified
  rw [← h.harmlessRun_iff, ← h.language_eq_iff hstart, hlang, ← hword]
  simp only [hcomplement]
  by_cases hfinal : ∃ p, D.Final p
  · obtain ⟨M, I, hb⟩ := exists_backEnd h.isDfa h.allReachable hfinal
    obtain ⟨result, hresult, hconv⟩ := hb.converts_ensures
    have hreturns : (invertRegex order r alphabet).Returns result := by
      apply (invertRegex_returns_iff h).mpr
      refine ⟨M, hb.minified, ?_⟩
      rwa [hb.inverted]
    have hsub : r.language ≤ D.pathLanguage := by
      rw [← hlang, ← h.language_simplified, h.language_determined]
      exact (h.removes.pathLanguage_le hstart).2
    have hiff := hb.language_eq_iff hconv hsub (fun hn => hlang ▸ (h.nil_mem_iff hinput).mp hn)
      (hword.mp hfinal)
    rw [halphabet, ← h.language_determined]
    rw [halphabet] at hiff
    constructor
    · intro hens
      obtain ⟨heq, hex, hnot⟩ := hiff.mp (hens.of_returns hreturns)
      exact ⟨heq, hfinal, hex, hnot⟩
    · intro hcond
      obtain ⟨heq, _, hex, hnot⟩ := hcond
      exact ⟨result, hreturns, hiff.mpr ⟨heq, hex, hnot⟩⟩
  · apply iff_of_false
    · intro hens
      push Not at hfinal
      obtain ⟨result, hreturns, _⟩ := hens
      obtain ⟨M, hM, hrun⟩ := (invertRegex_returns_iff h).mp hreturns
      cases hM.unique (minifyPass_of_not_final hfinal)
      exact hrun.not_throws (throws_of_no_states _)
    · exact fun hcond => hfinal hcond.2.1

theorem invertRegex_correct_iff_star :
    ((invertRegex .insertion (.star (.char 97)) ∅).Ensures fun result =>
        ∀ w, w ∈ result.language ↔ InComplement (.star (.char 97)) ∅ w) ↔
      (∃ S, (AutomatonSimplifier.simplify
        ((ofRegex (.star (.char 97))).extendAlphabet ∅)).Returns S ∧
        EpsilonRemover.HarmlessRun S) ∧
      (∃ w, w ∈ (Regex.star (.char 97)).language) ∧
      (∃ w, InComplement (.star (.char 97)) ∅ w) ∧
      ¬OutsideLeadsBack (Regex.star (.char 97)).language (invertAlphabet (.star (.char 97)) ∅) :=
  invertRegex_correct_iff .insertion (.star (.char 97)) ∅ (by decide) (by decide)

/-- The result for `a*`, which has all words over its letters, has the empty word. -/
theorem invertRegex_star :
    ((Regex.star (.char 97)).noEmptyConcat = true ∧ 0 ∉ (∅ : OrdSet CChar)) ∧
    ¬(invertRegex .insertion (.star (.char 97)) ∅).Ensures fun result =>
      ∀ w, w ∈ result.language ↔ InComplement (.star (.char 97)) ∅ w := by
  refine ⟨by decide, ?_⟩
  intro h
  have hresult : (invertRegex .insertion (.star (.char 97)) ∅).Returns Regex.empty := ⟨30, rfl⟩
  have hnil : [] ∈ Regex.empty.language := by
    rw [Regex.language_empty]
    rfl
  have hstar : [] ∈ (Regex.star (.char 97)).language := by
    rw [Regex.language_star]
    exact Language.nil_mem_kstar _
  exact ((h.of_returns hresult []).mp hnil).2 hstar

end FormalLanguages
