import FormalLanguages.Verification.Pipeline.ReadBack

/-! # Inverting again and again

Three things can come out of an inversion: the complement, all words, or the empty word alone.
The complement of the complement is the language, and a language has one regex, so after the
first call two regexes take turns. -/

namespace FormalLanguages

open FiniteAutomaton

variable {D M I D' M' I' : FiniteAutomaton} {r s t : Regex} {X letters : OrdSet CChar}
  {l l' l'' : Language CChar} {order : IterationOrder}

/-! ## The languages -/

theorem InvertedLanguage.mem_letters (h : InvertedLanguage letters l l') {w : List CChar}
    (hw : w ∈ l') : ∀ c ∈ w, c ∈ letters := by
  rcases h.cases with ⟨_, rfl⟩ | ⟨_, hall⟩ | ⟨_, _, hother⟩
  · rw [(Language.mem_one w).mp hw]
    simp
  · exact (hall w).mp hw
  · exact ((hother w).mp hw).1

theorem eq_one_of_no_letters (hnone : ∀ c, c ∉ letters) (hl : ∀ w ∈ l, ∀ c ∈ w, c ∈ letters)
    (hword : ∃ w, w ∈ l) : l = 1 := by
  have hnil : ∀ w ∈ l, w = [] := fun w hw =>
    List.eq_nil_iff_forall_not_mem.mpr fun c hc => hnone c (hl w hw c hc)
  obtain ⟨v, hv⟩ := hword
  ext w
  rw [Language.mem_one]
  constructor
  · exact hnil w
  · rintro rfl
    exact hnil v hv ▸ hv

/-- The languages that are inverted exactly when they come out of an inversion. -/
def Invertible (letters : OrdSet CChar) (l : Language CChar) : Prop :=
  (∃ w ∈ l, w ≠ []) ∧ (∃ w : List CChar, (∀ c ∈ w, c ∈ letters) ∧ w ∉ l) ∧
    ¬OutsideLeadsBack l letters

/-- The second inversion takes an invertible language back to the first one. -/
theorem InvertedLanguage.eq_of_invertible (h : InvertedLanguage letters l l')
    (h' : InvertedLanguage letters l' l'') (hl : ∀ w ∈ l, ∀ c ∈ w, c ∈ letters)
    (hinv : Invertible letters l') : l'' = l := by
  obtain ⟨⟨v, hv, hne⟩, ⟨u, hu, hout⟩, hback⟩ := hinv
  rcases h.cases with ⟨_, rfl⟩ | ⟨_, hall⟩ | ⟨_, _, hother⟩
  · exact absurd ((Language.mem_one v).mp hv) hne
  · exact absurd ((hall u).mpr hu) hout
  · ext w
    rw [h'.of_other ⟨u, hu, hout⟩ hback w, hother w]
    constructor
    · rintro ⟨hw, hnot⟩
      by_contra hwl
      exact hnot ⟨hw, hwl⟩
    · exact fun hw => ⟨hl w hw, fun hnot => hnot.2 hw⟩

/-- A language that is not invertible has another one after two inversions. -/
theorem InvertedLanguage.invertible_of_eq {c : CChar} (hc : c ∈ letters)
    (hl : ∃ w, w ∈ l) (h : InvertedLanguage letters l l')
    (h' : InvertedLanguage letters l' l) : Invertible letters l := by
  rcases h.cases with ⟨hall, rfl⟩ | ⟨hback, hall⟩ | ⟨hout, hback, hother⟩
  · have hthird := h'.of_other ⟨[c], by simpa using hc, by simp [Language.mem_one]⟩
      fun hback => hback.1 rfl
    exact absurd rfl ((hthird []).mp (hall [] (by simp))).2
  · have hone := h'.of_all fun w hw => (hall w).mpr hw
    exact absurd (hone ▸ rfl) hback.1
  · refine ⟨?_, hout, hback⟩
    by_contra hshort
    push Not at hshort
    obtain ⟨v, hv⟩ := hl
    have hnil : [] ∈ l := hshort v hv ▸ hv
    have hthird := h'.of_outside ?_
    · have hletter : [c] ∈ l := (hthird [c]).mpr (by simpa using hc)
      exact absurd (hshort _ hletter) (by simp)
    · refine ⟨fun hin => ((hother []).mp hin).2 hnil, ?_⟩
      intro u hu hnot v _
      have hul : u ∈ l := by
        by_contra hul
        exact hnot ((hother u).mpr ⟨hu, hul⟩)
      rw [hshort u hul, List.nil_append]

/-! ## A call -/

/-- A call of `invert_regex` that returns, with the automata around the minifier. -/
structure InvertRun (X : OrdSet CChar) (r : Regex) (D M I : FiniteAutomaton) (s : Regex) :
    Prop where
  backEnd : BackEnd D M I
  converted : (AutomatonCollapser.collapse I >>= AutomatonToRegexConverter.convert).Returns s
  returns : ∀ order, (invertRegex order r X).Returns s
  isDfa : D.IsDfa
  allReachable : D.AllReachable
  alphabet_eq : D.alphabet = invertAlphabet r X
  exists_mem : ∃ w, w ∈ D.pathLanguage
  language_eq : (∃ S, (AutomatonSimplifier.simplify ((ofRegex r).extendAlphabet X)).Returns S ∧
    EpsilonRemover.HarmlessRun S) → D.pathLanguage = r.language

theorem invertRun_of_returns (hr : r.noEmptyConcat = true) (h0 : 0 ∉ X)
    (hs : (invertRegex order r X).Returns s) : ∃ D M I, InvertRun X r D M I s := by
  have hinput := pipelineInput_ofRegex hr h0
  obtain ⟨S, E, O, C, D, h⟩ := exists_frontEnd order hinput.toWellFormed
  obtain ⟨M, hM, hrun⟩ := (invertRegex_returns_iff h).mp hs
  have hfinal : ∃ p, D.Final p := by
    by_contra hnone
    cases hM.unique (minifyPass_of_not_final (not_exists.mp hnone))
    exact hrun.not_throws (throws_of_no_states _)
  obtain ⟨N, I, hb⟩ := exists_backEnd h.isDfa h.allReachable hfinal
  obtain rfl := hb.minified.unique hM
  rw [hb.inverted] at hrun
  refine ⟨D, N, I, hb, hrun, ?_, h.isDfa, h.allReachable, h.alphabet_eq,
    (exists_final_iff h.isDfa h.allReachable).mp hfinal, ?_⟩
  · intro order'
    obtain ⟨S', E', O', C', D', h'⟩ := exists_frontEnd order' hinput.toWellFormed
    obtain ⟨N', hN, hN'⟩ := h.minifyPass_returns_same h'
    obtain rfl := hN.unique hM
    refine (invertRegex_returns_iff h').mpr ⟨N', hN', ?_⟩
    rwa [hb.inverted]
  · exact h.language_eq_regex hinput

theorem InvertRun.invertedLanguage (h : InvertRun X r D M I s) :
    InvertedLanguage (invertAlphabet r X) D.pathLanguage s.language := by
  rw [← h.alphabet_eq]
  exact h.backEnd.invertedLanguage (h.backEnd.converts_ensures.of_returns h.converted)

/-- The same language gives the same regex. -/
theorem InvertRun.result_eq {r' : Regex} {X' : OrdSet CChar} (h : InvertRun X r D M I s)
    (h' : InvertRun X' r' D' M' I' t) (halphabet : D'.alphabet = D.alphabet)
    (hlang : D'.pathLanguage = D.pathLanguage) : t = s := by
  obtain ⟨N, hN, hN'⟩ := minifyPass_returns_same h.isDfa h'.isDfa h.allReachable
    h'.allReachable halphabet hlang
  obtain rfl := h.backEnd.minified.unique hN
  obtain rfl := h'.backEnd.minified.unique hN'
  have hI := h.backEnd.inverted.symm.trans h'.backEnd.inverted
  have hconverted := h'.converted
  rw [← hI] at hconverted
  exact hconverted.unique h.converted

/-- The result can be inverted over the same letters, and is read rightly. -/
theorem InvertRun.again (h : InvertRun X r D M I s) :
    ∃ t D' M' I', InvertRun (invertAlphabet r X) s D' M' I' t ∧ D'.pathLanguage = s.language ∧
      invertAlphabet s (invertAlphabet r X) = invertAlphabet r X := by
  have hdfa := h.backEnd.isDfa_inverted
  have hbuilt := AutomatonToRegexConverter.toRegex_built hdfa h.backEnd.isDeterministic h.converted
  have h0 : 0 ∉ invertAlphabet r X := by
    rw [← h.alphabet_eq]
    exact fun hmem => h.isDfa.ne_zero hmem rfl
  obtain ⟨t, ht, _⟩ := (invertRegex_cases .insertion hbuilt.noEmptyConcat h0).1
    h.invertedLanguage.exists_mem
  obtain ⟨D', M', I', h'⟩ := invertRun_of_returns hbuilt.noEmptyConcat h0 ht
  refine ⟨t, D', M', I', h', ?_, extendAlphabet_of_subset ?_⟩
  · exact h'.language_eq (harmlessRun_of_secluded hbuilt.noEmptyConcat
      (IsDfa.secluded hdfa h.converted) h0)
  · intro c hc
    rw [← h.alphabet_eq, ← h.backEnd.alphabet_eq, ← h.backEnd.inverts.alphabet_eq]
    exact hbuilt.mem_of_mem_letters hc

/-! ## Many calls -/

/-- Two regexes that are each other's inverted ones take turns. -/
theorem invertRepeatedly_turns (hs : ∀ order, (invertRegex order s X).Returns t)
    (ht : ∀ order, (invertRegex order t X).Returns s) (orders : List IterationOrder) :
    (invertRepeatedly X orders s).Returns (if Even orders.length then s else t) := by
  induction orders generalizing s t with
  | nil => exact Comp.returns_pure.mpr rfl
  | cons order orders ih =>
      refine Comp.returns_bind.mpr ⟨t, hs order, ?_⟩
      simpa only [List.length_cons, Nat.even_add_one, ite_not] using ih ht hs

/-- From the first result on, repeated inversion goes back and forth between two regexes,
whatever the orders of iteration, if and only if there is no letter or the result has a word with
letters, lacks some word, and not all words it lacks lead back to the start. -/
theorem invertRepeatedly_alternates (order : IterationOrder) (r : Regex) (X : OrdSet CChar)
    (hr : r.noEmptyConcat = true) (h0 : 0 ∉ X) (s : Regex)
    (hs : (invertRegex order r X).Returns s) :
    ∃ t, (∀ order, (invertRegex order s (invertAlphabet r X)).Returns t) ∧
      ((∀ orders, (invertRepeatedly (invertAlphabet r X) orders s).Returns
          (if Even orders.length then s else t)) ↔
        (∀ c, c ∉ invertAlphabet r X) ∨ Invertible (invertAlphabet r X) s.language) := by
  obtain ⟨D, M, I, h⟩ := invertRun_of_returns hr h0 hs
  obtain ⟨t, D₂, M₂, I₂, h₂, hlang₂, halphabet₂⟩ := h.again
  obtain ⟨u, D₃, M₃, I₃, h₃, hlang₃, halphabet₃⟩ := h₂.again
  rw [halphabet₂] at h₃ halphabet₃
  have hinv₂ := h₂.invertedLanguage
  have hinv₃ := h₃.invertedLanguage
  rw [hlang₂, halphabet₂] at hinv₂
  rw [hlang₃, halphabet₃] at hinv₃
  refine ⟨t, h₂.returns, ?_⟩
  constructor
  · intro hall
    have htwice : (invertRepeatedly (invertAlphabet r X) [order, order] s).Returns u :=
      Comp.returns_bind.mpr ⟨t, h₂.returns order, Comp.returns_bind.mpr
        ⟨u, h₃.returns order, Comp.returns_pure.mpr rfl⟩⟩
    have hback : (invertRepeatedly (invertAlphabet r X) [order, order] s).Returns s := by
      simpa using hall [order, order]
    obtain rfl := hback.unique htwice
    by_cases hletter : ∃ c, c ∈ invertAlphabet r X
    · obtain ⟨c, hc⟩ := hletter
      exact .inr (hinv₂.invertible_of_eq hc h.invertedLanguage.exists_mem hinv₃)
    · exact .inl (not_exists.mp hletter)
  · intro hcases
    have hD : ∀ w ∈ D.pathLanguage, ∀ c ∈ w, c ∈ invertAlphabet r X := by
      intro w hw
      rw [← h.alphabet_eq]
      exact h.isDfa.mem_alphabet_of_mem_residual hw
    have hlang : D₃.pathLanguage = D.pathLanguage := by
      rw [hlang₃]
      rcases hcases with hnone | hinv
      · rw [eq_one_of_no_letters hnone hD h.exists_mem, eq_one_of_no_letters hnone
          (fun w => hinv₂.mem_letters) hinv₂.exists_mem]
      · exact h.invertedLanguage.eq_of_invertible hinv₂ hD hinv
    obtain rfl := h.result_eq h₃ (by rw [h₃.alphabet_eq, h.alphabet_eq, halphabet₃]) hlang
    exact invertRepeatedly_turns h₂.returns h₃.returns

/-- What is left of `"a"_r` over the letter `a`. -/
def allButA : Regex :=
  .sum [.char 0, .concat [.char 97, .concat [.char 97, .star (.sum [.char 0, .char 97])]]]

theorem invertRepeatedly_alternates_literal :
    ∃ t, (∀ order, (invertRegex order allButA (invertAlphabet (Regex.literal [97]) ∅)).Returns t) ∧
      ((∀ orders, (invertRepeatedly (invertAlphabet (Regex.literal [97]) ∅) orders allButA).Returns
          (if Even orders.length then allButA else t)) ↔
        (∀ c, c ∉ invertAlphabet (Regex.literal [97]) ∅) ∨
          Invertible (invertAlphabet (Regex.literal [97]) ∅) allButA.language) :=
  invertRepeatedly_alternates .insertion (Regex.literal [97]) ∅ (by decide) (by decide) allButA
    ⟨40, rfl⟩

end FormalLanguages
