import FormalLanguages.Verification.Converter.Built
import FormalLanguages.Verification.Pipeline.Output

/-! # From a regex to an automaton and back

What the converter returns is built of letters and operators, so it is an input like any
other: it can be made into an automaton again, or be inverted again. -/

namespace FormalLanguages

open FiniteAutomaton

variable {A S E O C D M I B : FiniteAutomaton} {r x : Regex} {order : IterationOrder}
  {orders : List IterationOrder} {X letters : OrdSet CChar} {l l' : Language CChar}

/-! ## An automaton through a regex -/

/-- The words of an inverted regex, by what the inverter is given. -/
structure InvertedLanguage (letters : OrdSet CChar) (l l' : Language CChar) : Prop where
  of_all : (∀ w : List CChar, (∀ c ∈ w, c ∈ letters) → w ∈ l) → l' = 1
  of_outside : OutsideLeadsBack l letters → ∀ w, w ∈ l' ↔ ∀ c ∈ w, c ∈ letters
  of_other : (∃ w : List CChar, (∀ c ∈ w, c ∈ letters) ∧ w ∉ l) → ¬OutsideLeadsBack l letters →
    ∀ w, w ∈ l' ↔ (∀ c ∈ w, c ∈ letters) ∧ w ∉ l

/-- Of the three cases, the one that the words of `l` are in. -/
theorem InvertedLanguage.cases (h : InvertedLanguage letters l l') :
    ((∀ w : List CChar, (∀ c ∈ w, c ∈ letters) → w ∈ l) ∧ l' = 1) ∨
    (OutsideLeadsBack l letters ∧ ∀ w, w ∈ l' ↔ ∀ c ∈ w, c ∈ letters) ∨
    ((∃ w : List CChar, (∀ c ∈ w, c ∈ letters) ∧ w ∉ l) ∧ ¬OutsideLeadsBack l letters ∧
      ∀ w, w ∈ l' ↔ (∀ c ∈ w, c ∈ letters) ∧ w ∉ l) := by
  by_cases hout : ∃ w : List CChar, (∀ c ∈ w, c ∈ letters) ∧ w ∉ l
  · by_cases hback : OutsideLeadsBack l letters
    · exact .inr (.inl ⟨hback, h.of_outside hback⟩)
    · exact .inr (.inr ⟨hout, hback, h.of_other hout hback⟩)
  · push Not at hout
    exact .inl ⟨hout, h.of_all hout⟩

theorem InvertedLanguage.exists_mem (h : InvertedLanguage letters l l') : ∃ w, w ∈ l' := by
  rcases h.cases with ⟨_, rfl⟩ | ⟨_, hall⟩ | ⟨⟨w, hw⟩, _, hother⟩
  · exact ⟨[], rfl⟩
  · exact ⟨[], (hall []).mpr (by simp)⟩
  · exact ⟨w, (hother w).mpr hw⟩

theorem BackEnd.invertedLanguage (h : BackEnd D M I)
    (hx : AutomatonToRegexConverter.Converts I x) :
    InvertedLanguage D.alphabet D.pathLanguage x.language where
  of_all hall := by
    apply hx.of_not_final
    apply not_exists.mp
    rw [h.exists_final_iff]
    push Not
    exact hall
  of_outside hback w := by
    obtain ⟨hstart, hsole⟩ := h.start_final_iff.mpr hback
    rw [hx.of_start_final hstart hsole, h.inverts.alphabet_eq, ← h.alphabet_eq]
    exact forall₂_congr fun c _ => and_iff_left_of_imp h.isDfa.ne_zero
  of_other hout hnot := by
    obtain ⟨p, hp⟩ := h.exists_final_iff.mpr hout
    have hother : ∃ p, I.Final p ∧ p ≠ I.startStateIndex := by
      by_contra hno
      push Not at hno
      exact hnot (h.start_final_iff.mp ⟨hno p hp ▸ hp, hno⟩)
    obtain ⟨q, hq, hne⟩ := hother
    rw [hx.of_other_final q hq hne]
    exact fun w => h.mem_inverted

/-! ## Inverting what was inverted -/

/-- One call of `invert_regex` on the result of the other, with the same extra letters. -/
def invertRepeatedly (alphabet : OrdSet CChar) : List IterationOrder → Regex → Comp Fault Regex
  | [], regex => pure regex
  | order :: orders, regex => do
      let result ← invertRegex order regex alphabet
      invertRepeatedly alphabet orders result

theorem FrontEnd.invertRegex_finishes_iff
    (h : FrontEnd order ((ofRegex r).extendAlphabet X) S E O C D) {o : Except Fault Regex} :
    (invertRegex order r X).Finishes o ↔
      (do let M ← minifyPass D
          AutomatonCollapser.collapse (AutomatonInverter.invert M) >>=
            AutomatonToRegexConverter.convert).Finishes o := by
  rw [invertRegex, h.simplified.finishes_bind, h.removed.finishes_bind,
    h.optimized.finishes_bind]
  simp only [h.completed]
  rw [h.determined.finishes_bind]

/-- A call ends with a regex of the letters at hand where the language has words, and with the
second assertion of the converter where it has none. The regex has words again. -/
theorem invertRegex_cases (order : IterationOrder) (hr : r.noEmptyConcat = true) (h0 : 0 ∉ X) :
    ((∃ w, w ∈ r.language) →
      (invertRegex order r X).Ensures fun s =>
        Regex.Built (invertAlphabet r X) s ∧ ∃ w, w ∈ s.language) ∧
    ((¬∃ w, w ∈ r.language) → (invertRegex order r X).Throws .statesNotEmpty) := by
  have hinput := pipelineInput_ofRegex hr h0
  obtain ⟨S, E, O, C, D, h⟩ := exists_frontEnd order hinput.toWellFormed
  have hword : (∃ p, D.Final p) ↔ ∃ w, w ∈ r.language := by
    rw [exists_final_iff h.isDfa h.allReachable, h.exists_mem_iff hinput, pathLanguage_extendAlphabet,
      AutomatonSimplifier.pathLanguage_ofRegex]
  rw [← hword]
  constructor
  · intro hfinal
    obtain ⟨M, I, hb⟩ := exists_backEnd h.isDfa h.allReachable hfinal
    obtain ⟨result, hresult, hconv⟩ := hb.converts_ensures
    have hbuilt := AutomatonToRegexConverter.toRegex_built hb.isDfa_inverted hb.isDeterministic
      hresult
    rw [hb.inverts.alphabet_eq, hb.alphabet_eq, h.alphabet_eq] at hbuilt
    refine ⟨result, (invertRegex_returns_iff h).mpr ⟨M, hb.minified, ?_⟩, hbuilt,
      (hb.invertedLanguage hconv).exists_mem⟩
    rwa [hb.inverted]
  · intro hnone
    apply h.invertRegex_finishes_iff.mpr
    apply (minifyPass_of_not_final (not_exists.mp hnone)).finishes_bind.mpr
    exact throws_of_no_states D.alphabet

/-- However often a regex is inverted, all results are regexes of its letters and the extra ones
without an empty `Concat`, and all have words. So the only way to fail is that the regex given at
the start has none: the first call then fails the converter's assertion on an automaton without
states. -/
theorem invertRepeatedly_safe (orders : List IterationOrder) (r : Regex) (X : OrdSet CChar)
    (hr : r.noEmptyConcat = true) (h0 : 0 ∉ X) :
    (∃ o, (invertRepeatedly X orders r).Finishes o) ∧
    (∀ result, (invertRepeatedly X orders r).Returns result → result.noEmptyConcat = true ∧
      (∀ c ∈ result.letters, c ∈ r.letters ∨ c ∈ X) ∧
      (orders ≠ [] → ∃ w, w ∈ result.language)) ∧
    ∀ fault, (invertRepeatedly X orders r).Throws fault ↔
      fault = .statesNotEmpty ∧ orders ≠ [] ∧ ¬∃ w, w ∈ r.language := by
  induction orders generalizing r with
  | nil =>
      refine ⟨⟨_, Comp.returns_pure.mpr rfl⟩, ?_, ?_⟩
      · intro result hresult
        cases Comp.returns_pure.mp hresult
        exact ⟨hr, fun c hc => .inl hc, fun hne => absurd rfl hne⟩
      · intro fault
        apply iff_of_false
        · exact fun h => Comp.Returns.not_throws (Comp.returns_pure.mpr rfl) h
        · exact fun h => h.2.1 rfl
  | cons order orders ih =>
      obtain ⟨hends, hfails⟩ := invertRegex_cases order hr h0
      by_cases hword : ∃ w, w ∈ r.language
      · obtain ⟨s, hs, hbuilt, hsword⟩ := hends hword
        obtain ⟨⟨o, ho⟩, hresults, hthrows⟩ := ih s hbuilt.noEmptyConcat
        have hrun : ∀ o, (invertRepeatedly X (order :: orders) r).Finishes o ↔
            (invertRepeatedly X orders s).Finishes o := fun _ => hs.finishes_bind
        refine ⟨⟨o, (hrun o).mpr ho⟩, ?_, ?_⟩
        · intro result hresult
          have hrest := (hrun _).mp hresult
          obtain ⟨hok, hletters, hwords⟩ := hresults result hrest
          refine ⟨hok, fun c hc => ?_, fun _ => ?_⟩
          · rcases hletters c hc with hc | hc
            · exact mem_invertAlphabet.mp (hbuilt.mem_of_mem_letters hc)
            · exact .inr hc
          · cases orders with
            | nil =>
                cases Comp.returns_pure.mp hrest
                exact hsword
            | cons order' orders => exact hwords (List.cons_ne_nil _ _)
        · intro fault
          apply iff_of_false
          · intro hfault
            exact ((hthrows fault).mp ((hrun _).mp hfault)).2.2 hsword
          · exact fun h => h.2.2 hword
      · have hthrows : (invertRepeatedly X (order :: orders) r).Throws .statesNotEmpty :=
          Comp.throws_bind (hfails hword)
        refine ⟨⟨_, hthrows⟩, fun result hresult => absurd hthrows hresult.not_throws, ?_⟩
        intro fault
        constructor
        · intro hfault
          cases hfault.unique hthrows
          exact ⟨rfl, List.cons_ne_nil _ _, hword⟩
        · rintro ⟨rfl, _⟩
          exact hthrows

theorem invertRepeatedly_safe_mainRegex :
    (∃ o, (invertRepeatedly ∅ [.insertion, .reversed] mainRegex).Finishes o) ∧
    (∀ result, (invertRepeatedly ∅ [.insertion, .reversed] mainRegex).Returns result →
      result.noEmptyConcat = true ∧
        (∀ c ∈ result.letters, c ∈ mainRegex.letters ∨ c ∈ (∅ : OrdSet CChar)) ∧
        (([.insertion, .reversed] : List IterationOrder) ≠ [] →
          ∃ w, w ∈ result.language)) ∧
    ∀ fault, (invertRepeatedly ∅ [.insertion, .reversed] mainRegex).Throws fault ↔
      fault = .statesNotEmpty ∧ ([.insertion, .reversed] : List IterationOrder) ≠ [] ∧
        ¬∃ w, w ∈ mainRegex.language :=
  invertRepeatedly_safe [.insertion, .reversed] mainRegex ∅ (by decide) (by decide)

end FormalLanguages
