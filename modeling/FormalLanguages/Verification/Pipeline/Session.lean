import FormalLanguages.Verification.Converter.Built
import FormalLanguages.Verification.Pipeline.Harness
import FormalLanguages.Verification.Pipeline.ToRegex

/-! # Programs over the passes

`invert_regex`, `to_regex` and the tests run the passes in different orders. Some orders fail
an assertion or lose the language. Which ones do not can be told from the four predicates of
`FiniteAutomaton`, without running anything. -/

namespace FormalLanguages

open FiniteAutomaton

variable {A B C D M : FiniteAutomaton} {l : Language CChar} {X : OrdSet CChar}
  {order : IterationOrder} {p q x : ℕ} {c : CChar}

inductive Pass where
  | simplify
  | removeEpsilon
  | optimize
  | complete
  | determine (order : IterationOrder)
  | minify
  | invert
  | collapse

namespace Pass

def run (A : FiniteAutomaton) : Pass → Comp Fault FiniteAutomaton
  | simplify => AutomatonSimplifier.simplify A
  | removeEpsilon => EpsilonRemover.simplify A
  | optimize => AutomatonOptimizer.optimize A
  | complete => pure (AutomatonCompleter.complete A)
  | determine order => determinePass order A
  | minify => minifyPass A
  | invert => pure (AutomatonInverter.invert A)
  | collapse => AutomatonCollapser.collapse A

def runAll : List Pass → FiniteAutomaton → Comp Fault FiniteAutomaton
  | [], A => pure A
  | pass :: passes, A => do
      let A ← pass.run A
      runAll passes A

end Pass

theorem invertRegex_eq_runAll (order : IterationOrder) (r : Regex) (X : OrdSet CChar) :
    invertRegex order r X =
      Pass.runAll [.simplify, .removeEpsilon, .optimize, .complete, .determine order, .minify,
        .invert, .collapse] ((ofRegex r).extendAlphabet X) >>=
          AutomatonToRegexConverter.convert := by
  simp only [invertRegex, Pass.runAll, Pass.run, Comp.bind_assoc, Comp.pure_bind]

theorem toRegex_eq_runAll (order : IterationOrder) (A : FiniteAutomaton) :
    toRegex order A =
      Pass.runAll [.simplify, .removeEpsilon, .complete, .determine order, .minify, .collapse]
        A >>= AutomatonToRegexConverter.convert := by
  simp only [toRegex, Pass.runAll, Pass.run, Comp.bind_assoc, Comp.pure_bind]

/-! ## The checker -/

/-- What is known of `is_simple`, `!has_epsilon_transitions`, `is_complete` and
`is_deterministic`. -/
structure Shape where
  simple : Bool
  epsilonFree : Bool
  complete : Bool
  deterministic : Bool
  deriving DecidableEq

namespace Pass

/-- What the pass needs to know: its assertions, and what it relies on without asserting it. -/
def permitted (s : Shape) : Pass → Bool
  | simplify => true
  | removeEpsilon => s.simple
  | optimize => true
  | complete => true
  | determine _ => s.epsilonFree && s.complete
  | minify => s.epsilonFree && s.complete && s.deterministic
  | invert => s.epsilonFree && s.complete && s.deterministic
  | collapse => s.deterministic

/-- What is known after the pass. -/
def shape (s : Shape) : Pass → Shape
  | simplify => if s.simple then s else ⟨true, false, false, false⟩
  | removeEpsilon => if s.epsilonFree then s else ⟨true, true, false, false⟩
  | optimize => s
  | complete => { s with complete := s.simple }
  | determine _ => ⟨true, true, true, true⟩
  | minify => ⟨true, true, true, true⟩
  | invert => s
  | collapse => ⟨false, false, false, false⟩

def allPermitted : List Pass → Shape → Bool
  | [], _ => true
  | pass :: passes, s => pass.permitted s && allPermitted passes (pass.shape s)

def shapeAfter : List Pass → Shape → Shape
  | [], s => s
  | pass :: passes, s => shapeAfter passes (pass.shape s)

/-- The language after the pass, over the letters `X`. -/
def language (X : OrdSet CChar) (l : Language CChar) : Pass → Language CChar
  | invert => {w | (∀ c ∈ w, c ∈ X) ∧ w ∉ l}
  | _ => l

def languageAfter (X : OrdSet CChar) : List Pass → Language CChar → Language CChar
  | [], l => l
  | pass :: passes, l => languageAfter X passes (pass.language X l)

end Pass

/-- What is known is true. -/
structure Meets (A : FiniteAutomaton) (s : Shape) : Prop where
  simple : s.simple = true → A.isSimple = true
  epsilonFree : s.epsilonFree = true → A.hasEpsilonTransitions = false
  complete : s.complete = true → A.isComplete = true
  deterministic : s.deterministic = true → A.isDeterministic = true

/-- What no predicate of the automaton tells: the minifier meets an automaton with words, and
the epsilon remover one without epsilon cycles through its start state, of which it replaces
only harmless transitions. -/
structure Pass.Fair (pass : Pass) (A : FiniteAutomaton) : Prop where
  word : pass = .minify → ∃ w, w ∈ A.pathLanguage
  startOffCycle : pass = .removeEpsilon → EpsilonRemover.StartOffCycle A
  harmless : pass = .removeEpsilon → EpsilonRemover.HarmlessRun A

/-- Every pass of the run is fair. -/
def Pass.AllFair : List Pass → FiniteAutomaton → Prop
  | [], _ => True
  | pass :: passes, A => pass.Fair A ∧ ∀ B, (pass.run A).Returns B → AllFair passes B

/-! ## One pass -/

/-- What a permitted and fair pass makes of the automaton. -/
structure PassSpec (pass : Pass) (s : Shape) (A B : FiniteAutomaton) : Prop where
  wellFormed : WellFormed B
  meets : Meets B (pass.shape s)
  alphabet_eq : B.alphabet = A.alphabet
  pathLanguage_eq : B.pathLanguage = pass.language A.alphabet A.pathLanguage

theorem labelsOk_of_isSimple (h : A.isSimple = true) : AutomatonSimplifier.LabelsOk A := by
  intro p r q he
  obtain ⟨c, rfl⟩ := isSimple_iff.mp h p r q he
  rfl

theorem wellFormed_of_isSimple (hA : A.InRange) (hsimple : A.isSimple = true)
    (hletters : A.LettersIn) (h0 : 0 ∉ A.alphabet) : WellFormed A :=
  ⟨hA, labelsOk_of_isSimple hsimple, hletters, h0⟩

theorem FiniteAutomaton.IsDfa.wellFormed (h : A.IsDfa) (h0 : 0 ∉ A.alphabet) : WellFormed A :=
  wellFormed_of_isSimple h.inRange h.isSimple (AutomatonToRegexConverter.lettersIn_of_isDfa h) h0

theorem FiniteAutomaton.IsDfa.meets (h : A.IsDfa) (hdet : A.isDeterministic = true) (s : Shape) :
    Meets A s where
  simple _ := h.isSimple
  epsilonFree _ := (letterLabels_iff.mp h.letterLabels).2
  complete _ := h.isComplete
  deterministic _ := hdet

theorem PassSpec.refl {pass : Pass} {s : Shape} (hA : WellFormed A)
    (hs : Meets A (pass.shape s)) (hl : pass.language A.alphabet A.pathLanguage = A.pathLanguage) :
    PassSpec pass s A A :=
  ⟨hA, hs, rfl, hl.symm⟩

theorem WellFormed.isDfa (hA : WellFormed A) {s : Shape} (hs : Meets A s)
    (h : (s.epsilonFree && s.complete && s.deterministic) = true) :
    A.IsDfa ∧ A.isDeterministic = true := by
  simp only [Bool.and_eq_true] at h
  obtain ⟨⟨heps, hcomplete⟩, hdet⟩ := h
  have hdet := hs.deterministic hdet
  exact ⟨isDfa_of_predicates hA.inRange hA.lettersIn (hs.epsilonFree heps)
    (hs.complete hcomplete) hdet, hdet⟩

theorem simplify_spec {s : Shape} (hA : WellFormed A) (hs : Meets A s) :
    (AutomatonSimplifier.simplify A).Ensures (PassSpec .simplify s A) := by
  by_cases hsimple : s.simple = true
  · have hshape : Pass.shape s .simplify = s := if_pos hsimple
    exact ⟨A, AutomatonSimplifier.simplify_of_isSimple (hs.simple hsimple),
      .refl hA (by rwa [hshape]) rfl⟩
  · have hshape : Pass.shape s .simplify = ⟨true, false, false, false⟩ := if_neg hsimple
    apply (AutomatonSimplifier.simplify_ensures hA.inRange hA.labelsOk).mono
    intro B hB
    obtain ⟨hB, hrange, hsim⟩ := hB
    obtain ⟨hletters, halphabet⟩ := hsim.lettersIn hA.lettersIn
    refine ⟨wellFormed_of_isSimple hrange hB hletters (halphabet ▸ hA.zero_notMem), ?_, halphabet,
      hsim.pathLanguage_eq hA.inRange⟩
    rw [hshape]
    exact ⟨fun _ => hB, nofun, nofun, nofun⟩

theorem removeEpsilon_spec {s : Shape} (hA : WellFormed A) (hs : Meets A s)
    (hsimple : s.simple = true) (hfair : Pass.Fair .removeEpsilon A) :
    (EpsilonRemover.simplify A).Ensures (PassSpec .removeEpsilon s A) := by
  by_cases heps : s.epsilonFree = true
  · have hshape : Pass.shape s .removeEpsilon = s := if_pos heps
    exact ⟨A, EpsilonRemover.simplify_of_epsilonFree hA.inRange (hs.epsilonFree heps),
      .refl hA (by rwa [hshape]) rfl⟩
  · have hshape : Pass.shape s .removeEpsilon = ⟨true, true, false, false⟩ := if_neg heps
    obtain ⟨B, hB, hrem, hepsB⟩ := EpsilonRemover.simplify_ensures hA.inRange
    obtain ⟨hletters, halphabet⟩ := hrem.lettersIn hA.lettersIn
    have hsimpleB := hrem.isSimple (hs.simple hsimple)
    have hkept := (EpsilonRemover.pathLanguage_eq_iff_harmlessRun hA.inRange
      (hfair.startOffCycle rfl) hB).mpr (hfair.harmless rfl)
    refine ⟨B, hB, wellFormed_of_isSimple hrem.inRange hsimpleB hletters
      (halphabet ▸ hA.zero_notMem), ?_, halphabet, hkept⟩
    rw [hshape]
    exact ⟨fun _ => hsimpleB, fun _ => hepsB, nofun, nofun⟩

/-! ### The optimizer -/

theorem AutomatonOptimizer.ReachablePart.edge {f : ℕ → ℕ}
    (h : AutomatonOptimizer.ReachablePart A B f) (hp : AutomatonOptimizer.NonzeroReachable A p)
    (he : A.Edge p (.char c) q) : B.Edge (f p) (.char c) (f q) := by
  rw [Edge] at he ⊢
  rw [h.transitions hp]
  exact List.mem_map.mpr ⟨_, List.mem_filter.mpr ⟨he, rfl⟩, rfl⟩

theorem AutomatonOptimizer.ReachablePart.exists_edge {f : ℕ → ℕ} {r : Regex}
    (h : AutomatonOptimizer.ReachablePart A B f) (he : B.Edge x r q) :
    ∃ p y, A.Edge p r y := by
  obtain ⟨p, hp, rfl⟩ := h.surj he.source_lt
  rw [Edge] at he
  rw [h.transitions hp] at he
  obtain ⟨t, ht, heq⟩ := List.mem_map.mp he
  cases heq
  exact ⟨p, _, (List.mem_filter.mp ht).1⟩

theorem AutomatonOptimizer.ReachablePart.countTransitions_le {f : ℕ → ℕ}
    (h : AutomatonOptimizer.ReachablePart A B f)
    (hp : AutomatonOptimizer.NonzeroReachable A p) :
    B.countTransitions c (f p) ≤ A.countTransitions c p := by
  rw [countTransitions, h.transitions hp, List.countP_map, countTransitions]
  exact List.filter_sublist.countP_le

theorem AutomatonOptimizer.ReachablePart.meets {f : ℕ → ℕ} {s : Shape}
    (h : AutomatonOptimizer.ReachablePart A B f) (hB : AutomatonOptimizer.Optimizes A B)
    (hA : A.InRange) (hs : Meets A s) : Meets B s where
  simple hsimple := hB.isSimple (hs.simple hsimple)
  epsilonFree heps := hB.epsilonFree (hs.epsilonFree heps)
  complete hcomplete := by
    obtain ⟨hsimple, hcover⟩ := isComplete_iff.mp (hs.complete hcomplete)
    refine isComplete_iff.mpr ⟨hB.isSimple hsimple, fun x hx c hc => ?_⟩
    obtain ⟨p, hp, rfl⟩ := h.surj hx
    obtain ⟨q, he⟩ := hcover p (hp.lt hA) c (hB.alphabet_eq ▸ hc)
    exact ⟨f q, h.edge hp he⟩
  deterministic hdet := by
    obtain ⟨hsimple, hcount⟩ := isDeterministic_iff.mp (hs.deterministic hdet)
    refine isDeterministic_iff.mpr ⟨hB.isSimple hsimple, fun x hx c hc => ?_⟩
    obtain ⟨p, hp, rfl⟩ := h.surj hx
    exact (h.countTransitions_le hp).trans (hcount p (hp.lt hA) c (hB.alphabet_eq ▸ hc))

theorem optimize_spec {s : Shape} (hA : WellFormed A) (hs : Meets A s) :
    (AutomatonOptimizer.optimize A).Ensures (PassSpec .optimize s A) := by
  obtain ⟨B, hB, hopt⟩ := AutomatonOptimizer.optimize_ensures hA.inRange
  obtain ⟨f, hpart⟩ := (AutomatonOptimizer.optimize_reachablePart hA.inRange).of_returns hB
  refine ⟨B, hB, ⟨hopt.inRange, ?_, hopt.lettersIn hA.lettersIn,
    hopt.alphabet_eq ▸ hA.zero_notMem⟩, hpart.meets hopt hA.inRange hs, hopt.alphabet_eq,
    hopt.pathLanguage_eq⟩
  intro x r q he
  obtain ⟨p, y, he⟩ := hpart.exists_edge he
  exact hA.labelsOk p r y he

/-! ### The completer -/

theorem complete_spec {s : Shape} (hA : WellFormed A) (hs : Meets A s) :
    PassSpec .complete s A (AutomatonCompleter.complete A) := by
  have hcom := AutomatonCompleter.completes_complete hA.inRange
  refine ⟨⟨hcom.inRange hA.inRange, ?_, hcom.lettersIn hA.lettersIn,
    hcom.alphabet_eq ▸ hA.zero_notMem⟩, ?_, hcom.alphabet_eq, hcom.pathLanguage_eq⟩
  · intro p r q he
    rcases hcom.edge.mp he with he | ⟨_, _, c, _, rfl, _⟩
    · exact hA.labelsOk p r q he
    · rfl
  · refine ⟨fun h => hcom.isSimple (hs.simple h),
      fun h => hcom.epsilonFree (hs.epsilonFree h) hA.zero_notMem,
      fun h => hcom.isComplete (hs.simple h), fun h => ?_⟩
    rcases AutomatonCompleter.complete_cases hA.inRange with ⟨_, heq⟩ | ⟨_, htrap⟩
    · rw [heq]
      exact hs.deterministic h
    · exact htrap.isDeterministic (hs.deterministic h)

/-! ### The passes to and between deterministic automata -/

theorem determinePass_spec {s : Shape} (order : IterationOrder) (hA : WellFormed A)
    (hs : Meets A s) (h : (s.epsilonFree && s.complete) = true) :
    (determinePass order A).Ensures (PassSpec (.determine order) s A) := by
  rw [Bool.and_eq_true] at h
  obtain ⟨B, hB, hdet⟩ := determinePass_ensures order hA.inRange hA.lettersIn
    (hs.epsilonFree h.1) (hs.complete h.2)
  exact ⟨B, hB, hdet.isDfa.wellFormed (hdet.alphabet_eq ▸ hA.zero_notMem),
    hdet.isDfa.meets (numbered_of_determinePass hA.inRange hB).isDeterministic _,
    hdet.alphabet_eq, hdet.pathLanguage_eq⟩

theorem exists_final_of_word (h : ∃ w, w ∈ A.pathLanguage) : ∃ p, A.Final p := by
  obtain ⟨w, hw⟩ := h
  by_contra hnone
  have hle : A.residual A.startStateIndex ≤ 0 := by
    apply FiniteAutomaton.residual_le (X := fun _ => 0)
    · intro p r q _
      rw [mul_zero]
    · exact fun p hp => absurd ⟨p, hp⟩ hnone
  exact Language.notMem_zero w (hle hw)

theorem minifyPass_spec {s : Shape} (hA : WellFormed A) (hs : Meets A s)
    (h : (s.epsilonFree && s.complete && s.deterministic) = true)
    (hfair : Pass.Fair .minify A) : (minifyPass A).Ensures (PassSpec .minify s A) := by
  obtain ⟨hdfa, _⟩ := hA.isDfa hs h
  apply (minifyPass_ensures hdfa (exists_final_of_word (hfair.word rfl))).mono
  intro B hB
  obtain ⟨v, hmin⟩ := hB
  exact ⟨(hmin.isDfa hdfa).wellFormed (hmin.alphabet_eq ▸ hA.zero_notMem),
    (hmin.isDfa hdfa).meets (hmin.isDeterministic hdfa) _, hmin.alphabet_eq,
    hmin.pathLanguage_eq hdfa⟩

theorem invert_spec {s : Shape} (hA : WellFormed A) (hs : Meets A s)
    (h : (s.epsilonFree && s.complete && s.deterministic) = true) :
    PassSpec .invert s A (AutomatonInverter.invert A) := by
  obtain ⟨hdfa, hdet⟩ := hA.isDfa hs h
  have hinv := AutomatonInverter.inverts_invert A
  refine ⟨(hinv.isDfa hdfa).wellFormed (hinv.alphabet_eq ▸ hA.zero_notMem),
    (hinv.isDfa hdfa).meets (hinv.isDeterministic hdet) _, hinv.alphabet_eq, ?_⟩
  ext w
  exact hinv.mem_pathLanguage hdfa

/-! ### The collapser -/

theorem collapse_spec {s : Shape} (hA : WellFormed A) (hs : Meets A s)
    (h : s.deterministic = true) :
    (AutomatonCollapser.collapse A).Ensures (PassSpec .collapse s A) := by
  have hdet := hs.deterministic h
  obtain ⟨B, hB, hcollapsed⟩ := AutomatonCollapser.collapse_ensures
    (AutomatonCollapser.tidy_of_isDeterministic hA.inRange hdet) hdet
  obtain ⟨hletters, halphabet⟩ := hcollapsed.keepsAlphabet hA.lettersIn
  have hlabels : LabelsBuilt A.alphabet A := by
    intro p r q he
    obtain ⟨c, rfl⟩ := isSimple_iff.mp (isDeterministic_iff.mp hdet).1 p r q he
    by_cases hc : c = 0
    · rw [hc]
      exact .empty
    · exact .letter (hA.lettersIn p _ q he c (Regex.mem_letters_char.mpr ⟨hc, rfl⟩))
  have hbuilt := AutomatonCollapser.collapse_built hlabels hB
  exact ⟨B, hB, ⟨hcollapsed.tidy.inRange, fun p r q he => (hbuilt p r q he).noEmptyConcat,
    hletters, halphabet ▸ hA.zero_notMem⟩, ⟨nofun, nofun, nofun, nofun⟩, halphabet,
    hcollapsed.pathLanguage_eq⟩

theorem Pass.run_spec (pass : Pass) {s : Shape} (hA : WellFormed A) (hs : Meets A s)
    (h : pass.permitted s = true) (hfair : pass.Fair A) :
    (pass.run A).Ensures (PassSpec pass s A) := by
  cases pass with
  | simplify => exact simplify_spec hA hs
  | removeEpsilon => exact removeEpsilon_spec hA hs h hfair
  | optimize => exact optimize_spec hA hs
  | complete => exact Comp.ensures_pure.mpr (complete_spec hA hs)
  | determine order => exact determinePass_spec order hA hs h
  | minify => exact minifyPass_spec hA hs h hfair
  | invert => exact Comp.ensures_pure.mpr (invert_spec hA hs h)
  | collapse => exact collapse_spec hA hs h

/-! ## All passes -/

/-- What permitted and fair passes make of the automaton. -/
structure ProgramSpec (passes : List Pass) (s : Shape) (A B : FiniteAutomaton) : Prop where
  wellFormed : WellFormed B
  meets : Meets B (Pass.shapeAfter passes s)
  alphabet_eq : B.alphabet = A.alphabet
  pathLanguage_eq : B.pathLanguage = Pass.languageAfter A.alphabet passes A.pathLanguage

theorem Pass.runAll_spec {passes : List Pass} {s : Shape} (hA : WellFormed A) (hs : Meets A s)
    (h : Pass.allPermitted passes s = true) (hfair : Pass.AllFair passes A) :
    (Pass.runAll passes A).Ensures (ProgramSpec passes s A) := by
  induction passes generalizing s A with
  | nil => exact Comp.ensures_pure.mpr ⟨hA, hs, rfl, rfl⟩
  | cons pass passes ih =>
      rw [Pass.allPermitted, Bool.and_eq_true] at h
      obtain ⟨B, hB, hspec⟩ := pass.run_spec hA hs h.1 hfair.1
      apply Comp.ensures_bind.mpr
      refine ⟨B, hB, (ih hspec.wellFormed hspec.meets h.2 (hfair.2 B hB)).mono ?_⟩
      intro C hC
      refine ⟨hC.wellFormed, hC.meets, hC.alphabet_eq.trans hspec.alphabet_eq,
        hC.pathLanguage_eq.trans ?_⟩
      rw [hspec.alphabet_eq, hspec.pathLanguage_eq]
      rfl

theorem meets_shape (h : A.isSimple = true) (heps : A.hasEpsilonTransitions = false)
    (hcomplete : A.isComplete = true) (hdet : A.isDeterministic = true) (s : Shape) : Meets A s :=
  ⟨fun _ => h, fun _ => heps, fun _ => hcomplete, fun _ => hdet⟩

theorem wellFormed_evenLength : WellFormed evenLength :=
  wellFormed_of_isSimple (by decide) (by decide) (by decide) (by decide)

theorem meets_evenLength (s : Shape) : Meets evenLength s :=
  meets_shape (by decide) (by decide) (by decide) (by decide) s

/-- Only the epsilon remover and the minifier ask for more than the checker sees. -/
def Pass.plain : Pass → Bool
  | removeEpsilon => false
  | minify => false
  | _ => true

theorem Pass.allFair_of_plain {passes : List Pass} (h : passes.all Pass.plain = true) :
    Pass.AllFair passes A := by
  induction passes generalizing A with
  | nil => trivial
  | cons pass passes ih =>
      rw [List.all_cons, Bool.and_eq_true] at h
      refine ⟨⟨?_, ?_, ?_⟩, fun B _ => ih h.2⟩
      · rintro rfl
        cases h.1
      · rintro rfl
        cases h.1
      · rintro rfl
        cases h.1

theorem Pass.runAll_append (passes passes' : List Pass) :
    runAll (passes ++ passes') A = runAll passes A >>= runAll passes' := by
  induction passes generalizing A with
  | nil => rw [runAll, Comp.pure_bind, List.nil_append]
  | cons pass passes ih => simp only [List.cons_append, runAll, ih, Comp.bind_assoc]

/-- The minifier keeps the language, also where it leaves no state. -/
theorem minifyPass_language (hD : D.IsDfa) :
    (minifyPass D).Ensures fun M => M.pathLanguage = D.pathLanguage := by
  by_cases hfinal : ∃ p, D.Final p
  · apply (minifyPass_ensures hD hfinal).mono
    rintro M ⟨v, hmin⟩
    exact hmin.pathLanguage_eq hD
  · refine ⟨_, minifyPass_of_not_final (not_exists.mp hfinal), ?_⟩
    have hempty : ∀ w, w ∉ D.pathLanguage := fun w hw => hfinal (exists_final_of_word ⟨w, hw⟩)
    ext w
    refine iff_of_false (fun hw => ?_) (hempty w)
    obtain ⟨p, hp⟩ := exists_final_of_word ⟨w, hw⟩
    exact Nat.not_lt_zero p hp.lt

/-- What the passes leave when the optimizer and the minifier come last. -/
theorem runAll_minify (passes : List Pass) {s : Shape} (hA : WellFormed A) (hs : Meets A s)
    (h : Pass.allPermitted passes s = true) (hfair : Pass.AllFair passes A)
    (hlast : Pass.minify.permitted (Pass.shapeAfter passes s) = true) :
    ∃ D, D.IsDfa ∧ D.AllReachable ∧ D.alphabet = A.alphabet ∧
      D.pathLanguage = Pass.languageAfter A.alphabet passes A.pathLanguage ∧
      ∀ M, (minifyPass D).Returns M →
        (Pass.runAll (passes ++ [Pass.optimize, Pass.minify]) A).Returns M := by
  obtain ⟨B, hB, hprogram⟩ := Pass.runAll_spec hA hs h hfair
  obtain ⟨D, hD, hspec⟩ := optimize_spec hprogram.wellFormed hprogram.meets
  obtain ⟨f, hpart⟩ :=
    (AutomatonOptimizer.optimize_reachablePart hprogram.wellFormed.inRange).of_returns hD
  refine ⟨D, (hspec.wellFormed.isDfa hspec.meets hlast).1, hpart.allReachable,
    hspec.alphabet_eq.trans hprogram.alphabet_eq,
    hspec.pathLanguage_eq.trans hprogram.pathLanguage_eq, ?_⟩
  intro M hM
  rw [Pass.runAll_append]
  exact Comp.returns_bind.mpr ⟨B, hB, Comp.returns_bind.mpr ⟨D, hD, Comp.returns_bind.mpr
    ⟨M, hM, Comp.returns_pure.mpr rfl⟩⟩⟩

/-- Two programs over the passes that end with the optimizer and the minifier leave the same
automaton, state numbers included, exactly when they are about the same language. -/
theorem runAll_canonical (passes passes' : List Pass) (s s' : Shape) (A A' : FiniteAutomaton)
    (hA : WellFormed A) (hA' : WellFormed A') (hs : Meets A s) (hs' : Meets A' s')
    (h : Pass.allPermitted passes s = true) (h' : Pass.allPermitted passes' s' = true)
    (hfair : Pass.AllFair passes A) (hfair' : Pass.AllFair passes' A')
    (hlast : Pass.minify.permitted (Pass.shapeAfter passes s) = true)
    (hlast' : Pass.minify.permitted (Pass.shapeAfter passes' s') = true)
    (halphabet : A.alphabet = A'.alphabet) :
    (Pass.runAll (passes ++ [Pass.optimize, Pass.minify]) A).Ensures fun M =>
      (Pass.runAll (passes' ++ [Pass.optimize, Pass.minify]) A').Ensures fun M' =>
        (M = M' ↔ Pass.languageAfter A.alphabet passes A.pathLanguage =
          Pass.languageAfter A'.alphabet passes' A'.pathLanguage) := by
  obtain ⟨D, hD, hreach, hX, hlang, hrun⟩ := runAll_minify passes hA hs h hfair hlast
  obtain ⟨D', hD', hreach', hX', hlang', hrun'⟩ :=
    runAll_minify passes' hA' hs' h' hfair' hlast'
  obtain ⟨M, hM, hMlang⟩ := minifyPass_language hD
  obtain ⟨M', hM', hMlang'⟩ := minifyPass_language hD'
  refine ⟨M, hrun M hM, M', hrun' M' hM', ?_⟩
  rw [← hlang, ← hlang']
  constructor
  · intro heq
    rw [← hMlang, ← hMlang', heq]
  · intro heq
    obtain ⟨N, hN, hN'⟩ := minifyPass_returns_same hD hD' hreach hreach'
      (hX'.trans (halphabet.symm.trans hX.symm)) heq.symm
    rw [hM.unique hN, hM'.unique hN']

/-- Inverting three times instead of once. -/
theorem runAll_canonical_evenLength :
    (Pass.runAll ([Pass.invert, Pass.invert, Pass.invert] ++ [Pass.optimize, Pass.minify])
      evenLength).Ensures fun M =>
        (Pass.runAll ([Pass.invert] ++ [Pass.optimize, Pass.minify]) evenLength).Ensures fun M' =>
          (M = M' ↔ Pass.languageAfter evenLength.alphabet [.invert, .invert, .invert]
              evenLength.pathLanguage =
            Pass.languageAfter evenLength.alphabet [.invert] evenLength.pathLanguage) :=
  runAll_canonical [.invert, .invert, .invert] [.invert] ⟨true, true, true, true⟩
    ⟨true, true, true, true⟩ evenLength evenLength wellFormed_evenLength wellFormed_evenLength
    (meets_evenLength _) (meets_evenLength _) rfl rfl (Pass.allFair_of_plain rfl)
    (Pass.allFair_of_plain rfl) rfl rfl rfl

/-! ## With and without the optimizer -/

/-- Both ways the minifier leaves the same automaton. -/
theorem exists_minified_both (order order' : IterationOrder) (hA : WellFormed A) :
    ∃ D M, D.IsDfa ∧ D.AllReachable ∧ (minifyPass D).Returns M ∧
      (Pass.runAll [.simplify, .removeEpsilon, .complete, .determine order, .minify] A).Returns
        M ∧
      (Pass.runAll [.simplify, .removeEpsilon, .optimize, .complete, .determine order', .minify]
        A).Returns M := by
  obtain ⟨S, E, O, C, D, h⟩ := exists_frontEnd order' hA
  obtain ⟨S', E', D', h'⟩ := exists_regexFrontEnd order hA
  obtain rfl := h'.simplified.unique h.simplified
  obtain rfl := h'.removed.unique h.removed
  obtain ⟨M, hM, hM'⟩ := minifyPass_returns_same h.isDfa h'.isDfa h.allReachable h'.allReachable
    (h'.alphabet_eq.trans h.alphabet_eq.symm)
    (h'.language_determined.trans h.language_determined.symm)
  refine ⟨D, M, h.isDfa, h.allReachable, hM, ?_, ?_⟩
  · simp only [Pass.runAll, Pass.run, Comp.pure_bind, Comp.returns_bind, Comp.returns_pure]
    exact ⟨_, h'.simplified, _, h'.removed, D', h'.determined, M, hM', rfl⟩
  · simp only [Pass.runAll, Pass.run, Comp.pure_bind, Comp.returns_bind, Comp.returns_pure]
    refine ⟨_, h.simplified, _, h.removed, O, h.optimized, D, ?_, M, hM, rfl⟩
    rw [h.completed]
    exact h.determined

/-- From what the minifier leaves, inverted or not, the collapser and the converter end with a
regex or a failed assertion. -/
theorem converter_finishes (hD : D.IsDfa) (hreach : D.AllReachable)
    (hM : (minifyPass D).Returns M) :
    (∃ o, (AutomatonCollapser.collapse M >>= AutomatonToRegexConverter.convert).Finishes o) ∧
      ∃ o, (AutomatonCollapser.collapse (AutomatonInverter.invert M) >>=
        AutomatonToRegexConverter.convert).Finishes o := by
  by_cases hfinal : ∃ p, D.Final p
  · obtain ⟨N, hN⟩ := exists_minified hD hreach hfinal
    obtain ⟨x, hx⟩ := hN.exists_regexed
    obtain ⟨N', I, hb⟩ := exists_backEnd hD hreach hfinal
    obtain ⟨y, hy, _⟩ := hb.converts_ensures
    obtain rfl := hN.minified.unique hM
    obtain rfl := hb.minified.unique hM
    rw [hb.inverted]
    exact ⟨⟨_, hx.returns⟩, _, hy⟩
  · cases hM.unique (minifyPass_of_not_final (not_exists.mp hfinal))
    exact ⟨⟨_, throws_of_no_states D.alphabet⟩, _, throws_of_no_states D.alphabet⟩

/-- Programs that go on alike from the same automaton end alike. -/
theorem Pass.finishes_append {passes rest : List Pass} (h : (runAll passes A).Returns M)
    {f : FiniteAutomaton → Comp Fault Regex} {o : Except Fault Regex}
    (ho : (runAll rest M >>= f).Finishes o) : (runAll (passes ++ rest) A >>= f).Finishes o := by
  rw [runAll_append, Comp.bind_assoc]
  exact h.finishes_bind.mpr ho

/-- `to_regex` goes without the optimizer and `invert_regex` does not. Both end, and neither would
end with another regex, or another failed assertion, the other way. -/
theorem optimizer_redundant (order order' : IterationOrder) :
    (∀ A, WellFormed A → ∃ o, (toRegex order A).Finishes o ∧
      (Pass.runAll [.simplify, .removeEpsilon, .optimize, .complete, .determine order', .minify,
        .collapse] A >>= AutomatonToRegexConverter.convert).Finishes o) ∧
    ∀ r X, r.noEmptyConcat = true → 0 ∉ X → ∃ o, (invertRegex order r X).Finishes o ∧
      (Pass.runAll [.simplify, .removeEpsilon, .complete, .determine order', .minify, .invert,
        .collapse] ((ofRegex r).extendAlphabet X) >>=
          AutomatonToRegexConverter.convert).Finishes o := by
  constructor
  · intro A hA
    obtain ⟨D, M, hD, hreach, hM, hplain, hoptimized⟩ := exists_minified_both order order' hA
    obtain ⟨⟨o, ho⟩, _⟩ := converter_finishes hD hreach hM
    have hrest : (Pass.runAll [.collapse] M >>= AutomatonToRegexConverter.convert).Finishes o := by
      simpa only [Pass.runAll, Pass.run, Comp.bind_assoc, Comp.pure_bind] using ho
    rw [toRegex_eq_runAll]
    exact ⟨o, Pass.finishes_append hplain hrest, Pass.finishes_append hoptimized hrest⟩
  · intro r X hr h0
    obtain ⟨D, M, hD, hreach, hM, hplain, hoptimized⟩ := exists_minified_both order' order
      (pipelineInput_ofRegex hr h0).toWellFormed
    obtain ⟨_, o, ho⟩ := converter_finishes hD hreach hM
    have hrest : (Pass.runAll [.invert, .collapse] M >>=
        AutomatonToRegexConverter.convert).Finishes o := by
      simpa only [Pass.runAll, Pass.run, Comp.bind_assoc, Comp.pure_bind] using ho
    rw [invertRegex_eq_runAll]
    exact ⟨o, Pass.finishes_append hoptimized hrest, Pass.finishes_append hplain hrest⟩

theorem optimizer_redundant_zeroAutomaton :
    (∃ o, (toRegex .insertion zeroAutomaton).Finishes o ∧
      (Pass.runAll [.simplify, .removeEpsilon, .optimize, .complete, .determine .reversed,
        .minify, .collapse] zeroAutomaton >>= AutomatonToRegexConverter.convert).Finishes o) ∧
    ∃ o, (invertRegex .insertion zeroRegex ∅).Finishes o ∧
      (Pass.runAll [.simplify, .removeEpsilon, .complete, .determine .reversed, .minify, .invert,
        .collapse] zeroAutomaton >>= AutomatonToRegexConverter.convert).Finishes o :=
  ⟨(optimizer_redundant .insertion .reversed).1 zeroAutomaton wellFormed_zeroAutomaton,
    (optimizer_redundant .insertion .reversed).2 zeroRegex ∅ (by decide) (by decide)⟩

end FormalLanguages
