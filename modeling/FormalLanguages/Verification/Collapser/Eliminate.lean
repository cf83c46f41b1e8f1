import FormalLanguages.Verification.Automaton.RemoveState
import FormalLanguages.Verification.Collapser.Parallel

/-! # Elimination of one state

Every way through the state, round its loop any number of times, becomes a transition of its
own before the state is removed. -/

namespace FormalLanguages.AutomatonCollapser

open FiniteAutomaton
open scoped Computability

variable {A B C : FiniteAutomaton} {p q s i : ℕ} {r loop : Regex} {w : List CChar}
  {d : DoubleTransition}

/-! ## The loop -/

theorem loopRegex_eq (ts : List FiniteAutomatonTransition) :
    loopRegex s ts = sumRegex (ts.filter fun t => t.targetIndex == s) Regex.empty := by
  rw [sumRegex, List.foldl_map, List.foldl_filter, loopRegex]
  congr 1
  funext regex t
  simp

/-- The regex that stands for the loop in the new transitions. -/
def starredLoop (A : FiniteAutomaton) (s : ℕ) : Regex :=
  let loop := loopRegex s (A.state s).transitions
  if !loop.isEmpty then loop.unaryStar else loop

theorem starredLoop_eq (A : FiniteAutomaton) (s : ℕ) :
    starredLoop A s = (loopRegex s (A.state s).transitions).unaryStar := by
  rw [starredLoop]
  cases h : (loopRegex s (A.state s).transitions).isEmpty with
  | true => simp [Regex.unaryStar, h]
  | false => simp

theorem isZero_loopRegex (ts : List FiniteAutomatonTransition) :
    (loopRegex s ts).isZero = false := by
  rw [loopRegex_eq, Bool.eq_false_iff]
  intro h
  exact absurd (isZero_sumRegex.mp h).1 (by simp [Regex.empty, Regex.isZero])

theorem isZero_starredLoop (A : FiniteAutomaton) (s : ℕ) : (starredLoop A s).isZero = false := by
  rw [starredLoop_eq, Regex.isZero_unaryStar, isZero_loopRegex]

theorem language_starredLoop (A : FiniteAutomaton) (s : ℕ) :
    (starredLoop A s).language = (A.label s s)∗ := by
  have hloop : (loopRegex s (A.state s).transitions).language = 1 + A.label s s := by
    ext w
    rw [loopRegex_eq, mem_language_sumRegex, Regex.language_empty, Language.mem_add, mem_label]
    apply or_congr_right
    constructor
    · intro h
      obtain ⟨⟨r, q⟩, ht, hw⟩ := h
      obtain ⟨ht, hqs⟩ := List.mem_filter.mp ht
      obtain rfl : q = s := beq_iff_eq.mp hqs
      exact ⟨r, ht, hw⟩
    · intro h
      obtain ⟨r, he, hw⟩ := h
      exact ⟨⟨r, s⟩, List.mem_filter.mpr ⟨he, by simp⟩, hw⟩
  rw [starredLoop_eq, Regex.language_unaryStar (isZero_loopRegex _), hloop,
    LanguageGraph.kstar_one_add]

theorem letters_starredLoop (hA : A.LettersIn) {c : CChar} (h : c ∈ (starredLoop A s).letters) :
    c ∈ A.alphabet := by
  rw [starredLoop_eq] at h
  have hc := Regex.mem_letters_unaryStar h
  rw [loopRegex_eq] at hc
  rcases mem_letters_sumRegex hc with hc | ⟨t, ht, hc⟩
  · exact absurd hc Regex.notMem_letters_empty
  · exact hA s _ _ (List.mem_filter.mp ht).1 c hc

/-! ## The label of a new transition -/

/-- In with `t`, round the loop, out with `u`. -/
def throughRegex (loop t u : Regex) : Regex :=
  (if !loop.isEmpty then t.mulAssign loop else t).mulAssign u

theorem language_throughRegex (loop t u : Regex) :
    (throughRegex loop t u).language = t.language * loop.language * u.language := by
  rw [throughRegex]
  rw [Regex.language_mulAssign]
  cases h : loop.isEmpty with
  | true => simp [Regex.isEmpty_iff.mp h]
  | false => simp [Regex.language_mulAssign]

theorem isZero_throughRegex (loop t u : Regex) (hloop : loop.isZero = false)
    (ht : t.isZero = false) (hu : u.isZero = false) : (throughRegex loop t u).isZero = false := by
  rw [throughRegex]
  rw [Regex.isZero_mulAssign, hu, Bool.or_false]
  split
  · rw [Regex.isZero_mulAssign, ht, hloop, Bool.or_false]
  · exact ht

theorem mem_letters_throughRegex {loop t u : Regex} {c : CChar}
    (h : c ∈ (throughRegex loop t u).letters) :
    c ∈ t.letters ∨ c ∈ loop.letters ∨ c ∈ u.letters := by
  rw [throughRegex] at h
  rcases Regex.mem_letters_mulAssign h with h | h
  · split at h
    · rcases Regex.mem_letters_mulAssign h with h | h
      · exact .inl h
      · exact .inr (.inl h)
    · exact .inl h
  · exact .inr (.inr h)

/-! ## The new transitions -/

theorem mem_doubleTransitions : d ∈ doubleTransitions A s ↔
    ∃ t u, (A.state d.state1Index).transitions[d.transition1Index]? = some t ∧
      t.targetIndex = s ∧ d.state2Index = s ∧
      (A.state s).transitions[d.transition2Index]? = some u ∧
      u.targetIndex ≠ s ∧ d.state3Index = u.targetIndex := by
  simp only [doubleTransitions, List.mem_flatMap, List.mem_range, List.mem_filter, List.mem_map,
    List.mem_zipIdx_iff_getElem?, beq_iff_eq, bne_iff_ne, Prod.exists]
  constructor
  · intro h
    obtain ⟨i, _, t, j, ⟨ht, hts⟩, u, k, ⟨hu, hus⟩, rfl⟩ := h
    exact ⟨t, u, ht, hts, rfl, hu, hus, rfl⟩
  · intro h
    obtain ⟨t, u, ht, hts, hs, hu, hus, htarget⟩ := h
    refine ⟨d.state1Index, ?_, t, d.transition1Index, ⟨ht, hts⟩, u, d.transition2Index,
      ⟨hu, hus⟩, ?_⟩
    · exact (edge_of_getElem? ht).source_lt
    · rw [← hs, ← htarget]

/-- Every list of transitions has only grown at its end. -/
def Grown (A B : FiniteAutomaton) : Prop :=
  ∀ p, ∃ ts, (B.state p).transitions = (A.state p).transitions ++ ts

theorem Grown.getElem? (h : Grown A B) {j : ℕ} {t : FiniteAutomatonTransition}
    (ht : (A.state p).transitions[j]? = some t) : (B.state p).transitions[j]? = some t := by
  obtain ⟨ts, hts⟩ := h p
  rw [hts, List.getElem?_append_left (List.getElem?_eq_some_iff.mp ht).1]
  exact ht

/-- The transition a double transition stands for. -/
def Through (A : FiniteAutomaton) (s : ℕ) (loop : Regex) (d : DoubleTransition) (p : ℕ)
    (r : Regex) (q : ℕ) : Prop :=
  ∃ t u, (A.state d.state1Index).transitions[d.transition1Index]? = some t ∧
    (A.state s).transitions[d.transition2Index]? = some u ∧
    p = d.state1Index ∧ q = d.state3Index ∧ r = throughRegex loop t.regex u.regex

theorem through_iff {t u : FiniteAutomatonTransition}
    (ht : (A.state d.state1Index).transitions[d.transition1Index]? = some t)
    (hu : (A.state s).transitions[d.transition2Index]? = some u) :
    Through A s loop d p r q ↔
      p = d.state1Index ∧ r = throughRegex loop t.regex u.regex ∧ q = d.state3Index := by
  constructor
  · intro h
    obtain ⟨t', u', ht', hu', hp, hq, hr⟩ := h
    rw [ht] at ht'
    rw [hu] at hu'
    cases ht'
    cases hu'
    exact ⟨hp, hr, hq⟩
  · intro h
    obtain ⟨hp, hr, hq⟩ := h
    exact ⟨t, u, ht, hu, hp, hq, hr⟩

/-- `B` is `A` with the transitions that the double transitions `ds` stand for. -/
structure AddedThrough (A B : FiniteAutomaton) (s : ℕ) (loop : Regex)
    (ds : List DoubleTransition) : Prop where
  grown : Grown A B
  length_eq : B.states.length = A.states.length
  start_eq : B.startStateIndex = A.startStateIndex
  alphabet_eq : A.LettersIn → B.alphabet = A.alphabet
  final_iff : ∀ p, B.Final p ↔ A.Final p
  edge_iff : ∀ p r q, B.Edge p r q ↔ A.Edge p r q ∨ ∃ d ∈ ds, Through A s loop d p r q
  state_eq : ∀ p, (∀ d ∈ ds, d.state1Index ≠ p) → B.state p = A.state p

theorem AddedThrough.nil (A : FiniteAutomaton) (s : ℕ) (loop : Regex) :
    AddedThrough A A s loop [] where
  grown p := ⟨[], by simp⟩
  length_eq := rfl
  start_eq := rfl
  alphabet_eq _ := rfl
  final_iff _ := Iff.rfl
  edge_iff _ _ _ := by simp
  state_eq _ _ := rfl

/-- The indices of a double transition of `A` still name the same two transitions in `B`. -/
theorem AddedThrough.snoc (h : AddedThrough A B s loop ds)
    (hloop : A.LettersIn → ∀ c ∈ loop.letters, c ∈ A.alphabet)
    (hd : d ∈ doubleTransitions A s) :
    AddedThrough A (addDoubleTransition loop B d) s loop (ds ++ [d]) := by
  obtain ⟨t, u, ht, hts, hs, hu, hus, htarget⟩ := mem_doubleTransitions.mp hd
  have hone : addDoubleTransition loop B d =
      B.addTransition d.state1Index d.state3Index (throughRegex loop t.regex u.regex) := by
    rw [addDoubleTransition]
    rw [h.grown.getElem? ht, hs, h.grown.getElem? hu]
    rfl
  have hi : d.state1Index < B.states.length := by
    rw [h.length_eq]
    exact (edge_of_getElem? ht).source_lt
  rw [hone]
  constructor
  case grown =>
    intro p
    obtain ⟨ts, hts⟩ := h.grown p
    rw [state_addTransition hi]
    split
    · refine ⟨ts ++ [⟨throughRegex loop t.regex u.regex, d.state3Index⟩], ?_⟩
      simp [hts]
    · exact ⟨ts, hts⟩
  case length_eq => exact length_addTransition.trans h.length_eq
  case start_eq => exact h.start_eq
  case alphabet_eq =>
    intro hA
    rw [alphabet_addTransition, h.alphabet_eq hA]
    intro c hc
    rw [h.alphabet_eq hA]
    rcases mem_letters_throughRegex hc with hc | hc | hc
    · exact hA _ _ _ (edge_of_getElem? ht) c hc
    · exact hloop hA c hc
    · exact hA _ _ _ (edge_of_getElem? hu) c hc
  case final_iff =>
    intro p
    rw [final_addTransition, h.final_iff]
  case edge_iff =>
    intro p r q
    rw [edge_addTransition hi, h.edge_iff, or_assoc, ← through_iff ht hu]
    simp [or_and_right, exists_or]
  case state_eq =>
    intro p hp
    rw [state_addTransition hi, if_neg (hp d (by simp)).symm]
    exact h.state_eq p fun e he => hp e (List.mem_append_left _ he)

theorem addedThrough_foldl (ds : List DoubleTransition)
    (hloop : A.LettersIn → ∀ c ∈ loop.letters, c ∈ A.alphabet)
    (hds : ∀ d ∈ ds, d ∈ doubleTransitions A s) :
    AddedThrough A (ds.foldl (addDoubleTransition loop) A) s loop ds := by
  induction ds using List.reverseRecOn with
  | nil => exact .nil A s loop
  | append_singleton ds d ih =>
      rw [List.foldl_append]
      exact (ih fun e he => hds e (List.mem_append_left _ he)).snoc hloop (hds d (by simp))

/-- `B` is `A` with a transition for every way through the state `s`. -/
structure Bypassed (A B : FiniteAutomaton) (s : ℕ) : Prop where
  length_eq : B.states.length = A.states.length
  start_eq : B.startStateIndex = A.startStateIndex
  alphabet_eq : A.LettersIn → B.alphabet = A.alphabet
  final_iff : ∀ p, B.Final p ↔ A.Final p
  edge_iff : ∀ p r q, B.Edge p r q ↔ A.Edge p r q ∨
    ∃ t u, A.Edge p t s ∧ A.Edge s u q ∧ q ≠ s ∧ r = throughRegex (starredLoop A s) t u

theorem bypassed (A : FiniteAutomaton) (s : ℕ) :
    Bypassed A ((doubleTransitions A s).foldl (addDoubleTransition (starredLoop A s)) A) s ∧
    ∀ p, p ∉ (doubleTransitions A s).map DoubleTransition.state1Index →
      ((doubleTransitions A s).foldl (addDoubleTransition (starredLoop A s)) A).state p =
        A.state p := by
  have hadded : AddedThrough A _ s (starredLoop A s) (doubleTransitions A s) :=
    addedThrough_foldl _ (fun hA c hc => letters_starredLoop hA hc) (fun d hd => hd)
  refine ⟨⟨hadded.length_eq, hadded.start_eq, hadded.alphabet_eq, hadded.final_iff, ?_⟩, ?_⟩
  · intro p r q
    rw [hadded.edge_iff]
    apply or_congr_right
    constructor
    · intro h
      obtain ⟨d, hd, t, u, ht, hu, rfl, rfl, rfl⟩ := h
      obtain ⟨t', u', ht', hts, _, hu', hus, htarget⟩ := mem_doubleTransitions.mp hd
      rw [ht] at ht'
      rw [hu] at hu'
      cases ht'
      cases hu'
      refine ⟨t.regex, u.regex, ?_, ?_, ?_, rfl⟩
      · rw [← hts]
        exact edge_of_getElem? ht
      · rw [htarget]
        exact edge_of_getElem? hu
      · rwa [htarget]
    · intro h
      obtain ⟨t, u, ht, hu, hq, rfl⟩ := h
      obtain ⟨j, hj⟩ := List.mem_iff_getElem?.mp ht
      obtain ⟨k, hk⟩ := List.mem_iff_getElem?.mp hu
      exact ⟨⟨p, j, s, k, q⟩, mem_doubleTransitions.mpr ⟨_, _, hj, rfl, rfl, hk, hq, rfl⟩,
        _, _, hj, hk, rfl, rfl, rfl⟩
  · intro p hp
    apply hadded.state_eq p
    intro d hd heq
    exact hp (List.mem_map.mpr ⟨d, hd, heq⟩)

theorem Bypassed.tidy (h : Bypassed A B s) (hA : A.Tidy) : B.Tidy where
  inRange := by
    constructor
    · rw [h.start_eq, h.length_eq]
      exact hA.inRange.start_lt
    · intro p r q he
      rw [h.length_eq]
      rcases (h.edge_iff p r q).mp he with he | ⟨t, u, _, hu, _⟩
      · exact hA.inRange.target_lt he
      · exact hA.inRange.target_lt hu
  nonzero {p r q} he := by
    rcases (h.edge_iff p r q).mp he with he | ⟨t, u, ht, hu, _, rfl⟩
    · exact hA.nonzero he
    · exact isZero_throughRegex _ _ _ (isZero_starredLoop A s) (hA.nonzero ht) (hA.nonzero hu)

theorem Bypassed.keepsAlphabet (h : Bypassed A B s) : KeepsAlphabet A B := by
  intro hA
  refine ⟨?_, h.alphabet_eq hA⟩
  intro p r q he c hc
  rw [h.alphabet_eq hA]
  rcases (h.edge_iff p r q).mp he with he | ⟨t, u, ht, hu, _, rfl⟩
  · exact hA p r q he c hc
  · rcases mem_letters_throughRegex hc with hc | hc | hc
    · exact hA _ _ _ ht c hc
    · exact letters_starredLoop hA hc
    · exact hA _ _ _ hu c hc

/-- The new transitions only take the ways that were there. -/
theorem Bypassed.residual_le (h : Bypassed A B s) (p : ℕ) : B.residual p ≤ A.residual p := by
  apply FiniteAutomaton.residual_le
  · intro p r q he
    rcases (h.edge_iff p r q).mp he with he | ⟨t, u, ht, hu, _, rfl⟩
    · exact edge_mul_residual_le he
    · have hround : (A.label s s)∗ * A.residual s ≤ A.residual s :=
        kstar_mul_le_self (LanguageGraph.isSolution_residual.label_mul_le s s)
      rw [language_throughRegex, language_starredLoop, mul_assoc, mul_assoc]
      calc t.language * ((A.label s s)∗ * (u.language * A.residual q))
          ≤ t.language * ((A.label s s)∗ * A.residual s) :=
            mul_le_mul_right (mul_le_mul_right (edge_mul_residual_le hu) _) _
        _ ≤ t.language * A.residual s := mul_le_mul_right hround _
        _ ≤ A.residual p := edge_mul_residual_le ht
  · intro p hf
    exact one_le_residual ((h.final_iff p).mp hf)

theorem Bypassed.label_le (h : Bypassed A B s) (p q : ℕ) : A.label p q ≤ B.label p q := by
  intro w hw
  obtain ⟨r, he, hw⟩ := mem_label.mp hw
  exact mem_label.mpr ⟨r, (h.edge_iff p r q).mpr (.inl he), hw⟩

theorem Bypassed.through_le (h : Bypassed A B s) (hq : q ≠ s) :
    A.label p s * (A.label s s)∗ * A.label s q ≤ B.label p q := by
  rw [language_le_iff]
  intro w hw
  obtain ⟨x, ⟨y, hy, z, hz, rfl⟩, v, hv, rfl⟩ := hw
  obtain ⟨t, ht, hyt⟩ := mem_label.mp hy
  obtain ⟨u, hu, hvu⟩ := mem_label.mp hv
  refine mem_label.mpr ⟨_, (h.edge_iff p _ q).mpr (.inr ⟨t, u, ht, hu, hq, rfl⟩), ?_⟩
  rw [language_throughRegex, language_starredLoop]
  exact ⟨y ++ z, ⟨y, hyt, z, hz, rfl⟩, v, hvu, rfl⟩

/-! ## Removal -/

theorem label_subgraph {keep : ℕ → Prop} {f : ℕ → ℕ} (h : Subgraph A B keep f) (hp : keep p)
    (hq : keep q) : B.label (f p) (f q) = A.label p q := by
  ext w
  simp only [mem_label, h.edge_map hp hq]

theorem targets_dropTarget (ts : List FiniteAutomatonTransition) :
    targets (dropTarget s ts) = ((targets ts).filter fun t => t != s).map (skip s) := by
  induction ts with
  | nil => rfl
  | cons t ts ih =>
      have hcons : targets (t :: ts) = t.targetIndex :: targets ts := rfl
      rw [dropTarget, hcons, List.filter_cons]
      by_cases hs : t.targetIndex = s
      · simp [hs, ih]
      · rw [if_neg hs]
        by_cases hlt : s < t.targetIndex
        · simp only [hlt, if_true, bne_iff_ne, ne_eq, hs, not_false_eq_true, List.map_cons, skip,
            ← ih]
          rfl
        · simp only [hlt, if_false, bne_iff_ne, ne_eq, hs, not_false_eq_true, if_true,
            List.map_cons, skip, ← ih]
          rfl

theorem noParallel_removeState (h : ∀ i, A.NoParallel i) (i : ℕ) :
    (A.removeState s).NoParallel i := by
  rw [NoParallel]
  rw [state_removeState]
  change (targets (dropTarget s _)).Nodup
  rw [targets_dropTarget]
  apply List.Nodup.map_on
  · intro x hx y hy hxy
    have hxs : x ≠ s := by simpa using (List.mem_filter.mp hx).2
    have hys : y ≠ s := by simpa using (List.mem_filter.mp hy).2
    exact skip_inj hxs hys hxy
  · exact (h _).filter _

/-- What one round of the collapser does. -/
structure Eliminated (A B : FiniteAutomaton) (s : ℕ) : Prop where
  tidy : B.Tidy
  noParallel : ∀ i, B.NoParallel i
  length_eq : B.states.length = A.states.length - 1
  start_eq : B.startStateIndex = skip s A.startStateIndex
  keepsAlphabet : KeepsAlphabet A B
  final_iff : ∀ x, B.Final x ↔ ∃ p, p ≠ s ∧ skip s p = x ∧ A.Final p
  residual_eq : ∀ p, p ≠ s → B.residual (skip s p) = A.residual p

theorem eliminated (hs : s < A.states.length) (hfinal : ¬A.Final s)
    (hstart : A.startStateIndex ≠ s) (hB : Bypassed A B s) (hC : Relabels B C) (htidy : C.Tidy)
    (hparallel : ∀ i, C.NoParallel i) : Eliminated A (C.removeState s) s := by
  have hsC : s < C.states.length := by rwa [hC.length_eq, hB.length_eq]
  have hstartC : C.startStateIndex = A.startStateIndex := hC.start_eq.trans hB.start_eq
  have hsub := subgraph_removeState hsC
  have hkeep : C.startStateIndex ≠ s := by rwa [hstartC]
  have hfinalC : ∀ p, C.Final p ↔ A.Final p := fun p =>
    (hC.final_iff p).trans (hB.final_iff p)
  refine ⟨⟨hsub.inRange htidy.inRange hkeep, ?_⟩,
    noParallel_removeState hparallel, ?_, ?_, ?_, ?_, ?_⟩
  · intro x r y he
    obtain ⟨p, q, _, _, _, _, he⟩ := hsub.edge.mp he
    exact htidy.nonzero he
  · rw [length_removeState hsC, hC.length_eq, hB.length_eq]
  · rw [hsub.start hkeep, hstartC]
  · exact hB.keepsAlphabet.trans
      (hC.keepsAlphabet.trans fun hl => ⟨hsub.lettersIn hl, hsub.alphabet⟩)
  · intro x
    rw [hsub.final]
    simp only [hfinalC]
  · intro p hp
    have hlabel : ∀ {p q}, p ≠ s → q ≠ s →
        B.label p q * (C.removeState s).residual (skip s q) ≤
          (C.removeState s).residual (skip s p) := by
      intro p q hp hq
      rw [← hC.label_eq, ← label_subgraph hsub hp hq]
      exact LanguageGraph.isSolution_residual.label_mul_le _ _
    apply le_antisymm
    · calc (C.removeState s).residual (skip s p) ≤ C.residual p := hsub.residual_le hp
        _ = B.residual p := hC.residual_eq p
        _ ≤ A.residual p := hB.residual_le p
    · apply LanguageGraph.residual_le_of_elimination
        (X := fun p => (C.removeState s).residual (skip s p)) hfinal ?_ ?_ ?_ hp
      · intro p q hp hq
        exact (mul_le_mul_left (hB.label_le p q) _).trans (hlabel hp hq)
      · intro p q hp hq
        exact (mul_le_mul_left (hB.through_le hq) _).trans (hlabel hp hq)
      · intro p hp hf
        exact one_le_residual (hsub.final.mpr ⟨p, hp, rfl, (hfinalC p).mpr hf⟩)

theorem collapseState_ensures (hA : A.Tidy) (hparallel : ∀ i, A.NoParallel i)
    (hs : s < A.states.length) (hfinal : ¬A.Final s) (hstart : A.startStateIndex ≠ s) :
    (collapseState A s).Ensures fun B => Eliminated A B s := by
  obtain ⟨hbypass, hstate⟩ := bypassed A s
  apply Comp.ensures_bind.mpr
  apply (foldlM_collapse_ensures (hbypass.tidy hA) _).mono
  intro C hC
  obtain ⟨hrel, htidy, hdone⟩ := hC
  apply Comp.ensures_pure.mpr
  apply eliminated hs hfinal hstart hbypass hrel htidy
  intro i
  apply hdone
  by_cases hi : i ∈ (doubleTransitions A s).map DoubleTransition.state1Index
  · exact .inl (OrdSet.mem_ofList.mpr hi)
  · exact .inr ((hparallel i).congr (hstate i hi))

end FormalLanguages.AutomatonCollapser
