import FormalLanguages.Verification.Minifier.Refinement

/-! # The minimised automaton

Every class becomes one state, with the transitions of its key. At the end of the loop the
number in a key is the number of the class itself. -/

namespace FormalLanguages.AutomatonMinifier

open FiniteAutomaton

variable {A B : FiniteAutomaton} {i p : ℕ} {v : List ℕ} {s : Refinement}
  {S : OrdSet ℕ}

/-! ## Placing one class -/

theorem foldl_placeState (l : List ℕ) (hi : i < B.states.length) :
    let C := l.foldl (placeState A i) B
    C.states.length = B.states.length ∧ C.alphabet = B.alphabet ∧
    C.startStateIndex = (if A.startStateIndex ∈ l then i else B.startStateIndex) ∧
    ∀ p, C.state p = if p = i then
      { B.state p with isFinal := (B.state p).isFinal || l.any fun q => (A.state q).isFinal }
      else B.state p := by
  induction l generalizing B with
  | nil => simp
  | cons q l ih =>
      have hone : (placeState A i B q).states.length = B.states.length ∧
          (placeState A i B q).alphabet = B.alphabet ∧
          (placeState A i B q).startStateIndex =
            (if A.startStateIndex = q then i else B.startStateIndex) ∧
          ∀ p, (placeState A i B q).state p = if p = i then
            { B.state p with isFinal := (B.state p).isFinal || (A.state q).isFinal }
            else B.state p := by
        rw [placeState]
        have hstate : ∀ p, (if (A.state q).isFinal then B.makeStateFinal i true else B).state p =
            if p = i then
              { B.state p with isFinal := (B.state p).isFinal || (A.state q).isFinal }
            else B.state p := by
          intro p
          cases (A.state q).isFinal with
          | true =>
              simp only [if_true, Bool.or_true]
              exact state_makeStateFinal hi
          | false => simp
        have hlen : (if (A.state q).isFinal then B.makeStateFinal i true else B).states.length =
            B.states.length := by
          split
          · exact length_makeStateFinal
          · rfl
        simp only
        split
        · rename_i hstart
          refine ⟨hlen, ?_, rfl, hstate⟩
          simp only [setStartState]
          split <;> rfl
        · refine ⟨hlen, ?_, ?_, hstate⟩
          · split <;> rfl
          · split <;> rfl
      obtain ⟨hlen, halpha, hstart, hstate⟩ := hone
      obtain ⟨hlen', halpha', hstart', hstate'⟩ := ih (B := placeState A i B q) (by rwa [hlen])
      rw [List.foldl_cons]
      refine ⟨hlen'.trans hlen, halpha'.trans halpha, ?_, ?_⟩
      · rw [hstart', hstart]
        by_cases hq : A.startStateIndex = q
        · simp [hq]
        · simp [hq]
      · intro p
        rw [hstate', hstate]
        by_cases hp : p = i
        · simp [hp, Bool.or_assoc]
        · simp [hp]

/-- The transitions of a key, as they are added to the result. -/
def letterTransitions (ts : List AutomatonMinifierTransition) : List FiniteAutomatonTransition :=
  ts.map fun t => ⟨.char t.letter, t.target⟩

theorem foldl_addLetters (ts : List AutomatonMinifierTransition) (hi : i < B.states.length)
    (hts : ∀ t ∈ ts, t.letter ∈ B.alphabet) :
    let C := ts.foldl (fun B t => B.addTransition i t.target (.char t.letter)) B
    C.states.length = B.states.length ∧ C.alphabet = B.alphabet ∧
    C.startStateIndex = B.startStateIndex ∧
    ∀ p, C.state p = if p = i then
      { B.state p with transitions := (B.state p).transitions ++ letterTransitions ts }
      else B.state p := by
  induction ts generalizing B with
  | nil => simp [letterTransitions]
  | cons t ts ih =>
      have halpha : (B.addTransition i t.target (.char t.letter)).alphabet = B.alphabet := by
        apply alphabet_addTransition
        intro c hc
        rw [(Regex.mem_letters_char.mp hc).2]
        exact hts t (by simp)
      obtain ⟨hlen', halpha', hstart', hstate'⟩ :=
        ih (B := B.addTransition i t.target (.char t.letter)) (by rwa [length_addTransition]) (by
          intro u hu
          rw [halpha]
          exact hts u (List.mem_cons_of_mem _ hu))
      rw [List.foldl_cons]
      refine ⟨hlen'.trans length_addTransition, halpha'.trans halpha, hstart', ?_⟩
      intro p
      rw [hstate', state_addTransition hi]
      by_cases hp : p = i
      · simp [hp, letterTransitions]
      · simp [hp]

/-- The state of a class, added to what is at its index. -/
def placed (A : FiniteAutomaton) (entry : AutomatonMinifierEquivalenceClass × OrdSet ℕ)
    (st : FiniteAutomatonState) : FiniteAutomatonState where
  isFinal := st.isFinal || entry.2.toList.any fun q => (A.state q).isFinal
  transitions := st.transitions ++ letterTransitions entry.1.transitions

theorem placeClass_spec {entry : AutomatonMinifierEquivalenceClass × OrdSet ℕ}
    (hi : entry.1.classIndex < B.states.length)
    (hts : ∀ t ∈ entry.1.transitions, t.letter ∈ B.alphabet) :
    (placeClass A B entry).states.length = B.states.length ∧
    (placeClass A B entry).alphabet = B.alphabet ∧
    (placeClass A B entry).startStateIndex =
      (if A.startStateIndex ∈ entry.2 then entry.1.classIndex else B.startStateIndex) ∧
    ∀ p, (placeClass A B entry).state p =
      if p = entry.1.classIndex then placed A entry (B.state p) else B.state p := by
  obtain ⟨hlen, halpha, hstart, hstate⟩ := foldl_placeState (A := A) entry.2.toList hi
  obtain ⟨hlen', halpha', hstart', hstate'⟩ := foldl_addLetters entry.1.transitions
    (B := entry.2.toList.foldl (placeState A entry.1.classIndex) B) (by rwa [hlen])
    (by rwa [halpha])
  rw [placeClass]
  refine ⟨hlen'.trans hlen, halpha'.trans halpha, hstart'.trans hstart, ?_⟩
  intro p
  rw [hstate', hstate]
  by_cases hp : p = entry.1.classIndex
  · simp [hp, placed]
  · simp [hp]

/-- All classes are placed, each at its own index. -/
theorem foldl_placeClass {l : List (AutomatonMinifierEquivalenceClass × OrdSet ℕ)}
    (hlt : ∀ e ∈ l, e.1.classIndex < B.states.length)
    (hts : ∀ e ∈ l, ∀ t ∈ e.1.transitions, t.letter ∈ B.alphabet)
    (hnodup : (l.map fun e => e.1.classIndex).Nodup)
    (hstart : ∀ e ∈ l, ∀ e' ∈ l, A.startStateIndex ∈ e.2 → A.startStateIndex ∈ e'.2 → e = e') :
    let C := l.foldl (placeClass A) B
    C.states.length = B.states.length ∧ C.alphabet = B.alphabet ∧
    (∀ e ∈ l, A.startStateIndex ∈ e.2 → C.startStateIndex = e.1.classIndex) ∧
    (∀ e ∈ l, C.state e.1.classIndex = placed A e (B.state e.1.classIndex)) ∧
    ((∀ e ∈ l, A.startStateIndex ∉ e.2) → C.startStateIndex = B.startStateIndex) ∧
    ∀ p, (∀ e ∈ l, p ≠ e.1.classIndex) → C.state p = B.state p := by
  induction l generalizing B with
  | nil => simp
  | cons e l ih =>
      have hmem : ∀ {e'}, e' ∈ l → e' ∈ e :: l := List.mem_cons_of_mem e
      have hhead : e ∈ e :: l := List.mem_cons_self
      obtain ⟨hlen, halpha, hst, hstate⟩ :=
        placeClass_spec (A := A) (hlt e hhead) (hts e hhead)
      obtain ⟨he, hnodup⟩ := List.nodup_cons.mp hnodup
      have hne : ∀ e' ∈ l, e'.1.classIndex ≠ e.1.classIndex := by
        intro e' he' heq
        exact he (List.mem_map.mpr ⟨e', he', heq⟩)
      obtain ⟨hlen', halpha', hst', hplaced', hnone', hother'⟩ := ih (B := placeClass A B e)
        (by
          intro e' he'
          rw [hlen]
          exact hlt e' (hmem he'))
        (by
          intro e' he'
          rw [halpha]
          exact hts e' (hmem he'))
        hnodup
        (fun e' he' e'' he'' => hstart e' (hmem he') e'' (hmem he''))
      rw [List.foldl_cons]
      refine ⟨hlen'.trans hlen, halpha'.trans halpha, ?_, ?_, ?_, ?_⟩
      · intro e' he' hs
        rcases List.mem_cons.mp he' with rfl | he'
        · by_cases hex : ∃ e'' ∈ l, A.startStateIndex ∈ e''.2
          · obtain ⟨e'', he'', hs''⟩ := hex
            rw [hst' e'' he'' hs'', hstart e'' (hmem he'') e' hhead hs'' hs]
          · push Not at hex
            rw [hnone' hex, hst, if_pos hs]
        · exact hst' e' he' hs
      · intro e' he'
        rcases List.mem_cons.mp he' with rfl | he'
        · rw [hother' _ fun e'' he'' => (hne e'' he'').symm, hstate, if_pos rfl]
        · rw [hplaced' e' he', hstate, if_neg (hne e' he')]
      · intro hnone
        rw [hnone' fun e' he' => hnone e' (hmem he'), hst, if_neg (hnone e hhead)]
      · intro p hp
        rw [hother' p fun e' he' => hp e' (hmem he'), hstate, if_neg (hp e hhead)]

/-! ## The result of the whole pass -/

/-- `B` is the quotient of `A` by the numbers `v`. -/
structure Minimal (A B : FiniteAutomaton) (v : List ℕ) : Prop where
  alphabet_eq : B.alphabet = A.alphabet
  start_eq : B.startStateIndex = v.getD A.startStateIndex 0
  number_lt : ∀ p < A.states.length, v.getD p 0 < B.states.length
  exists_number : ∀ i < B.states.length, ∃ p < A.states.length, v.getD p 0 = i
  state_eq : ∀ p < A.states.length, B.state (v.getD p 0) =
    ⟨(A.state p).isFinal, letterTransitions (signature A v p)⟩
  number_eq_iff : ∀ p < A.states.length, ∀ q < A.states.length,
    v.getD p 0 = v.getD q 0 ↔ A.residual p = A.residual q

/-- What an entry holds at the end of the loop. -/
theorem Stable.entry (h : Stable A s) {e : AutomatonMinifierEquivalenceClass × OrdSet ℕ}
    (he : e ∈ s.equivClasses) : ∃ p < A.states.length, e.1 = classKey A s.classIndices p ∧
      ∀ q, q ∈ e.2 ↔ q < A.states.length ∧
        s.classIndices.getD q 0 = s.classIndices.getD p 0 := by
  obtain ⟨⟨p, hp, hpe⟩, hS⟩ := h.groups.sound e.1 e.2 he
  have hp := List.mem_range.mp hp
  refine ⟨p, hp, ?_, ?_⟩
  · rw [← hpe, h.same]
  · intro q
    rw [hS, List.mem_range, ← hpe]
    exact and_congr_right fun hq => (h.toRounded.number_eq_iff hq hp).symm

/-- Different entries have different numbers. -/
theorem Stable.entry_eq (h : Stable A s) {e e' : AutomatonMinifierEquivalenceClass × OrdSet ℕ}
    (he : e ∈ s.equivClasses) (he' : e' ∈ s.equivClasses)
    (heq : e.1.classIndex = e'.1.classIndex) : e = e' := by
  obtain ⟨p, hp, hep, _⟩ := h.entry he
  obtain ⟨q, hq, heq', _⟩ := h.entry he'
  apply OrderedSet.eq_of_key_eq he he'
  have hnumber : s.classIndices.getD p 0 = s.classIndices.getD q 0 := by
    rw [hep, heq'] at heq
    exact heq
  have hkey := (h.toRounded.number_eq_iff hp hq).mp hnumber
  rw [h.same] at hkey
  rw [hep, heq', hkey]

/-- Every state has an entry, which has its key and the states of its class. -/
theorem Stable.exists_entry (h : Stable A s) (hp : p < A.states.length) :
    ∃ e ∈ s.equivClasses, e.1 = classKey A s.classIndices p ∧
      ∀ q, q ∈ e.2 ↔ q < A.states.length ∧
        s.classIndices.getD q 0 = s.classIndices.getD p 0 := by
  obtain ⟨S, hS⟩ := h.groups.cover p (List.mem_range.mpr hp)
  rw [h.same] at hS
  obtain ⟨q, hq, heq, hmem⟩ := h.entry hS
  refine ⟨_, hS, rfl, ?_⟩
  have hqp : s.classIndices.getD q 0 = s.classIndices.getD p 0 :=
    congrArg AutomatonMinifierEquivalenceClass.classIndex heq.symm
  rwa [hqp] at hmem

/-- An entry is final when the states of its class are. -/
theorem Stable.any_isFinal (h : Stable A s) (hp : p < A.states.length)
    {e : AutomatonMinifierEquivalenceClass × OrdSet ℕ}
    (hS : ∀ q, q ∈ e.2 ↔ q < A.states.length ∧
      s.classIndices.getD q 0 = s.classIndices.getD p 0) :
    (e.2.toList.any fun q => (A.state q).isFinal) = (A.state p).isFinal := by
  rw [Bool.eq_iff_iff, List.any_eq_true]
  constructor
  · intro hex
    obtain ⟨q, hq, hqf⟩ := hex
    obtain ⟨hqlt, hqp⟩ := (hS q).mp hq
    exact (h.respects.separates q hqlt p hp hqp).mp hqf
  · intro hpf
    exact ⟨p, (hS p).mpr ⟨hp, rfl⟩, hpf⟩

theorem minimal_build (hA : A.IsDfa) (h : Stable A s) :
    Minimal A (build A s.equivClasses) s.classIndices := by
  rw [build]
  simp only [foldl_addState]
  set B₀ : FiniteAutomaton :=
    { ({} : FiniteAutomaton).extendAlphabet A.alphabet with
      states := (({} : FiniteAutomaton).extendAlphabet A.alphabet).states ++
        List.replicate s.equivClasses.size ⟨false, []⟩ }
  have hlen₀ : B₀.states.length = s.equivClasses.size := by
    simp [B₀, extendAlphabet]
  have halpha₀ : B₀.alphabet = A.alphabet := by
    apply OrdSet.ext_mem
    intro c
    exact mem_alphabet_extendAlphabet.trans (by simp)
  have hstate₀ : ∀ p, B₀.state p = ⟨false, []⟩ := fun p => state_replicate
  obtain ⟨hlen, halpha, hstart, hstate, _⟩ := foldl_placeClass (A := A) (B := B₀)
    (l := s.equivClasses.toList)
    (by
      intro e he
      obtain ⟨p, hp, hep, _⟩ := h.entry he
      rw [hlen₀, hep]
      exact h.toRounded.number_lt hp)
    (by
      intro e he t ht
      obtain ⟨p, _, hep, _⟩ := h.entry he
      rw [hep] at ht
      obtain ⟨c, hc, rfl⟩ := List.mem_map.mp ht
      rw [halpha₀]
      exact hc)
    (List.Nodup.map_on (fun e he e' he' => h.entry_eq he he') s.equivClasses.nodup_toList)
    (by
      intro e he e' he' hmem hmem'
      obtain ⟨p, _, hep, hS⟩ := h.entry he
      obtain ⟨q, _, heq, hS'⟩ := h.entry he'
      apply h.entry_eq he he'
      rw [hep, heq]
      exact ((hS _).mp hmem).2.symm.trans ((hS' _).mp hmem').2)
  refine ⟨halpha.trans halpha₀, ?_, ?_, ?_, ?_, ?_⟩
  · obtain ⟨e, he, hekey, hS⟩ := h.exists_entry hA.inRange.start_lt
    rw [hstart e he ((hS _).mpr ⟨hA.inRange.start_lt, rfl⟩), hekey]
    rfl
  · intro p hp
    rw [hlen, hlen₀]
    exact h.toRounded.number_lt hp
  · intro i hi
    rw [hlen, hlen₀] at hi
    exact h.toRounded.exists_number hi
  · intro p hp
    obtain ⟨e, he, hekey, hS⟩ := h.exists_entry hp
    have hindex : e.1.classIndex = s.classIndices.getD p 0 := by
      rw [hekey]
      rfl
    rw [← hindex, hstate e he, hstate₀, placed, h.any_isFinal hp hS, hekey]
    rfl
  · intro p hp q hq
    exact h.residual_eq_iff hA hp hq

theorem minify_ensures (hA : A.IsDfa) (hfinal : ∃ p, A.Final p) :
    (minify A).Ensures fun B => ∃ v, Minimal A B v := by
  apply Comp.ensures_bind.mpr
  apply (refinement_ensures hA hfinal).mono
  intro s hs
  exact Comp.ensures_pure.mpr ⟨_, minimal_build hA hs⟩

end FormalLanguages.AutomatonMinifier
