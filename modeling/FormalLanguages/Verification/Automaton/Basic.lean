import FormalLanguages.Model.FiniteAutomaton
import FormalLanguages.Verification.Regex.Language
import Mathlib.Data.List.GetD

/-! # Automata as graphs

The passes are specified by what they do to the edges and the final states. The path
language depends on these and the start state alone. -/

namespace FormalLanguages.FiniteAutomaton

variable {A B : FiniteAutomaton} {i j p q s t : ℕ} {r r' : Regex} {b : Bool}

/-! ## Edges and final states -/

/-- Some transition of state `p` has label `r` and target `q`. -/
def Edge (A : FiniteAutomaton) (p : ℕ) (r : Regex) (q : ℕ) : Prop :=
  ⟨r, q⟩ ∈ (A.state p).transitions

def Final (A : FiniteAutomaton) (p : ℕ) : Prop := (A.state p).isFinal = true

/-- The start index and all targets are indices of states. -/
structure InRange (A : FiniteAutomaton) : Prop where
  start_lt : A.startStateIndex < A.states.length
  target_lt : ∀ {p r q}, A.Edge p r q → q < A.states.length

/-- Every letter on a transition is in the alphabet. -/
def LettersIn (A : FiniteAutomaton) : Prop :=
  ∀ p r q, A.Edge p r q → ∀ c ∈ r.letters, c ∈ A.alphabet

/-- From automata with their letters in the alphabet the step leads to such an automaton, over
the same alphabet. -/
def KeepsAlphabet (A B : FiniteAutomaton) : Prop :=
  A.LettersIn → B.LettersIn ∧ B.alphabet = A.alphabet

theorem KeepsAlphabet.refl (A : FiniteAutomaton) : KeepsAlphabet A A := fun h => ⟨h, rfl⟩

theorem KeepsAlphabet.trans {A B C : FiniteAutomaton} (h : KeepsAlphabet A B)
    (h' : KeepsAlphabet B C) : KeepsAlphabet A C := by
  intro hA
  obtain ⟨hB, halpha⟩ := h hA
  obtain ⟨hC, halpha'⟩ := h' hB
  exact ⟨hC, halpha'.trans halpha⟩

/-- Some transition leads from `p` to `q`. -/
def Step (A : FiniteAutomaton) (p q : ℕ) : Prop := ∃ r, A.Edge p r q

/-- Some path leads from the start state to `p`. -/
def Reachable (A : FiniteAutomaton) (p : ℕ) : Prop :=
  Relation.ReflTransGen A.Step A.startStateIndex p

def AllReachable (A : FiniteAutomaton) : Prop := ∀ p < A.states.length, A.Reachable p

/-- The automaton as a graph whose edges carry the languages of the labels. -/
def graph (A : FiniteAutomaton) : LanguageGraph CChar ℕ where
  edge p l q := ∃ r, A.Edge p r q ∧ r.language = l
  final := A.Final

/-- The words spelled by the paths from `p` to a final state. -/
def residual (A : FiniteAutomaton) (p : ℕ) : Language CChar := A.graph.residual p

/-- The words `w₁ ⋯ wₖ` for which some path of `k` transitions leads from the start state to
a final state and `wᵢ` is in the language of its `i`-th label. -/
def pathLanguage (A : FiniteAutomaton) : Language CChar := A.residual A.startStateIndex

theorem edge_mul_residual_le (h : A.Edge p r q) :
    r.language * A.residual q ≤ A.residual p :=
  LanguageGraph.edge_mul_residual_le ⟨r, h, rfl⟩

theorem one_le_residual (h : A.Final p) : 1 ≤ A.residual p := LanguageGraph.one_le_residual h

/-- The residual languages are below every solution of the inequalities of the edges. -/
theorem residual_le {X : ℕ → Language CChar}
    (hedge : ∀ p r q, A.Edge p r q → r.language * X q ≤ X p)
    (hfinal : ∀ p, A.Final p → 1 ≤ X p) (p : ℕ) : A.residual p ≤ X p := by
  refine LanguageGraph.residual_le ⟨?_, fun {p} h => hfinal p h⟩ p
  intro p l q h
  rcases h with ⟨r, h, rfl⟩
  exact hedge p r q h

theorem residual_le_of_empty (h : A.Edge p Regex.empty q) : A.residual q ≤ A.residual p := by
  simpa using edge_mul_residual_le h

/-- The epsilon marker occurs in no word of a path. -/
theorem ne_zero_of_mem_residual {w : List CChar} (hw : w ∈ A.residual p) : ∀ c ∈ w, c ≠ 0 := by
  have hle : A.residual p ≤ ({w | ∀ c ∈ w, c ≠ 0} : Language CChar) := by
    apply residual_le (X := fun _ => {w | ∀ c ∈ w, c ≠ 0})
    · intro p r q _ w hw c hc
      obtain ⟨u, hu, v, hv, rfl⟩ := hw
      rcases List.mem_append.mp hc with hc | hc
      · exact Regex.ne_zero_of_mem_letters (Regex.mem_letters_of_mem_language hu hc)
      · exact hv c hc
    · intro p _ w hw c hc
      rw [(Language.mem_one w).mp hw] at hc
      cases hc
  exact hle hw

/-- Automata with the same edges and final states have the same residual languages. -/
theorem residual_congr (hedge : ∀ p r q, A.Edge p r q ↔ B.Edge p r q)
    (hfinal : ∀ p, A.Final p ↔ B.Final p) (p : ℕ) : A.residual p = B.residual p := by
  have hle : ∀ {A B : FiniteAutomaton}, (∀ p r q, A.Edge p r q → B.Edge p r q) →
      (∀ p, A.Final p → B.Final p) → ∀ p, A.residual p ≤ B.residual p := by
    intro A B he hf p
    exact residual_le (fun p r q h => edge_mul_residual_le (he p r q h))
      (fun p h => one_le_residual (hf p h)) p
  exact le_antisymm (hle (fun p r q => (hedge p r q).mp) (fun p => (hfinal p).mp) p)
    (hle (fun p r q => (hedge p r q).mpr) (fun p => (hfinal p).mpr) p)

/-- The alphabet plays no part in the paths. -/
theorem pathLanguage_congr (hstates : A.states = B.states)
    (hstart : A.startStateIndex = B.startStateIndex) : A.pathLanguage = B.pathLanguage := by
  have hstate : ∀ p, A.state p = B.state p := fun p => by rw [state, hstates, state]
  rw [pathLanguage, hstart]
  apply residual_congr
  · intro p r q
    rw [Edge, hstate, Edge]
  · intro p
    rw [Final, hstate, Final]

theorem Reachable.edge (h : A.Reachable p) (he : A.Edge p r q) : A.Reachable q := h.tail ⟨r, he⟩

/-! ## Indices without a state -/

theorem state_of_le (h : A.states.length ≤ p) : A.state p = default :=
  List.getD_eq_default _ _ h

theorem state_of_lt (h : p < A.states.length) : A.state p = A.states[p] :=
  List.getD_eq_getElem _ _ h

theorem Edge.source_lt (h : A.Edge p r q) : p < A.states.length := by
  by_contra hp
  rw [Edge, state_of_le (not_lt.mp hp)] at h
  exact List.not_mem_nil h

theorem Final.lt (h : A.Final p) : p < A.states.length := by
  by_contra hp
  rw [Final, state_of_le (not_lt.mp hp)] at h
  cases h

/-- No word is spelled from an index without a state. -/
theorem residual_of_le (h : A.states.length ≤ p) : A.residual p = 0 := by
  ext w
  refine iff_of_false ?_ (Language.notMem_zero w)
  intro hex
  rcases hex with ⟨q, hq, hw⟩
  cases hw with
  | nil => exact absurd hq.lt (not_lt.mpr h)
  | cons he _ _ =>
      obtain ⟨r, he, _⟩ := he
      exact absurd he.source_lt (not_lt.mpr h)

theorem edge_of_getElem? {t : FiniteAutomatonTransition}
    (h : (A.state p).transitions[j]? = some t) : A.Edge p t.regex t.targetIndex :=
  List.mem_of_getElem? h

theorem eq_of_fields (halphabet : A.alphabet = B.alphabet) (hstates : A.states = B.states)
    (hstart : A.startStateIndex = B.startStateIndex) : A = B := by
  cases A
  cases B
  cases halphabet
  cases hstates
  cases hstart
  rfl

/-! ## Changing one state -/

@[simp] theorem length_modifyState (f : FiniteAutomatonState → FiniteAutomatonState) :
    (A.modifyState i f).states.length = A.states.length :=
  List.length_modify ..

theorem getD_modify {l : List FiniteAutomatonState}
    (f : FiniteAutomatonState → FiniteAutomatonState) (h : i < l.length) :
    (l.modify i f).getD p default = if p = i then f (l.getD p default) else l.getD p default := by
  rw [List.getD_eq_getElem?_getD, List.getElem?_modify, List.getD_eq_getElem?_getD]
  by_cases hp : i = p
  · subst hp
    simp [h]
  · simp [hp, Ne.symm hp]

theorem state_modifyState (f : FiniteAutomatonState → FiniteAutomatonState)
    (h : i < A.states.length) :
    (A.modifyState i f).state p = if p = i then f (A.state p) else A.state p :=
  getD_modify f h

/-! ## The new state -/

@[simp] theorem addState_snd : (A.addState b).2 = A.states.length := rfl

@[simp] theorem length_addState : (A.addState b).1.states.length = A.states.length + 1 := by
  simp [addState]

@[simp] theorem start_addState : (A.addState b).1.startStateIndex = A.startStateIndex := rfl

@[simp] theorem alphabet_addState : (A.addState b).1.alphabet = A.alphabet := rfl

theorem state_addState : (A.addState b).1.state p =
    if p = A.states.length then ⟨b, []⟩ else A.state p := by
  unfold addState state
  rcases lt_trichotomy p A.states.length with h | rfl | h
  · simp [List.getD_eq_getElem?_getD, List.getElem?_append_left h, h.ne]
  · simp [List.getD_eq_getElem?_getD]
  · rw [if_neg h.ne', List.getD_eq_default _ _ (by simpa using Nat.succ_le_of_lt h),
      List.getD_eq_default _ _ h.le]

@[simp] theorem edge_addState : (A.addState b).1.Edge p r q ↔ A.Edge p r q := by
  unfold Edge
  rw [state_addState]
  split
  · rename_i h
    subst h
    rw [state_of_le le_rfl]
    rfl
  · rfl

theorem final_addState :
    (A.addState b).1.Final p ↔ A.Final p ∨ (p = A.states.length ∧ b = true) := by
  unfold Final
  rw [state_addState]
  split
  · rename_i h
    subst h
    rw [state_of_le le_rfl]
    simp [default]
  · simp_all

theorem foldl_addState (n : ℕ) (B : FiniteAutomaton) :
    (List.range n).foldl (fun B _ => (B.addState false).1) B =
      { B with states := B.states ++ List.replicate n ⟨false, []⟩ } := by
  induction n with
  | zero => simp
  | succ n ih =>
      rw [List.range_succ, List.foldl_concat, ih, addState, List.replicate_succ']
      simp

theorem state_replicate {n i : ℕ} {X : OrdSet CChar} :
    (FiniteAutomaton.mk X (List.replicate n ⟨false, []⟩) i).state p = ⟨false, []⟩ := by
  rw [state]
  rw [List.getD_eq_getElem?_getD, List.getElem?_replicate]
  split <;> rfl

/-! ## A new transition -/

@[simp] theorem length_addTransition :
    (A.addTransition s t r).states.length = A.states.length :=
  List.length_modify ..

@[simp] theorem start_addTransition :
    (A.addTransition s t r).startStateIndex = A.startStateIndex := rfl

theorem state_addTransition (h : s < A.states.length) : (A.addTransition s t r).state p =
    if p = s then
      { A.state p with transitions := (A.state p).transitions ++ [⟨r, t⟩] } else A.state p :=
  getD_modify _ h

@[simp] theorem edge_addTransition (h : s < A.states.length) :
    (A.addTransition s t r).Edge p r' q ↔ A.Edge p r' q ∨ (p = s ∧ r' = r ∧ q = t) := by
  unfold Edge
  rw [state_addTransition h]
  split
  · rename_i hp
    simp [hp]
  · rename_i hp
    simp [hp]

@[simp] theorem final_addTransition : (A.addTransition s t r).Final p ↔ A.Final p := by
  by_cases h : s < A.states.length
  · unfold Final
    rw [state_addTransition h]
    split <;> rfl
  · unfold Final addTransition state
    rw [List.modify_eq_self (not_lt.mp h)]

theorem mem_alphabet_addTransition {c : CChar} :
    c ∈ (A.addTransition s t r).alphabet ↔ c ∈ A.alphabet ∨ c ∈ r.letters :=
  Regex.mem_fillAlphabet

theorem alphabet_addTransition (h : ∀ c ∈ r.letters, c ∈ A.alphabet) :
    (A.addTransition s t r).alphabet = A.alphabet :=
  Regex.fillAlphabet_eq_self h

/-! ## Removal of one transition -/

@[simp] theorem length_removeTransition :
    (A.removeTransition i j).states.length = A.states.length :=
  length_modifyState _

@[simp] theorem start_removeTransition :
    (A.removeTransition i j).startStateIndex = A.startStateIndex := rfl

@[simp] theorem alphabet_removeTransition : (A.removeTransition i j).alphabet = A.alphabet := rfl

theorem state_removeTransition : (A.removeTransition i j).state p =
    if p = i then
      { A.state p with transitions := (A.state p).transitions.eraseIdx j } else A.state p := by
  by_cases h : i < A.states.length
  · exact state_modifyState _ h
  · have hi : A.removeTransition i j = A := by
      rw [removeTransition, modifyState]
      rw [List.modify_eq_self (not_lt.mp h)]
    rw [hi]
    split
    · rename_i hp
      subst hp
      rw [state_of_le (not_lt.mp h)]
      rfl
    · rfl

theorem Edge.of_removeTransition (h : (A.removeTransition i j).Edge p r q) : A.Edge p r q := by
  rw [Edge] at h
  rw [state_removeTransition] at h
  split at h
  · exact List.mem_of_mem_eraseIdx h
  · exact h

/-- An edge survives the removal of a transition unless it is the one removed. -/
theorem Edge.removeTransition (h : A.Edge p r q) :
    (A.removeTransition i j).Edge p r q ∨
      (p = i ∧ (A.state i).transitions[j]? = some ⟨r, q⟩) := by
  rw [Edge]
  rw [state_removeTransition]
  split
  · rename_i hp
    subst hp
    obtain ⟨k, hk⟩ := List.mem_iff_getElem?.mp h
    by_cases hkj : k = j
    · exact .inr ⟨rfl, hkj ▸ hk⟩
    · exact .inl (List.mem_eraseIdx_iff_getElem?.mpr ⟨k, hkj, hk⟩)
  · exact .inl h

@[simp] theorem final_removeTransition : (A.removeTransition i j).Final p ↔ A.Final p := by
  rw [Final]
  rw [state_removeTransition]
  split <;> rfl

/-! ## Final flags and the alphabet -/

@[simp] theorem length_makeStateFinal :
    (A.makeStateFinal i b).states.length = A.states.length :=
  length_modifyState _

@[simp] theorem start_makeStateFinal :
    (A.makeStateFinal i b).startStateIndex = A.startStateIndex := rfl

@[simp] theorem alphabet_makeStateFinal : (A.makeStateFinal i b).alphabet = A.alphabet := rfl

theorem state_makeStateFinal (h : i < A.states.length) : (A.makeStateFinal i b).state p =
    if p = i then { A.state p with isFinal := b } else A.state p :=
  state_modifyState _ h

@[simp] theorem edge_makeStateFinal : (A.makeStateFinal i b).Edge p r q ↔ A.Edge p r q := by
  by_cases h : i < A.states.length
  · unfold Edge
    rw [state_makeStateFinal h]
    split <;> rfl
  · unfold Edge makeStateFinal modifyState state
    rw [List.modify_eq_self (not_lt.mp h)]

theorem final_makeStateFinal (h : i < A.states.length) :
    (A.makeStateFinal i b).Final p ↔ if p = i then b = true else A.Final p := by
  rw [Final]
  rw [state_makeStateFinal h]
  split <;> rfl

@[simp] theorem edge_extendAlphabet {X : OrdSet CChar} :
    (A.extendAlphabet X).Edge p r q ↔ A.Edge p r q := Iff.rfl

theorem mem_alphabet_extendAlphabet {X : OrdSet CChar} {c : CChar} :
    c ∈ (A.extendAlphabet X).alphabet ↔ c ∈ A.alphabet ∨ c ∈ X :=
  OrdSet.mem_foldl_insert

/-! ## What the predicates test -/

theorem isSimple_iff : A.isSimple = true ↔ ∀ p r q, A.Edge p r q → ∃ c, r = .char c := by
  simp only [isSimple, List.all_eq_true]
  constructor
  · intro h p r q hpq
    have hp := hpq.source_lt
    rw [Edge, state_of_lt hp] at hpq
    exact Regex.isCharTransition_iff.mp (h _ (List.getElem_mem hp) ⟨r, q⟩ hpq)
  · intro h st hst tr htr
    obtain ⟨p, hp, rfl⟩ := List.mem_iff_getElem.mp hst
    refine Regex.isCharTransition_iff.mpr (h p tr.regex tr.targetIndex ?_)
    rw [Edge, state_of_lt hp]
    exact htr

theorem hasEpsilonTransitions_iff :
    A.hasEpsilonTransitions = true ↔ ∃ p q, A.Edge p Regex.empty q := by
  simp only [hasEpsilonTransitions, List.any_eq_true]
  constructor
  · intro hex
    rcases hex with ⟨st, hst, tr, htr, he⟩
    obtain ⟨p, hp, rfl⟩ := List.mem_iff_getElem.mp hst
    refine ⟨p, tr.targetIndex, ?_⟩
    rw [Edge, state_of_lt hp, ← Regex.isEmpty_iff.mp he]
    exact htr
  · intro h
    rcases h with ⟨p, q, h⟩
    have hp := h.source_lt
    rw [Edge, state_of_lt hp] at h
    exact ⟨_, List.getElem_mem hp, _, h, rfl⟩

theorem findTransition_eq_some {c : CChar} (h : A.findTransition c p = some j) :
    ∃ q, (A.state p).transitions[j]? = some ⟨.char c, q⟩ := by
  obtain ⟨hj, hc, _⟩ := List.findIdx?_eq_some_iff_getElem.mp h
  refine ⟨((A.state p).transitions[j]).targetIndex, ?_⟩
  rw [List.getElem?_eq_getElem hj, ← Regex.isCharOf_iff.mp hc]

theorem findTransition_eq_none {c : CChar} :
    A.findTransition c p = none ↔ ∀ q, ¬A.Edge p (.char c) q := by
  simp only [findTransition, List.findIdx?_eq_none_iff, Edge]
  constructor
  · intro h q hq
    have := h _ hq
    simp [Regex.isCharOf] at this
  · intro h hex ht
    rcases hex with ⟨r, q⟩
    by_contra hc
    simp only [Bool.not_eq_false] at hc
    rw [Regex.isCharOf_iff.mp hc] at ht
    exact h q ht

theorem isSome_findTransition {c : CChar} :
    (A.findTransition c p).isSome = true ↔ ∃ q, A.Edge p (.char c) q := by
  rw [← not_iff_not, Option.not_isSome_iff_eq_none, findTransition_eq_none, not_exists]

theorem isComplete_iff : A.isComplete = true ↔ A.isSimple = true ∧
    ∀ p < A.states.length, ∀ c ∈ A.alphabet, ∃ q, A.Edge p (.char c) q := by
  simp only [isComplete, Bool.and_eq_true, List.all_eq_true, List.mem_range,
    isSome_findTransition]
  rfl

theorem isDeterministic_iff : A.isDeterministic = true ↔ A.isSimple = true ∧
    ∀ p < A.states.length, ∀ c ∈ A.alphabet, A.countTransitions c p ≤ 1 := by
  simp only [isDeterministic, Bool.and_eq_true, List.all_eq_true, List.mem_range,
    Bool.not_eq_eq_eq_not, Bool.not_true, decide_eq_false_iff_not, not_lt]
  rfl

/-- One letter leads to one target where at most one transition carries it. -/
theorem eq_of_countTransitions_le {c : CChar} (h : A.countTransitions c p ≤ 1)
    (hs : A.Edge p (.char c) s) (ht : A.Edge p (.char c) t) : s = t := by
  rw [countTransitions] at h
  rw [List.countP_eq_length_filter] at h
  have hs' : (⟨.char c, s⟩ : FiniteAutomatonTransition) ∈
      (A.state p).transitions.filter fun t => t.regex.isCharOf c :=
    List.mem_filter.mpr ⟨hs, Regex.isCharOf_iff.mpr rfl⟩
  have ht' : (⟨.char c, t⟩ : FiniteAutomatonTransition) ∈
      (A.state p).transitions.filter fun t => t.regex.isCharOf c :=
    List.mem_filter.mpr ⟨ht, Regex.isCharOf_iff.mpr rfl⟩
  match hl : (A.state p).transitions.filter fun t => t.regex.isCharOf c with
  | [] =>
      rw [hl] at hs'
      cases hs'
  | [u] =>
      rw [hl, List.mem_singleton] at hs' ht'
      rw [← hs'] at ht'
      cases ht'
      rfl
  | _ :: _ :: _ =>
      rw [hl] at h
      simp at h

/-! ## Deciding the indices and the letters -/

theorem forall_edge_iff {P : ℕ → Regex → ℕ → Prop} :
    (∀ p r q, A.Edge p r q → P p r q) ↔
      ∀ p < A.states.length, ∀ t ∈ (A.state p).transitions, P p t.regex t.targetIndex := by
  constructor
  · intro h p _ t ht
    exact h p t.regex t.targetIndex ht
  · intro h p r q he
    exact h p he.source_lt ⟨r, q⟩ he

theorem inRange_iff : A.InRange ↔ A.startStateIndex < A.states.length ∧
    ∀ p < A.states.length, ∀ t ∈ (A.state p).transitions, t.targetIndex < A.states.length := by
  rw [← forall_edge_iff (P := fun _ _ q => q < A.states.length)]
  constructor
  · intro h
    exact ⟨h.start_lt, fun p r q he => h.target_lt he⟩
  · intro h
    exact ⟨h.1, fun {p r q} he => h.2 p r q he⟩

theorem lettersIn_iff : A.LettersIn ↔ ∀ p < A.states.length, ∀ t ∈ (A.state p).transitions,
    t.regex.letters.toList.all (fun c => decide (c ∈ A.alphabet)) = true := by
  simp only [List.all_eq_true, decide_eq_true_eq]
  exact forall_edge_iff

instance : Decidable A.InRange := decidable_of_iff' _ inRange_iff

instance : Decidable A.LettersIn := decidable_of_iff' _ lettersIn_iff

/-! ## Marks on the states -/

theorem getD_set_true {l : List Bool} {i : ℕ} (hi : i < l.length) (p : ℕ) :
    (l.set i true).getD p false = true ↔ p = i ∨ l.getD p false = true := by
  rw [List.getD_eq_getElem?_getD, List.getElem?_set]
  split
  · rename_i hip
    subst hip
    simp [hi]
  · rename_i hip
    simp [Ne.symm hip, ← List.getD_eq_getElem?_getD]

end FormalLanguages.FiniteAutomaton
