import FormalLanguages.Verification.Regex.Expression
import FormalLanguages.Verification.Simplifier.Correctness

/-! # The indices of the simplifier

The functions of the simplifier once more, with a check of every index of a state or of a
transition before it is used. None of the checks fails. What remains is the access to the last
operand of a `Concat` label. -/

namespace FormalLanguages.AutomatonSimplifier

open FiniteAutomaton

variable {A : FiniteAutomaton} {i j s t : ℕ} {r : Regex} {u : FiniteAutomatonTransition}

namespace Checked

/-! ## The checked functions -/

/-- `get_transition(i, j)`. -/
def getTransition (A : FiniteAutomaton) (i j : ℕ) : Comp Fault FiniteAutomatonTransition :=
  match A.states[i]? with
  | none => Comp.throw .indexOutOfRange
  | some state =>
      match state.transitions[j]? with
      | none => Comp.throw .indexOutOfRange
      | some transition => pure transition

def addTransition (A : FiniteAutomaton) (source target : ℕ) (regex : Regex) :
    Comp Fault FiniteAutomaton := do
  Comp.assert (decide (source < A.states.length)) .indexOutOfRange
  pure (A.addTransition source target regex)

def removeTransition (A : FiniteAutomaton) (i j : ℕ) : Comp Fault FiniteAutomaton := do
  let _ ← getTransition A i j
  pure (A.removeTransition i j)

/-- The transition `j` of state `i` is read again after each change. -/
def shortenConcat (A : FiniteAutomaton) (i j lastIndex target : ℕ) :
    List Regex → Comp Fault FiniteAutomaton
  | [] => Comp.throw .indexOutOfRange
  | [operand] => addTransition A lastIndex target operand
  | operand :: next :: operands => do
      let p := A.addState false
      let B ← addTransition p.1 lastIndex p.2 operand
      let _ ← getTransition B i j
      shortenConcat B i j p.2 target (next :: operands)

def shortenSum (A : FiniteAutomaton) (i j target : ℕ) : List Regex → Comp Fault FiniteAutomaton
  | [] => pure A
  | operand :: operands => do
      let B ← addTransition A i target operand
      let _ ← getTransition B i j
      shortenSum B i j target operands

def shortenStar (A : FiniteAutomaton) (i target : ℕ) (operand : Regex) :
    Comp Fault FiniteAutomaton := do
  let fictiveStart := A.states.length
  let fictiveEnd := A.states.length + 1
  let A := ((A.addState false).1.addState false).1
  let A ← addTransition A fictiveStart fictiveEnd operand
  let A ← addTransition A i fictiveStart Regex.empty
  let A ← addTransition A fictiveEnd fictiveStart Regex.empty
  addTransition A fictiveStart target Regex.empty

def shortenTransition (A : FiniteAutomaton) (i j : ℕ) : Comp Fault FiniteAutomaton := do
  let transition ← getTransition A i j
  match transition with
  | ⟨.char _, _⟩ => Comp.throw .charIsNotALongTransition
  | ⟨.concat operands, target⟩ =>
      let A ← shortenConcat A i j i target operands
      removeTransition A i j
  | ⟨.sum operands, target⟩ =>
      let A ← shortenSum A i j target operands
      removeTransition A i j
  | ⟨.star operand, target⟩ =>
      let A ← shortenStar A i target operand
      removeTransition A i j

def simplify (A : FiniteAutomaton) : Comp Fault FiniteAutomaton :=
  Comp.loop (fun A =>
    match getLongTransition A with
    | none => pure (.inr A)
    | some (state, transitionIndex) => do
        let A ← shortenTransition A state transitionIndex
        pure (.inl A)) A

/-! ## The checks succeed -/

theorem getTransition_eq (h : (A.state i).transitions[j]? = some u) :
    getTransition A i j = pure u := by
  have hi : i < A.states.length := (edge_of_getElem? h).source_lt
  rw [state_of_lt hi] at h
  simp only [getTransition, List.getElem?_eq_getElem hi, h]

theorem addTransition_eq (h : s < A.states.length) :
    addTransition A s t r = pure (A.addTransition s t r) := by
  rw [addTransition, decide_eq_true h]
  rfl

theorem removeTransition_eq (h : (A.state i).transitions[j]? = some u) :
    removeTransition A i j = pure (A.removeTransition i j) := by
  rw [removeTransition, getTransition_eq h]
  rfl

/-- The fresh states of the chain exist, and the transition that is rewritten stays. -/
theorem shortenConcat_eq (operands : List Regex) (h : (A.state i).transitions[j]? = some u)
    (hs : s < A.states.length) :
    shortenConcat A i j s t operands = AutomatonSimplifier.shortenConcat A s t operands ∧
      ∀ B, (AutomatonSimplifier.shortenConcat A s t operands).Returns B →
        (B.state i).transitions[j]? = some u := by
  induction operands generalizing A s with
  | nil => exact ⟨rfl, fun B hB => absurd hB Comp.returns_throw⟩
  | cons operand operands ih =>
      cases operands with
      | nil =>
          refine ⟨addTransition_eq hs, fun B hB => ?_⟩
          rw [Comp.returns_pure.mp hB]
          exact getElem?_addTransition h
      | cons next operands =>
          have hs' : s < (A.addState false).1.states.length := by
            rw [length_addState]
            omega
          have hread := getElem?_addTransition (s := s) (t := A.states.length) (r := operand)
            (getElem?_addState (b := false) h)
          have ih := ih (A := (A.addState false).1.addTransition s A.states.length operand)
            (s := A.states.length) hread (by simp)
          refine ⟨?_, ih.2⟩
          rw [shortenConcat, AutomatonSimplifier.shortenConcat]
          simp only [addState_snd, addTransition_eq hs', Comp.pure_bind, getTransition_eq hread,
            ih.1]

theorem shortenSum_eq (operands : List Regex) (h : (A.state i).transitions[j]? = some u) :
    shortenSum A i j t operands = pure (AutomatonSimplifier.shortenSum A i t operands) ∧
      ((AutomatonSimplifier.shortenSum A i t operands).state i).transitions[j]? = some u := by
  induction operands generalizing A with
  | nil => exact ⟨rfl, h⟩
  | cons operand operands ih =>
      have hread := getElem?_addTransition (s := i) (t := t) (r := operand) h
      refine ⟨?_, (ih hread).2⟩
      rw [shortenSum, addTransition_eq (edge_of_getElem? h).source_lt, Comp.pure_bind,
        getTransition_eq hread, Comp.pure_bind, (ih hread).1]
      rfl

theorem shortenStar_eq (operand : Regex) (h : (A.state i).transitions[j]? = some u) :
    shortenStar A i t operand = pure (AutomatonSimplifier.shortenStar A i t operand) ∧
      ((AutomatonSimplifier.shortenStar A i t operand).state i).transitions[j]? = some u := by
  have hi := (edge_of_getElem? h).source_lt
  constructor
  · rw [shortenStar, AutomatonSimplifier.shortenStar]
    -- the two fresh states are there when the four transitions are added
    rw [addTransition_eq (by simp only [length_addState]; omega), Comp.pure_bind,
      addTransition_eq (by simp only [length_addTransition, length_addState]; omega),
      Comp.pure_bind,
      addTransition_eq (by simp only [length_addTransition, length_addState]; omega),
      Comp.pure_bind,
      addTransition_eq (by simp only [length_addTransition, length_addState]; omega)]
  · exact getElem?_addTransition (getElem?_addTransition (getElem?_addTransition
      (getElem?_addTransition (getElem?_addState (getElem?_addState h)))))

theorem shortenTransition_eq (h : (A.state i).transitions[j]? = some u) :
    shortenTransition A i j = AutomatonSimplifier.shortenTransition A i j := by
  rw [shortenTransition, AutomatonSimplifier.shortenTransition, getTransition_eq h, h,
    Comp.pure_bind]
  obtain ⟨r, t⟩ := u
  cases r with
  | char c => rfl
  | concat operands =>
      obtain ⟨heq, hread⟩ := shortenConcat_eq (t := t) operands h (edge_of_getElem? h).source_lt
      simp only [heq]
      exact Comp.bind_congr_of_returns fun B hB => removeTransition_eq (hread B hB)
  | sum operands =>
      obtain ⟨heq, hread⟩ := shortenSum_eq (t := t) operands h
      simp only [heq, Comp.pure_bind, removeTransition_eq hread]
  | star operand =>
      obtain ⟨heq, hread⟩ := shortenStar_eq (t := t) operand h
      simp only [heq, Comp.pure_bind, removeTransition_eq hread]

/-- The checked simplifier is the simplifier: all states and transitions it uses exist. -/
theorem simplify_eq (A : FiniteAutomaton) : simplify A = AutomatonSimplifier.simplify A := by
  rw [simplify, AutomatonSimplifier.simplify]
  congr 1
  funext B
  cases hlong : getLongTransition B with
  | none => rfl
  | some ij =>
      obtain ⟨i, j⟩ := ij
      obtain ⟨r, t, hj, _⟩ := getLongTransition_eq_some hlong
      simp only [shortenTransition_eq hj]

end Checked

/-! ## The regexes of the operators -/

/-- The simplifier uses no index that does not exist exactly when the regex has no `Concat` node
without operands. It then ends with a simple automaton; otherwise it reads the last operand of
that node. -/
theorem simplify_inBounds_iff (e : Expression) :
    ((Checked.simplify (.ofRegex e.value)).Ensures (fun B => B.isSimple = true) ↔
      e.value.noEmptyConcat = true) ∧
    ((Checked.simplify (.ofRegex e.value)).Throws .indexOutOfRange ↔
      e.value.noEmptyConcat = false) := by
  rw [Checked.simplify_eq]
  have hrange := inRange_ofRegex e.value
  cases hok : e.value.noEmptyConcat with
  | false =>
      have hthrows := simplify_throws hrange fun h =>
        Bool.false_ne_true (hok.symm.trans (labelsOk_ofRegex_iff.mp h))
      refine ⟨iff_of_false (fun h => ?_) Bool.false_ne_true, iff_of_true hthrows rfl⟩
      obtain ⟨B, hB, _⟩ := h
      exact hB.not_throws hthrows
  | true =>
      obtain ⟨B, hB, hsimple, _⟩ := simplify_ensures hrange (labelsOk_ofRegex hok)
      exact ⟨iff_of_true ⟨B, hB, hsimple⟩ rfl, iff_of_false hB.not_throws (by simp)⟩

/-- The automaton of the empty literal. -/
theorem simplify_literal_nil :
    (Checked.simplify (.ofRegex (Expression.literal []).value)).Throws .indexOutOfRange :=
  ⟨2, rfl⟩

end FormalLanguages.AutomatonSimplifier
