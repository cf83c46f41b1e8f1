import FormalLanguages.Verification.Automaton.RemoveState

/-! # Scans in place

A scan that erases and overwrites transitions while its counter runs leaves what
`List.filterMap` gives, so `remove_state` in place does what the list functions say. -/

namespace FormalLanguages.FiniteAutomaton.InPlace

variable {A B : FiniteAutomaton} {i p s : ℕ}
  {f : FiniteAutomatonTransition → Option FiniteAutomatonTransition}

/-! ## The transitions of one state -/

/-- State `i` with these transitions in place of its own. -/
def withTransitions (A : FiniteAutomaton) (i : ℕ) (ts : List FiniteAutomatonTransition) :
    FiniteAutomaton :=
  A.modifyState i fun s => { s with transitions := ts }

theorem withTransitions_self {ts : List FiniteAutomatonTransition}
    (h : (A.state i).transitions = ts) : withTransitions A i ts = A := by
  have hstates : (A.states.modify i fun s => { s with transitions := ts }) = A.states := by
    apply List.ext_getElem?
    intro k
    rw [List.getElem?_modify]
    by_cases hik : i = k
    · subst hik
      rw [state, List.getD_eq_getElem?_getD] at h
      cases hget : A.states[i]? with
      | none => simp
      | some st =>
          rw [hget] at h
          simp [← h]
    · simp [hik]
  rw [withTransitions, modifyState, hstates]

theorem withTransitions_modifyState {ts : List FiniteAutomatonTransition}
    (g : FiniteAutomatonState → FiniteAutomatonState) (hg : ∀ s, (g s).isFinal = s.isFinal) :
    withTransitions (A.modifyState i g) i ts = withTransitions A i ts := by
  have hcomp : (fun s : FiniteAutomatonState => { s with transitions := ts }) ∘ g =
      fun s => { s with transitions := ts } := by
    funext s
    simp [hg]
  rw [withTransitions, modifyState, modifyState, List.modify_modify_eq, hcomp]
  rfl

theorem withTransitions_removeTransition {ts : List FiniteAutomatonTransition} (j : ℕ) :
    withTransitions (A.removeTransition i j) i ts = withTransitions A i ts :=
  withTransitions_modifyState _ fun _ => rfl

theorem withTransitions_setTransition {ts : List FiniteAutomatonTransition} (j : ℕ)
    (u : FiniteAutomatonTransition) :
    withTransitions (A.setTransition i j u) i ts = withTransitions A i ts :=
  withTransitions_modifyState _ fun _ => rfl

/-- From the position behind `done` the scan deals with the rest of the transitions. -/
theorem loop_scanRound (hi : i < A.states.length) (rest done : List FiniteAutomatonTransition)
    (h : (A.state i).transitions = done ++ rest) :
    (Comp.loop (scanRound f i) (A, done.length)).Returns
      (withTransitions A i (done ++ rest.filterMap f)) := by
  induction rest generalizing A done with
  | nil =>
      have hround : scanRound f i (A, done.length) = pure (.inr A) := by
        simp [scanRound, h]
      rw [List.append_nil] at h
      rw [List.filterMap_nil, List.append_nil, withTransitions_self h]
      exact Comp.loop_returns_step.mpr (.inl (by simp [hround]))
  | cons t rest ih =>
      have hget : (A.state i).transitions[done.length]? = some t := by simp [h]
      apply Comp.loop_returns_step.mpr
      right
      cases hf : f t with
      | none =>
          have hround : scanRound f i (A, done.length) =
              pure (.inl (A.removeTransition i done.length, done.length)) := by
            simp only [scanRound, hget, hf]
          refine ⟨_, by rw [Comp.Next, hround, Comp.returns_pure], ?_⟩
          have hrest : ((A.removeTransition i done.length).state i).transitions =
              done ++ rest := by
            rw [state_removeTransition, if_pos rfl, h]
            simp [List.eraseIdx_append_of_length_le]
          have := ih (by simpa using hi) done hrest
          rw [withTransitions_removeTransition] at this
          rwa [List.filterMap_cons_none hf]
      | some u =>
          have hround : scanRound f i (A, done.length) =
              pure (.inl (A.setTransition i done.length u, done.length + 1)) := by
            simp only [scanRound, hget, hf]
          refine ⟨_, by rw [Comp.Next, hround, Comp.returns_pure], ?_⟩
          have hrest : ((A.setTransition i done.length u).state i).transitions =
              (done ++ [u]) ++ rest := by
            rw [setTransition, state_modifyState _ hi, if_pos rfl]
            simp [h]
          have := ih (by simpa [setTransition] using hi) (done ++ [u]) hrest
          rw [withTransitions_setTransition] at this
          rw [List.filterMap_cons_some hf]
          simpa using this

theorem scan_returns (hi : i < A.states.length) :
    (scan f A i).Returns (withTransitions A i ((A.state i).transitions.filterMap f)) :=
  loop_scanRound hi _ [] rfl

/-! ## All states -/

/-- The scans have dealt with the states below `m` and no others. -/
structure Scanned (f : FiniteAutomatonTransition → Option FiniteAutomatonTransition)
    (A : FiniteAutomaton) (m : ℕ) (B : FiniteAutomaton) : Prop where
  length_eq : B.states.length = A.states.length
  start_eq : B.startStateIndex = A.startStateIndex
  alphabet_eq : B.alphabet = A.alphabet
  state : ∀ p, B.state p = if p < m then
    { A.state p with transitions := (A.state p).transitions.filterMap f } else A.state p

theorem Scanned.next {m : ℕ} (h : Scanned f A m B) (hm : m < A.states.length) :
    Scanned f A (m + 1) (withTransitions B m ((B.state m).transitions.filterMap f)) where
  length_eq := (length_modifyState _).trans h.length_eq
  start_eq := h.start_eq
  alphabet_eq := h.alphabet_eq
  state p := by
    rw [withTransitions, state_modifyState _ (h.length_eq ▸ hm), h.state, h.state]
    rcases lt_trichotomy p m with hp | rfl | hp
    · rw [if_neg hp.ne, if_pos hp, if_pos (by omega)]
    · rw [if_pos rfl, if_neg (lt_irrefl p), if_pos (by omega)]
    · rw [if_neg hp.ne', if_neg (by omega), if_neg (by omega)]

theorem Scanned.eq (h : Scanned f A A.states.length B) :
    B = { A with states := A.states.map fun s =>
      { s with transitions := s.transitions.filterMap f } } := by
  have hstates : B.states = A.states.map fun s =>
      { s with transitions := s.transitions.filterMap f } := by
    apply List.ext_getElem (by simp [h.length_eq])
    intro p hp hpA
    rw [List.length_map] at hpA
    have hst := h.state p
    rw [state_of_lt hp, state_of_lt hpA, if_pos hpA] at hst
    rw [hst, List.getElem_map]
  exact eq_of_fields h.alphabet_eq hstates h.start_eq

/-- The scans of all states, one after the other, are a map over the states. -/
theorem scanStates_ensures (f : FiniteAutomatonTransition → Option FiniteAutomatonTransition)
    (A : FiniteAutomaton) : (scanStates f A).Ensures fun B =>
      B = { A with states := A.states.map fun s =>
        { s with transitions := s.transitions.filterMap f } } := by
  refine (Comp.foldlM_range_ensures (Scanned f A) ?_ ?_).mono fun B h => h.eq
  · intro m hm B h
    exact ⟨_, scan_returns (h.length_eq ▸ hm), h.next hm⟩
  · exact ⟨rfl, rfl, rfl, by simp⟩

/-! ## Removal of a state -/

theorem filterMap_eraseOrLower (s : ℕ) (ts : List FiniteAutomatonTransition) :
    ts.filterMap (eraseOrLower s) = dropTarget s ts := by
  induction ts with
  | nil => rfl
  | cons t ts ih =>
      rw [dropTarget, ← ih]
      by_cases heq : t.targetIndex = s
      · rw [if_pos heq, List.filterMap_cons_none (by simp [eraseOrLower, heq])]
      · rw [if_neg heq]
        by_cases hlt : s < t.targetIndex
        · have hlower : eraseOrLower s t = some { t with targetIndex := t.targetIndex - 1 } := by
            rw [eraseOrLower, if_neg heq, if_pos hlt]
          rw [if_pos hlt, List.filterMap_cons_some hlower]
        · have hkeep : eraseOrLower s t = some t := by
            rw [eraseOrLower, if_neg heq, if_neg hlt]
          rw [if_neg hlt, List.filterMap_cons_some hkeep]

/-- In place and list by list, the removal of a state is the same. -/
theorem removeState_ensures (A : FiniteAutomaton) (s : ℕ) :
    (removeState A s).Ensures fun B => B = A.removeState s := by
  refine Comp.ensures_bind.mpr ((scanStates_ensures (eraseOrLower s) A).mono ?_)
  intro B hB
  subst hB
  refine Comp.ensures_pure.mpr ?_
  simp only [filterMap_eraseOrLower]
  rfl

/-- The removal of a state that is not the start state leaves the subgraph induced on the
other states, with the gap in the numbering closed. -/
theorem removeState_correct (A : FiniteAutomaton) (s : ℕ) (hA : A.InRange)
    (hs : s < A.states.length) (hstart : s ≠ A.startStateIndex) :
    (removeState A s).Ensures fun B =>
      Induces A B (· ≠ s) (skip s) ∧ B.startStateIndex = skip s A.startStateIndex ∧
        B.InRange := by
  refine (removeState_ensures A s).mono ?_
  intro B hB
  subst hB
  have hind := induces_removeState hs
  exact ⟨hind, hind.start hstart.symm, hind.subgraph.inRange hA hstart.symm⟩

/-- Three states, each with a transition to every one of them. -/
def allToAll : FiniteAutomaton where
  states := List.replicate 3 ⟨true, [⟨.char 97, 0⟩, ⟨.char 98, 1⟩, ⟨.char 97, 2⟩]⟩
  startStateIndex := 2

theorem removeState_correct_allToAll :
    (removeState allToAll 1).Ensures fun B =>
      Induces allToAll B (· ≠ 1) (skip 1) ∧ B.startStateIndex = skip 1 2 ∧ B.InRange :=
  removeState_correct allToAll 1 (by decide) (by decide) (by decide)

end FormalLanguages.FiniteAutomaton.InPlace
