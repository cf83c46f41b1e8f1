import FormalLanguages.Verification.Pipeline.Output

/-! # How many states the automata have

The simplifier adds as many states as the labels call for, whatever the order in which it takes
them. Later passes only remove states, but for the trap state and the subset construction. -/

namespace FormalLanguages

open FiniteAutomaton

/-! ## The states of a label -/

namespace Regex

mutual

/-- The number of states that rewriting the label adds. -/
def fresh : Regex → ℕ
  | .char _ => 0
  | .concat operands => (operands.length - 1) + freshAll operands
  | .sum operands => freshAll operands
  | .star operand => 2 + operand.fresh

def freshAll : List Regex → ℕ
  | [] => 0
  | r :: rs => r.fresh + freshAll rs

end

end Regex

variable {A B S E O C D M : FiniteAutomaton} {r : Regex} {rs : List Regex} {i j s t : ℕ}

/-- The states of the automaton and those that its labels call for. -/
def FiniteAutomaton.grownLength (A : FiniteAutomaton) : ℕ :=
  A.states.length + (A.states.map fun s => (s.transitions.map fun t => t.regex.fresh).sum).sum

@[simp] theorem grownLength_addState {b : Bool} :
    (A.addState b).1.grownLength = A.grownLength + 1 := by
  simp only [grownLength, addState, List.length_append, List.length_singleton, List.map_append,
    List.map_singleton, List.map_nil, List.sum_append, List.sum_singleton, List.sum_nil]
  omega

theorem grownLength_addTransition (h : s < A.states.length) :
    (A.addTransition s t r).grownLength = A.grownLength + r.fresh := by
  have := sum_map_modify A.states (fun s => (s.transitions.map fun t => t.regex.fresh).sum)
    (fun s => { s with transitions := s.transitions ++ [⟨r, t⟩] }) h
  simp only [List.map_append, List.sum_append, List.map_cons, List.map_nil, List.sum_cons,
    List.sum_nil] at this
  simp only [grownLength, addTransition, List.length_modify]
  omega

theorem grownLength_removeTransition {u : FiniteAutomatonTransition}
    (h : (A.state i).transitions[j]? = some u) :
    (A.removeTransition i j).grownLength + u.regex.fresh = A.grownLength := by
  have hi : i < A.states.length := (edge_of_getElem? h).source_lt
  have hsum := sum_map_modify A.states
    (fun s => (s.transitions.map fun t => t.regex.fresh).sum)
    (fun s => { s with transitions := s.transitions.eraseIdx j }) hi
  rw [state_of_lt hi] at h
  have herase := sum_map_eraseIdx _ (fun t => t.regex.fresh) h
  simp only [grownLength, removeTransition, modifyState, List.length_modify]
  simp only at hsum
  omega

/-! ## The simplifier -/

namespace AutomatonSimplifier

theorem grownLength_shortenConcat (hs : s < A.states.length)
    (hB : (shortenConcat A s t rs).Returns B) :
    B.grownLength = A.grownLength + (Regex.concat rs).fresh := by
  induction rs generalizing A s with
  | nil => exact absurd hB Comp.returns_throw
  | cons r rs ih =>
      cases rs with
      | nil =>
          cases Comp.returns_pure.mp hB
          rw [grownLength_addTransition hs, Regex.fresh, Regex.freshAll, Regex.freshAll]
          simp
      | cons x rs =>
          have hn := ih (A := (A.addState false).1.addTransition s A.states.length r)
            (s := A.states.length) (by simp) hB
          rw [hn, grownLength_addTransition (by rw [length_addState]; omega),
            grownLength_addState, Regex.fresh, Regex.fresh]
          simp only [List.length_cons, Regex.freshAll]
          omega

theorem grownLength_shortenSum (hs : s < A.states.length) :
    (shortenSum A s t rs).grownLength = A.grownLength + (Regex.sum rs).fresh := by
  rw [shortenSum]
  induction rs generalizing A with
  | nil => rfl
  | cons r rs ih =>
      rw [List.foldl_cons, ih (by simpa using hs), grownLength_addTransition hs, Regex.fresh,
        Regex.fresh, Regex.freshAll, Nat.add_assoc]

theorem grownLength_shortenStar (hs : s < A.states.length) :
    (shortenStar A s t r).grownLength = A.grownLength + (Regex.star r).fresh := by
  have hempty : Regex.empty.fresh = 0 := rfl
  simp only [shortenStar]
  rw [grownLength_addTransition (by simp only [length_addTransition, length_addState]; omega),
    grownLength_addTransition (by simp),
    grownLength_addTransition (by simp only [length_addTransition, length_addState]; omega),
    grownLength_addTransition (by simp only [length_addState]; omega),
    grownLength_addState, grownLength_addState, hempty, Regex.fresh]
  omega

/-- One rewriting exchanges a label for the states it calls for. -/
theorem grownLength_shortenTransition (hA : A.InRange)
    (hB : (shortenTransition A s j).Returns B) : B.grownLength = A.grownLength := by
  rw [shortenTransition] at hB
  cases hj : (A.state s).transitions[j]? with
  | none =>
      rw [hj] at hB
      exact absurd hB Comp.returns_throw
  | some u =>
      obtain ⟨r, t⟩ := u
      have hs := (edge_of_getElem? hj).source_lt
      have ht := hA.target_lt (edge_of_getElem? hj)
      rw [hj] at hB
      cases r with
      | char c => exact absurd hB Comp.returns_throw
      | concat rs =>
          obtain ⟨C, hC, hB⟩ := Comp.returns_bind.mp hB
          cases Comp.returns_pure.mp hB
          have hremoved := grownLength_removeTransition (getElem?_shortenConcat hj hC)
          have hgrown := grownLength_shortenConcat hs hC
          simp only at hremoved
          omega
      | sum rs =>
          cases Comp.returns_pure.mp hB
          have hremoved :=
            grownLength_removeTransition ((gadget_shortenSum rs hs ht).getElem? hj)
          have hgrown : (shortenSum A s t rs).grownLength = _ := grownLength_shortenSum hs
          simp only at hremoved
          omega
      | star r =>
          cases Comp.returns_pure.mp hB
          have hremoved := grownLength_removeTransition
            ((adds_shortenStar (t := t) (r := r) hs).getElem? hj)
          have hgrown := grownLength_shortenStar (t := t) (r := r) hs
          simp only at hremoved
          omega

theorem grownLength_of_isSimple (h : A.isSimple = true) : A.grownLength = A.states.length := by
  have hzero : (A.states.map fun s => (s.transitions.map fun t => t.regex.fresh).sum).sum = 0 := by
    apply List.sum_eq_zero
    intro n hn
    obtain ⟨s, hs, rfl⟩ := List.mem_map.mp hn
    apply List.sum_eq_zero
    intro m hm
    obtain ⟨t, ht, rfl⟩ := List.mem_map.mp hm
    obtain ⟨p, hp, rfl⟩ := List.mem_iff_getElem.mp hs
    rw [← state_of_lt hp] at ht
    obtain ⟨c, hc⟩ := isSimple_iff.mp h p t.regex t.targetIndex ht
    rw [hc, Regex.fresh]
  rw [grownLength, hzero, Nat.add_zero]

theorem length_simplify (hA : A.InRange) (hl : LabelsOk A) (hB : (simplify A).Returns B) :
    B.states.length = A.grownLength := by
  have hsimple := ((simplify_ensures hA hl).of_returns hB).1
  rw [← grownLength_of_isSimple hsimple]
  exact simplify_invariant (fun B => B.grownLength = A.grownLength)
    (fun _ _ _ _ hC h hD => (grownLength_shortenTransition hC hD).trans h) hA hl rfl hB

theorem grownLength_ofRegex (r : Regex) (alphabet : OrdSet CChar) :
    ((ofRegex r).extendAlphabet alphabet).grownLength = 2 + r.fresh := by
  simp [grownLength, extendAlphabet, ofRegex]

end AutomatonSimplifier

/-! ## The passes after it -/

namespace EpsilonRemover

/-- A cycle gives way to one state, and a replaced transition leaves the states alone. -/
theorem ScanCase.length_le {u v : Scan} (h : ScanCase u (.inl v)) :
    v.automaton.states.length ≤ u.automaton.states.length := by
  cases h with
  | endOfState => exact le_rfl
  | letter => exact le_rfl
  | merged hS hB =>
      have hlen := hB.length_eq
      have hpos := List.length_pos_of_ne_nil hS.ne_nil
      simp only
      omega
  | replaced _ _ _ hB => exact hB.length_eq.le

theorem length_simplify_le (hA : A.InRange) (hB : (simplify A).Returns B) :
    B.states.length ≤ A.states.length := by
  refine Comp.loop_returns_of
    (fun u => Removes A u.automaton ∧ u.automaton.states.length ≤ A.states.length)
    (fun B => B.states.length ≤ A.states.length) ?_ ⟨.refl hA, le_rfl⟩ hB
  intro u x hinv hx
  have hcase := (scanStep_ensures hinv.1.inRange).of_returns hx
  cases x with
  | inl v => exact ⟨hinv.1.next hcase, hcase.length_le.trans hinv.2⟩
  | inr C =>
      cases hcase with
      | finished => exact hinv.2

end EpsilonRemover

/-- A map onto the numbers below `n` of some of those below `m`. -/
theorem le_of_surjOn {f : ℕ → ℕ} {m n : ℕ} (hsurj : ∀ x < n, ∃ p < m, f p = x) : n ≤ m := by
  have hcard := Finset.card_le_card_of_surjOn (s := Finset.range m) (t := Finset.range n) f
    (fun x hx => by
      obtain ⟨p, hp, rfl⟩ := hsurj x (Finset.mem_range.mp hx)
      exact ⟨p, Finset.mem_coe.mpr (Finset.mem_range.mpr hp), rfl⟩)
  simpa using hcard

theorem AutomatonOptimizer.ReachablePart.length_le {f : ℕ → ℕ}
    (h : AutomatonOptimizer.ReachablePart A B f) (hA : A.InRange) :
    B.states.length ≤ A.states.length :=
  le_of_surjOn fun x hx => by
    obtain ⟨p, hp, hpx⟩ := h.surj (x := x) hx
    exact ⟨p, hp.lt hA, hpx⟩

/-- The states stand for different sets of states, none of them empty. -/
theorem AutomatonDeterminator.Determines.length_lt {sets : ℕ → Set ℕ}
    (h : AutomatonDeterminator.Determines A B sets) :
    B.states.length < 2 ^ A.states.length := by
  classical
  let code : ℕ → Finset ℕ := fun k => (Finset.range A.states.length).filter (· ∈ sets k)
  have hmem : ∀ k q, q ∈ code k ↔ q ∈ sets k := fun k q => by
    rw [Finset.mem_filter, Finset.mem_range]
    exact ⟨And.right, fun hq => ⟨h.lt hq, hq⟩⟩
  have hcard := Finset.card_lt_card (s := (Finset.range B.states.length).image code)
    (t := (Finset.range A.states.length).powerset) ?_
  · rw [Finset.card_powerset, Finset.card_range, Finset.card_image_of_injOn, Finset.card_range]
      at hcard
    · exact hcard
    · intro k hk l hl hkl
      apply h.inj (Finset.mem_range.mp hk) (Finset.mem_range.mp hl)
      ext q
      rw [← hmem, ← hmem, hkl]
  · refine Finset.ssubset_iff_of_subset ?_ |>.mpr ⟨∅, Finset.empty_mem_powerset _, ?_⟩
    · intro s hs
      obtain ⟨k, _, rfl⟩ := Finset.mem_image.mp hs
      exact Finset.mem_powerset.mpr (Finset.filter_subset _ _)
    · intro hempty
      obtain ⟨k, hk, hcode⟩ := Finset.mem_image.mp hempty
      obtain ⟨q, hq⟩ := h.nonempty (Finset.mem_range.mp hk)
      rw [← hmem, hcode] at hq
      exact Finset.notMem_empty q hq

theorem length_determinePass_lt (hC : C.InRange) (hD : (determinePass order C).Returns D) :
    D.states.length < 2 ^ C.states.length := by
  obtain ⟨B, hB, hassign⟩ := Comp.returns_bind.mp hD
  cases Comp.returns_pure.mp hassign
  obtain ⟨heps, hcomplete⟩ := AutomatonDeterminator.assertions_of_returns hB
  obtain ⟨sets, hdet⟩ :=
    (AutomatonDeterminator.determine_ensures order hC heps hcomplete).of_returns hB
  exact hdet.length_lt

/-- An injection of the numbers below `m` into those below `n`. -/
theorem le_of_injOn {f : ℕ → ℕ} {m n : ℕ} (hlt : ∀ p < m, f p < n)
    (hinj : ∀ p < m, ∀ q < m, f p = f q → p = q) : m ≤ n := by
  have hcard := Finset.card_le_card_of_injOn (s := Finset.range m) (t := Finset.range n) f
    (fun p hp => Finset.mem_range.mpr (hlt p (Finset.mem_range.mp hp)))
    (fun p hp q hq => hinj p (Finset.mem_range.mp hp) q (Finset.mem_range.mp hq))
  simpa using hcard

open scoped Classical in
/-- A final state and the start state. -/
theorem AutomatonCollapser.Collapsed.length_le (h : AutomatonCollapser.Collapsed A B) :
    B.states.length ≤ 2 := by
  apply le_of_injOn (f := fun p => if B.Final p then 1 else 0)
  · intro p _
    split
    · exact Nat.one_lt_two
    · exact Nat.zero_lt_two
  · intro p hp q hq hpq
    by_cases hfp : B.Final p
    · by_cases hfq : B.Final q
      · exact h.oneFinal p q hfp hfq
      · simp [hfp, hfq] at hpq
    · by_cases hfq : B.Final q
      · simp [hfp, hfq] at hpq
      · have hp := (h.final_or_start p hp).resolve_left hfp
        exact hp.trans ((h.final_or_start q hq).resolve_left hfq).symm

/-- The passes after the subset construction, final states or not. -/
theorem FrontEnd.exists_lengths (h : FrontEnd order A S E O C D) :
    ∃ M X, (minifyPass D).Returns M ∧ M.states.length ≤ D.states.length ∧
      (AutomatonCollapser.collapse (AutomatonInverter.invert M)).Returns X ∧
      X.states.length ≤ 2 := by
  by_cases hfinal : ∃ p, D.Final p
  · obtain ⟨M, I, hb⟩ := exists_backEnd h.isDfa h.allReachable hfinal
    obtain ⟨v, hmin⟩ := (minifyPass_ensures h.isDfa hfinal).of_returns hb.minified
    obtain ⟨X, hX, hcollapsed⟩ := AutomatonCollapser.collapse_ensures
      (AutomatonToRegexConverter.tidy_of_isDfa hb.isDfa_inverted) hb.isDeterministic
    rw [← hb.inverted] at hX
    exact ⟨M, X, hb.minified, le_of_surjOn hmin.exists_number, hX, hcollapsed.length_le⟩
  · exact ⟨_, ⟨D.alphabet, [], 0⟩, minifyPass_of_not_final (not_exists.mp hfinal), Nat.zero_le _,
      ⟨1, rfl⟩, Nat.zero_le 2⟩

/-! ## The program -/

/-- The automaton before each pass: the simplifier adds exactly the states its regex calls for,
and from there on the number grows by a trap at most and in the subset construction. -/
theorem beforePass_lengths (order : IterationOrder) (r : Regex) (alphabet : OrdSet CChar)
    (hr : r.noEmptyConcat = true) (h0 : 0 ∉ alphabet) :
    ∃ sizes : ℕ → ℕ,
      (∀ pass ≤ 8, (beforePass order r alphabet pass).Ensures fun B =>
        B.states.length = sizes pass) ∧
      sizes 0 = 2 ∧ sizes 1 = 2 + r.fresh ∧ sizes 2 ≤ sizes 1 ∧ sizes 3 ≤ sizes 2 ∧
      sizes 3 ≤ sizes 4 ∧ sizes 4 ≤ sizes 3 + 1 ∧ sizes 5 < 2 ^ sizes 4 ∧
      sizes 6 ≤ sizes 5 ∧ sizes 7 = sizes 6 ∧ sizes 8 ≤ 2 := by
  have hinput := pipelineInput_ofRegex hr h0
  obtain ⟨S, E, O, C, D, h⟩ := exists_frontEnd order hinput.toWellFormed
  obtain ⟨M, X, hM, hlenM, hX, hlenX⟩ := h.exists_lengths
  obtain ⟨h1, h2, h3, h4, h5⟩ := beforePass_frontEnd h
  have h6 := returns_beforePass_succ h5 hM
  have h7 : (beforePass order r alphabet 7).Returns (AutomatonInverter.invert M) :=
    returns_beforePass_succ h6 (Comp.returns_pure.mpr rfl)
  have h8 : (beforePass order r alphabet 8).Returns X := returns_beforePass_succ h7 hX
  obtain ⟨f, hpart⟩ :=
    (AutomatonOptimizer.optimize_reachablePart h.inRange.2.1).of_returns h.optimized
  have hcomplete := AutomatonCompleter.completes_complete h.inRange.2.2.1
  rw [h.completed] at hcomplete
  let sizes : ℕ → ℕ := fun pass =>
    [2, S.states.length, E.states.length, O.states.length, C.states.length, D.states.length,
      M.states.length, (AutomatonInverter.invert M).states.length, X.states.length].getD pass 0
  refine ⟨sizes, ?_, rfl, ?_, ?_, ?_, ?_, ?_, ?_, hlenM, ?_, hlenX⟩
  · intro pass hpass
    match pass, hpass with
    | 0, _ => exact ⟨_, Comp.returns_pure.mpr rfl, rfl⟩
    | 1, _ => exact ⟨S, h1, rfl⟩
    | 2, _ => exact ⟨E, h2, rfl⟩
    | 3, _ => exact ⟨O, h3, rfl⟩
    | 4, _ => exact ⟨C, h4, rfl⟩
    | 5, _ => exact ⟨D, h5, rfl⟩
    | 6, _ => exact ⟨M, h6, rfl⟩
    | 7, _ => exact ⟨_, h7, rfl⟩
    | 8, _ => exact ⟨X, h8, rfl⟩
  · rw [← AutomatonSimplifier.grownLength_ofRegex r alphabet]
    exact AutomatonSimplifier.length_simplify hinput.inRange hinput.labelsOk h.simplified
  · exact EpsilonRemover.length_simplify_le h.inRange.1 h.removed
  · exact hpart.length_le h.inRange.2.1
  · exact hcomplete.length_le.1
  · exact hcomplete.length_le.2
  · exact length_determinePass_lt h.inRange.2.2.2 h.determined
  · exact (AutomatonInverter.inverts_invert M).length_eq

theorem beforePass_lengths_mainRegex :
    ∃ sizes : ℕ → ℕ,
      (∀ pass ≤ 8, (beforePass .insertion mainRegex (.insert 97 (.insert 98 ∅)) pass).Ensures
        fun B => B.states.length = sizes pass) ∧
      sizes 0 = 2 ∧ sizes 1 = 2 + mainRegex.fresh ∧ sizes 2 ≤ sizes 1 ∧ sizes 3 ≤ sizes 2 ∧
      sizes 3 ≤ sizes 4 ∧ sizes 4 ≤ sizes 3 + 1 ∧ sizes 5 < 2 ^ sizes 4 ∧
      sizes 6 ≤ sizes 5 ∧ sizes 7 = sizes 6 ∧ sizes 8 ≤ 2 :=
  beforePass_lengths .insertion mainRegex (.insert 97 (.insert 98 ∅)) (by decide) (by decide)

end FormalLanguages
