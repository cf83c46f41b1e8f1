import FormalLanguages.Verification.EpsilonRemover.Merge
import Mathlib.Data.List.Chain

/-! # The search for an epsilon cycle -/

namespace FormalLanguages.EpsilonRemover

open FiniteAutomaton

variable {A B : FiniteAutomaton} {S : List ℕ} {depth i p q t : ℕ} {s : Search}

/-! ## Epsilon reachability -/

/-- Some epsilon transition leads from `p` to `q`. -/
def EpsEdge (A : FiniteAutomaton) (p q : ℕ) : Prop := A.Edge p Regex.empty q

/-- No infinite path of epsilon transitions starts in `p`. -/
def EpsAcc (A : FiniteAutomaton) (p : ℕ) : Prop := Acc (fun q p => EpsEdge A p q) p

theorem residual_le_of_reach (h : Relation.ReflTransGen (EpsEdge A) p q) :
    A.residual q ≤ A.residual p := by
  induction h with
  | refl => exact le_rfl
  | tail _ he ih => exact (residual_le_of_empty he).trans ih

theorem EpsAcc.of_reach (h : EpsAcc A p) (hpq : Relation.ReflTransGen (EpsEdge A) p q) :
    EpsAcc A q := by
  induction hpq with
  | refl => exact h
  | tail _ he ih => exact ih.inv he

theorem EpsAcc.not_cycle (h : EpsAcc A p) : ¬Relation.TransGen (EpsEdge A) p p := by
  intro hpp
  induction h with
  | intro p _ ih =>
      obtain ⟨q, hpq, hqp⟩ := Relation.TransGen.head'_iff.mp hpp
      exact ih q hpq (Relation.TransGen.tail' hqp hpq)

/-- Every state of the list has an epsilon transition to the one before it, and the first
one to the last. -/
structure EpsCycle (A : FiniteAutomaton) (S : List ℕ) : Prop where
  ne_nil : S ≠ []
  nodup : S.Nodup
  chain : S.IsChain fun a b => EpsEdge A b a
  close : EpsEdge A (S.head ne_nil) (S.getLast ne_nil)

/-- In a chain every element is reached from the ones behind it. -/
theorem reach_of_isChain {l : List ℕ} (h : (p :: l).IsChain fun a b => EpsEdge A b a)
    (hq : q ∈ p :: l) : Relation.ReflTransGen (EpsEdge A) q p := by
  induction l generalizing p with
  | nil =>
      obtain rfl : q = p := by simpa using hq
      exact .refl
  | cons a l ih =>
      rcases List.mem_cons.mp hq with rfl | hq
      · exact .refl
      · obtain ⟨hap, hl⟩ := List.isChain_cons_cons.mp h
        exact (ih hl hq).tail hap

theorem reach_last {l : List ℕ} (h : l.IsChain fun a b => EpsEdge A b a) (hne : l ≠ [])
    (hq : q ∈ l) : Relation.ReflTransGen (EpsEdge A) (l.getLast hne) q := by
  obtain ⟨l₁, l₂, rfl⟩ := List.append_of_mem hq
  refine reach_of_isChain (l := l₂) (List.isChain_append.mp h).2.1 ?_
  rw [List.getLast_append_of_right_ne_nil _ _ (by simp)]
  exact List.getLast_mem _

/-- The states of a cycle reach each other. -/
theorem EpsCycle.reach (h : EpsCycle A S) (hp : p ∈ S) (hq : q ∈ S) :
    Relation.TransGen (EpsEdge A) p q := by
  have hhead : Relation.ReflTransGen (EpsEdge A) p (S.head h.ne_nil) := by
    obtain ⟨a, l, rfl⟩ := List.exists_cons_of_ne_nil h.ne_nil
    exact reach_of_isChain h.chain hp
  exact (Relation.TransGen.tail' hhead h.close).trans_left (reach_last h.chain h.ne_nil hq)

theorem EpsCycle.lt (h : EpsCycle A S) (hp : p ∈ S) : p < A.states.length := by
  obtain ⟨q, hpq, _⟩ := Relation.TransGen.head'_iff.mp (h.reach hp hp)
  exact hpq.source_lt

/-- Every state of the list has an epsilon transition to the next one, and the last one to
the first. -/
structure ForwardCycle (A : FiniteAutomaton) (S : List ℕ) : Prop where
  ne_nil : S ≠ []
  nodup : S.Nodup
  chain : S.IsChain (EpsEdge A)
  close : EpsEdge A (S.getLast ne_nil) (S.head ne_nil)

/-- Read from its end, such a list is a cycle as the stack of the search has it. -/
theorem ForwardCycle.reverse (h : ForwardCycle A S) : EpsCycle A S.reverse where
  ne_nil := by simpa using h.ne_nil
  nodup := List.nodup_reverse.mpr h.nodup
  chain := List.isChain_reverse.mpr h.chain
  close := by
    rw [List.head_reverse, List.getLast_reverse]
    exact h.close

theorem ForwardCycle.residual_le (h : ForwardCycle A S) (hp : p ∈ S) (hq : q ∈ S) :
    A.residual p ≤ A.residual q :=
  residual_le_of_reach
    (h.reverse.reach (List.mem_reverse.mpr hq) (List.mem_reverse.mpr hp)).to_reflTransGen

theorem ForwardCycle.lt (h : ForwardCycle A S) (hp : p ∈ S) : p < A.states.length :=
  h.reverse.lt (List.mem_reverse.mpr hp)

/-! ## The loop on the stack -/

/-- The cut is the top of the stack, down to the target. -/
theorem cutLoop_append (h : t ∈ S) :
    ∃ l rest, cutLoop t S = l ++ [t] ∧ S = l ++ t :: rest := by
  induction S with
  | nil => cases h
  | cons a S ih =>
      rw [cutLoop]
      split
      · rename_i hat
        exact ⟨[], S, by simp [hat], by simp [hat]⟩
      · rename_i hat
        obtain ⟨l, rest, hl, hS⟩ := ih ((List.mem_cons.mp h).resolve_left (Ne.symm hat))
        exact ⟨a :: l, rest, by simp [hl], by simp [hS]⟩

/-- What the search keeps: the stack is a path of epsilon transitions without repetitions,
and its states are the marked ones. -/
structure OnPath (A : FiniteAutomaton) (s : Search) : Prop where
  automaton_eq : s.automaton = A
  chain : s.stack.IsChain fun a b => EpsEdge A b a
  nodup : s.stack.Nodup
  lt : ∀ p ∈ s.stack, p < A.states.length
  length_eq : s.stackMap.length = A.states.length
  marks : ∀ p, s.stackMap.getD p false = true ↔ p ∈ s.stack

theorem head_cutLoop {stack : List ℕ} (hne : cutLoop t (i :: stack) ≠ []) :
    (cutLoop t (i :: stack)).head hne = i := by
  simp only [cutLoop]
  split <;> rfl

theorem epsCycle_cutLoop {stack : List ℕ} (hchain : (i :: stack).IsChain fun a b => EpsEdge A b a)
    (hnodup : (i :: stack).Nodup) (ht : t ∈ i :: stack) (he : EpsEdge A i t) :
    EpsCycle A (cutLoop t (i :: stack)) := by
  obtain ⟨l, rest, hl, hS⟩ := cutLoop_append ht
  have hprefix : l ++ [t] <+: i :: stack := ⟨rest, by simp [hS]⟩
  have hne : cutLoop t (i :: stack) ≠ [] := by simp [hl]
  refine ⟨hne, ?_, ?_, ?_⟩
  · rw [hl]
    exact hnodup.sublist hprefix.sublist
  · rw [hl]
    exact hchain.infix hprefix.isInfix
  · rw [head_cutLoop]
    have hlast : (cutLoop t (i :: stack)).getLast hne = t := by
      simp only [hl, List.getLast_append_singleton]
    rwa [hlast]

/-! ## The list that is passed on

The search proper ends where `merge_states` is called. Below it yields the list that the
source passes to that call, and nothing where there is no call. -/

def passedTransitions (dfs : ℕ → Search → Comp Fault (Option (List ℕ) × Search)) :
    List FiniteAutomatonTransition → Search → Comp Fault (Option (List ℕ) × Search)
  | [], s => pure (none, s)
  | t :: ts, s =>
      if t.regex.isEmpty then
        if s.stackMap.getD t.targetIndex false then
          pure (some (cutLoop t.targetIndex s.stack), s)
        else do
          let p ← dfs t.targetIndex s
          if p.1.isSome then pure p else passedTransitions dfs ts p.2
      else passedTransitions dfs ts s

def passedDfs : ℕ → ℕ → Search → Comp Fault (Option (List ℕ) × Search)
  | 0, _, _ => Comp.diverge
  | depth + 1, stateIndex, s => do
      let s := { s with
        stack := stateIndex :: s.stack
        stackMap := s.stackMap.set stateIndex true }
      let p ← passedTransitions (passedDfs depth) (s.automaton.state stateIndex).transitions s
      if p.1.isSome then pure p
      else pure (none, { p.2 with
        stack := p.2.stack.tail
        stackMap := p.2.stackMap.set stateIndex false })

/-- The list that `remove_epsilon_loop` passes to `merge_states`, if it calls it. -/
def passedLoop (A : FiniteAutomaton) (stateIndex : ℕ) : Comp Fault (Option (List ℕ)) := do
  let p ← passedDfs (A.states.length + 1) stateIndex
    ⟨A, [], List.replicate A.states.length false⟩
  pure p.1

/-- What the source does with the list: it merges the states and returns `true`. -/
def mergePassed : Option (List ℕ) × Search → Comp Fault (Bool × Search)
  | (none, s) => pure (false, s)
  | (some S, s) => do
      let A ← mergeStates s.automaton S
      pure (true, { s with automaton := A })

theorem searchTransitions_eq {dfs : ℕ → Search → Comp Fault (Bool × Search)}
    {passed : ℕ → Search → Comp Fault (Option (List ℕ) × Search)}
    (hdfs : ∀ i s, dfs i s = passed i s >>= mergePassed) (ts : List FiniteAutomatonTransition)
    (s : Search) :
    searchTransitions dfs ts s = passedTransitions passed ts s >>= mergePassed := by
  induction ts generalizing s with
  | nil => rfl
  | cons t ts ih =>
      rw [searchTransitions, passedTransitions]
      split
      · split
        · rfl
        · rw [hdfs, Comp.bind_assoc, Comp.bind_assoc]
          refine Comp.bind_congr_of_returns fun p _ => ?_
          obtain ⟨found, s'⟩ := p
          cases found with
          | none => exact ih s'
          | some S => exact Comp.bind_assoc
      · exact ih s

theorem removeEpsilonLoopDfs_eq (depth i : ℕ) (s : Search) :
    removeEpsilonLoopDfs depth i s = passedDfs depth i s >>= mergePassed := by
  induction depth generalizing i s with
  | zero => rfl
  | succ depth ih =>
      rw [removeEpsilonLoopDfs, passedDfs]
      simp only
      rw [searchTransitions_eq ih, Comp.bind_assoc, Comp.bind_assoc]
      refine Comp.bind_congr_of_returns fun p _ => ?_
      obtain ⟨found, s'⟩ := p
      cases found with
      | none => rfl
      | some S => exact Comp.bind_assoc

/-! ## The depth-first search -/

/-- The outcome of the search from `i`: either the list is a cycle that is reachable, or
nothing has changed and no cycle is reachable. -/
structure Outcome (A : FiniteAutomaton) (i : ℕ) (s : Search) (r : Option (List ℕ) × Search) :
    Prop where
  automaton_eq : r.2.automaton = A
  cycle : ∀ S, r.1 = some S →
    EpsCycle A S ∧ ∃ p ∈ S, Relation.ReflTransGen (EpsEdge A) i p
  none : r.1 = none → r.2 = s ∧ EpsAcc A i

theorem OnPath.push (h : OnPath A s) (hi : i ∉ s.stack) (hlt : i < A.states.length)
    (hchain : (i :: s.stack).IsChain fun a b => EpsEdge A b a) :
    OnPath A { s with stack := i :: s.stack, stackMap := s.stackMap.set i true } where
  automaton_eq := h.automaton_eq
  chain := hchain
  nodup := List.nodup_cons.mpr ⟨hi, h.nodup⟩
  lt p hp := by
    rcases List.mem_cons.mp hp with rfl | hp
    · exact hlt
    · exact h.lt p hp
  length_eq := by
    simp only [List.length_set]
    exact h.length_eq
  marks p := by
    have hset := getD_set_true (l := s.stackMap) (h.length_eq ▸ hlt) p
    rw [hset, h.marks, List.mem_cons]

/-- Taking back a mark that was not there before leaves the marks as they were. -/
theorem OnPath.set_false (h : OnPath A s) (hi : i ∉ s.stack) :
    s.stackMap.set i false = s.stackMap := by
  by_cases hlt : i < s.stackMap.length
  · have hget : s.stackMap[i] = false := by
      rw [← List.getD_eq_getElem s.stackMap false hlt, Bool.eq_false_iff]
      exact fun hm => hi ((h.marks i).mp hm)
    rw [← hget, List.set_getElem_self]
  · exact List.set_eq_of_length_le (not_lt.mp hlt)

/-- The outcome of the scan of the transitions `ts` of state `i`. -/
structure ScanOutcome (A : FiniteAutomaton) (i : ℕ) (ts : List FiniteAutomatonTransition)
    (s : Search) (r : Option (List ℕ) × Search) : Prop where
  automaton_eq : r.2.automaton = A
  cycle : ∀ S, r.1 = some S →
    EpsCycle A S ∧ ∃ p ∈ S, Relation.ReflTransGen (EpsEdge A) i p
  none : r.1 = none → r.2 = s ∧ ∀ t ∈ ts, t.regex = Regex.empty → EpsAcc A t.targetIndex

theorem ScanOutcome.cons {t : FiniteAutomatonTransition} {ts : List FiniteAutomatonTransition}
    {r : Option (List ℕ) × Search} (h : ScanOutcome A i ts s r)
    (ht : t.regex = Regex.empty → EpsAcc A t.targetIndex) : ScanOutcome A i (t :: ts) s r where
  automaton_eq := h.automaton_eq
  cycle := h.cycle
  none hr := by
    refine ⟨(h.none hr).1, fun u hu => ?_⟩
    rcases List.mem_cons.mp hu with rfl | hu
    · exact ht
    · exact (h.none hr).2 u hu

theorem passedTransitions_ensures {dfs : ℕ → Search → Comp Fault (Option (List ℕ) × Search)}
    (hs : OnPath A s) {stack : List ℕ} (hstack : s.stack = i :: stack)
    (hdfs : ∀ t, EpsEdge A i t → t ∉ s.stack → (dfs t s).Ensures (Outcome A t s)) :
    ∀ ts : List FiniteAutomatonTransition, (∀ t ∈ ts, A.Edge i t.regex t.targetIndex) →
      (passedTransitions dfs ts s).Ensures (ScanOutcome A i ts s) := by
  intro ts
  induction ts with
  | nil =>
      intro _
      exact Comp.ensures_pure.mpr ⟨hs.automaton_eq, by simp, fun _ => ⟨rfl, by simp⟩⟩
  | cons t ts ih =>
      intro hts
      have ih := ih fun u hu => hts u (List.mem_cons_of_mem _ hu)
      rw [passedTransitions]
      by_cases he : t.regex.isEmpty
      · rw [if_pos he]
        have hedge : EpsEdge A i t.targetIndex := by
          have := hts t (by simp)
          rwa [Regex.isEmpty_iff.mp he] at this
        by_cases hmark : s.stackMap.getD t.targetIndex false = true
        · rw [if_pos hmark, hstack]
          have hcycle : EpsCycle A (cutLoop t.targetIndex (i :: stack)) :=
            epsCycle_cutLoop (hstack ▸ hs.chain) (hstack ▸ hs.nodup)
              (hstack ▸ (hs.marks _).mp hmark) hedge
          refine Comp.ensures_pure.mpr ⟨hs.automaton_eq, fun S hS => ?_, by simp⟩
          cases hS
          refine ⟨hcycle, _, List.head_mem hcycle.ne_nil, ?_⟩
          rw [head_cutLoop hcycle.ne_nil]
        · rw [if_neg hmark]
          have hnotin : t.targetIndex ∉ s.stack := fun h => hmark ((hs.marks _).mpr h)
          refine Comp.ensures_bind.mpr ((hdfs _ hedge hnotin).mono ?_)
          intro r h
          obtain ⟨found, s'⟩ := r
          cases found with
          | some S =>
              refine Comp.ensures_pure.mpr ⟨h.automaton_eq, fun S' hS' => ?_, by simp⟩
              obtain ⟨hcycle, p, hp, hreach⟩ := h.cycle S' hS'
              exact ⟨hcycle, p, hp, .head hedge hreach⟩
          | none =>
              obtain ⟨hs', hacc⟩ := h.none rfl
              simp only at hs'
              subst hs'
              exact ih.mono fun r hr => hr.cons fun _ => hacc
      · rw [if_neg he]
        exact ih.mono fun r hr => hr.cons fun h => absurd (Regex.isEmpty_iff.mpr h) he

/-- With as much depth as there are states off the stack, the search from a state that
continues the stack has an outcome. -/
theorem passedDfs_ensures (hA : A.InRange)
    (hdepth : A.states.length < depth + s.stack.length) (hs : OnPath A s) (hi : i ∉ s.stack)
    (hlt : i < A.states.length) (hchain : (i :: s.stack).IsChain fun a b => EpsEdge A b a) :
    (passedDfs depth i s).Ensures (Outcome A i s) := by
  induction depth generalizing i s with
  | zero =>
      have hlen := length_le_of_nodup hs.nodup hs.lt
      omega
  | succ depth ih =>
      have hpush := hs.push hi hlt hchain
      rw [passedDfs]
      refine Comp.ensures_bind.mpr ((passedTransitions_ensures (i := i) hpush rfl ?_ _ ?_).mono ?_)
      · intro t he ht
        refine ih ?_ hpush ht (hA.target_lt he) (List.isChain_cons_cons.mpr ⟨he, hchain⟩)
        simp only [List.length_cons]
        omega
      · intro t ht
        simp only [hs.automaton_eq] at ht
        exact ht
      · intro r h
        obtain ⟨found, s'⟩ := r
        cases found with
        | some S => exact Comp.ensures_pure.mpr ⟨h.automaton_eq, h.cycle, by simp⟩
        | none =>
            obtain ⟨hs', hacc⟩ := h.none rfl
            simp only at hs'
            subst hs'
            refine Comp.ensures_pure.mpr ⟨hs.automaton_eq, by simp, fun _ => ⟨?_, ?_⟩⟩
            · simp only [List.tail_cons, List.set_set, hs.set_false hi]
            · refine Acc.intro i fun t he => ?_
              have he' : (⟨Regex.empty, t⟩ : FiniteAutomatonTransition) ∈
                  (s.automaton.state i).transitions := by
                rw [hs.automaton_eq]
                exact he
              exact hacc _ he' rfl

theorem onPath_nil (A : FiniteAutomaton) :
    OnPath A ⟨A, [], List.replicate A.states.length false⟩ where
  automaton_eq := rfl
  chain := .nil
  nodup := .nil
  lt := by simp
  length_eq := by simp
  marks p := by
    simp only [List.getD_eq_getElem?_getD, List.getElem?_replicate, List.not_mem_nil, iff_false]
    split <;> simp

/-! ## The result -/

/-- The search from any state ends. It passes on a cycle that is reachable, or there is none. -/
theorem passedDfs_nil_ensures (hA : A.InRange) (hi : i < A.states.length) :
    (passedDfs (A.states.length + 1) i
      ⟨A, [], List.replicate A.states.length false⟩).Ensures
      (Outcome A i ⟨A, [], List.replicate A.states.length false⟩) :=
  passedDfs_ensures hA (by simp) (onPath_nil A) (by simp) hi (.singleton _)

/-- `B` is `A` after merging an epsilon cycle that is reachable from `i`. -/
def FoundCycle (A : FiniteAutomaton) (i : ℕ) (B : FiniteAutomaton) : Prop :=
  ∃ S, EpsCycle A S ∧ (∃ p ∈ S, Relation.ReflTransGen (EpsEdge A) i p) ∧
    (mergeStates A S).Returns B

theorem mergeStates_cycle (hS : EpsCycle A S) :
    (mergeStates A S).Ensures fun B => ∃ img, MergedInto A B S img :=
  mergeStates_ensures (fun _ hs => hS.lt hs) hS.nodup hS.ne_nil

/-- The search and the call of `merge_states` after it. -/
theorem removeEpsilonLoop_passed (hA : A.InRange) (hi : i < A.states.length) :
    (removeEpsilonLoop A i).Ensures fun r =>
      (r.1 = true → ∃ S, (passedLoop A i).Returns (some S) ∧ EpsCycle A S ∧
        (∃ p ∈ S, Relation.ReflTransGen (EpsEdge A) i p) ∧ (mergeStates A S).Returns r.2) ∧
      (r.1 = false → r.2 = A ∧ EpsAcc A i) := by
  obtain ⟨⟨found, s'⟩, hret, h⟩ := passedDfs_nil_ensures hA hi
  rw [removeEpsilonLoop, removeEpsilonLoopDfs_eq]
  refine Comp.ensures_bind.mpr (Comp.ensures_bind.mpr ⟨_, hret, ?_⟩)
  cases found with
  | none =>
      obtain ⟨hs', hacc⟩ := h.none rfl
      refine Comp.ensures_pure.mpr (Comp.ensures_pure.mpr ⟨by simp, fun _ => ⟨?_, hacc⟩⟩)
      exact h.automaton_eq
  | some S =>
      obtain ⟨hcycle, hreach⟩ := h.cycle S rfl
      have hS : (passedLoop A i).Returns (some S) :=
        Comp.returns_bind.mpr ⟨_, hret, Comp.returns_pure.mpr rfl⟩
      have hauto : s'.automaton = A := h.automaton_eq
      obtain ⟨B, hB, _⟩ := mergeStates_cycle hcycle
      refine Comp.ensures_bind.mpr ⟨B, hauto ▸ hB, ?_⟩
      exact Comp.ensures_pure.mpr (Comp.ensures_pure.mpr
        ⟨fun _ => ⟨S, hS, hcycle, hreach, hB⟩, by simp⟩)

/-- The search from any state ends. It returns `true` after merging a cycle, and otherwise
no cycle is reachable and nothing has changed. -/
theorem removeEpsilonLoop_ensures (hA : A.InRange) (hi : i < A.states.length) :
    (removeEpsilonLoop A i).Ensures fun r =>
      (r.1 = true → FoundCycle A i r.2) ∧ (r.1 = false → r.2 = A ∧ EpsAcc A i) := by
  refine (removeEpsilonLoop_passed hA hi).mono ?_
  intro r h
  refine ⟨fun hr => ?_, h.2⟩
  obtain ⟨S, _, hS⟩ := h.1 hr
  exact ⟨S, hS⟩

/-- The search ends and returns `true` exactly where an epsilon cycle is reachable. Then what
it passes to `merge_states` is such a cycle, and otherwise nothing has changed. -/
theorem removeEpsilonLoop_correct (A : FiniteAutomaton) (i : ℕ) (hA : A.InRange)
    (hi : i < A.states.length) :
    (removeEpsilonLoop A i).Ensures fun r =>
      (r.1 = true ↔ ∃ p, Relation.ReflTransGen (EpsEdge A) i p ∧
        Relation.TransGen (EpsEdge A) p p) ∧
      (r.1 = true → ∃ S, (passedLoop A i).Returns (some S) ∧ EpsCycle A S ∧
        (mergeStates A S).Returns r.2) ∧
      (r.1 = false → r.2 = A) := by
  refine (removeEpsilonLoop_passed hA hi).mono ?_
  intro r h
  rcases h with ⟨htrue, hfalse⟩
  refine ⟨⟨fun hr => ?_, fun hex => ?_⟩, fun hr => ?_, fun hr => (hfalse hr).1⟩
  · obtain ⟨S, _, hcycle, ⟨p, hp, hreach⟩, _⟩ := htrue hr
    exact ⟨p, hreach, hcycle.reach hp hp⟩
  · rcases hex with ⟨p, hreach, hpp⟩
    by_contra hr
    rw [Bool.not_eq_true] at hr
    exact ((hfalse hr).2.of_reach hreach).not_cycle hpp
  · obtain ⟨S, hS, hcycle, _, hB⟩ := htrue hr
    exact ⟨S, hS, hcycle, hB⟩

/-- An epsilon transition into a cycle of two states. -/
def intoCycle : FiniteAutomaton where
  states := [⟨false, [⟨.char 97, 0⟩, ⟨.empty, 1⟩]⟩, ⟨false, [⟨.empty, 2⟩]⟩,
    ⟨true, [⟨.char 98, 0⟩, ⟨.empty, 1⟩]⟩]

theorem removeEpsilonLoop_correct_intoCycle :
    (removeEpsilonLoop intoCycle 0).Ensures fun r =>
      (r.1 = true ↔ ∃ p, Relation.ReflTransGen (EpsEdge intoCycle) 0 p ∧
        Relation.TransGen (EpsEdge intoCycle) p p) ∧
      (r.1 = true → ∃ S, (passedLoop intoCycle 0).Returns (some S) ∧ EpsCycle intoCycle S ∧
        (mergeStates intoCycle S).Returns r.2) ∧
      (r.1 = false → r.2 = intoCycle) :=
  removeEpsilonLoop_correct intoCycle 0 (by decide) (by decide)

end FormalLanguages.EpsilonRemover
