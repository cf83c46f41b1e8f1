import FormalLanguages.Verification.Automaton.Basic
import Mathlib.Data.Finset.Range

/-! # What `accepts` decides

The run keeps the set of states that the consumed part of the input leads to, closed under
epsilon transitions. -/

namespace FormalLanguages.FiniteAutomaton

variable {A : FiniteAutomaton} {p q s x : ℕ} {c : CChar} {w v labels : List CChar}

/-! ## Spelling a word -/

/-- Some path from `p` to `q` spells the word, where the marker `0` may also be read as if
it were a letter. -/
inductive Spells (A : FiniteAutomaton) : ℕ → List CChar → ℕ → Prop where
  | nil (p : ℕ) : Spells A p [] p
  | epsilon {p q s : ℕ} {w : List CChar} :
      A.Edge p Regex.empty q → Spells A q w s → Spells A p w s
  | letter {p q s : ℕ} {c : CChar} {w : List CChar} :
      A.Edge p (.char c) q → Spells A q w s → Spells A p (c :: w) s

/-- Epsilon transitions lead from `p` to `q`. -/
def EpsReach (A : FiniteAutomaton) : ℕ → ℕ → Prop :=
  Relation.ReflTransGen fun p q => A.Edge p Regex.empty q

theorem EpsReach.spells (h : A.EpsReach p q) (hw : A.Spells q w s) : A.Spells p w s := by
  induction h using Relation.ReflTransGen.head_induction_on with
  | refl => exact hw
  | head he _ ih => exact .epsilon he ih

theorem spells_nil_iff : A.Spells p [] s ↔ A.EpsReach p s := by
  constructor
  · intro h
    generalize hw : ([] : List CChar) = w at h
    induction h with
    | nil => exact .refl
    | epsilon he _ ih => exact .head he (ih hw)
    | letter => cases hw
  · intro h
    exact h.spells (.nil s)

theorem spells_cons_iff : A.Spells p (c :: w) s ↔
    ∃ q x, A.EpsReach p q ∧ A.Edge q (.char c) x ∧ A.Spells x w s := by
  constructor
  · intro h
    generalize hv : c :: w = v at h
    induction h with
    | nil => cases hv
    | epsilon he _ ih =>
        obtain ⟨q, x, hq, hx, hs⟩ := ih hv
        exact ⟨q, x, .head he hq, hx, hs⟩
    | letter he hs =>
        cases hv
        exact ⟨_, _, .refl, he, hs⟩
  · intro hex
    rcases hex with ⟨q, x, hq, hx, hs⟩
    exact hq.spells (.letter hx hs)

/-- A path from `p` to `q` and the labels it reads, the marker included. -/
inductive Path (A : FiniteAutomaton) : ℕ → List CChar → ℕ → Prop where
  | nil (p : ℕ) : Path A p [] p
  | cons {p q s : ℕ} {c : CChar} {labels : List CChar} :
      A.Edge p (.char c) q → Path A q labels s → Path A p (c :: labels) s

theorem Path.reach (h : A.Path p labels q) : Relation.ReflTransGen A.Step p q := by
  induction h with
  | nil => exact .refl
  | cons he _ ih => exact ih.head ⟨_, he⟩

theorem exists_path_of_reach (hA : A.isSimple = true) (h : Relation.ReflTransGen A.Step p q) :
    ∃ labels, A.Path p labels q := by
  induction h using Relation.ReflTransGen.head_induction_on with
  | refl => exact ⟨[], .nil q⟩
  | head hstep _ ih =>
      obtain ⟨r, he⟩ := hstep
      obtain ⟨c, rfl⟩ := isSimple_iff.mp hA _ _ _ he
      obtain ⟨labels, hpath⟩ := ih
      exact ⟨c :: labels, .cons he hpath⟩

theorem Path.append {labels' : List CChar} (h : A.Path p labels q) (h' : A.Path q labels' s) :
    A.Path p (labels ++ labels') s := by
  induction h with
  | nil => exact h'
  | cons he _ ih => exact .cons he (ih h')

/-- A label of a path is on one of its edges. -/
theorem Path.exists_edge (h : A.Path p labels s) (hc : c ∈ labels) :
    ∃ q x, Relation.ReflTransGen A.Step p q ∧ A.Edge q (.char c) x ∧
      Relation.ReflTransGen A.Step x s := by
  induction h with
  | nil => cases hc
  | cons he hrest ih =>
      rcases List.mem_cons.mp hc with rfl | hc
      · exact ⟨_, _, .refl, he, hrest.reach⟩
      · obtain ⟨q, x, hpq, hedge, hxs⟩ := ih hc
        exact ⟨q, x, hpq.head ⟨_, he⟩, hedge, hxs⟩

/-- The word is what remains of the labels when some of the markers are left out. -/
def LeavesOut (labels w : List CChar) : Prop :=
  w.Sublist labels ∧ w.filter (· ≠ 0) = labels.filter (· ≠ 0)

theorem LeavesOut.cons (c : CChar) (h : LeavesOut labels w) : LeavesOut (c :: labels) (c :: w) := by
  obtain ⟨hsub, heq⟩ := h
  refine ⟨hsub.cons_cons c, ?_⟩
  rw [List.filter_cons, List.filter_cons, heq]

theorem LeavesOut.cons_zero (h : LeavesOut labels w) : LeavesOut (0 :: labels) w := by
  obtain ⟨hsub, heq⟩ := h
  exact ⟨hsub.cons 0, by simpa using heq⟩

/-- A label that is left out is the marker. -/
theorem leavesOut_cons_iff : LeavesOut (c :: labels) w ↔
    (c = 0 ∧ LeavesOut labels w) ∨ ∃ v, w = c :: v ∧ LeavesOut labels v := by
  constructor
  · intro h
    obtain ⟨hsub, heq⟩ := h
    cases hsub with
    | cons _ hsub =>
        left
        have hc : c = 0 := by
          by_contra hc
          have hlen := (hsub.filter (· ≠ 0)).length_le
          rw [heq, List.filter_cons_of_pos (by simpa using hc), List.length_cons] at hlen
          omega
        subst hc
        exact ⟨rfl, hsub, by simpa using heq⟩
    | @cons_cons v _ _ hsub =>
        right
        refine ⟨v, rfl, hsub, ?_⟩
        by_cases hc : c = 0
        · simpa [hc] using heq
        · simpa [hc] using heq
  · intro h
    rcases h with ⟨rfl, h⟩ | ⟨v, rfl, h⟩
    · exact h.cons_zero
    · exact h.cons c

theorem leavesOut_nil : LeavesOut [] w ↔ w = [] := by
  constructor
  · exact fun h => List.sublist_nil.mp h.1
  · intro h
    rw [h]
    exact ⟨.slnil, rfl⟩

/-- A word is spelled by a path whose labels it is, up to markers that are left out. -/
theorem spells_iff_path : A.Spells p w s ↔ ∃ labels, A.Path p labels s ∧ LeavesOut labels w := by
  constructor
  · intro h
    induction h with
    | nil => exact ⟨[], .nil _, leavesOut_nil.mpr rfl⟩
    | epsilon he _ ih =>
        obtain ⟨labels, hp, hw⟩ := ih
        exact ⟨0 :: labels, .cons he hp, hw.cons_zero⟩
    | letter he _ ih =>
        obtain ⟨labels, hp, hw⟩ := ih
        exact ⟨_ :: labels, .cons he hp, hw.cons _⟩
  · intro h
    obtain ⟨labels, hp, hw⟩ := h
    induction hp generalizing w with
    | nil =>
        rw [leavesOut_nil.mp hw]
        exact .nil _
    | cons he _ ih =>
        rcases leavesOut_cons_iff.mp hw with ⟨rfl, hrest⟩ | ⟨v, rfl, hrest⟩
        · exact .epsilon he (ih hrest)
        · exact .letter he (ih hrest)

/-- From a word without the marker all markers are left out. -/
theorem leavesOut_iff_filter (hw : ∀ c ∈ w, c ≠ 0) :
    LeavesOut labels w ↔ labels.filter (· ≠ 0) = w := by
  have hfilter : w.filter (· ≠ 0) = w := List.filter_eq_self.mpr (by simpa using hw)
  rw [LeavesOut, hfilter]
  constructor
  · exact fun h => h.2.symm
  · intro h
    rw [← h]
    exact ⟨List.filter_sublist, rfl⟩

/-- On words without the marker, spelling is the path language. -/
theorem mem_residual_iff_spells (hA : A.isSimple = true) (hw : ∀ c ∈ w, c ≠ 0) :
    w ∈ A.residual p ↔ ∃ s, A.Final s ∧ A.Spells p w s := by
  constructor
  · intro h
    rcases h with ⟨s, hs, hp⟩
    refine ⟨s, hs, ?_⟩
    clear hs
    induction hp with
    | nil => exact .nil _
    | cons he hu _ ih =>
        obtain ⟨r, he, rfl⟩ := he
        obtain ⟨c, rfl⟩ := isSimple_iff.mp hA _ _ _ he
        have hspell := ih (fun c hc => hw c (List.mem_append_right _ hc))
        by_cases hc : c = 0
        · subst hc
          rw [Regex.language_char_zero, Language.mem_one] at hu
          rw [hu]
          exact .epsilon he hspell
        · rw [Regex.language_char hc] at hu
          obtain rfl := hu
          exact .letter he hspell
  · intro h
    rcases h with ⟨s, hs, hp⟩
    induction hp with
    | nil => exact one_le_residual hs rfl
    | epsilon he _ ih => exact residual_le_of_empty he (ih hw hs)
    | @letter p q s c w he _ ih =>
        have hc : c ≠ 0 := hw c (by simp)
        have hmem := ih (fun c hc => hw c (List.mem_cons_of_mem _ hc)) hs
        refine edge_mul_residual_le he ⟨[c], ?_, w, hmem, rfl⟩
        rw [Regex.language_char hc]
        rfl

/-! ## Letter automata -/

/-- Every label is a letter: the automaton is simple and without epsilon transitions. -/
def LetterLabels (A : FiniteAutomaton) : Prop := ∀ p r q, A.Edge p r q → ∃ c, c ≠ 0 ∧ r = .char c

theorem letterLabels_iff :
    A.LetterLabels ↔ A.isSimple = true ∧ A.hasEpsilonTransitions = false := by
  rw [isSimple_iff, ← Bool.not_eq_true, hasEpsilonTransitions_iff]
  constructor
  · intro h
    refine ⟨fun p r q he => ?_, ?_⟩
    · obtain ⟨c, _, rfl⟩ := h p r q he
      exact ⟨c, rfl⟩
    · intro hex
      rcases hex with ⟨p, q, he⟩
      obtain ⟨c, hc, heq⟩ := h p _ q he
      cases heq
      exact hc rfl
  · intro hex p r q hpq
    rcases hex with ⟨hs, he⟩
    obtain ⟨c, rfl⟩ := hs p r q hpq
    refine ⟨c, ?_, rfl⟩
    intro heq'
    subst heq'
    exact he ⟨p, q, hpq⟩

theorem LetterLabels.ne_zero (hA : A.LetterLabels) (h : A.Edge p (.char c) q) : c ≠ 0 := by
  obtain ⟨d, hd, heq⟩ := hA _ _ _ h
  cases heq
  exact hd

theorem LetterLabels.nil_mem_residual (hA : A.LetterLabels) : [] ∈ A.residual p ↔ A.Final p := by
  constructor
  · intro hex
    rcases hex with ⟨s, hs, hp⟩
    generalize hw : ([] : List CChar) = w at hp
    cases hp with
    | nil => exact hs
    | cons he hu _ =>
        obtain ⟨r, he, rfl⟩ := he
        obtain ⟨c, hc, rfl⟩ := hA _ _ _ he
        rw [Regex.language_char hc] at hu
        obtain rfl := hu
        cases hw
  · intro h
    exact one_le_residual h rfl

theorem LetterLabels.cons_mem_residual (hA : A.LetterLabels) :
    c :: w ∈ A.residual p ↔ ∃ q, A.Edge p (.char c) q ∧ w ∈ A.residual q := by
  constructor
  · intro h
    rcases h with ⟨s, hs, hp⟩
    generalize hv : c :: w = v at hp
    cases hp with
    | nil => cases hv
    | cons he hu hrest =>
        obtain ⟨r, he, rfl⟩ := he
        obtain ⟨d, hd, rfl⟩ := hA _ _ _ he
        rw [Regex.language_char hd] at hu
        obtain rfl := hu
        obtain ⟨rfl, rfl⟩ := List.cons.inj hv
        exact ⟨_, he, s, hs, hrest⟩
  · intro h
    rcases h with ⟨q, he, hw⟩
    refine edge_mul_residual_le he ⟨[c], ?_, w, hw, rfl⟩
    rw [Regex.language_char (hA.ne_zero he)]
    rfl

theorem LetterLabels.mem_residual_iff_spells (hA : A.LetterLabels) :
    w ∈ A.residual p ↔ ∃ s, A.Final s ∧ A.Spells p w s := by
  have hno : ∀ p q, ¬A.Edge p Regex.empty q := fun p q he => hA.ne_zero he rfl
  have hreach : ∀ {p q}, A.EpsReach p q → p = q := by
    intro p q h
    induction h with
    | refl => rfl
    | tail _ he _ => exact absurd he (hno _ _)
  induction w generalizing p with
  | nil =>
      rw [hA.nil_mem_residual]
      constructor
      · intro h
        exact ⟨p, h, .nil p⟩
      · intro hex
        rcases hex with ⟨s, hs, hp⟩
        rwa [hreach (spells_nil_iff.mp hp)]
  | cons c w ih =>
      rw [hA.cons_mem_residual]
      constructor
      · intro hex
        rcases hex with ⟨q, he, hw⟩
        obtain ⟨s, hs, hq⟩ := ih.mp hw
        exact ⟨s, hs, .letter he hq⟩
      · intro hex
        rcases hex with ⟨s, hs, hp⟩
        obtain ⟨q, x, hq, hx, hxs⟩ := spells_cons_iff.mp hp
        rw [hreach hq]
        exact ⟨x, hx, ih.mpr ⟨s, hs, hxs⟩⟩

/-! ## The epsilon closure -/

theorem mem_expandTransition {S : OrdSet ℕ × Bool} {t : FiniteAutomatonTransition} :
    x ∈ (expandTransition S t).1 ↔ x ∈ S.1 ∨ t = ⟨Regex.empty, x⟩ := by
  obtain ⟨r, q⟩ := t
  rw [expandTransition]
  by_cases hr : r = Regex.empty
  · subst hr
    by_cases hq : q ∈ S.1
    · rw [if_pos (by rfl), if_pos (OrdSet.contains_iff.mpr hq)]
      constructor
      · exact .inl
      · intro hcases
        rcases hcases with h | h
        · exact h
        · cases h
          exact hq
    · rw [if_pos (by rfl), if_neg (by rwa [OrdSet.contains_iff])]
      simp [or_comm, eq_comm]
  · rw [if_neg (by rwa [Regex.isCharOf_iff])]
    simp [hr]

theorem grows_expandTransition (S : OrdSet ℕ × Bool) (t : FiniteAutomatonTransition) :
    OrderedSet.Grows S.1 (expandTransition S t).1 S.2 (expandTransition S t).2 := by
  rw [expandTransition]
  split
  · split
    · exact .refl _ _
    · rename_i hq
      refine OrderedSet.grows_insert _ ?_
      intro z hz h
      subst h
      exact hq (OrdSet.contains_iff.mpr hz)
  · exact .refl _ _

theorem mem_foldl_expandTransition {ts : List FiniteAutomatonTransition} {S : OrdSet ℕ × Bool} :
    x ∈ (ts.foldl expandTransition S).1 ↔ x ∈ S.1 ∨ ⟨Regex.empty, x⟩ ∈ ts := by
  induction ts generalizing S with
  | nil => simp
  | cons t ts ih =>
      rw [List.foldl_cons, ih, mem_expandTransition, List.mem_cons, or_assoc, eq_comm (a := t)]

theorem grows_foldl_expandTransition (ts : List FiniteAutomatonTransition)
    (S : OrdSet ℕ × Bool) :
    OrderedSet.Grows S.1 (ts.foldl expandTransition S).1 S.2 (ts.foldl expandTransition S).2 := by
  induction ts generalizing S with
  | nil => exact .refl _ _
  | cons t ts ih => exact (grows_expandTransition S t).trans (ih _)

theorem inRange_of_epsReach (hA : A.InRange) (h : A.EpsReach p q) (hp : p < A.states.length) :
    q < A.states.length := by
  induction h with
  | refl => exact hp
  | tail _ he _ => exact hA.target_lt he

/-- The closure ends, also on cycles, and adds exactly what epsilon transitions reach. -/
theorem expandStatesForEpsTransitions_ensures (hA : A.InRange) {S : OrdSet ℕ}
    (hS : ∀ p ∈ S, p < A.states.length) :
    (A.expandStatesForEpsTransitions S).Ensures fun T =>
      ∀ x, x ∈ T ↔ ∃ p ∈ S, A.EpsReach p x := by
  have hsat := OrderedSet.saturate_ensures (fun T : OrdSet ℕ => T)
    (fun i p => (pure ((A.state i).transitions.foldl expandTransition p) : Comp Fault _))
    (fun T => (∀ x ∈ S, x ∈ T) ∧ ∀ x ∈ T, ∃ p ∈ S, A.EpsReach p x)
    (fun x T => ∀ y, A.Edge x Regex.empty y → y ∈ T) (Finset.range A.states.length)
    (fun T hT x hx => by
      obtain ⟨p, hp, hpx⟩ := hT.2 x hx
      exact Finset.mem_range.mpr (inRange_of_epsReach hA hpx (hS p hp)))
    (fun i p hp hi => by
      refine Comp.ensures_pure.mpr ⟨⟨?_, ?_⟩, grows_foldl_expandTransition _ p, ?_, ?_⟩
      · exact fun x hx => mem_foldl_expandTransition.mpr (.inl (hp.1 x hx))
      · intro x hx
        rcases mem_foldl_expandTransition.mp hx with hx | hx
        · exact hp.2 x hx
        · obtain ⟨s, hs, hsi⟩ := hp.2 i hi
          exact ⟨s, hs, hsi.tail hx⟩
      · exact fun y hy => mem_foldl_expandTransition.mpr (.inr hy)
      · exact fun j hj y hy => mem_foldl_expandTransition.mpr (.inl (hj y hy)))
    (s := S) ⟨fun x hx => hx, fun x hx => ⟨x, hx, .refl⟩⟩
  refine hsat.mono fun T hT x => ⟨hT.1.2 x, ?_⟩
  intro h
  rcases h with ⟨p, hp, hx⟩
  induction hx with
  | refl => exact hT.1.1 p hp
  | tail _ he ih => exact hT.2 _ ih _ he

/-! ## The run -/

theorem mem_foldl_stepTransition {ts : List FiniteAutomatonTransition} {T : OrdSet ℕ} :
    x ∈ ts.foldl (stepTransition c) T ↔ x ∈ T ∨ ⟨.char c, x⟩ ∈ ts := by
  induction ts generalizing T with
  | nil => simp
  | cons t ts ih =>
      obtain ⟨r, q⟩ := t
      rw [List.foldl_cons, ih, List.mem_cons]
      rw [stepTransition]
      by_cases hr : r = .char c
      · subst hr
        rw [if_pos (Regex.isCharOf_iff.mpr rfl), OrdSet.mem_insert]
        simp only [FiniteAutomatonTransition.mk.injEq, true_and]
        tauto
      · rw [if_neg (by rwa [Regex.isCharOf_iff])]
        simp [Ne.symm hr]

theorem mem_getTransitionsForRegex {S : OrdSet ℕ} :
    x ∈ (A.getTransitionsForRegex S (c :: w)).1 ↔ ∃ p ∈ S, A.Edge p (.char c) x := by
  have hfold : ∀ (l : List ℕ) (T : OrdSet ℕ),
      x ∈ l.foldl (fun next i => (A.state i).transitions.foldl (stepTransition c) next) T ↔
      x ∈ T ∨ ∃ p ∈ l, A.Edge p (.char c) x := by
    intro l
    induction l with
    | nil => simp
    | cons i l ih =>
        intro T
        rw [List.foldl_cons, ih, mem_foldl_stepTransition]
        simp [Edge, or_assoc]
  simpa [getTransitionsForRegex, OrderedSet.mem_def] using hfold S.toList ∅

theorem toList_isEmpty_iff {S : OrdSet ℕ} : S.toList.isEmpty = true ↔ ∀ x, x ∉ S := by
  rw [List.isEmpty_iff, List.eq_nil_iff_forall_not_mem]
  rfl

theorem acceptsLoop_of_isEmpty {S : OrdSet ℕ} (hS : S.toList.isEmpty = true) :
    (Comp.loop A.acceptsStep (S, w)).Returns false := by
  refine Comp.loop_returns_step.mpr (.inl ?_)
  simp [acceptsStep, hS]

/-- `c :: w` is spelled from an epsilon-closed set exactly when `w` is spelled from the next
one. -/
theorem exists_spells_cons_iff {S N T : OrdSet ℕ}
    (hclosed : ∀ p ∈ S, ∀ q, A.EpsReach p q → q ∈ S)
    (hN : ∀ x, x ∈ N ↔ ∃ p ∈ S, A.Edge p (.char c) x)
    (hT : ∀ x, x ∈ T ↔ ∃ p ∈ N, A.EpsReach p x) :
    (∃ p ∈ S, ∃ s, A.Final s ∧ A.Spells p (c :: w) s) ↔
      ∃ p ∈ T, ∃ s, A.Final s ∧ A.Spells p w s := by
  constructor
  · intro h
    rcases h with ⟨p, hp, s, hs, hps⟩
    obtain ⟨q, x, hq, hx, hxs⟩ := spells_cons_iff.mp hps
    exact ⟨x, (hT x).mpr ⟨x, (hN x).mpr ⟨q, hclosed p hp q hq, hx⟩, .refl⟩, s, hs, hxs⟩
  · intro h
    rcases h with ⟨p, hp, s, hs, hps⟩
    obtain ⟨x, hx, hxp⟩ := (hT p).mp hp
    obtain ⟨q, hq, he⟩ := (hN x).mp hx
    exact ⟨q, hq, s, hs, .letter he (hxp.spells hps)⟩

/-- The states in hand while `accepts` runs: they exist, and no epsilon transition leads out
of them. -/
structure EpsClosed (A : FiniteAutomaton) (S : OrdSet ℕ) : Prop where
  lt_length : ∀ p ∈ S, p < A.states.length
  closed : ∀ p ∈ S, ∀ q, A.EpsReach p q → q ∈ S

theorem epsClosed_of_mem_iff (hA : A.InRange) {S T : OrdSet ℕ}
    (hS : ∀ p ∈ S, p < A.states.length) (hT : ∀ x, x ∈ T ↔ ∃ p ∈ S, A.EpsReach p x) :
    A.EpsClosed T := by
  constructor
  · intro x hx
    obtain ⟨p, hp, hpx⟩ := (hT x).mp hx
    exact inRange_of_epsReach hA hpx (hS p hp)
  · intro x hx y hy
    obtain ⟨p, hp, hpx⟩ := (hT x).mp hx
    exact (hT y).mpr ⟨p, hp, hpx.trans hy⟩

/-- Without a state in hand the loop answers `false`. -/
theorem acceptsLoop_ensures_of_isEmpty {S : OrdSet ℕ} (hS : S.toList.isEmpty = true) :
    (Comp.loop A.acceptsStep (S, v)).Ensures fun b =>
      b = true ↔ ∃ p ∈ S, ∃ s, A.Final s ∧ A.Spells p w s := by
  refine ⟨false, acceptsLoop_of_isEmpty hS, ?_⟩
  have hno := toList_isEmpty_iff.mp hS
  simp [hno]

theorem acceptsLoop_nil_ensures {S : OrdSet ℕ} (hS : A.EpsClosed S)
    (hne : ¬S.toList.isEmpty = true) :
    (Comp.loop A.acceptsStep (S, [])).Ensures fun b =>
      b = true ↔ ∃ p ∈ S, ∃ s, A.Final s ∧ A.Spells p [] s := by
  refine ⟨S.toList.any fun i => (A.state i).isFinal,
    Comp.loop_returns_step.mpr (.inl (by simp [acceptsStep, hne])), ?_⟩
  beta_reduce
  rw [List.any_eq_true]
  constructor
  · intro h
    rcases h with ⟨p, hp, hf⟩
    exact ⟨p, hp, p, hf, .nil p⟩
  · intro h
    rcases h with ⟨p, hp, s, hs, hps⟩
    exact ⟨s, hS.closed p hp s (spells_nil_iff.mp hps), hs⟩

/-- One round on `c :: w`: what is spelled from the states in hand is spelled from the next
ones without `c`, and `c` stays only when there is no next state. -/
theorem exists_next_of_epsClosed (hA : A.InRange) {S : OrdSet ℕ} (hS : A.EpsClosed S)
    (hne : ¬S.toList.isEmpty = true) :
    ∃ T rest, Comp.Next A.acceptsStep (S, c :: w) (T, rest) ∧ A.EpsClosed T ∧
      ((∃ p ∈ S, ∃ s, A.Final s ∧ A.Spells p (c :: w) s) ↔
        ∃ p ∈ T, ∃ s, A.Final s ∧ A.Spells p w s) ∧
      (T.toList.isEmpty = true ∨ rest = w) := by
  let next := A.getTransitionsForRegex S (c :: w)
  have hnext : ∀ x, x ∈ next.1 ↔ ∃ p ∈ S, A.Edge p (.char c) x :=
    fun x => mem_getTransitionsForRegex
  have hnextlt : ∀ x ∈ next.1, x < A.states.length := by
    intro x hx
    obtain ⟨p, _, he⟩ := (hnext x).mp hx
    exact hA.target_lt he
  obtain ⟨T, hT, hTspec⟩ := expandStatesForEpsTransitions_ensures hA hnextlt
  refine ⟨T, next.2, ?_, epsClosed_of_mem_iff hA hnextlt hTspec,
    exists_spells_cons_iff hS.closed hnext hTspec, ?_⟩
  · rw [Comp.Next, acceptsStep]
    rw [if_neg hne, if_neg (by simp)]
    exact Comp.returns_bind.mpr ⟨T, hT, Comp.returns_pure.mpr rfl⟩
  · by_cases hfound : next.1.toList.isEmpty = true
    · left
      rw [toList_isEmpty_iff]
      intro x hx
      obtain ⟨p, hp, _⟩ := (hTspec x).mp hx
      exact toList_isEmpty_iff.mp hfound p hp
    · exact .inr (if_neg hfound)

/-- The loop of `accepts` from an epsilon-closed set of states. -/
theorem acceptsLoop_ensures (hA : A.InRange) (w : List CChar) (S : OrdSet ℕ)
    (hS : A.EpsClosed S) :
    (Comp.loop A.acceptsStep (S, w)).Ensures fun b =>
      b = true ↔ ∃ p ∈ S, ∃ s, A.Final s ∧ A.Spells p w s := by
  induction w generalizing S with
  | nil =>
      by_cases hSe : S.toList.isEmpty = true
      · exact acceptsLoop_ensures_of_isEmpty hSe
      · exact acceptsLoop_nil_ensures hS hSe
  | cons c w ih =>
      by_cases hSe : S.toList.isEmpty = true
      · exact acceptsLoop_ensures_of_isEmpty hSe
      · obtain ⟨T, rest, hstep, hT, hspell, hrest⟩ :=
          exists_next_of_epsClosed (c := c) (w := w) hA hS hSe
        have hloop : (Comp.loop A.acceptsStep (T, rest)).Ensures fun b =>
            b = true ↔ ∃ p ∈ T, ∃ s, A.Final s ∧ A.Spells p w s := by
          rcases hrest with hTe | hrest
          · -- no state was found: the letter stays, but the loop ends
            exact acceptsLoop_ensures_of_isEmpty hTe
          · rw [hrest]
            exact ih T hT
        obtain ⟨b, hb, hbspec⟩ := hloop
        refine ⟨b, Comp.loop_returns_step.mpr (.inr ⟨_, hstep, hb⟩), ?_⟩
        beta_reduce
        rw [hspell]
        exact hbspec

/-- `accepts` ends and tells whether the word is spelled by a path to a final state. -/
theorem accepts_ensures_spells (hs : A.isSimple = true) (hA : A.InRange) (w : List CChar) :
    (A.accepts w).Ensures fun b =>
      b = true ↔ ∃ s, A.Final s ∧ A.Spells A.startStateIndex w s := by
  refine Comp.ensures_bind.mpr (Comp.ensures_assert.mpr ⟨hs, ?_⟩)
  have hstart : ∀ p ∈ (OrderedSet.insert A.startStateIndex ∅ : OrdSet ℕ),
      p < A.states.length := by
    intro p hp
    rcases OrdSet.mem_insert.mp hp with rfl | hp
    · exact hA.start_lt
    · exact absurd hp OrderedSet.notMem_empty
  refine Comp.ensures_bind.mpr ((expandStatesForEpsTransitions_ensures hA hstart).mono ?_)
  intro T hT
  have hTstart : ∀ x, x ∈ T ↔ A.EpsReach A.startStateIndex x := by
    intro x
    rw [hT]
    simp
  refine (acceptsLoop_ensures hA w T (epsClosed_of_mem_iff hA hstart hT)).mono
    fun b hb => hb.trans ?_
  constructor
  · intro h
    rcases h with ⟨p, hp, s, hs, hps⟩
    exact ⟨s, hs, ((hTstart p).mp hp).spells hps⟩
  · intro h
    rcases h with ⟨s, hs, hps⟩
    exact ⟨A.startStateIndex, (hTstart _).mpr .refl, s, hs, hps⟩

/-- On words without the marker, `accepts` decides the path language. -/
theorem accepts_ensures (hs : A.isSimple = true) (hA : A.InRange) (hw : ∀ c ∈ w, c ≠ 0) :
    (A.accepts w).Ensures fun b => b = true ↔ w ∈ A.pathLanguage :=
  (accepts_ensures_spells hs hA w).mono fun _ hb => hb.trans (mem_residual_iff_spells hs hw).symm

/-- `accepts` ends, and on a word without the marker it tells whether the letters on some
path from the start state to a final one spell the word. -/
theorem accepts_correct (A : FiniteAutomaton) (w : List CChar) (hs : A.isSimple = true)
    (hA : A.InRange) (hw : ∀ c ∈ w, c ≠ 0) :
    (A.accepts w).Ensures fun b => b = true ↔ ∃ labels s, A.Path A.startStateIndex labels s ∧
      A.Final s ∧ labels.filter (· ≠ 0) = w := by
  apply (accepts_ensures_spells hs hA w).mono
  intro b hb
  rw [hb]
  constructor
  · intro h
    obtain ⟨s, hfinal, hspells⟩ := h
    obtain ⟨labels, hpath, hleaves⟩ := spells_iff_path.mp hspells
    exact ⟨labels, s, hpath, hfinal, (leavesOut_iff_filter hw).mp hleaves⟩
  · intro h
    obtain ⟨labels, s, hpath, hfinal, hfilter⟩ := h
    exact ⟨s, hfinal, spells_iff_path.mpr ⟨labels, hpath, (leavesOut_iff_filter hw).mpr hfilter⟩⟩

/-- An epsilon cycle of two states, with the letter `a` on a loop. -/
def epsilonCycle : FiniteAutomaton where
  alphabet := OrderedSet.insert 97 ∅
  states := [⟨false, [⟨Regex.empty, 1⟩, ⟨.char 97, 0⟩]⟩, ⟨true, [⟨Regex.empty, 0⟩]⟩]

theorem accepts_correct_epsilonCycle :
    (epsilonCycle.accepts [97, 97]).Ensures fun b => b = true ↔ ∃ labels s,
      epsilonCycle.Path epsilonCycle.startStateIndex labels s ∧ epsilonCycle.Final s ∧
        labels.filter (· ≠ 0) = [97, 97] :=
  accepts_correct epsilonCycle [97, 97] (by decide) (by decide) (by decide +kernel)

/-- Without epsilon transitions `accepts` decides the path language on all words. -/
theorem LetterLabels.accepts_ensures (hl : A.LetterLabels) (hA : A.InRange) (w : List CChar) :
    (A.accepts w).Ensures fun b => b = true ↔ w ∈ A.pathLanguage :=
  (accepts_ensures_spells (letterLabels_iff.mp hl).1 hA w).mono fun _ hb =>
    hb.trans hl.mem_residual_iff_spells.symm

end FormalLanguages.FiniteAutomaton
