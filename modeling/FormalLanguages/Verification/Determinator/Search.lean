import FormalLanguages.Verification.Determinator.Superpositions
import Mathlib.Data.Finset.Prod
import Mathlib.Data.Finset.Sort
import Mathlib.Data.Fintype.Powerset

/-! # The search for superpositions -/

namespace FormalLanguages.AutomatonDeterminator

open FiniteAutomaton

variable {A : FiniteAutomaton} {c : CChar} {p q : ℕ} {s u : StateSuperposition}
  {d : AutomatonDeterminator} {P P' : AutomatonDeterminator × Bool}

/-! ## Superpositions and their keys -/

/-- The states that the letter `c` leads to from the states of `s`. -/
def StepSet (A : FiniteAutomaton) (s : StateSuperposition) (c : CChar) (q : ℕ) : Prop :=
  ∃ p ∈ s.states, A.Edge p (.char c) q

/-- A nonempty set of states of `A`, marked final when one of them is. -/
structure Valid (A : FiniteAutomaton) (s : StateSuperposition) : Prop where
  nonempty : ∃ q, q ∈ s.states
  lt : ∀ q ∈ s.states, q < A.states.length
  isFinal : s.isFinal = true ↔ ∃ q ∈ s.states, A.Final q

theorem states_eq_of_key_eq (h : s.key = u.key) : s.states = u.states := by
  rw [StateSuperposition.key] at h
  have h := congrArg (fun k => (ofLex (ofLex k).2).2) h
  exact OrderedSet.ext h

theorem Valid.key_eq (hs : Valid A s) (hu : Valid A u) (h : s.states = u.states) :
    s.key = u.key := by
  have hfinal : s.isFinal = u.isFinal := by
    rw [Bool.eq_iff_iff, hs.isFinal, hu.isFinal, h]
  unfold StateSuperposition.key
  rw [h, hfinal]

/-- The keys of the superpositions of `A`: finitely many. -/
def allKeys (A : FiniteAutomaton) : Finset (ℕ ×ₗ Bool ×ₗ List ℕ) :=
  ((Finset.range A.states.length).powerset ×ˢ (Finset.univ : Finset Bool)).image fun x =>
    toLex (x.1.card, toLex (x.2, x.1.sort (· ≤ ·)))

theorem Valid.key_mem (h : Valid A s) : s.key ∈ allKeys A := by
  have hsorted : s.states.toList.Pairwise (· < ·) := s.states.sorted
  have hnodup : s.states.toList.Nodup := s.states.nodup_toList
  refine Finset.mem_image.mpr ⟨(s.states.toList.toFinset, s.isFinal), ?_, ?_⟩
  · refine Finset.mem_product.mpr ⟨Finset.mem_powerset.mpr fun q hq => ?_, Finset.mem_univ _⟩
    exact Finset.mem_range.mpr (h.lt q (List.mem_toFinset.mp hq))
  · have hsort : s.states.toList.toFinset.sort (· ≤ ·) = s.states.toList :=
      (List.toFinset_sort (· ≤ ·) hnodup).mpr (hsorted.imp le_of_lt)
    have hcard : s.states.toList.toFinset.card = s.states.size :=
      List.toFinset_card_of_nodup hnodup
    simp only [hsort, hcard]
    rfl

/-! ## What has been found -/

/-- The superpositions found so far, with their ids, and the transitions between them. -/
structure Found (A : FiniteAutomaton) (d : AutomatonDeterminator) : Prop where
  valid : ∀ s ∈ d.foundSuperpositions, Valid A s
  id_lt : ∀ s ∈ d.foundSuperpositions, s.id < d.foundSuperpositions.size
  id_inj : ∀ s ∈ d.foundSuperpositions, ∀ u ∈ d.foundSuperpositions, s.id = u.id → s = u
  start : ∃ s ∈ d.foundSuperpositions, s.id = 0 ∧ ∀ q, q ∈ s.states ↔ q = A.startStateIndex
  sound : ∀ t ∈ d.foundTransitions, t.ch ≠ 0 ∧ ∃ s ∈ d.foundSuperpositions,
    ∃ u ∈ d.foundSuperpositions, s.id = t.sourceIndex ∧ u.id = t.targetIndex ∧
      ∀ q, q ∈ u.states ↔ StepSet A s t.ch q
  reach : ∀ s ∈ d.foundSuperpositions, Relation.ReflTransGen
    (fun i j => ∃ t ∈ d.foundTransitions, t.sourceIndex = i ∧ t.targetIndex = j) 0 s.id

/-- A transition of `s` for the letter `c` is recorded. -/
def Recorded (d : AutomatonDeterminator) (s : StateSuperposition) (c : CChar) : Prop :=
  ∃ t ∈ d.foundTransitions, t.sourceIndex = s.id ∧ t.ch = c

/-- What recording entries does to the determinator and to the flag. -/
structure Extends (A : FiniteAutomaton) (P P' : AutomatonDeterminator × Bool) : Prop where
  found : Found A P'.1
  grows : OrderedSet.Grows P.1.foundSuperpositions P'.1.foundSuperpositions P.2 P'.2
  transitions : ∀ t ∈ P.1.foundTransitions, t ∈ P'.1.foundTransitions

theorem Extends.refl (h : Found A P.1) : Extends A P P := ⟨h, .refl _ _, fun _ h => h⟩

theorem Extends.trans {P'' : AutomatonDeterminator × Bool} (h : Extends A P P')
    (h' : Extends A P' P'') : Extends A P P'' :=
  ⟨h'.found, h.grows.trans h'.grows, fun t ht => h'.transitions t (h.transitions t ht)⟩

theorem Extends.recorded (h : Extends A P P') (hr : Recorded P.1 s c) : Recorded P'.1 s c := by
  obtain ⟨t, ht, hts⟩ := hr
  exact ⟨t, h.transitions t ht, hts⟩

theorem Holds.valid (hA : A.InRange) (h : Holds A (StepSet A s c) u)
    (hne : ∃ q, StepSet A s c q) : Valid A u where
  nonempty := by
    obtain ⟨q, hq⟩ := hne
    exact ⟨q, (h.mem q).mpr hq⟩
  lt q hq := by
    obtain ⟨p, _, he⟩ := (h.mem q).mp hq
    exact hA.target_lt he
  isFinal := by
    rw [h.isFinal]
    simp only [h.mem]

/-- A known superposition only gets another transition. -/
theorem extends_known {it : StateSuperposition} (hd : Found A P.1)
    (hs : s ∈ P.1.foundSuperpositions) (hit : it ∈ P.1.foundSuperpositions) (hc : c ≠ 0)
    (hstep : ∀ q, q ∈ it.states ↔ StepSet A s c q) :
    Extends A P (⟨P.1.foundSuperpositions, P.1.foundTransitions ++ [⟨s.id, it.id, c⟩]⟩, P.2) where
  found := by
    refine ⟨hd.valid, hd.id_lt, hd.id_inj, hd.start, fun t ht => ?_, fun v hv => ?_⟩
    · rcases List.mem_append.mp ht with ht | ht
      · exact hd.sound t ht
      · obtain rfl := List.mem_singleton.mp ht
        exact ⟨hc, s, hs, it, hit, rfl, rfl, hstep⟩
    · refine Relation.ReflTransGen.mono ?_ _ _ (hd.reach v hv)
      intro i j h
      rcases h with ⟨t, ht, hij⟩
      exact ⟨t, List.mem_append_left _ ht, hij⟩
  grows := .refl _ _
  transitions t ht := List.mem_append_left _ ht

/-- A new superposition gets the next id, and a transition from `s`. -/
theorem extends_new (hd : Found A P.1) (hs : s ∈ P.1.foundSuperpositions) (hu : Valid A u)
    (hnew : ∀ z ∈ P.1.foundSuperpositions, z.key ≠ u.key) (hc : c ≠ 0)
    (hstep : ∀ q, q ∈ u.states ↔ StepSet A s c q) :
    Extends A P
      (⟨P.1.foundSuperpositions.insert { u with id := P.1.foundSuperpositions.size },
        P.1.foundTransitions ++ [⟨s.id, P.1.foundSuperpositions.size, c⟩]⟩, true) := by
  set n := P.1.foundSuperpositions.size with hn
  set v : StateSuperposition := { u with id := n } with hv
  have hnewv : ∀ z ∈ P.1.foundSuperpositions, z.key ≠ v.key := hnew
  have hmem : ∀ z, z ∈ P.1.foundSuperpositions.insert v ↔ z = v ∨ z ∈ P.1.foundSuperpositions :=
    fun z => OrderedSet.mem_insert_of_new hnewv
  have hsize : (P.1.foundSuperpositions.insert v).size = n + 1 :=
    OrderedSet.size_insert_of_new hnewv
  have hkeep : ∀ z, z ∈ P.1.foundSuperpositions → z ∈ P.1.foundSuperpositions.insert v :=
    fun z hz => (hmem z).mpr (.inr hz)
  have hself : v ∈ P.1.foundSuperpositions.insert v := (hmem v).mpr (.inl rfl)
  refine ⟨⟨fun z hz => ?_, fun z hz => ?_, fun y hy z hz hyz => ?_, ?_, fun t ht => ?_,
    fun z hz => ?_⟩, OrderedSet.grows_insert _ hnewv, fun t ht => List.mem_append_left _ ht⟩
  · rcases (hmem z).mp hz with rfl | hz
    · exact ⟨hu.nonempty, hu.lt, hu.isFinal⟩
    · exact hd.valid z hz
  · simp only [hsize]
    rcases (hmem z).mp hz with rfl | hz
    · exact Nat.lt_succ_self n
    · exact (hd.id_lt z hz).trans (Nat.lt_succ_self n)
  · rcases (hmem y).mp hy with rfl | hy <;> rcases (hmem z).mp hz with rfl | hz
    · rfl
    · exact absurd hyz (hd.id_lt z hz).ne'
    · exact absurd hyz (hd.id_lt y hy).ne
    · exact hd.id_inj y hy z hz hyz
  · obtain ⟨z, hz, h⟩ := hd.start
    exact ⟨z, hkeep z hz, h⟩
  · rcases List.mem_append.mp ht with ht | ht
    · obtain ⟨hch, y, hy, z, hz, h⟩ := hd.sound t ht
      exact ⟨hch, y, hkeep y hy, z, hkeep z hz, h⟩
    · obtain rfl := List.mem_singleton.mp ht
      exact ⟨hc, s, hkeep s hs, v, hself, rfl, rfl, hstep⟩
  · have hmono : ∀ k, Relation.ReflTransGen
        (fun i j => ∃ t ∈ P.1.foundTransitions, t.sourceIndex = i ∧ t.targetIndex = j) 0 k →
        Relation.ReflTransGen (fun i j => ∃ t ∈ P.1.foundTransitions ++ [⟨s.id, n, c⟩],
          t.sourceIndex = i ∧ t.targetIndex = j) 0 k := by
      intro k
      refine Relation.ReflTransGen.mono ?_ _ _
      intro i j hex
      rcases hex with ⟨t, ht, hij⟩
      exact ⟨t, List.mem_append_left _ ht, hij⟩
    rcases (hmem z).mp hz with rfl | hz
    · exact (hmono _ (hd.reach s hs)).tail ⟨⟨s.id, n, c⟩, by simp, rfl, rfl⟩
    · exact hmono _ (hd.reach z hz)

/-! ## Recording -/

theorem extends_recordEntry (hA : A.InRange) (hd : Found A P.1)
    (hs : s ∈ P.1.foundSuperpositions) (hc : c ≠ 0) (hne : ∃ q, StepSet A s c q)
    (hu : Holds A (StepSet A s c) u) :
    Extends A P (recordEntry s.id P (c, u)) ∧ Recorded (recordEntry s.id P (c, u)).1 s c := by
  have hvalid := hu.valid hA hne
  rw [recordEntry]
  cases hfind : P.1.foundSuperpositions.find? u.key with
  | none =>
      refine ⟨extends_new hd hs hvalid (OrderedSet.find?_eq_none.mp hfind) hc hu.mem, ?_⟩
      exact ⟨⟨s.id, P.1.foundSuperpositions.size, c⟩, by simp, rfl, rfl⟩
  | some it =>
      obtain ⟨hit, hkey⟩ := OrderedSet.find?_eq_some.mp hfind
      have hstep : ∀ q, q ∈ it.states ↔ StepSet A s c q := by
        rw [states_eq_of_key_eq hkey]
        exact hu.mem
      exact ⟨extends_known hd hs hit hc hstep, ⟨s.id, it.id, c⟩, by simp, rfl, rfl⟩

/-- All entries are recorded, whatever their order. -/
theorem extends_foldl_recordEntry (hA : A.InRange) {next : NextSuperpositions}
    (hnext : ∀ c u, (c, u) ∈ next →
      c ≠ 0 ∧ (∃ q, StepSet A s c q) ∧ Holds A (StepSet A s c) u)
    (hd : Found A P.1) (hs : s ∈ P.1.foundSuperpositions) :
    Extends A P (next.foldl (recordEntry s.id) P) ∧
      ∀ c u, (c, u) ∈ next → Recorded (next.foldl (recordEntry s.id) P).1 s c := by
  induction next generalizing P with
  | nil => exact ⟨.refl hd, by simp⟩
  | cons e next ih =>
      obtain ⟨c, u⟩ := e
      obtain ⟨hc, hne, hu⟩ := hnext c u (by simp)
      obtain ⟨hext, hrec⟩ := extends_recordEntry hA hd hs hc hne hu
      obtain ⟨hext', hrec'⟩ := ih (fun c u h => hnext c u (List.mem_cons_of_mem _ h)) hext.found
        (hext.grows.sub s hs)
      rw [List.foldl_cons]
      refine ⟨hext.trans hext', fun c' u' h => ?_⟩
      rcases List.mem_cons.mp h with h | h
      · cases h
        exact hext'.recorded hrec
      · exact hrec' c' u' h

/-- Every letter that leads anywhere from `s` has a recorded transition. -/
def AllRecorded (A : FiniteAutomaton) (d : AutomatonDeterminator) (s : StateSuperposition) :
    Prop :=
  ∀ c, c ≠ 0 → (∃ q, StepSet A s c q) → Recorded d s c

theorem extends_visit (order : IterationOrder) (hA : A.InRange) (hd : Found A P.1)
    (hs : s ∈ P.1.foundSuperpositions) :
    Extends A P (visit order A s P) ∧ AllRecorded A (visit order A s P).1 s := by
  have hcollects := collects_nextSuperpositions A s
  have hperm := order.perm P.1 (nextSuperpositions A s)
  have hnext : ∀ c u, (c, u) ∈ order.arrange P.1 (nextSuperpositions A s) →
      c ≠ 0 ∧ (∃ q, StepSet A s c q) ∧ Holds A (StepSet A s c) u := by
    intro c u h
    obtain ⟨⟨q, hc, hq⟩, hu⟩ := hcollects.sound c u (hperm.mem_iff.mp h)
    exact ⟨hc, ⟨q, hq⟩, hu.congr fun q => and_iff_right hc⟩
  obtain ⟨hext, hrec⟩ := extends_foldl_recordEntry hA hnext hd hs
  refine ⟨hext, fun c hc hstep => ?_⟩
  obtain ⟨q, hq⟩ := hstep
  obtain ⟨u, hu⟩ := hcollects.cover c q ⟨hc, hq⟩
  exact hrec c u (hperm.mem_iff.mpr hu)

theorem found_start (hA : A.InRange) :
    Found A ⟨OrderedSet.insert (startSuperposition A) ∅, []⟩ := by
  have hmem : ∀ z, z ∈ (OrderedSet.insert (startSuperposition A) ∅ :
      OrderedSet StateSuperposition.key) ↔ z = startSuperposition A := by
    intro z
    exact List.mem_singleton
  have hstates : ∀ q, q ∈ (startSuperposition A).states ↔ q = A.startStateIndex := by
    intro q
    simp [startSuperposition]
  refine ⟨fun z hz => ?_, fun z hz => ?_, fun y hy z hz _ => ?_, ?_, by simp, fun z hz => ?_⟩
  · rw [(hmem z).mp hz]
    refine ⟨⟨_, (hstates _).mpr rfl⟩, fun q hq => ?_, ?_⟩
    · rw [(hstates q).mp hq]
      exact hA.start_lt
    · simp only [hstates, exists_eq_left]
      rfl
  · rw [(hmem z).mp hz]
    exact Nat.one_pos
  · rw [(hmem y).mp hy, (hmem z).mp hz]
  · exact ⟨_, (hmem _).mpr rfl, rfl, hstates⟩
  · rw [(hmem z).mp hz]
    exact .refl

/-- The passes end, and then every superposition has all its transitions. -/
theorem search_ensures (order : IterationOrder) (hA : A.InRange) :
    (Comp.loop (fun d => do
        let p ← findNewSuperpositions order A d
        pure (if p.2 then .inl p.1 else .inr p.1))
      ⟨OrderedSet.insert (startSuperposition A) ∅, []⟩ : Comp Fault _).Ensures fun d =>
        Found A d ∧ ∀ s ∈ d.foundSuperpositions, AllRecorded A d s := by
  refine OrderedSet.saturate_ensures (fun d => d.foundSuperpositions)
    (fun s p => pure (visit order A s p)) (Found A) (fun s d => AllRecorded A d s)
    (allKeys A) (fun d hd s hs => (hd.valid s hs).key_mem) ?_ (found_start hA)
  intro s P hd hs
  obtain ⟨hext, hall⟩ := extends_visit order hA hd hs
  exact Comp.ensures_pure.mpr ⟨hext.found, hext.grows, hall,
    fun u hu c hc hstep => hext.recorded (hu c hc hstep)⟩

end FormalLanguages.AutomatonDeterminator
