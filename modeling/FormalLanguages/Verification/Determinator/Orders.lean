import FormalLanguages.Verification.Determinator.Correctness

/-! # The order of iteration

The entries of the hash map are met in some order. The numbers of the new states depend on it,
and so does the order in which the transitions of a state are listed. Nothing else does. -/

namespace FormalLanguages

open FiniteAutomaton

variable {A B C : FiniteAutomaton} {f : ℕ → ℕ}

/-- `B` is `A` with its states renumbered by `f`, up to the order in which each state lists its
transitions. -/
structure Renumbers (A B : FiniteAutomaton) (f : ℕ → ℕ) : Prop where
  inRange : A.InRange
  alphabet_eq : B.alphabet = A.alphabet
  length_eq : B.states.length = A.states.length
  lt : ∀ p < A.states.length, f p < B.states.length
  inj : ∀ p < A.states.length, ∀ q < A.states.length, f p = f q → p = q
  start_eq : B.startStateIndex = f A.startStateIndex
  final_iff : ∀ p < A.states.length, B.Final (f p) ↔ A.Final p
  transitions_perm : ∀ p < A.states.length, (B.state (f p)).transitions.Perm
    ((A.state p).transitions.map fun t => ⟨t.regex, f t.targetIndex⟩)

/-- Assignment keeps the alphabet of the automaton assigned to. -/
theorem Renumbers.assign (h : Renumbers A B f) (X : FiniteAutomaton) :
    Renumbers (X.assign A) (X.assign B) f :=
  ⟨⟨h.inRange.start_lt, fun he => h.inRange.target_lt he⟩, rfl, h.length_eq, h.lt, h.inj,
    h.start_eq, h.final_iff, h.transitions_perm⟩

/-- The entries in the opposite order. -/
def IterationOrder.reversed : IterationOrder := ⟨fun _ m => m.reverse, fun _ m => m.reverse_perm⟩

namespace AutomatonDeterminator

variable {sets sets' : ℕ → Set ℕ} {k l : ℕ} {order order' : IterationOrder}

/-- Every set that one order finds is found by the other. -/
theorem Determines.exists_sets_eq (h : Determines A B sets) (h' : Determines A C sets')
    (hk : B.Reachable k) : ∃ l < C.states.length, sets' l = sets k := by
  induction hk with
  | refl =>
      refine ⟨0, h'.start_lt, ?_⟩
      rw [h.start_eq, h.sets_start, h'.sets_start]
  | tail _ he ih =>
      obtain ⟨l, hl, hsets⟩ := ih
      obtain ⟨r, he⟩ := he
      obtain ⟨hm, c, hc, rfl, hstep⟩ := h.edge he
      -- the set is not empty, so the letter leads on from its predecessor in the other run too
      obtain ⟨q, hq⟩ := h.nonempty hm
      have hq' := hq
      rw [hstep, ← hsets] at hq'
      obtain ⟨p, hp, hpq⟩ := hq'
      obtain ⟨m, he'⟩ := h'.cover hl hc hp hpq
      refine ⟨m, (h'.edge he').1, ?_⟩
      rw [h'.sets_of_edge he', hstep, hsets]

/-- States with the same set have the same edges to states with the same sets. -/
theorem Determines.edge_of_sets_eq (h : Determines A B sets) (h' : Determines A C sets')
    {m n : ℕ} {r : Regex} (hl : l < C.states.length) (hn : n < C.states.length)
    (hkl : sets' l = sets k) (hmn : sets' n = sets m) (he : B.Edge k r m) : C.Edge l r n := by
  obtain ⟨hm, c, hc, rfl, hstep⟩ := h.edge he
  obtain ⟨q, hq⟩ := h.nonempty hm
  rw [hstep, ← hkl] at hq
  obtain ⟨p, hp, hpq⟩ := hq
  obtain ⟨n', he'⟩ := h'.cover hl hc hp hpq
  have hsets : sets' n' = sets' n := by rw [h'.sets_of_edge he', hmn, hstep, hkl]
  rwa [h'.inj (h'.edge he').1 hn hsets] at he'

/-- A letter on the edges of one result is on the edges of the other. -/
theorem Determines.mem_alphabet (h : Determines A B sets) (h' : Determines A C sets') {c : CChar}
    (hc : c ∈ B.alphabet) : c ∈ C.alphabet := by
  obtain ⟨k, m, he⟩ := (h.alphabet c).mp hc
  obtain ⟨l, hl, hkl⟩ := h.exists_sets_eq h' (h.reachable k he.source_lt)
  obtain ⟨n, hn, hmn⟩ := h.exists_sets_eq h' (h.reachable m (h.edge he).1)
  exact (h'.alphabet c).mpr ⟨l, n, h.edge_of_sets_eq h' hl hn hkl hmn he⟩

theorem Determines.alphabet_eq (h : Determines A B sets) (h' : Determines A C sets') :
    C.alphabet = B.alphabet :=
  OrdSet.ext_mem fun _ => ⟨h'.mem_alphabet h, h.mem_alphabet h'⟩

/-- The states of the two results match, set by set. -/
structure SameSets (B C : FiniteAutomaton) (sets sets' : ℕ → Set ℕ) (f : ℕ → ℕ) : Prop where
  lt : ∀ {p}, p < B.states.length → f p < C.states.length
  sets_eq : ∀ {p}, p < B.states.length → sets' (f p) = sets p
  inj : ∀ {p q}, p < B.states.length → q < B.states.length → f p = f q → p = q
  surj : ∀ {q}, q < C.states.length → ∃ p < B.states.length, f p = q

theorem Determines.exists_sameSets (h : Determines A B sets) (h' : Determines A C sets') :
    ∃ f, SameSets B C sets sets' f := by
  have hforth : ∀ k, ∃ l, k < B.states.length → l < C.states.length ∧ sets' l = sets k := by
    intro k
    by_cases hk : k < B.states.length
    · obtain ⟨l, hl⟩ := h.exists_sets_eq h' (h.reachable k hk)
      exact ⟨l, fun _ => hl⟩
    · exact ⟨0, fun hlt => absurd hlt hk⟩
  choose f hf using hforth
  refine ⟨f, fun hp => (hf _ hp).1, fun hp => (hf _ hp).2, ?_, ?_⟩
  · intro p q hp hq hpq
    apply h.inj hp hq
    rw [← (hf p hp).2, hpq, (hf q hq).2]
  · intro q hq
    obtain ⟨p, hp, hsets⟩ := h'.exists_sets_eq h (h'.reachable q hq)
    refine ⟨p, hp, h'.inj (hf p hp).1 hq ?_⟩
    rw [(hf p hp).2, hsets]

theorem SameSets.length_eq (hf : SameSets B C sets sets' f) :
    C.states.length = B.states.length := by
  have himage : (Finset.range B.states.length).image f = Finset.range C.states.length := by
    ext q
    simp only [Finset.mem_image, Finset.mem_range]
    constructor
    · rintro ⟨p, hp, rfl⟩
      exact hf.lt hp
    · exact hf.surj
  rw [← Finset.card_range C.states.length, ← himage, Finset.card_image_of_injOn,
    Finset.card_range]
  intro p hp q hq hpq
  exact hf.inj (Finset.mem_range.mp hp) (Finset.mem_range.mp hq) hpq

/-- Both lists are without repetitions, so it is enough that they have the same members. -/
theorem Determines.transitions_perm (h : Determines A B sets) (h' : Determines A C sets')
    (hf : SameSets B C sets sets' f) (hk : k < B.states.length) :
    (C.state (f k)).transitions.Perm
      ((B.state k).transitions.map fun t => ⟨t.regex, f t.targetIndex⟩) := by
  have htarget : ∀ t ∈ (B.state k).transitions, t.targetIndex < B.states.length :=
    fun _ ht => (h.edge ht).1
  have hnodup : ((B.state k).transitions.map fun t =>
      (⟨t.regex, f t.targetIndex⟩ : FiniteAutomatonTransition)).Nodup := by
    refine List.Nodup.map_on ?_ (h.nodup k)
    rintro ⟨r, m⟩ ht ⟨r', m'⟩ ht' heq
    obtain ⟨rfl, hm⟩ := FiniteAutomatonTransition.mk.inj heq
    obtain rfl := hf.inj (htarget _ ht) (htarget _ ht') hm
    rfl
  refine (List.perm_ext_iff_of_nodup (h'.nodup _) hnodup).mpr ?_
  rintro ⟨r, n⟩
  rw [List.mem_map]
  constructor
  · intro he
    obtain ⟨m, hm, rfl⟩ := hf.surj (h'.edge he).1
    exact ⟨⟨r, m⟩, h'.edge_of_sets_eq h hk hm (hf.sets_eq hk).symm (hf.sets_eq hm).symm he, rfl⟩
  · rintro ⟨⟨r', m⟩, he, heq⟩
    obtain ⟨rfl, rfl⟩ := FiniteAutomatonTransition.mk.inj heq
    have hm := (h.edge he).1
    exact h.edge_of_sets_eq h' (hf.lt hk) (hf.lt hm) (hf.sets_eq hk) (hf.sets_eq hm) he

theorem Determines.renumbers (h : Determines A B sets) (h' : Determines A C sets') :
    ∃ f, Renumbers B C f := by
  obtain ⟨f, hf⟩ := h.exists_sameSets h'
  refine ⟨f, h.inRange, h.alphabet_eq h', hf.length_eq, fun p hp => hf.lt hp,
    fun p hp q hq hpq => hf.inj hp hq hpq, ?_, fun p hp => ?_,
    fun p hp => h.transitions_perm h' hf hp⟩
  · rw [h'.start_eq, h.start_eq]
    apply h'.inj h'.start_lt (hf.lt h.start_lt)
    rw [hf.sets_eq h.start_lt, h.sets_start, h'.sets_start]
  · rw [h'.final (hf.lt hp), h.final hp, hf.sets_eq hp]

/-- A run that ends has passed both assertions. -/
theorem assertions_of_returns (h : (determine order A).Returns B) :
    A.hasEpsilonTransitions = false ∧ A.isComplete = true := by
  obtain ⟨_, heps, h⟩ := Comp.returns_bind.mp h
  obtain ⟨_, hcomplete, _⟩ := Comp.returns_bind.mp h
  refine ⟨?_, Comp.returns_assert.mp hcomplete⟩
  simpa using Comp.returns_assert.mp heps

theorem renumbers_of_returns (hA : A.InRange) (hB : (determine order A).Returns B)
    (hC : (determine order' A).Returns C) : ∃ f, Renumbers B C f := by
  obtain ⟨heps, hcomplete⟩ := assertions_of_returns hB
  obtain ⟨sets, h⟩ := (determine_ensures order hA heps hcomplete).of_returns hB
  obtain ⟨sets', h'⟩ := (determine_ensures order' hA heps hcomplete).of_returns hC
  exact h.renumbers h'

/-- Whatever the orders of iteration, the two results are one automaton up to the numbers of
its states and the order of each state's transitions. -/
theorem determine_orders (order order' : IterationOrder) (A : FiniteAutomaton) (hA : A.InRange)
    (heps : A.hasEpsilonTransitions = false) (hcomplete : A.isComplete = true) :
    (determine order A).Ensures fun B => (determine order' A).Ensures fun C =>
      ∃ f, Renumbers B C f := by
  apply (determine_ensures order hA heps hcomplete).mono
  intro B hB
  obtain ⟨sets, hB⟩ := hB
  apply (determine_ensures order' hA heps hcomplete).mono
  intro C hC
  obtain ⟨sets', hC⟩ := hC
  exact hB.renumbers hC

theorem determine_orders_twoChoices :
    (determine .insertion twoChoices).Ensures fun B =>
      (determine .reversed twoChoices).Ensures fun C => ∃ f, Renumbers B C f :=
  determine_orders .insertion .reversed twoChoices (by decide) (by decide) (by decide)

end AutomatonDeterminator

end FormalLanguages
