import FormalLanguages.Verification.Determinator.Search

/-! # Correctness of the subset construction -/

namespace FormalLanguages.AutomatonDeterminator

open FiniteAutomaton

variable {A B : FiniteAutomaton} {c : CChar} {k l p q : ℕ} {r : Regex}
  {d : AutomatonDeterminator} {order : IterationOrder} {w : List CChar}

/-! ## Building the automaton -/

/-- The final flags are those of the superpositions. -/
theorem foldl_makeFinal (ss : List StateSuperposition) (hss : ∀ s ∈ ss, s.id < B.states.length) :
    let C := ss.foldl (fun B s => if s.isFinal then B.makeStateFinal s.id true else B) B
    C.states.length = B.states.length ∧ C.startStateIndex = B.startStateIndex ∧
    C.alphabet = B.alphabet ∧
    (∀ p, (C.state p).transitions = (B.state p).transitions) ∧
    ∀ p, C.Final p ↔ B.Final p ∨ ∃ s ∈ ss, s.id = p ∧ s.isFinal = true := by
  induction ss generalizing B with
  | nil => simp
  | cons s ss ih =>
      rw [List.foldl_cons]
      cases hf : s.isFinal with
      | false =>
          simp only [Bool.false_eq_true, if_false]
          obtain ⟨hlen, hstart, halphabet, htrans, hfinal⟩ := ih fun u hu => hss u (List.mem_cons_of_mem _ hu)
          refine ⟨hlen, hstart, halphabet, htrans, fun p => ?_⟩
          rw [hfinal]
          simp [hf]
      | true =>
          simp only [if_true]
          have hs : s.id < B.states.length := hss s (by simp)
          obtain ⟨hlen, hstart, halphabet, htrans, hfinal⟩ := ih (B := B.makeStateFinal s.id true) (by
            intro u hu
            rw [length_makeStateFinal]
            exact hss u (List.mem_cons_of_mem _ hu))
          refine ⟨hlen.trans length_makeStateFinal, hstart, halphabet.trans alphabet_makeStateFinal,
            fun p => ?_, fun p => ?_⟩
          · rw [htrans, state_makeStateFinal hs]
            split <;> rfl
          · rw [hfinal, final_makeStateFinal hs]
            by_cases hp : p = s.id
            · subst hp
              simp [hf]
            · simp [hp, Ne.symm hp]

theorem isNone_findTransitionTo :
    (B.findTransitionTo c p q).isNone = true ↔ ¬B.Edge p (.char c) q := by
  rw [Option.isNone_iff_eq_none, findTransitionTo, List.findIdx?_eq_none_iff]
  constructor
  · intro h he
    have := h _ he
    simp [Regex.isCharOf] at this
  · intro h hex ht
    rcases hex with ⟨r, x⟩
    rw [Bool.eq_false_iff]
    intro hx
    simp only [Bool.and_eq_true, beq_iff_eq] at hx
    obtain ⟨rfl, hr⟩ := hx
    rw [Regex.isCharOf_iff.mp hr] at ht
    exact h ht

theorem length_addFound {t : SuperpositionTransition} :
    (addFound B t).states.length = B.states.length := by
  rw [addFound]
  split
  · exact length_addTransition
  · rfl

/-- Every recorded transition is there, once. -/
theorem foldl_addFound {ts : List SuperpositionTransition}
    (hts : ∀ t ∈ ts, t.sourceIndex < B.states.length)
    (hnodup : ∀ p, (B.state p).transitions.Nodup) :
    let C := ts.foldl addFound B
    C.states.length = B.states.length ∧ C.startStateIndex = B.startStateIndex ∧
    (∀ p, C.Final p ↔ B.Final p) ∧ (∀ p, (C.state p).transitions.Nodup) ∧
    ∀ p r q, C.Edge p r q ↔ B.Edge p r q ∨
      ∃ t ∈ ts, t.sourceIndex = p ∧ r = .char t.ch ∧ t.targetIndex = q := by
  induction ts generalizing B with
  | nil => simp [hnodup]
  | cons t ts ih =>
      have ht : t.sourceIndex < B.states.length := hts t (by simp)
      rw [List.foldl_cons]
      have hadd : (addFound B t).startStateIndex = B.startStateIndex ∧
          (∀ p, (addFound B t).Final p ↔ B.Final p) ∧
          (∀ p, ((addFound B t).state p).transitions.Nodup) ∧
          ∀ p r q, (addFound B t).Edge p r q ↔ B.Edge p r q ∨
            (p = t.sourceIndex ∧ r = .char t.ch ∧ q = t.targetIndex) := by
        rw [addFound]
        split
        · rename_i hnone
          have hnot := isNone_findTransitionTo.mp hnone
          refine ⟨rfl, fun p => final_addTransition, fun p => ?_,
            fun p r q => edge_addTransition ht⟩
          rw [state_addTransition ht]
          split
          · rename_i hp
            subst hp
            refine List.nodup_append.mpr ⟨hnodup _, List.nodup_singleton _, ?_⟩
            intro u hu v hv huv
            rw [huv, List.mem_singleton.mp hv] at hu
            exact hnot hu
          · exact hnodup p
        · rename_i hsome
          refine ⟨rfl, fun p => Iff.rfl, hnodup, fun p r q => ⟨.inl, ?_⟩⟩
          intro hcases
          rcases hcases with he | ⟨rfl, rfl, rfl⟩
          · exact he
          · by_contra hno
            exact hsome (isNone_findTransitionTo.mpr hno)
      obtain ⟨hstart, hfinal, hnd, hedge⟩ := hadd
      obtain ⟨hlen', hstart', hfinal', hnd', hedge'⟩ := ih (B := addFound B t) (by
        intro u hu
        rw [length_addFound]
        exact hts u (List.mem_cons_of_mem _ hu)) hnd
      refine ⟨hlen'.trans length_addFound, hstart'.trans hstart, fun p => (hfinal' p).trans (hfinal p), hnd',
        fun p r q => ?_⟩
      rw [hedge', hedge, or_assoc]
      simp only [List.mem_cons, exists_eq_or_imp]
      rw [eq_comm (a := p), eq_comm (a := q)]

/-- The alphabet holds the letters on the edges, and no others. -/
def AlphabetOfEdges (B : FiniteAutomaton) : Prop :=
  ∀ c, c ∈ B.alphabet ↔ ∃ p q, B.Edge p (.char c) q

theorem AlphabetOfEdges.addFound (h : AlphabetOfEdges B) {t : SuperpositionTransition}
    (ht : t.sourceIndex < B.states.length) (hc : t.ch ≠ 0) :
    AlphabetOfEdges (addFound B t) := by
  intro c
  rw [AutomatonDeterminator.addFound]
  split
  · simp only [edge_addTransition ht]
    rw [mem_alphabet_addTransition, h c, Regex.mem_letters_char]
    constructor
    · rintro (⟨p, q, he⟩ | ⟨_, rfl⟩)
      · exact ⟨p, q, .inl he⟩
      · exact ⟨_, _, .inr ⟨rfl, rfl, rfl⟩⟩
    · rintro ⟨p, q, he | ⟨_, heq, _⟩⟩
      · exact .inl ⟨p, q, he⟩
      · cases heq
        exact .inr ⟨hc, rfl⟩
  · exact h c

theorem AlphabetOfEdges.foldl_addFound {ts : List SuperpositionTransition}
    (h : AlphabetOfEdges B) (hts : ∀ t ∈ ts, t.sourceIndex < B.states.length ∧ t.ch ≠ 0) :
    AlphabetOfEdges (ts.foldl AutomatonDeterminator.addFound B) := by
  induction ts generalizing B with
  | nil => exact h
  | cons t ts ih =>
      obtain ⟨ht, hc⟩ := hts t (by simp)
      apply ih (h.addFound ht hc)
      intro u hu
      rw [length_addFound]
      exact hts u (List.mem_cons_of_mem _ hu)

/-- What `build` returns, in terms of what was found. -/
structure Built (d : AutomatonDeterminator) (B : FiniteAutomaton) : Prop where
  length_eq : B.states.length = d.foundSuperpositions.size
  start_eq : B.startStateIndex = 0
  final : ∀ {p}, B.Final p ↔ ∃ s ∈ d.foundSuperpositions, s.id = p ∧ s.isFinal = true
  nodup : ∀ p, (B.state p).transitions.Nodup
  edge : ∀ {p r q}, B.Edge p r q ↔
    ∃ t ∈ d.foundTransitions, t.sourceIndex = p ∧ r = .char t.ch ∧ t.targetIndex = q
  alphabet : AlphabetOfEdges B

theorem built_build (hd : Found A d) : Built d (build d) := by
  rw [build]
  simp only [foldl_addState, List.nil_append]
  set B₀ : FiniteAutomaton := { states := List.replicate d.foundSuperpositions.size ⟨false, []⟩ }
  have hlen₀ : B₀.states.length = d.foundSuperpositions.size := List.length_replicate
  have hstate₀ : ∀ p, B₀.state p = ⟨false, []⟩ := fun p => state_replicate
  obtain ⟨hlen₁, hstart₁, halphabet₁, htrans₁, hfinal₁⟩ := foldl_makeFinal (B := B₀)
    d.foundSuperpositions.toList (fun s hs => hlen₀ ▸ hd.id_lt s hs)
  set B₁ := d.foundSuperpositions.toList.foldl
    (fun B s => if s.isFinal then B.makeStateFinal s.id true else B) B₀
  have hsource : ∀ t ∈ d.foundTransitions, t.sourceIndex < B₁.states.length ∧ t.ch ≠ 0 := by
    intro t ht
    obtain ⟨hc, s, hs, _, _, hid, _⟩ := hd.sound t ht
    rw [hlen₁, hlen₀, ← hid]
    exact ⟨hd.id_lt s hs, hc⟩
  have hnone : AlphabetOfEdges B₁ := by
    intro c
    rw [halphabet₁]
    apply iff_of_false OrderedSet.notMem_empty
    rintro ⟨p, q, he⟩
    rw [Edge, htrans₁, hstate₀] at he
    exact List.not_mem_nil he
  obtain ⟨hlen₂, hstart₂, hfinal₂, hnodup₂, hedge₂⟩ := foldl_addFound (B := B₁)
    (fun t ht => (hsource t ht).1) (by
      intro p
      rw [htrans₁, hstate₀]
      exact List.nodup_nil)
  refine ⟨hlen₂.trans (hlen₁.trans hlen₀), hstart₂.trans hstart₁, fun {p} => ?_, hnodup₂,
    fun {p r q} => ?_, hnone.foldl_addFound hsource⟩
  · rw [hfinal₂, hfinal₁, Final, hstate₀]
    simp [OrderedSet.mem_def]
  · rw [hedge₂, Edge, htrans₁, hstate₀]
    simp

/-! ## The subset automaton -/

/-- The states of `B` stand for different nonempty sets of states of `A`, and its edges for
the steps between them. -/
structure Determines (A B : FiniteAutomaton) (sets : ℕ → Set ℕ) : Prop where
  start_eq : B.startStateIndex = 0
  start_lt : 0 < B.states.length
  sets_start : sets 0 = {A.startStateIndex}
  nonempty : ∀ {k}, k < B.states.length → (sets k).Nonempty
  lt : ∀ {k q}, q ∈ sets k → q < A.states.length
  inj : ∀ {k l}, k < B.states.length → l < B.states.length → sets k = sets l → k = l
  edge : ∀ {k r l}, B.Edge k r l → l < B.states.length ∧
    ∃ c, c ≠ 0 ∧ r = .char c ∧ sets l = {q | ∃ p ∈ sets k, A.Edge p (.char c) q}
  cover : ∀ {k c p q}, k < B.states.length → c ≠ 0 → p ∈ sets k → A.Edge p (.char c) q →
    ∃ l, B.Edge k (.char c) l
  final : ∀ {k}, k < B.states.length → (B.Final k ↔ ∃ q ∈ sets k, A.Final q)
  nodup : ∀ k, (B.state k).transitions.Nodup
  reachable : B.AllReachable
  alphabet : AlphabetOfEdges B

/-- Every id below the number of superpositions is taken. -/
theorem exists_id (hd : Found A d) (hk : k < d.foundSuperpositions.size) :
    ∃ s ∈ d.foundSuperpositions, s.id = k := by
  have hnodup : (d.foundSuperpositions.toList.map StateSuperposition.id).Nodup :=
    List.Nodup.map_on (fun s hs u hu h => hd.id_inj s hs u hu h)
      d.foundSuperpositions.nodup_toList
  have hsub : (d.foundSuperpositions.toList.map StateSuperposition.id).toFinset ⊆
      Finset.range d.foundSuperpositions.size := by
    intro i hi
    obtain ⟨s, hs, rfl⟩ := List.mem_map.mp (List.mem_toFinset.mp hi)
    exact Finset.mem_range.mpr (hd.id_lt s hs)
  have heq := Finset.eq_of_subset_of_card_le hsub (by
    rw [List.toFinset_card_of_nodup hnodup, List.length_map, Finset.card_range]
    exact le_rfl)
  have hmem := heq ▸ Finset.mem_range.mpr hk
  obtain ⟨s, hs, rfl⟩ := List.mem_map.mp (List.mem_toFinset.mp hmem)
  exact ⟨s, hs, rfl⟩

/-- The set that stands behind an id. -/
def idSet (d : AutomatonDeterminator) (k : ℕ) : Set ℕ :=
  {q | ∃ s ∈ d.foundSuperpositions, s.id = k ∧ q ∈ s.states}

theorem mem_idSet (hd : Found A d) {s : StateSuperposition} (hs : s ∈ d.foundSuperpositions) :
    q ∈ idSet d s.id ↔ q ∈ s.states := by
  constructor
  · intro h
    rcases h with ⟨u, hu, hid, hq⟩
    rwa [← hd.id_inj u hu s hs hid]
  · intro hq
    exact ⟨s, hs, rfl, hq⟩

theorem determines_build (hd : Found A d)
    (hall : ∀ s ∈ d.foundSuperpositions, AllRecorded A d s) :
    Determines A (build d) (idSet d) := by
  have hB := built_build hd
  have hid : ∀ {k}, k < (build d).states.length → ∃ s ∈ d.foundSuperpositions, s.id = k :=
    fun hk => exists_id hd (hB.length_eq ▸ hk)
  refine ⟨hB.start_eq, ?_, ?_, fun {k} hk => ?_, fun {k q} hq => ?_, fun {k l} hk hl hkl => ?_,
    fun {k r l} he => ?_, fun {k c p q} hk hc hp he => ?_, fun {k} hk => ?_, hB.nodup,
    fun k hk => ?_, hB.alphabet⟩
  · obtain ⟨s, hs, h0, _⟩ := hd.start
    rw [hB.length_eq, ← h0]
    exact hd.id_lt s hs
  · obtain ⟨s, hs, h0, hstates⟩ := hd.start
    ext q
    rw [← h0, mem_idSet hd hs, hstates]
    rfl
  · obtain ⟨s, hs, rfl⟩ := hid hk
    obtain ⟨q, hq⟩ := (hd.valid s hs).nonempty
    exact ⟨q, (mem_idSet hd hs).mpr hq⟩
  · obtain ⟨s, hs, _, hq⟩ := hq
    exact (hd.valid s hs).lt q hq
  · obtain ⟨s, hs, rfl⟩ := hid hk
    obtain ⟨u, hu, rfl⟩ := hid hl
    have hstates : s.states = u.states := OrdSet.ext_mem fun q => by
      rw [← mem_idSet hd hs, ← mem_idSet hd hu, hkl]
    have hkey := (hd.valid s hs).key_eq (hd.valid u hu) hstates
    rw [OrderedSet.eq_of_key_eq hs hu hkey]
  · obtain ⟨t, ht, rfl, rfl, rfl⟩ := hB.edge.mp he
    obtain ⟨hc, s, hs, u, hu, hsid, huid, hstep⟩ := hd.sound t ht
    rw [← hsid, ← huid]
    refine ⟨hB.length_eq ▸ hd.id_lt u hu, t.ch, hc, rfl, ?_⟩
    ext q
    rw [mem_idSet hd hu, hstep]
    simp only [StepSet, Set.mem_ofPred_eq, mem_idSet hd hs]
  · obtain ⟨s, hs, rfl⟩ := hid hk
    obtain ⟨t, ht, hsrc, rfl⟩ := hall s hs c hc ⟨q, p, (mem_idSet hd hs).mp hp, he⟩
    exact ⟨t.targetIndex, hB.edge.mpr ⟨t, ht, hsrc, rfl, rfl⟩⟩
  · obtain ⟨s, hs, rfl⟩ := hid hk
    rw [hB.final]
    constructor
    · intro h
      rcases h with ⟨u, hu, hus, hf⟩
      rw [hd.id_inj u hu s hs hus] at hf
      obtain ⟨q, hq, hqf⟩ := (hd.valid s hs).isFinal.mp hf
      exact ⟨q, (mem_idSet hd hs).mpr hq, hqf⟩
    · intro h
      rcases h with ⟨q, hq, hqf⟩
      exact ⟨s, hs, rfl, (hd.valid s hs).isFinal.mpr ⟨q, (mem_idSet hd hs).mp hq, hqf⟩⟩
  · obtain ⟨s, hs, rfl⟩ := hid hk
    rw [Reachable]
    rw [hB.start_eq]
    refine Relation.ReflTransGen.mono ?_ _ _ (hd.reach s hs)
    intro i j h
    rcases h with ⟨t, ht, hsrc, htgt⟩
    exact ⟨.char t.ch, hB.edge.mpr ⟨t, ht, hsrc, rfl, htgt⟩⟩

/-- Without epsilon transitions the construction ends, on every complete automaton. -/
theorem determine_ensures (order : IterationOrder) (hA : A.InRange)
    (heps : A.hasEpsilonTransitions = false) (hcomplete : A.isComplete = true) :
    (determine order A).Ensures fun B => ∃ sets, Determines A B sets := by
  rw [determine]
  refine Comp.ensures_bind.mpr (Comp.ensures_assert.mpr ⟨by simp [heps], ?_⟩)
  refine Comp.ensures_bind.mpr (Comp.ensures_assert.mpr ⟨hcomplete, ?_⟩)
  refine Comp.ensures_bind.mpr ((search_ensures order hA).mono ?_)
  intro d h
  rcases h with ⟨hd, hall⟩
  exact Comp.ensures_pure.mpr ⟨_, determines_build hd hall⟩

/-! ## What the subset automaton accepts -/

section Determines

variable {sets : ℕ → Set ℕ}

theorem Determines.inRange (h : Determines A B sets) : B.InRange where
  start_lt := by
    rw [h.start_eq]
    exact h.start_lt
  target_lt he := (h.edge he).1

theorem Determines.letterLabels (h : Determines A B sets) : B.LetterLabels := by
  intro k r l he
  obtain ⟨_, c, hc, hr, _⟩ := h.edge he
  exact ⟨c, hc, hr⟩

theorem Determines.sets_of_edge (h : Determines A B sets) (he : B.Edge k (.char c) l) :
    sets l = {q | ∃ p ∈ sets k, A.Edge p (.char c) q} := by
  obtain ⟨_, d, _, hr, hsets⟩ := h.edge he
  cases hr
  exact hsets

theorem Determines.edge_unique (h : Determines A B sets) {l' : ℕ} (he : B.Edge k (.char c) l)
    (he' : B.Edge k (.char c) l') : l = l' :=
  h.inj (h.edge he).1 (h.edge he').1 ((h.sets_of_edge he).trans (h.sets_of_edge he').symm)

/-- A state spells what some state of its set spells. -/
theorem Determines.mem_residual (h : Determines A B sets) (hA : A.LetterLabels)
    (hk : k < B.states.length) :
    w ∈ B.residual k ↔ ∃ q ∈ sets k, w ∈ A.residual q := by
  induction w generalizing k with
  | nil => simp only [h.letterLabels.nil_mem_residual, hA.nil_mem_residual, h.final hk]
  | cons c w ih =>
      simp only [h.letterLabels.cons_mem_residual, hA.cons_mem_residual]
      constructor
      · intro hex
        rcases hex with ⟨l, he, hw⟩
        obtain ⟨q, hq, hqw⟩ := (ih (h.edge he).1).mp hw
        rw [h.sets_of_edge he] at hq
        obtain ⟨p, hp, hpq⟩ := hq
        exact ⟨p, hp, q, hpq, hqw⟩
      · intro hex
        rcases hex with ⟨p, hp, q, hpq, hqw⟩
        obtain ⟨l, he⟩ := h.cover hk (hA.ne_zero hpq) hp hpq
        refine ⟨l, he, (ih (h.edge he).1).mpr ⟨q, ?_, hqw⟩⟩
        rw [h.sets_of_edge he]
        exact ⟨p, hp, hpq⟩

theorem Determines.pathLanguage_eq (h : Determines A B sets) (hA : A.LetterLabels) :
    B.pathLanguage = A.pathLanguage := by
  ext w
  rw [pathLanguage, h.start_eq, h.mem_residual hA h.start_lt, h.sets_start]
  simp [pathLanguage]

theorem length_le_one_of_nodup {α : Type} {l : List α} (hnodup : l.Nodup)
    (heq : ∀ x ∈ l, ∀ y ∈ l, x = y) : l.length ≤ 1 := by
  match l with
  | [] => simp
  | [_] => simp
  | x :: y :: l =>
      have hxy := heq x (by simp) y (by simp)
      subst hxy
      simp at hnodup

/-- At most one transition of a state carries a given letter. -/
theorem Determines.countTransitions_le (h : Determines A B sets) (c : CChar) (k : ℕ) :
    B.countTransitions c k ≤ 1 := by
  rw [countTransitions]
  rw [List.countP_eq_length_filter]
  have hnodup := (h.nodup k).filter fun t => t.regex.isCharOf c
  have heq : ∀ t ∈ (B.state k).transitions.filter fun t => t.regex.isCharOf c,
      ∀ u ∈ (B.state k).transitions.filter fun t => t.regex.isCharOf c, t = u := by
    intro hex ht hex' hu
    rcases hex with ⟨r, l⟩
    rcases hex' with ⟨r', l'⟩
    obtain ⟨ht, hr⟩ := List.mem_filter.mp ht
    obtain ⟨hu, hr'⟩ := List.mem_filter.mp hu
    obtain rfl : r = .char c := Regex.isCharOf_iff.mp hr
    obtain rfl : r' = .char c := Regex.isCharOf_iff.mp hr'
    rw [h.edge_unique ht hu]
  exact length_le_one_of_nodup hnodup heq

theorem countTransitions_pos (he : B.Edge k (.char c) l) : 0 < B.countTransitions c k :=
  List.countP_pos_iff.mpr ⟨_, he, by simp [Regex.isCharOf]⟩

/-- A letter that leaves every state of `A` leaves every state of `B`. -/
theorem Determines.countTransitions_eq_one (h : Determines A B sets) (hA : A.LetterLabels)
    (hcomplete : A.isComplete = true) (hc : c ∈ A.alphabet) (hk : k < B.states.length) :
    B.countTransitions c k = 1 := by
  obtain ⟨p, hp⟩ := h.nonempty hk
  obtain ⟨q, hpq⟩ := (isComplete_iff.mp hcomplete).2 p (h.lt hp) c hc
  obtain ⟨l, he⟩ := h.cover hk (hA.ne_zero hpq) hp hpq
  exact le_antisymm (h.countTransitions_le c k) (countTransitions_pos he)

end Determines

/-- The subset construction ends in every order of iteration, accepts the same words, and its
states are in range, reachable, deterministic and stand for different nonempty sets. -/
theorem determine_correct (order : IterationOrder) (A : FiniteAutomaton) (hA : A.InRange)
    (heps : A.hasEpsilonTransitions = false) (hcomplete : A.isComplete = true) :
    (determine order A).Ensures fun B =>
      (∀ w, (B.accepts w).Ensures fun b => (A.accepts w).Returns b) ∧
      B.startStateIndex = 0 ∧ B.InRange ∧ B.AllReachable ∧
      (∀ k < B.states.length, (∀ c, B.countTransitions c k ≤ 1) ∧
        ∀ c ∈ A.alphabet, B.countTransitions c k = 1) ∧
      ∃ sets : ℕ → Set ℕ, Set.InjOn sets {k | k < B.states.length} ∧
        ∀ k < B.states.length, (sets k).Nonempty ∧ (∀ q ∈ sets k, q < A.states.length) ∧
          ∀ w, w ∈ B.residual k ↔ ∃ q ∈ sets k, w ∈ A.residual q := by
  have hlabels : A.LetterLabels := letterLabels_iff.mpr ⟨(isComplete_iff.mp hcomplete).1, heps⟩
  have haccA := fun w => hlabels.accepts_ensures hA w
  apply (determine_ensures order hA heps hcomplete).mono
  intro B hB
  obtain ⟨sets, h⟩ := hB
  refine ⟨?_, h.start_eq, h.inRange, h.reachable, ?_, sets, ?_, ?_⟩
  · intro w
    have haccB := h.letterLabels.accepts_ensures h.inRange w
    rw [h.pathLanguage_eq hlabels] at haccB
    exact haccB.returns_same (haccA w)
  · intro k hk
    constructor
    · intro c
      exact h.countTransitions_le c k
    · intro c hc
      exact h.countTransitions_eq_one hlabels hcomplete hc hk
  · intro k hk l hl hkl
    exact h.inj hk hl hkl
  · intro k hk
    exact ⟨h.nonempty hk, fun q hq => h.lt hq, fun w => h.mem_residual hlabels hk⟩

/-- Two transitions of the first state for the one letter. -/
def twoChoices : FiniteAutomaton where
  alphabet := OrderedSet.insert 97 ∅
  states := [⟨false, [⟨.char 97, 0⟩, ⟨.char 97, 1⟩]⟩, ⟨true, [⟨.char 97, 0⟩]⟩]

theorem determine_correct_twoChoices :
    (determine .insertion twoChoices).Ensures fun B =>
      (∀ w, (B.accepts w).Ensures fun b => (twoChoices.accepts w).Returns b) ∧
      B.startStateIndex = 0 ∧ B.InRange ∧ B.AllReachable ∧
      (∀ k < B.states.length, (∀ c, B.countTransitions c k ≤ 1) ∧
        ∀ c ∈ twoChoices.alphabet, B.countTransitions c k = 1) ∧
      ∃ sets : ℕ → Set ℕ, Set.InjOn sets {k | k < B.states.length} ∧
        ∀ k < B.states.length, (sets k).Nonempty ∧ (∀ q ∈ sets k, q < twoChoices.states.length) ∧
          ∀ w, w ∈ B.residual k ↔ ∃ q ∈ sets k, w ∈ twoChoices.residual q :=
  determine_correct .insertion twoChoices (by decide) (by decide) (by decide)

end FormalLanguages.AutomatonDeterminator
