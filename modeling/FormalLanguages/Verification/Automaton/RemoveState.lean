import FormalLanguages.Verification.Automaton.Basic

/-! # Removal of states

`remove_state` keeps the subgraph induced on the other states and closes the gap in the
numbering. Several passes remove many states, from the highest index down. -/

namespace FormalLanguages.FiniteAutomaton

variable {A B C : FiniteAutomaton} {p q s x y : ℕ} {r : Regex}

/-! ## Renumbering -/

/-- The new index of a state after state `s` is gone. -/
def skip (s i : ℕ) : ℕ := if s < i then i - 1 else i

theorem skip_inj (hp : p ≠ s) (hq : q ≠ s) (h : skip s p = skip s q) : p = q := by
  unfold skip at h
  split at h <;> split at h <;> omega

theorem skip_mono (s : ℕ) (h : p ≤ q) : skip s p ≤ skip s q := by
  unfold skip
  split <;> split <;> omega

/-- The same label, and the new number of the target. -/
def retarget (f : ℕ → ℕ) (t : FiniteAutomatonTransition) : FiniteAutomatonTransition :=
  { t with targetIndex := f t.targetIndex }

theorem dropTarget_eq_map_filter (s : ℕ) (ts : List FiniteAutomatonTransition) :
    dropTarget s ts = (ts.filter fun t => t.targetIndex ≠ s).map (retarget (skip s)) := by
  induction ts with
  | nil => rfl
  | cons t ts ih =>
      rw [dropTarget, ih]
      split
      · rename_i h
        rw [List.filter_cons_of_neg (by simpa using h)]
      · rename_i h
        rw [List.filter_cons_of_pos (by simpa using h), List.map_cons, retarget, skip]
        split <;> rfl

theorem length_removeState (h : s < A.states.length) :
    (A.removeState s).states.length = A.states.length - 1 := by
  simp [removeState, List.length_eraseIdx, h]

/-- The state at a new index is the old state there, or the next one. -/
theorem state_removeState :
    (A.removeState s).state x =
      { A.state (if x < s then x else x + 1) with
        transitions := dropTarget s (A.state (if x < s then x else x + 1)).transitions } := by
  unfold removeState state
  simp only [List.getD_eq_getElem?_getD, List.getElem?_eraseIdx, List.getElem?_map]
  split
  · cases A.states[x]? <;> rfl
  · cases A.states[x + 1]? <;> rfl

/-- The new number leads back to the state it stands for. -/
theorem unskip (hp : p ≠ s) : (if skip s p < s then skip s p else skip s p + 1) = p := by
  rw [skip]
  split <;> split <;> omega

/-! ## Induced subgraphs -/

/-- `B` consists of the states of `A` that satisfy `keep`, in their order and renumbered by
`f`. Each has its flag and, in their order, its transitions to states that are kept. -/
structure Induces (A B : FiniteAutomaton) (keep : ℕ → Prop) [DecidablePred keep] (f : ℕ → ℕ) :
    Prop where
  mono : Monotone f
  inj : ∀ {p q}, keep p → keep q → f p = f q → p = q
  lt : ∀ {p}, keep p → p < A.states.length → f p < B.states.length
  surj : ∀ {x}, x < B.states.length → ∃ p, keep p ∧ p < A.states.length ∧ f p = x
  isFinal : ∀ {p}, keep p → p < A.states.length →
    (B.state (f p)).isFinal = (A.state p).isFinal
  transitions : ∀ {p}, keep p → p < A.states.length → (B.state (f p)).transitions =
    ((A.state p).transitions.filter fun t => keep t.targetIndex).map (retarget f)
  start : keep A.startStateIndex → B.startStateIndex = f A.startStateIndex
  alphabet : B.alphabet = A.alphabet

theorem induces_removeState (h : s < A.states.length) :
    Induces A (A.removeState s) (· ≠ s) (skip s) where
  mono _ _ := skip_mono s
  inj := skip_inj
  lt {p} hp hlt := by
    rw [length_removeState h]
    rw [skip]
    split <;> omega
  surj {x} hx := by
    rw [length_removeState h] at hx
    refine ⟨if x < s then x else x + 1, ?_, ?_, ?_⟩
    · split <;> omega
    · split <;> omega
    · rw [skip]
      split <;> split <;> omega
  isFinal {p} hp _ := by
    rw [state_removeState, unskip hp]
  transitions {p} hp _ := by
    rw [state_removeState, unskip hp, dropTarget_eq_map_filter]
  start hs := by
    rw [removeState, skip]
    rw [if_neg hs]
  alphabet := rfl

theorem Induces.refl (A : FiniteAutomaton) : Induces A A (fun _ => True) id where
  mono := monotone_id
  inj _ _ h := h
  lt _ h := h
  surj {x} h := ⟨x, trivial, h, rfl⟩
  isFinal _ _ := rfl
  transitions {p} _ _ := by
    rw [List.filter_eq_self.mpr (by simp)]
    exact (List.map_id _).symm
  start _ := rfl
  alphabet := rfl

section Induces

variable {keep keep' : ℕ → Prop} [DecidablePred keep] [DecidablePred keep'] {f g : ℕ → ℕ}

theorem Induces.trans (h : Induces A B keep f) (h' : Induces B C keep' g) :
    Induces A C (fun p => keep p ∧ keep' (f p)) (g ∘ f) where
  mono := h'.mono.comp h.mono
  inj hp hq hpq := h.inj hp.1 hq.1 (h'.inj hp.2 hq.2 hpq)
  lt hp hlt := h'.lt hp.2 (h.lt hp.1 hlt)
  surj hx := by
    obtain ⟨y, hy, hylt, rfl⟩ := h'.surj hx
    obtain ⟨p, hp, hplt, rfl⟩ := h.surj hylt
    exact ⟨p, ⟨hp, hy⟩, hplt, rfl⟩
  isFinal hp hlt := (h'.isFinal hp.2 (h.lt hp.1 hlt)).trans (h.isFinal hp.1 hlt)
  transitions {p} hp hlt := by
    rw [Function.comp_apply, h'.transitions hp.2 (h.lt hp.1 hlt), h.transitions hp.1 hlt,
      List.filter_map, List.filter_filter, List.map_map]
    congr 1
    apply List.filter_congr
    intro t _
    exact (Bool.and_comm _ _).trans (Bool.decide_and _ _).symm
  start hs := by
    rw [h'.start (h.start hs.1 ▸ hs.2), h.start hs.1]
    rfl
  alphabet := h'.alphabet.trans h.alphabet

theorem Induces.congr (h : Induces A B keep f) (hk : ∀ p, keep p ↔ keep' p) :
    Induces A B keep' f where
  mono := h.mono
  inj hp hq := h.inj ((hk _).mpr hp) ((hk _).mpr hq)
  lt hp := h.lt ((hk _).mpr hp)
  surj hx := by
    obtain ⟨p, hp, hlt, hpx⟩ := h.surj hx
    exact ⟨p, (hk p).mp hp, hlt, hpx⟩
  isFinal hp := h.isFinal ((hk _).mpr hp)
  transitions hp hlt := by
    rw [h.transitions ((hk _).mpr hp) hlt]
    congr 1
    exact List.filter_congr fun t _ => decide_eq_decide.mpr (hk t.targetIndex)
  start hs := h.start ((hk _).mpr hs)
  alphabet := h.alphabet

/-- The renumbering keeps the order of the kept states. -/
theorem Induces.strictMono (h : Induces A B keep f) (hp : keep p) (hq : keep q) (hpq : p < q) :
    f p < f q :=
  (h.mono hpq.le).lt_of_ne fun heq => hpq.ne (h.inj hp hq heq)

end Induces

/-- Removing a strictly descending list of states leaves the other states in their order. -/
theorem induces_foldl_removeState {l : List ℕ} (hl : l.Pairwise (· > ·))
    (hlt : ∀ s ∈ l, s < A.states.length) :
    ∃ f, Induces A (l.foldl (fun B s => B.removeState s) A) (· ∉ l) f := by
  induction l generalizing A with
  | nil => exact ⟨id, (Induces.refl A).congr (by simp)⟩
  | cons s l ih =>
      obtain ⟨hs, hl⟩ := List.pairwise_cons.mp hl
      have hslt : s < A.states.length := hlt s (by simp)
      have hone := induces_removeState hslt
      obtain ⟨f, hf⟩ := ih (A := A.removeState s) hl (by
        intro t ht
        rw [length_removeState hslt]
        have := hs t ht
        omega)
      refine ⟨f ∘ skip s, (hone.trans hf).congr fun p => ?_⟩
      -- the indices still to be removed are below `s`, so they have not moved
      have hskip : p ≠ s → (skip s p ∈ l ↔ p ∈ l) := by
        intro hp
        rw [skip]
        split
        · rename_i hsp
          constructor
          · intro hm
            have := hs _ hm
            omega
          · intro hm
            have := hs _ hm
            omega
        · rfl
      rw [List.mem_cons, not_or]
      constructor
      · intro hex
        rcases hex with ⟨hp, hm⟩
        exact ⟨hp, fun h => hm ((hskip hp).mpr h)⟩
      · intro hex
        rcases hex with ⟨hp, hm⟩
        exact ⟨hp, fun h => hm ((hskip hp).mp h)⟩

/-! ## The induced edges -/

/-- `B` has the edges and final states of `A` on the states that satisfy `keep`, renumbered
by `f`. -/
structure Subgraph (A B : FiniteAutomaton) (keep : ℕ → Prop) (f : ℕ → ℕ) : Prop where
  inj : ∀ {p q}, keep p → keep q → f p = f q → p = q
  lt : ∀ {p}, keep p → p < A.states.length → f p < B.states.length
  surj : ∀ {x}, x < B.states.length → ∃ p, keep p ∧ p < A.states.length ∧ f p = x
  edge : ∀ {x r y}, B.Edge x r y ↔ ∃ p q, keep p ∧ keep q ∧ f p = x ∧ f q = y ∧ A.Edge p r q
  final : ∀ {x}, B.Final x ↔ ∃ p, keep p ∧ f p = x ∧ A.Final p
  start : keep A.startStateIndex → B.startStateIndex = f A.startStateIndex
  alphabet : B.alphabet = A.alphabet

theorem Induces.subgraph {keep : ℕ → Prop} [DecidablePred keep] {f : ℕ → ℕ}
    (h : Induces A B keep f) : Subgraph A B keep f where
  inj := h.inj
  lt := h.lt
  surj := h.surj
  edge {x r y} := by
    constructor
    · intro he
      obtain ⟨p, hp, hlt, rfl⟩ := h.surj he.source_lt
      rw [Edge] at he
      rw [h.transitions hp hlt] at he
      obtain ⟨t, ht, heq⟩ := List.mem_map.mp he
      obtain ⟨ht, hkeep⟩ := List.mem_filter.mp ht
      cases heq
      exact ⟨p, t.targetIndex, hp, of_decide_eq_true hkeep, rfl, rfl, ht⟩
    · intro hex
      rcases hex with ⟨p, q, hp, hq, rfl, rfl, he⟩
      rw [Edge]
      rw [h.transitions hp he.source_lt]
      exact List.mem_map.mpr ⟨⟨r, q⟩, List.mem_filter.mpr ⟨he, decide_eq_true hq⟩, rfl⟩
  final {x} := by
    constructor
    · intro hf
      obtain ⟨p, hp, hlt, rfl⟩ := h.surj hf.lt
      exact ⟨p, hp, rfl, (h.isFinal hp hlt).symm.trans hf⟩
    · intro hex
      rcases hex with ⟨p, hp, rfl, hf⟩
      exact (h.isFinal hp hf.lt).trans hf
  start := h.start
  alphabet := h.alphabet

theorem subgraph_removeState (h : s < A.states.length) :
    Subgraph A (A.removeState s) (· ≠ s) (skip s) :=
  (induces_removeState h).subgraph

/-- A list of different states has at most as many as there are. -/
theorem length_le_of_nodup {l : List ℕ} {n : ℕ} (h : l.Nodup) (hlt : ∀ s ∈ l, s < n) :
    l.length ≤ n := by
  have hsub : l ⊆ List.range n := fun s hs => List.mem_range.mpr (hlt s hs)
  simpa using (List.subperm_of_subset h hsub).length_le

theorem length_foldl_removeState {l : List ℕ} (hl : l.Pairwise (· > ·))
    (hlt : ∀ s ∈ l, s < A.states.length) :
    (l.foldl (fun B s => B.removeState s) A).states.length + l.length = A.states.length := by
  induction l generalizing A with
  | nil => simp
  | cons s l ih =>
      obtain ⟨hs, hl⟩ := List.pairwise_cons.mp hl
      have hslt : s < A.states.length := hlt s (by simp)
      have hlen := length_removeState hslt
      have := ih (A := A.removeState s) hl (by
        intro t ht
        have := hs t ht
        omega)
      simp only [List.foldl_cons, List.length_cons]
      omega

/-- The start index stays in range as long as some state is left. -/
theorem start_removeState_lt (hs : s < A.states.length) (hA : A.startStateIndex < A.states.length)
    (h : 1 < A.states.length) :
    (A.removeState s).startStateIndex < (A.removeState s).states.length := by
  rw [length_removeState hs]
  rw [removeState]
  simp only
  split
  · omega
  · split <;> omega

/-- A removed start state is replaced by state `0`, which then stays the start state. -/
theorem start_foldl_removeState_eq_zero {l : List ℕ} (hl : l.Pairwise (· > ·))
    (h : A.startStateIndex = 0 ∨ A.startStateIndex ∈ l) :
    (l.foldl (fun B s => B.removeState s) A).startStateIndex = 0 := by
  induction l generalizing A with
  | nil => simpa using h
  | cons s l ih =>
      obtain ⟨hs, hl⟩ := List.pairwise_cons.mp hl
      refine ih hl ?_
      simp only [removeState]
      rcases h with h | h
      · left
        split
        · rfl
        · rw [if_neg (by omega), h]
      · rcases List.mem_cons.mp h with heq | hm
        · exact .inl (if_pos heq)
        · have hlt := hs _ hm
          right
          rwa [if_neg hlt.ne, if_neg (not_lt.mpr hlt.le)]

theorem start_foldl_removeState_lt {l : List ℕ} (hl : l.Pairwise (· > ·))
    (hlt : ∀ s ∈ l, s < A.states.length) (hA : A.startStateIndex < A.states.length)
    (h : l.length < A.states.length) :
    (l.foldl (fun B s => B.removeState s) A).startStateIndex <
      (l.foldl (fun B s => B.removeState s) A).states.length := by
  induction l generalizing A with
  | nil => exact hA
  | cons s l ih =>
      obtain ⟨hs, hl⟩ := List.pairwise_cons.mp hl
      have hslt : s < A.states.length := hlt s (by simp)
      have hlen := length_removeState hslt
      rw [List.length_cons] at h
      refine ih (A := A.removeState s) hl ?_ (start_removeState_lt hslt hA (by omega)) (by omega)
      intro t ht
      have := hs t ht
      omega

/-! ## What a subgraph inherits -/

section Subgraph

variable {keep : ℕ → Prop} {f : ℕ → ℕ}

theorem Subgraph.edge_map (h : Subgraph A B keep f) (hp : keep p) (hq : keep q) :
    B.Edge (f p) r (f q) ↔ A.Edge p r q := by
  rw [h.edge]
  constructor
  · intro hex
    rcases hex with ⟨p', q', hp', hq', hpp, hqq, he⟩
    rwa [← h.inj hp' hp hpp, ← h.inj hq' hq hqq]
  · intro he
    exact ⟨p, q, hp, hq, rfl, rfl, he⟩

theorem Subgraph.final_map (h : Subgraph A B keep f) (hp : keep p) :
    B.Final (f p) ↔ A.Final p := by
  rw [h.final]
  constructor
  · intro hex
    rcases hex with ⟨p', hp', hpp, hf⟩
    rwa [← h.inj hp' hp hpp]
  · intro hf
    exact ⟨p, hp, rfl, hf⟩

theorem Subgraph.inRange (h : Subgraph A B keep f) (hA : A.InRange)
    (hs : keep A.startStateIndex) : B.InRange where
  start_lt := by
    rw [h.start hs]
    exact h.lt hs hA.start_lt
  target_lt he := by
    obtain ⟨p, q, hp, hq, rfl, rfl, heA⟩ := h.edge.mp he
    exact h.lt hq (hA.target_lt heA)

theorem Subgraph.lettersIn (h : Subgraph A B keep f) (hA : A.LettersIn) : B.LettersIn := by
  intro x r y he c hc
  obtain ⟨p, q, hp, hq, rfl, rfl, heA⟩ := h.edge.mp he
  rw [h.alphabet]
  exact hA p r q heA c hc

theorem Subgraph.isSimple (h : Subgraph A B keep f) (hA : A.isSimple = true) :
    B.isSimple = true := by
  rw [isSimple_iff] at hA ⊢
  intro x r y he
  obtain ⟨p, q, hp, hq, rfl, rfl, heA⟩ := h.edge.mp he
  exact hA p r q heA

/-- A property of the kept states, carried over to the new numbers, bounds the residual
languages when it is a solution there. -/
theorem Subgraph.residual_le_of {X : ℕ → Language CChar} (h : Subgraph A B keep f)
    (hedge : ∀ p r q, keep p → keep q → A.Edge p r q → r.language * X q ≤ X p)
    (hfinal : ∀ p, keep p → A.Final p → 1 ≤ X p) (hp : keep p) :
    B.residual (f p) ≤ X p := by
  have hsol : B.residual (f p) ≤ ({w | ∀ p', keep p' → f p' = f p → w ∈ X p'} :
      Language CChar) := by
    refine residual_le (X := fun x => {w | ∀ p', keep p' → f p' = x → w ∈ X p'}) ?_ ?_ (f p)
    · intro x r y he
      obtain ⟨p, q, hp, hq, rfl, rfl, heA⟩ := h.edge.mp he
      intro w hex p' hp' hpp
      rcases hex with ⟨u, hu, v, hv, rfl⟩
      rw [h.inj hp' hp hpp]
      exact hedge p r q hp hq heA ⟨u, hu, v, hv q hq rfl, rfl⟩
    · intro x hx
      obtain ⟨p, hp, rfl, hf⟩ := h.final.mp hx
      intro w heq p' hp' hpp
      subst heq
      rw [h.inj hp' hp hpp]
      exact hfinal p hp hf rfl
  exact fun w hw => hsol hw p hp rfl

theorem Subgraph.residual_le (h : Subgraph A B keep f) (hp : keep p) :
    B.residual (f p) ≤ A.residual p :=
  h.residual_le_of (fun _ _ _ _ _ he => edge_mul_residual_le he)
    (fun _ _ hf => one_le_residual hf) hp

/-- Nothing is lost when the kept states are closed under edges. -/
theorem Subgraph.residual_eq (h : Subgraph A B keep f)
    (hclosed : ∀ p r q, keep p → A.Edge p r q → keep q) (hp : keep p) :
    B.residual (f p) = A.residual p := by
  classical
  refine le_antisymm (h.residual_le hp) ?_
  have hle : A.residual p ≤ if keep p then B.residual (f p) else ⊤ := by
    refine FiniteAutomaton.residual_le
      (X := fun p => if keep p then B.residual (f p) else ⊤) ?_ ?_ p
    · intro p r q he
      by_cases hp : keep p
      · have hq := hclosed p r q hp he
        rw [if_pos hp, if_pos hq]
        exact edge_mul_residual_le ((h.edge_map hp hq).mpr he)
      · rw [if_neg hp]
        exact le_top
    · intro p hf
      by_cases hp : keep p
      · rw [if_pos hp]
        exact one_le_residual ((h.final_map hp).mpr hf)
      · rw [if_neg hp]
        exact le_top
  rwa [if_pos hp] at hle

end Subgraph

end FormalLanguages.FiniteAutomaton
