import FormalLanguages.Library.Ranking
import FormalLanguages.Model.Minifier
import FormalLanguages.Verification.Automaton.Deterministic

/-! # One round of the refinement

A round groups the states by their keys and numbers the groups in the order of the keys. -/

namespace FormalLanguages.AutomatonMinifier

open FiniteAutomaton

variable {A : FiniteAutomaton} {p q : ℕ} {v : List ℕ} {done : List ℕ} {E : EquivClasses}
  {k : AutomatonMinifierEquivalenceClass} {S : OrdSet ℕ}

/-! ## The key of a state -/

/-- For every letter the number of the class of the successor. -/
def signature (A : FiniteAutomaton) (v : List ℕ) (p : ℕ) : List AutomatonMinifierTransition :=
  A.alphabet.toList.map fun c => ⟨c, v.getD (A.successor p c) 0⟩

/-- The own class first, then the classes of the successors. -/
def classKey (A : FiniteAutomaton) (v : List ℕ) (p : ℕ) : AutomatonMinifierEquivalenceClass :=
  ⟨v.getD p 0, signature A v p⟩

theorem keyTransitions_ensures (hA : A.IsDfa) (hp : p < A.states.length) {letters : List CChar}
    (h : ∀ c ∈ letters, c ∈ A.alphabet) :
    (keyTransitions A v p letters).Ensures fun ts =>
      ts = letters.map fun c => ⟨c, v.getD (A.successor p c) 0⟩ := by
  induction letters with
  | nil => exact Comp.ensures_pure.mpr rfl
  | cons c letters ih =>
      obtain ⟨q, hq⟩ := hA.cover hp (h c (by simp))
      rw [keyTransitions]
      cases hfind : A.findTransition c p with
      | none => exact absurd hq (findTransition_eq_none.mp hfind q)
      | some j =>
          obtain ⟨q', hj⟩ := findTransition_eq_some hfind
          have hsucc : A.successor p c = q' := hA.successor_eq (edge_of_getElem? hj)
          simp only [hj]
          apply Comp.ensures_bind.mpr
          apply (ih fun d hd => h d (List.mem_cons_of_mem _ hd)).mono
          intro ts hts
          apply Comp.ensures_pure.mpr
          rw [List.map_cons, hsucc, hts]

/-! ## Grouping -/

/-- The classes group the states met so far by their keys. -/
structure Groups (A : FiniteAutomaton) (v done : List ℕ) (E : EquivClasses) : Prop where
  sound : ∀ k S, (k, S) ∈ E →
    (∃ p ∈ done, classKey A v p = k) ∧ ∀ p, p ∈ S ↔ p ∈ done ∧ classKey A v p = k
  cover : ∀ p ∈ done, ∃ S, (classKey A v p, S) ∈ E

theorem mem_alter_insert {k' : AutomatonMinifierEquivalenceClass} :
    (k', S) ∈ E.alter k ∅ (fun U => U.insert p) ↔
      (k' ≠ k ∧ (k', S) ∈ E) ∨
      (k' = k ∧ ((∃ U, (k, U) ∈ E ∧ S = U.insert p) ∨
        ((∀ U, (k, U) ∉ E) ∧ S = OrderedSet.insert p ∅))) :=
  OrderedSet.mem_alterList E.sorted

theorem Groups.add (h : Groups A v done E) (p : ℕ) :
    Groups A v (done ++ [p]) (E.alter (classKey A v p) ∅ fun U => U.insert p) where
  sound k S hkS := by
    rcases mem_alter_insert.mp hkS with ⟨hk, hmem⟩ | ⟨rfl, ⟨U, hU, rfl⟩ | ⟨hnone, rfl⟩⟩
    · obtain ⟨⟨q, hq, hqk⟩, hS⟩ := h.sound k S hmem
      constructor
      · exact ⟨q, by simp [hq], hqk⟩
      · intro x
        rw [hS, List.mem_append, List.mem_singleton]
        constructor
        · intro hx
          exact ⟨.inl hx.1, hx.2⟩
        · intro hx
          rcases hx with ⟨hx | rfl, hxk⟩
          · exact ⟨hx, hxk⟩
          · exact absurd hxk.symm hk
    · constructor
      · exact ⟨p, by simp, rfl⟩
      · intro x
        rw [OrdSet.mem_insert, (h.sound _ U hU).2, List.mem_append, List.mem_singleton]
        constructor
        · intro hx
          rcases hx with rfl | hx
          · exact ⟨.inr rfl, rfl⟩
          · exact ⟨.inl hx.1, hx.2⟩
        · intro hx
          rcases hx with ⟨hx | rfl, hxk⟩
          · exact .inr ⟨hx, hxk⟩
          · exact .inl rfl
    · constructor
      · exact ⟨p, by simp, rfl⟩
      · intro x
        rw [OrdSet.mem_insert, List.mem_append, List.mem_singleton]
        constructor
        · intro hx
          rcases hx with rfl | hx
          · exact ⟨.inr rfl, rfl⟩
          · exact absurd hx OrderedSet.notMem_empty
        · intro hx
          rcases hx with ⟨hx | rfl, hxk⟩
          · obtain ⟨U, hU⟩ := h.cover x hx
            rw [hxk] at hU
            exact absurd hU (hnone U)
          · exact .inl rfl
  cover x hx := by
    by_cases hkey : classKey A v x = classKey A v p
    · rw [hkey]
      by_cases hex : ∃ U, (classKey A v p, U) ∈ E
      · obtain ⟨U, hU⟩ := hex
        exact ⟨_, mem_alter_insert.mpr (.inr ⟨rfl, .inl ⟨U, hU, rfl⟩⟩)⟩
      · push Not at hex
        exact ⟨_, mem_alter_insert.mpr (.inr ⟨rfl, .inr ⟨hex, rfl⟩⟩)⟩
    · have hxdone : x ∈ done := by
        rcases List.mem_append.mp hx with hx | hx
        · exact hx
        · exact absurd (by rw [List.mem_singleton.mp hx]) hkey
      obtain ⟨S, hS⟩ := h.cover x hxdone
      exact ⟨S, mem_alter_insert.mpr (.inl ⟨hkey, hS⟩)⟩

/-- One pass over the states, without a failed assertion. -/
theorem classifyAll_ensures (hA : A.IsDfa) (v : List ℕ) :
    ((List.range A.states.length).foldlM (classify A v) ∅).Ensures
      (Groups A v (List.range A.states.length)) := by
  apply Comp.foldlM_ensures (Groups A v)
  · intro done p rest E hl hE
    have hp : p < A.states.length := by
      have : p ∈ List.range A.states.length := by
        rw [hl]
        simp
      exact List.mem_range.mp this
    apply Comp.ensures_bind.mpr
    apply (keyTransitions_ensures (v := v) hA hp fun c hc => hc).mono
    intro ts hts
    apply Comp.ensures_pure.mpr
    rw [hts]
    exact hE.add p
  · exact ⟨by simp, by simp⟩

/-! ## Numbering -/

theorem getD_foldl_set (l v : List ℕ) (m : ℕ) (hp : p < v.length) :
    (l.foldl (fun v state => v.set state m) v).length = v.length ∧
    (l.foldl (fun v state => v.set state m) v).getD p 0 = if p ∈ l then m else v.getD p 0 := by
  induction l generalizing v with
  | nil => simp
  | cons x l ih =>
      obtain ⟨hlen, hget⟩ := ih (v := v.set x m) (by rwa [List.length_set])
      rw [List.foldl_cons, hlen, List.length_set, hget]
      refine ⟨rfl, ?_⟩
      by_cases hpl : p ∈ l
      · simp [hpl]
      · rw [if_neg hpl, List.getD_eq_getElem?_getD, List.getElem?_set]
        by_cases hpx : x = p
        · subst hpx
          simp [hp]
        · simp [hpx, Ne.symm hpx, hpl, List.getD_eq_getElem?_getD]

/-- The number given to a state is the position of the one entry it is in. -/
theorem getD_renumber_foldl (l : List (AutomatonMinifierEquivalenceClass × OrdSet ℕ))
    (v : List ℕ) (m : ℕ) (hp : p < v.length) :
    let r := l.foldl (fun (s : List ℕ × ℕ) entry =>
      (entry.2.toList.foldl (fun v state => v.set state s.2) s.1, s.2 + 1)) (v, m)
    r.1.length = v.length ∧
    ((∀ e ∈ l, p ∉ e.2) → r.1.getD p 0 = v.getD p 0) ∧
    ∀ l₁ e l₂, l = l₁ ++ e :: l₂ → p ∈ e.2 → (∀ e' ∈ l₂, p ∉ e'.2) →
      r.1.getD p 0 = m + l₁.length := by
  induction l generalizing v m with
  | nil => simp
  | cons e l ih =>
      obtain ⟨hlen, hget⟩ := getD_foldl_set e.2.toList v m hp
      obtain ⟨hlen', hother, hin⟩ :=
        ih (v := e.2.toList.foldl (fun v state => v.set state m) v) (m := m + 1) (by rwa [hlen])
      simp only [List.foldl_cons]
      refine ⟨hlen'.trans hlen, ?_, ?_⟩
      · intro h
        rw [hother fun e' he' => h e' (List.mem_cons_of_mem _ he'), hget]
        exact if_neg (h e (by simp))
      · intro l₁ e' l₂ hl hpe hl₂
        cases l₁ with
        | nil =>
            obtain ⟨rfl, rfl⟩ := List.cons.inj hl
            rw [hother hl₂, hget]
            exact if_pos hpe
        | cons e'' l₁ =>
            obtain ⟨rfl, hl'⟩ := List.cons.inj hl
            rw [hin l₁ e' l₂ hl' hpe hl₂, List.length_cons]
            omega

/-- The states of a group get the rank of its key. -/
theorem getD_renumber {n : ℕ} (hE : Groups A v (List.range n) E) {u : List ℕ}
    (hu : u.length = n) (hp : p < n) :
    (renumber E u).length = n ∧ (renumber E u).getD p 0 = (OrdMap.keys E).rank (classKey A v p) := by
  obtain ⟨S, hS⟩ := hE.cover p (List.mem_range.mpr hp)
  obtain ⟨l₁, l₂, hl⟩ := List.append_of_mem (OrderedSet.mem_def.mp hS)
  have hsorted := E.sorted
  rw [hl] at hsorted
  have hpS : p ∈ S := ((hE.sound _ S hS).2 p).mpr ⟨List.mem_range.mpr hp, rfl⟩
  have hl₂ : ∀ e ∈ l₂, p ∉ e.2 := by
    intro e he hpe
    have hlt := List.rel_of_pairwise_cons (List.pairwise_append.mp hsorted).2.1 he
    have hmem : e ∈ E := by
      rw [OrderedSet.mem_def, hl]
      simp [he]
    rw [((hE.sound e.1 e.2 hmem).2 p).mp hpe |>.2] at hlt
    exact lt_irrefl _ hlt
  obtain ⟨hlen, _, hin⟩ := getD_renumber_foldl E.toList u 0 (by rwa [hu])
  refine ⟨hlen.trans hu, ?_⟩
  rw [renumber]
  rw [hin l₁ _ l₂ hl hpS hl₂, Nat.zero_add]
  symm
  apply OrdSet.rank_eq_of_getElem?
  change (E.toList.map Prod.fst)[l₁.length]? = some (classKey A v p)
  rw [hl]
  simp

end FormalLanguages.AutomatonMinifier
