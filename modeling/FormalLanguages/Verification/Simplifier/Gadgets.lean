import FormalLanguages.Model.Simplifier
import FormalLanguages.Verification.Automaton.Basic
import Mathlib.Algebra.GroupWithZero.Nat

/-! # The gadgets of the simplifier

A gadget adds edges between old and fresh states that together carry a language `L` from
`s` to `t`. Replacing an edge with that language by the gadget changes no residual language
of an old state. -/

namespace FormalLanguages

/-! ## The size of a label -/

namespace Regex

mutual

/-- The number of nodes that are not single characters. -/
def weight : Regex → ℕ
  | .char _ => 0
  | .concat operands => 1 + weightAll operands
  | .sum operands => 1 + weightAll operands
  | .star operand => 1 + operand.weight

def weightAll : List Regex → ℕ
  | [] => 0
  | r :: rs => r.weight + weightAll rs

end

theorem weight_le_weightAll {r : Regex} {rs : List Regex} (h : r ∈ rs) :
    r.weight ≤ weightAll rs := by
  induction rs with
  | nil => cases h
  | cons s rs ih =>
      rw [weightAll]
      rcases List.mem_cons.mp h with rfl | h
      · omega
      · have := ih h
        omega

theorem weightAll_append (rs ss : List Regex) :
    weightAll (rs ++ ss) = weightAll rs + weightAll ss := by
  induction rs with
  | nil => simp [weightAll]
  | cons r rs ih => rw [List.cons_append, weightAll, weightAll, ih, Nat.add_assoc]

end Regex

namespace FiniteAutomaton

variable {A B C : FiniteAutomaton} {i j p q s t : ℕ} {r : Regex}

/-- The weight of all labels together. -/
def totalWeight (A : FiniteAutomaton) : ℕ :=
  (A.states.map fun s => (s.transitions.map fun t => t.regex.weight).sum).sum

theorem sum_map_modify {α : Type*} (l : List α) (g : α → ℕ) (f : α → α) (h : i < l.length) :
    ((l.modify i f).map g).sum + g l[i] = (l.map g).sum + g (f l[i]) := by
  induction l generalizing i with
  | nil => simp at h
  | cons a l ih =>
      cases i with
      | zero =>
          simp only [List.modify_zero_cons, List.map_cons, List.sum_cons, List.getElem_cons_zero]
          omega
      | succ i =>
          have := ih (i := i) (by simpa using h)
          simp only [List.modify_succ_cons, List.map_cons, List.sum_cons,
            List.getElem_cons_succ]
          omega

@[simp] theorem totalWeight_addState {b : Bool} : (A.addState b).1.totalWeight = A.totalWeight := by
  simp [totalWeight, addState]

theorem totalWeight_addTransition (h : s < A.states.length) :
    (A.addTransition s t r).totalWeight = A.totalWeight + r.weight := by
  have := sum_map_modify A.states (fun s => (s.transitions.map fun t => t.regex.weight).sum)
    (fun s => { s with transitions := s.transitions ++ [⟨r, t⟩] }) h
  simp only [List.map_append, List.sum_append, List.map_cons, List.map_nil, List.sum_cons,
    List.sum_nil] at this
  simp only [totalWeight, addTransition]
  omega

theorem sum_map_eraseIdx {α : Type*} (l : List α) (g : α → ℕ) {a : α} (h : l[j]? = some a) :
    ((l.eraseIdx j).map g).sum + g a = (l.map g).sum := by
  induction l generalizing j with
  | nil => simp at h
  | cons b l ih =>
      cases j with
      | zero =>
          obtain rfl : b = a := by simpa using h
          simp [Nat.add_comm]
      | succ j =>
          have := ih (j := j) (by simpa using h)
          simp only [List.eraseIdx_cons_succ, List.map_cons, List.sum_cons]
          omega

theorem totalWeight_removeTransition {u : FiniteAutomatonTransition}
    (h : (A.state i).transitions[j]? = some u) :
    (A.removeTransition i j).totalWeight + u.regex.weight = A.totalWeight := by
  have hi : i < A.states.length := (edge_of_getElem? h).source_lt
  have hsum := sum_map_modify A.states
    (fun s => (s.transitions.map fun t => t.regex.weight).sum)
    (fun s => { s with transitions := s.transitions.eraseIdx j }) hi
  rw [state_of_lt hi] at h
  have herase := sum_map_eraseIdx _ (fun t => t.regex.weight) h
  simp only [totalWeight, removeTransition, modifyState]
  simp only at hsum
  omega

end FiniteAutomaton

/-! ## Gadgets -/

namespace AutomatonSimplifier

open FiniteAutomaton

variable {A B C : FiniteAutomaton} {i j p q s t : ℕ} {r : Regex} {operands : List Regex}
  {L : Language CChar} {New : ℕ → Regex → ℕ → Prop}

/-- `B` is `A` with fresh states and the edges `New`, labelled with the operands or with the
empty word, which carry `L` from `s` to `t`. -/
structure Gadget (A B : FiniteAutomaton) (New : ℕ → Regex → ℕ → Prop) (operands : List Regex)
    (s t : ℕ) (L : Language CChar) : Prop where
  length_le : A.states.length ≤ B.states.length
  start_eq : B.startStateIndex = A.startStateIndex
  alphabet_eq : (∀ r ∈ operands, ∀ c ∈ r.letters, c ∈ A.alphabet) → B.alphabet = A.alphabet
  final : ∀ {p}, B.Final p ↔ A.Final p
  edge : ∀ {p r q}, B.Edge p r q ↔ A.Edge p r q ∨ New p r q
  getElem? : ∀ {i j : ℕ} {u}, (A.state i).transitions[j]? = some u →
    (B.state i).transitions[j]? = some u
  label : ∀ {p r q}, New p r q → r = Regex.empty ∨ r ∈ operands
  operand : ∀ {r}, r ∈ operands → ∃ p q, New p r q
  target : ∀ {p r q}, New p r q → q < B.states.length ∧ (q = t ∨ A.states.length ≤ q)
  weight : B.totalWeight = A.totalWeight + Regex.weightAll operands
  forward : ∀ X : ℕ → Language CChar,
    (∀ p r q, New p r q → r.language * X q ≤ X p) → L * X t ≤ X s
  backward : ∀ X : ℕ → Language CChar, L * X t ≤ X s →
    ∃ Y : ℕ → Language CChar, (∀ p < A.states.length, Y p = X p) ∧
      ∀ p r q, New p r q → r.language * Y q ≤ Y p

theorem getElem?_addTransition {u : FiniteAutomatonTransition}
    (h : (A.state i).transitions[j]? = some u) :
    ((A.addTransition s t r).state i).transitions[j]? = some u := by
  by_cases hs : s < A.states.length
  · rw [state_addTransition hs]
    split
    · rw [List.getElem?_append_left (List.getElem?_eq_some_iff.mp h).1]
      exact h
    · exact h
  · rw [addTransition, state]
    rw [List.modify_eq_self (not_lt.mp hs)]
    exact h

theorem getElem?_addState {u : FiniteAutomatonTransition} {b : Bool}
    (h : (A.state i).transitions[j]? = some u) :
    ((A.addState b).1.state i).transitions[j]? = some u := by
  rw [state_addState, if_neg (edge_of_getElem? h).source_lt.ne]
  exact h

/-! ## What is added -/

/-- `B` is `A` with fresh states and the edges `New`, labelled with the operands or with the
empty word. -/
structure Adds (A B : FiniteAutomaton) (New : ℕ → Regex → ℕ → Prop) (operands : List Regex) :
    Prop where
  length_le : A.states.length ≤ B.states.length
  start_eq : B.startStateIndex = A.startStateIndex
  alphabet_eq : (∀ r ∈ operands, ∀ c ∈ r.letters, c ∈ A.alphabet) → B.alphabet = A.alphabet
  final : ∀ {p}, B.Final p ↔ A.Final p
  edge : ∀ {p r q}, B.Edge p r q ↔ A.Edge p r q ∨ New p r q
  getElem? : ∀ {i j : ℕ} {u}, (A.state i).transitions[j]? = some u →
    (B.state i).transitions[j]? = some u
  label : ∀ {p r q}, New p r q → r = Regex.empty ∨ r ∈ operands
  operand : ∀ {r}, r ∈ operands → ∃ p q, New p r q
  weight : B.totalWeight = A.totalWeight + Regex.weightAll operands

theorem Adds.trans {New' : ℕ → Regex → ℕ → Prop} {operands' : List Regex}
    (h : Adds A B New operands) (h' : Adds B C New' operands') :
    Adds A C (fun p r q => New p r q ∨ New' p r q) (operands ++ operands') where
  length_le := h.length_le.trans h'.length_le
  start_eq := h'.start_eq.trans h.start_eq
  alphabet_eq hletters := by
    have hB : B.alphabet = A.alphabet :=
      h.alphabet_eq fun r hr => hletters r (List.mem_append_left _ hr)
    rw [h'.alphabet_eq fun r hr => hB ▸ hletters r (List.mem_append_right _ hr), hB]
  final := h'.final.trans h.final
  edge {p r q} := by rw [h'.edge, h.edge, or_assoc]
  getElem? hu := h'.getElem? (h.getElem? hu)
  label hnew := by
    rcases hnew with hnew | hnew
    · exact (h.label hnew).imp_right (List.mem_append_left _)
    · exact (h'.label hnew).imp_right (List.mem_append_right _)
  operand hr := by
    rcases List.mem_append.mp hr with hr | hr
    · obtain ⟨p, q, hnew⟩ := h.operand hr
      exact ⟨p, q, .inl hnew⟩
    · obtain ⟨p, q, hnew⟩ := h'.operand hr
      exact ⟨p, q, .inr hnew⟩
  weight := by rw [h'.weight, h.weight, Regex.weightAll_append, Nat.add_assoc]

theorem Adds.congr {New' : ℕ → Regex → ℕ → Prop} (h : Adds A B New operands)
    (hnew : ∀ p r q, New p r q ↔ New' p r q) : Adds A B New' operands := by
  have heq : New = New' := by
    ext p r q
    exact hnew p r q
  rwa [← heq]

theorem Adds.refl (A : FiniteAutomaton) : Adds A A (fun _ _ _ => False) [] where
  length_le := le_rfl
  start_eq := rfl
  alphabet_eq _ := rfl
  final := Iff.rfl
  edge := by simp
  getElem? h := h
  label h := h.elim
  operand h := by cases h
  weight := rfl

theorem adds_addState (A : FiniteAutomaton) :
    Adds A (A.addState false).1 (fun _ _ _ => False) [] where
  length_le := by simp
  start_eq := rfl
  alphabet_eq _ := rfl
  final := by simp [final_addState]
  edge := by simp
  getElem? := getElem?_addState
  label h := h.elim
  operand h := by cases h
  weight := totalWeight_addState

theorem adds_addTransition (hs : s < A.states.length) :
    Adds A (A.addTransition s t r) (fun p x q => p = s ∧ x = r ∧ q = t) [r] where
  length_le := by simp
  start_eq := rfl
  alphabet_eq h := alphabet_addTransition (h r (by simp))
  final := final_addTransition
  edge := edge_addTransition hs
  getElem? := getElem?_addTransition
  label h := .inr (by simp [h.2.1])
  operand h := ⟨s, t, rfl, List.mem_singleton.mp h, rfl⟩
  weight := by
    rw [totalWeight_addTransition hs, Regex.weightAll, Regex.weightAll]
    omega

theorem adds_addEmpty (hs : s < A.states.length) :
    Adds A (A.addTransition s t Regex.empty) (fun p x q => p = s ∧ x = Regex.empty ∧ q = t)
      [] where
  length_le := by simp
  start_eq := rfl
  alphabet_eq _ := alphabet_addTransition (by simp)
  final := final_addTransition
  edge := edge_addTransition hs
  getElem? := getElem?_addTransition
  label h := .inl h.2.1
  operand h := by cases h
  weight := totalWeight_addTransition hs

theorem Gadget.adds (g : Gadget A B New operands s t L) : Adds A B New operands :=
  { g with }

theorem Adds.gadget (h : Adds A B New operands)
    (target : ∀ {p r q}, New p r q → q < B.states.length ∧ (q = t ∨ A.states.length ≤ q))
    (forward : ∀ X : ℕ → Language CChar,
      (∀ p r q, New p r q → r.language * X q ≤ X p) → L * X t ≤ X s)
    (backward : ∀ X : ℕ → Language CChar, L * X t ≤ X s →
      ∃ Y : ℕ → Language CChar, (∀ p < A.states.length, Y p = X p) ∧
        ∀ p r q, New p r q → r.language * Y q ≤ Y p) : Gadget A B New operands s t L :=
  { h with target, forward, backward }

theorem Gadget.congr {New' : ℕ → Regex → ℕ → Prop} (g : Gadget A B New operands s t L)
    (hnew : ∀ p r q, New p r q ↔ New' p r q) : Gadget A B New' operands s t L := by
  have heq : New = New' := by
    ext p r q
    exact hnew p r q
  rwa [← heq]

/-! ## The three gadgets -/

/-- One parallel edge is a gadget. -/
theorem gadget_single (hs : s < A.states.length) (ht : t < A.states.length) :
    Gadget A (A.addTransition s t r) (fun p r' q => p = s ∧ r' = r ∧ q = t) [r] s t
      r.language :=
  (adds_addTransition hs).gadget (fun h => ⟨by simpa [h.2.2] using ht, .inl h.2.2⟩)
    (fun X h => h s r t ⟨rfl, rfl, rfl⟩)
    (fun X h => ⟨X, fun _ _ => rfl, by rintro _ _ _ ⟨rfl, rfl, rfl⟩; exact h⟩)

/-- A first edge to the fresh state `n`, and a gadget that leads on from there. -/
theorem Gadget.cons {A' : FiniteAutomaton} {n : ℕ} (hn : n = A.states.length)
    (hA' : A' = (A.addState false).1.addTransition s n r)
    (g : Gadget A' B New operands n t L) (hs : s < A.states.length) (ht : t < A.states.length) :
    Gadget A B (fun p x q => (p = s ∧ x = r ∧ q = n) ∨ New p x q) (r :: operands) s t
      (r.language * L) := by
  have hs' : s < (A.addState false).1.states.length := by
    rw [length_addState]
    omega
  have hlen : A'.states.length = n + 1 := by
    rw [hA', length_addTransition, length_addState, hn]
  have hlenB := g.length_le
  have hfirst : Adds A A' (fun p x q => p = s ∧ x = r ∧ q = n) [r] := by
    rw [hA']
    exact ((adds_addState A).trans (adds_addTransition hs')).congr fun p x q => by simp
  refine (hfirst.trans g.adds).gadget ?_ ?_ ?_
  · intro p x q hcases
    rcases hcases with ⟨_, _, rfl⟩ | h
    · exact ⟨by omega, .inr (by omega)⟩
    · obtain ⟨hq, hqt⟩ := g.target h
      exact ⟨hq, hqt.imp_right fun h => by omega⟩
  · intro X h
    have hrest := g.forward X fun p x q hx => h p x q (.inr hx)
    have hedge := h s r n (.inl ⟨rfl, rfl, rfl⟩)
    rw [mul_assoc]
    exact (mul_le_mul_right hrest _).trans hedge
  · intro X h
    -- the fresh state gets what the rest demands
    let X' : ℕ → Language CChar := fun p => if p = n then L * X t else X p
    have hXt : X' t = X t := if_neg (by omega)
    have hXs : X' s = X s := if_neg (by omega)
    have hXn : X' n = L * X t := if_pos rfl
    obtain ⟨Y, hY, hnew⟩ := g.backward X' (by rw [hXt, hXn])
    refine ⟨Y, fun p hp => ?_, ?_⟩
    · rw [hY p (by omega)]
      exact if_neg (by omega)
    · intro p x q hcases
      rcases hcases with ⟨rfl, rfl, rfl⟩ | hx
      · rw [hY _ (by omega), hY _ (by omega), hXs, hXn, ← mul_assoc]
        exact h
      · exact hnew p x q hx

theorem getElem?_shortenConcat {u : FiniteAutomatonTransition}
    (hj : (A.state i).transitions[j]? = some u) (hB : (shortenConcat A s t rs).Returns B) :
    (B.state i).transitions[j]? = some u := by
  induction rs generalizing A s with
  | nil => exact absurd hB Comp.returns_throw
  | cons r rs ih =>
      cases rs with
      | nil =>
          cases Comp.returns_pure.mp hB
          exact getElem?_addTransition hj
      | cons x rs => exact ih (getElem?_addTransition (getElem?_addState hj)) hB

/-- The first transition of the chain leads to a fresh state. -/
theorem edge_chainStart {x y : Regex} (hs : s < A.states.length) :
    ((A.addState false).1.addTransition s A.states.length x).Edge p y q ↔
      A.Edge p y q ∨ (p = s ∧ y = x ∧ q = A.states.length) := by
  rw [edge_addTransition (by rw [length_addState]; omega), edge_addState]

theorem target_chainStart {x y : Regex} (htarget : ∀ {p x q}, A.Edge p x q → q < A.states.length)
    (hs : s < A.states.length)
    (he : ((A.addState false).1.addTransition s A.states.length x).Edge p y q) :
    q < ((A.addState false).1.addTransition s A.states.length x).states.length := by
  rw [length_addTransition, length_addState]
  rcases (edge_chainStart hs).mp he with he | ⟨_, _, rfl⟩
  · exact (htarget he).trans (Nat.lt_succ_self _)
  · exact Nat.lt_succ_self _

theorem ends_ne_fresh {x y : Regex} (htarget : ∀ {p x q}, A.Edge p x q → q < A.states.length)
    (hs : s < A.states.length) (ht : t < A.states.length)
    (h : A.Edge p y q ∨ (p = s ∧ y = x ∧ q = t)) :
    p ≠ A.states.length ∧ q ≠ A.states.length := by
  rcases h with he | ⟨rfl, _, rfl⟩
  · exact ⟨he.source_lt.ne, (htarget he).ne⟩
  · exact ⟨hs.ne, ht.ne⟩

/-- The chain of a `Concat` label. -/
theorem shortenConcat_ensures (hne : operands ≠ []) (hs : s < A.states.length)
    (ht : t < A.states.length) :
    (shortenConcat A s t operands).Ensures fun B =>
      ∃ New, Gadget A B New operands s t (operands.map Regex.language).prod := by
  induction operands generalizing A s with
  | nil => exact absurd rfl hne
  | cons r operands ih =>
      cases operands with
      | nil =>
          refine Comp.ensures_pure.mpr ⟨fun p r' q => p = s ∧ r' = r ∧ q = t, ?_⟩
          simpa using gadget_single (r := r) hs ht
      | cons r' operands =>
          have hlen : ((A.addState false).1.addTransition s A.states.length r).states.length =
              A.states.length + 1 := by simp
          refine (ih (A := (A.addState false).1.addTransition s A.states.length r)
            (s := A.states.length) (by simp) (by omega) (by omega)).mono ?_
          intro B hex
          rcases hex with ⟨New, g⟩
          rw [List.map_cons, List.prod_cons]
          exact ⟨_, g.cons rfl rfl hs ht⟩

/-- Two gadgets side by side. -/
theorem Gadget.add {New' : ℕ → Regex → ℕ → Prop} {operands' : List Regex}
    {L' : Language CChar} (g : Gadget A B New operands s t L)
    (g' : Gadget B C New' operands' s t L') (hs : s < A.states.length)
    (ht : t < A.states.length) :
    Gadget A C (fun p r q => New p r q ∨ New' p r q) (operands ++ operands') s t (L + L') := by
  have hle := g.length_le
  have hle' := g'.length_le
  refine (g.adds.trans g'.adds).gadget ?_ ?_ ?_
  · intro p r q hcases
    rcases hcases with h | h
    · obtain ⟨hq, hqt⟩ := g.target h
      exact ⟨by omega, hqt⟩
    · obtain ⟨hq, hqt⟩ := g'.target h
      exact ⟨hq, hqt.imp_right hle.trans⟩
  · intro X h
    rw [add_mul]
    exact add_le (g.forward X fun p r q hx => h p r q (.inl hx))
      (g'.forward X fun p r q hx => h p r q (.inr hx))
  · intro X h
    rw [add_mul] at h
    obtain ⟨Y, hY, hnew⟩ := g.backward X (le_sup_left.trans h)
    obtain ⟨Z, hZ, hnew'⟩ := g'.backward Y (by
      rw [hY s hs, hY t ht]
      exact le_sup_right.trans h)
    refine ⟨Z, fun p hp => ?_, ?_⟩
    · rw [hZ p (by omega), hY p hp]
    · intro p r q hcases
      rcases hcases with hx | hx
      · -- the edges of the first gadget are between states of `B`
        have hp : p < B.states.length := (g.edge.mpr (.inr hx)).source_lt
        rw [hZ p hp, hZ q (g.target hx).1]
        exact hnew p r q hx
      · exact hnew' p r q hx

/-- The parallel edges of a `Sum` label. -/
theorem gadget_shortenSum (operands : List Regex) (hs : s < A.states.length)
    (ht : t < A.states.length) :
    Gadget A (shortenSum A s t operands) (fun p r q => p = s ∧ r ∈ operands ∧ q = t) operands s t
      (operands.map Regex.language).sum := by
  rw [shortenSum]
  induction operands generalizing A with
  | nil =>
      refine ((Adds.refl A).congr fun p r q => by simp).gadget (by simp) ?_ ?_
      · intro X _
        rw [List.map_nil, List.sum_nil, zero_mul]
        exact bot_le
      · exact fun X _ => ⟨X, fun _ _ => rfl, by simp⟩
  | cons r operands ih =>
      have g := ih (A := A.addTransition s t r) (by simpa using hs) (by simpa using ht)
      have hboth := (gadget_single (r := r) hs ht).add g hs ht
      rw [List.foldl_cons, List.map_cons, List.sum_cons]
      exact hboth.congr fun p x q => by
        rw [List.mem_cons]
        tauto

/-- The edges of a `Star` label: its operand between two fresh states `n` and `n + 1`, a way
in, a way back and a way out. -/
def StarEdges (n s t : ℕ) (r : Regex) (p : ℕ) (x : Regex) (q : ℕ) : Prop :=
  (p = n ∧ x = r ∧ q = n + 1) ∨ (p = s ∧ x = Regex.empty ∧ q = n) ∨
    (p = n + 1 ∧ x = Regex.empty ∧ q = n) ∨ (p = n ∧ x = Regex.empty ∧ q = t)

theorem adds_shortenStar (hs : s < A.states.length) :
    Adds A (shortenStar A s t r) (StarEdges A.states.length s t r) [r] := by
  set n := A.states.length with hn
  let A₂ := ((A.addState false).1.addState false).1
  let A₃ := A₂.addTransition n (n + 1) r
  let A₄ := A₃.addTransition s n Regex.empty
  let A₅ := A₄.addTransition (n + 1) n Regex.empty
  have hB : shortenStar A s t r = A₅.addTransition n t Regex.empty := rfl
  have h₂ : A₂.states.length = n + 2 := by simp [A₂, n]
  have h₃ : A₃.states.length = n + 2 := length_addTransition.trans h₂
  have h₄ : A₄.states.length = n + 2 := length_addTransition.trans h₃
  have h₅ : A₅.states.length = n + 2 := length_addTransition.trans h₄
  have hfresh : Adds A A₂ _ _ := (adds_addState A).trans (adds_addState _)
  have hbody : Adds A A₃ _ _ := hfresh.trans (adds_addTransition (by omega))
  have hin : Adds A A₄ _ _ := hbody.trans (adds_addEmpty (by omega))
  have hback : Adds A A₅ _ _ := hin.trans (adds_addEmpty (by omega))
  rw [hB]
  refine (hback.trans (adds_addEmpty (by omega))).congr fun p x q => ?_
  simp only [or_assoc, false_or]
  rfl

theorem starEdges_forward {n : ℕ} {X : ℕ → Language CChar}
    (h : ∀ p x q, StarEdges n s t r p x q → x.language * X q ≤ X p) :
    KStar.kstar r.language * X t ≤ X s := by
  have hbody : r.language * X (n + 1) ≤ X n := h _ _ _ (.inl ⟨rfl, rfl, rfl⟩)
  have hin : X n ≤ X s := by simpa using h s _ n (.inr (.inl ⟨rfl, rfl, rfl⟩))
  have hback : X n ≤ X (n + 1) := by
    simpa using h (n + 1) _ n (.inr (.inr (.inl ⟨rfl, rfl, rfl⟩)))
  have hout : X t ≤ X n := by simpa using h n _ t (.inr (.inr (.inr ⟨rfl, rfl, rfl⟩)))
  refine le_trans (kstar_mul_le hout ?_) hin
  exact (mul_le_mul_right hback _).trans hbody

/-- Both fresh states get the words that go round and then out. -/
theorem starEdges_backward {n : ℕ} {X : ℕ → Language CChar} (hs : s < n) (ht : t < n)
    (h : KStar.kstar r.language * X t ≤ X s) :
    ∃ Y : ℕ → Language CChar, (∀ p < n, Y p = X p) ∧
      ∀ p x q, StarEdges n s t r p x q → x.language * Y q ≤ Y p := by
  refine ⟨fun p => if p < n then X p else KStar.kstar r.language * X t, fun p hp => if_pos hp, ?_⟩
  have hself : X t ≤ KStar.kstar r.language * X t := by
    simpa using mul_le_mul_left (one_le_kstar (a := r.language)) (X t)
  have hloop : r.language * (KStar.kstar r.language * X t) ≤ KStar.kstar r.language * X t := by
    rw [← mul_assoc]
    exact mul_le_mul_left mul_kstar_le_kstar _
  rintro p x q (⟨rfl, rfl, rfl⟩ | ⟨rfl, rfl, rfl⟩ | ⟨rfl, rfl, rfl⟩ | ⟨rfl, rfl, rfl⟩) <;>
    beta_reduce
  · rw [if_neg (by omega), if_neg (by omega)]
    exact hloop
  · rw [if_neg (by omega), if_pos hs, Regex.language_empty, one_mul]
    exact h
  · rw [if_neg (by omega), if_neg (by omega), Regex.language_empty, one_mul]
  · rw [if_pos ht, if_neg (by omega), Regex.language_empty, one_mul]
    exact hself

/-- The two fresh states of a `Star` label. The gadget is right also where source and target
coincide. -/
theorem gadget_shortenStar (hs : s < A.states.length) (ht : t < A.states.length) :
    ∃ New, Gadget A (shortenStar A s t r) New [r] s t (KStar.kstar r.language) := by
  refine ⟨_, (adds_shortenStar hs).gadget ?_ (fun X h => starEdges_forward h)
    (fun X h => starEdges_backward hs ht h)⟩
  have hlen : (shortenStar A s t r).states.length = A.states.length + 2 := by
    simp [shortenStar]
  intro p x q h
  rcases h with ⟨_, _, rfl⟩ | ⟨_, _, rfl⟩ | ⟨_, _, rfl⟩ | ⟨_, _, rfl⟩
  · exact ⟨by omega, .inr (by omega)⟩
  · exact ⟨by omega, .inr le_rfl⟩
  · exact ⟨by omega, .inr le_rfl⟩
  · exact ⟨by omega, .inl rfl⟩

/-! ## Replacing an edge by its gadget -/

/-- An edge of the gadget is there after the removal, unless it is the replaced one. -/
theorem Gadget.edge_removeTransition (g : Gadget A B New operands s t L)
    (hj : (A.state s).transitions[j]? = some ⟨r, t⟩) {x : Regex} (h : B.Edge p x q) :
    (B.removeTransition s j).Edge p x q ∨ (p = s ∧ x = r ∧ q = t) := by
  have hBj := g.getElem? hj
  rcases h.removeTransition (i := s) (j := j) with h | ⟨hp, h⟩
  · exact .inl h
  · rw [hBj] at h
    cases h
    exact .inr ⟨hp, rfl, rfl⟩

theorem Gadget.edge_of_new (g : Gadget A B New operands s t L)
    (hj : (A.state s).transitions[j]? = some ⟨r, t⟩) (hr : r ≠ Regex.empty)
    (hrop : r ∉ operands) {x : Regex} (h : New p x q) :
    (B.removeTransition s j).Edge p x q := by
  rcases g.edge_removeTransition hj (g.edge.mpr (.inr h)) with h' | ⟨_, rfl, _⟩
  · exact h'
  · rcases g.label h with h | h
    · exact absurd h hr
    · exact absurd h hrop

/-- Once the replaced transition is removed, the old states have their old residual
languages. -/
theorem Gadget.residual_eq (g : Gadget A B New operands s t r.language) (hA : A.InRange)
    (hj : (A.state s).transitions[j]? = some ⟨r, t⟩) (hr : r ≠ Regex.empty)
    (hrop : r ∉ operands) (hp : p < A.states.length) :
    (B.removeTransition s j).residual p = A.residual p := by
  have hedge : A.Edge s r t := edge_of_getElem? hj
  apply le_antisymm
  · obtain ⟨Y, hY, hYnew⟩ := g.backward A.residual (edge_mul_residual_le hedge)
    have hle : (B.removeTransition s j).residual p ≤ Y p := by
      refine FiniteAutomaton.residual_le ?_ ?_ p
      · intro p x q h
        rcases g.edge.mp h.of_removeTransition with h | h
        · rw [hY _ h.source_lt, hY _ (hA.target_lt h)]
          exact edge_mul_residual_le h
        · exact hYnew p x q h
      · intro p h
        have hf := g.final.mp (final_removeTransition.mp h)
        rw [hY _ hf.lt]
        exact one_le_residual hf
    rwa [hY p hp] at hle
  · refine FiniteAutomaton.residual_le ?_ ?_ p
    · intro p x q h
      rcases g.edge_removeTransition hj (g.edge.mpr (.inl h)) with h' | ⟨rfl, rfl, rfl⟩
      · exact edge_mul_residual_le h'
      · exact g.forward _ fun p x q h => edge_mul_residual_le (g.edge_of_new hj hr hrop h)
    · intro p h
      exact one_le_residual (final_removeTransition.mpr (g.final.mpr h))

end AutomatonSimplifier

end FormalLanguages
