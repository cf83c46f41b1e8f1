import FormalLanguages.Verification.Regex.Tame
import FormalLanguages.Verification.Simplifier.Correctness

/-! # Levels of the states

In the automaton of a tame regex no edge leads down a level, and the edges that stay on a level
end alike at each state, unless no way to the state ends with the empty word at all. Every
rewriting of the simplifier keeps this, with new levels for the fresh states. -/

namespace FormalLanguages.AutomatonSimplifier

open FiniteAutomaton Regex

variable {A B : FiniteAutomaton} {E E' : ℕ → Regex → ℕ → Prop} {f g : ℕ → ℕ} {n s t p q : ℕ}
  {r x : Regex} {rs : List Regex}

/-- The edges that stay on a level to reach `q` end with the empty word, or all edges to `q` end
with a letter. -/
def EndsAlike (E : ℕ → Regex → ℕ → Prop) (f : ℕ → ℕ) (q : ℕ) : Prop :=
  (∀ p r, E p r q → f p = f q → r.endsWith .empty = true) ∨
    ∀ p r, E p r q → r.endsWith .letter = true

/-- Levels `f` that no edge goes down, and numbers `g` that every edge with the empty word
increases. -/
structure Levels (E : ℕ → Regex → ℕ → Prop) (f g : ℕ → ℕ) : Prop where
  le : ∀ {p r q}, E p r q → f p ≤ f q
  tame : ∀ {p r q}, E p r q → f p < f q → r.tame = true
  ending : ∀ q, EndsAlike E f q
  lt : ∀ {p r q}, E p r q → [] ∈ r.language → g p < g q

theorem EndsAlike.mono (h : EndsAlike E f q) (hsub : ∀ p r q, E' p r q → E p r q) :
    EndsAlike E' f q :=
  h.imp (fun hq p r he => hq p r (hsub p r q he)) fun hq p r he => hq p r (hsub p r q he)

theorem Levels.mono (h : Levels E f g) (hsub : ∀ p r q, E' p r q → E p r q) : Levels E' f g where
  le he := h.le (hsub _ _ _ he)
  tame he := h.tame (hsub _ _ _ he)
  ending q := (h.ending q).mono hsub
  lt he := h.lt (hsub _ _ _ he)

/-- A label that stays on its level has ways that end alike. -/
theorem Levels.endsWith_or (h : Levels E f g) (he : E p r q) (hpq : f p = f q) :
    r.endsWith .letter = true ∨ r.endsWith .empty = true := by
  rcases h.ending q with hq | hq
  · exact .inr (hq p r he hpq)
  · exact .inl (hq p r he)

theorem endsAlike_of_only (hr : r.endsWith .letter = true ∨ r.endsWith .empty = true)
    (honly : ∀ p x, E p x q → x = r) : EndsAlike E f q := by
  rcases hr with hr | hr
  · exact .inr fun p x hE => honly p x hE ▸ hr
  · exact .inl fun p x hE _ => honly p x hE ▸ hr

/-! ## New edges in place of one -/

variable {New : ℕ → Regex → ℕ → Prop} {f' g' : ℕ → ℕ}

/-- New edges for the label `r` from `s` to `t`: the levels and numbers of the old states keep
their order, and what leads to `t` ends as `r` does. -/
theorem Levels.insert (Old : ℕ → Prop) (h : Levels E f g) (he : E s r t)
    (hold : ∀ p x q, E p x q → Old p ∧ Old q)
    (hf : ∀ p q, Old p → Old q → (f' p ≤ f' q ↔ f p ≤ f q))
    (hg : ∀ p q, Old p → Old q → g p < g q → g' p < g' q)
    (hle : ∀ p x q, New p x q → f' p ≤ f' q)
    (htame : ∀ p x q, New p x q → f' p < f' q → x.tame = true)
    (hlt : ∀ p x q, New p x q → [] ∈ x.language → g' p < g' q)
    (hfresh : ∀ q, ¬Old q → EndsAlike New f' q)
    (htarget : ∀ p x q, New p x q → Old q → q = t ∧ (f' p = f' q → f s = f t) ∧
      ∀ e, r.endsWith e = true → x.endsWith e = true) :
    Levels (fun p x q => E p x q ∨ New p x q) f' g' where
  le {p x q} hcases := by
    rcases hcases with hE | hnew
    · exact (hf p q (hold _ _ _ hE).1 (hold _ _ _ hE).2).mpr (h.le hE)
    · exact hle p x q hnew
  tame {p x q} hcases hpq := by
    rcases hcases with hE | hnew
    · obtain ⟨hp, hq⟩ := hold _ _ _ hE
      exact h.tame hE (not_le.mp fun hqp => not_le.mpr hpq ((hf q p hq hp).mpr hqp))
    · exact htame p x q hnew hpq
  ending q := by
    by_cases hq : Old q
    · rcases h.ending q with hends | hends
      · left
        intro p x hcases hpq
        rcases hcases with hE | hnew
        · have hp := (hold _ _ _ hE).1
          exact hends p x hE (le_antisymm ((hf p q hp hq).mp hpq.le) ((hf q p hq hp).mp hpq.ge))
        · obtain ⟨rfl, hst, hr⟩ := htarget p x q hnew hq
          exact hr _ (hends s r he (hst hpq))
      · right
        intro p x hcases
        rcases hcases with hE | hnew
        · exact hends p x hE
        · obtain ⟨rfl, _, hr⟩ := htarget p x q hnew hq
          exact hr _ (hends s r he)
    · have hno : ∀ p x, ¬E p x q := fun p x hE => hq (hold _ _ _ hE).2
      exact (hfresh q hq).imp
        (fun hends p x hcases => hends p x (hcases.resolve_left (hno p x)))
        fun hends p x hcases => hends p x (hcases.resolve_left (hno p x))
  lt {p x q} hcases hx := by
    rcases hcases with hE | hnew
    · exact hg p q (hold _ _ _ hE).1 (hold _ _ _ hE).2 (h.lt hE hx)
    · exact hlt p x q hnew hx

/-- Between the same two states the label can be replaced by others that end as it does. -/
theorem Levels.relabel (h : Levels E f g) (he : E s r t)
    (htame : r.tame = true → ∀ x ∈ rs, x.tame = true)
    (hends : ∀ e, r.endsWith e = true → ∀ x ∈ rs, x.endsWith e = true)
    (hnil : ∀ x ∈ rs, [] ∈ x.language → [] ∈ r.language) :
    Levels (fun p x q => E p x q ∨ (p = s ∧ x ∈ rs ∧ q = t)) f g := by
  apply h.insert (fun _ => True) he (fun _ _ _ _ => ⟨trivial, trivial⟩)
    (fun _ _ _ _ => Iff.rfl) (fun _ _ _ _ hlt => hlt)
  · rintro p x q ⟨rfl, _, rfl⟩
    exact h.le he
  · rintro p x q ⟨rfl, hx, rfl⟩ hlt
    exact htame (h.tame he hlt) x hx
  · rintro p x q ⟨rfl, hx, rfl⟩ hmem
    exact h.lt he (hnil x hx hmem)
  · exact fun q hq => absurd trivial hq
  · rintro p x q ⟨rfl, hx, rfl⟩ _
    exact ⟨rfl, id, fun e hr => hends e hr x hx⟩

theorem Levels.sum (h : Levels E f g) (he : E s (.sum rs) t) :
    Levels (fun p x q => E p x q ∨ (p = s ∧ x ∈ rs ∧ q = t)) f g :=
  h.relabel he tame_sum.mp (fun _ => endsWith_sum.mp)
    fun x hx hmem => mem_language_sum.mpr ⟨x, hx, hmem⟩

theorem Levels.concat_single (h : Levels E f g) (he : E s (.concat [r]) t) :
    Levels (fun p x q => E p x q ∨ (p = s ∧ x ∈ [r] ∧ q = t)) f g := by
  apply h.relabel he
  · intro htame x hx
    rw [List.mem_singleton.mp hx]
    exact (tame_concat_cons.mp htame).1
  · intro e hends x hx
    rwa [List.mem_singleton.mp hx, ← endsWith_concat_single]
  · intro x hx hmem
    rw [List.mem_singleton.mp hx] at hmem
    rwa [language_concat, List.map_singleton, List.prod_singleton]

/-! ## A chain -/

/-- The level of a state between `s` and `t`, and the others out of the way. -/
def between (f : ℕ → ℕ) (s t : ℕ) : ℕ := 2 * f s + if f s < f t then 1 else 0

theorem between_spec (hle : f s ≤ f t) :
    2 * f s ≤ between f s t ∧ between f s t ≤ 2 * f t ∧
      (f s < f t ∧ 2 * f s < between f s t ∧ between f s t < 2 * f t ∨
        f s = f t ∧ between f s t = 2 * f s ∧ between f s t = 2 * f t) := by
  rw [between]
  split
  · omega
  · omega

/-- A first operand to a fresh state, which gets a level and a number in between. -/
theorem Levels.concat (h : Levels E f g) (hn : ∀ p x q, E p x q → p ≠ n ∧ q ≠ n)
    (he : E s (.concat (r :: x :: rs)) t) :
    ∃ f' g', Levels (fun p y q => E p y q ∨ ((p = s ∧ y = r ∧ q = n) ∨
      (p = n ∧ y = .concat (x :: rs) ∧ q = t))) f' g' := by
  classical
  obtain ⟨hs, ht⟩ := hn _ _ _ he
  obtain ⟨hfrom, hto, hlevel⟩ := between_spec (h.le he)
  let f' : ℕ → ℕ := fun p => if p = n then between f s t else 2 * f p
  let g' : ℕ → ℕ := fun p =>
    if p = n then (if [] ∈ r.language then 2 * g s + 2 else 2 * g t) else 2 * g p + 1
  have hf : ∀ p, p ≠ n → f' p = 2 * f p := fun p hp => if_neg hp
  have hg : ∀ p, p ≠ n → g' p = 2 * g p + 1 := fun p hp => if_neg hp
  have hfn : f' n = between f s t := if_pos rfl
  have hgn : g' n = if [] ∈ r.language then 2 * g s + 2 else 2 * g t := if_pos rfl
  refine ⟨f', g', h.insert (· ≠ n) he hn ?_ ?_ ?_ ?_ ?_ ?_ ?_⟩
  · intro p q hp hq
    rw [hf p hp, hf q hq]
    omega
  · intro p q hp hq hlt
    rw [hg p hp, hg q hq]
    omega
  · rintro p y q (⟨rfl, _, rfl⟩ | ⟨rfl, _, rfl⟩)
    · rwa [hf _ hs, hfn]
    · rwa [hf _ ht, hfn]
  · rintro p y q (⟨rfl, rfl, rfl⟩ | ⟨rfl, rfl, rfl⟩) hlt
    · rw [hf _ hs, hfn] at hlt
      exact (tame_concat_cons.mp (h.tame he (by omega))).1
    · rw [hf _ ht, hfn] at hlt
      exact (tame_concat_cons.mp (h.tame he (by omega))).2
  · rintro p y q (⟨rfl, rfl, rfl⟩ | ⟨rfl, rfl, rfl⟩) hy
    · rw [hg _ hs, hgn, if_pos hy]
      omega
    · rw [hg _ ht, hgn]
      split
      · rename_i hr
        have hall := h.lt he (by
          rw [language_concat] at hy ⊢
          exact nil_mem_mul.mpr ⟨hr, hy⟩)
        omega
      · omega
  · intro q hq
    obtain rfl : q = n := not_not.mp hq
    have honly : ∀ p y, ((p = s ∧ y = r ∧ q = q) ∨ (p = q ∧ y = .concat (x :: rs) ∧ q = t)) →
        p = s ∧ y = r := by
      rintro p y (⟨rfl, rfl, _⟩ | ⟨_, _, rfl⟩)
      · exact ⟨rfl, rfl⟩
      · exact absurd rfl ht
    rcases hlevel with ⟨_, hlt, _⟩ | ⟨heq, _⟩
    · left
      intro p y hnew hpq
      obtain ⟨rfl, rfl⟩ := honly p y hnew
      rw [hf _ hs, hfn] at hpq
      omega
    · apply endsAlike_of_only ((h.endsWith_or he heq).elim
        (fun hends => (endsWith_concat_cons.mp hends).1)
        fun hends => (endsWith_concat_cons.mp hends).1)
      exact fun p y hnew => (honly p y hnew).2
  · rintro p y q (⟨_, _, rfl⟩ | ⟨rfl, rfl, rfl⟩) hq
    · exact absurd rfl hq
    · refine ⟨rfl, fun heq => ?_, fun e hends => (endsWith_concat_cons.mp hends).2⟩
      rw [hf _ ht, hfn] at heq
      omega

/-! ## A star -/

theorem tame_empty : Regex.empty.tame = true := rfl

theorem endsWith_empty : Regex.empty.endsWith .empty = true := rfl

/-- The two states of a star share a level, as the way back leads from one to the other. -/
theorem Levels.star (h : Levels E f g) (hn : ∀ p x q, E p x q → p < n ∧ q < n)
    (he : E s (.star r) t) :
    ∃ f' g', Levels (fun p x q => E p x q ∨ StarEdges n s t r p x q) f' g' := by
  obtain ⟨hs, ht⟩ := hn _ _ _ he
  obtain ⟨hfrom, hto, hlevel⟩ := between_spec (h.le he)
  have hstar : (Regex.star r).endsWith .empty = true := by
    rcases lt_or_eq_of_le (h.le he) with hlt | heq
    · exact h.tame he hlt
    · rcases h.endsWith_or he heq with hends | hends
      · cases hends
      · exact hends
  obtain ⟨hends, hnil⟩ := endsWith_star.mp hstar
  have hst : g s < g t := h.lt he (by
    rw [language_star]
    exact Language.nil_mem_kstar _)
  let f' : ℕ → ℕ := fun p => if p < n then 2 * f p else between f s t
  let g' : ℕ → ℕ := fun p =>
    if p < n then 3 * g p else if p = n then 3 * g s + 2 else 3 * g s + 1
  have hf : ∀ p, p < n → f' p = 2 * f p := fun p hp => if_pos hp
  have hg : ∀ p, p < n → g' p = 3 * g p := fun p hp => if_pos hp
  have hf₁ : f' n = between f s t := if_neg (lt_irrefl n)
  have hf₂ : f' (n + 1) = between f s t := if_neg (by omega)
  have hg₁ : g' n = 3 * g s + 2 := by simp [g']
  have hg₂ : g' (n + 1) = 3 * g s + 1 := by simp [g']
  refine ⟨f', g', h.insert (· < n) he hn ?_ ?_ ?_ ?_ ?_ ?_ ?_⟩
  · intro p q hp hq
    rw [hf p hp, hf q hq]
    omega
  · intro p q hp hq hlt
    rw [hg p hp, hg q hq]
    omega
  · rintro p x q (⟨rfl, _, rfl⟩ | ⟨rfl, _, rfl⟩ | ⟨rfl, _, rfl⟩ | ⟨rfl, _, rfl⟩)
    · rw [hf₁, hf₂]
    · rwa [hf _ hs, hf₁]
    · rw [hf₁, hf₂]
    · rwa [hf _ ht, hf₁]
  · rintro p x q (⟨rfl, _, rfl⟩ | ⟨_, rfl, _⟩ | ⟨_, rfl, _⟩ | ⟨_, rfl, _⟩) hlt
    · rw [hf₁, hf₂] at hlt
      exact absurd hlt (lt_irrefl _)
    · exact tame_empty
    · exact tame_empty
    · exact tame_empty
  · rintro p x q (⟨rfl, rfl, rfl⟩ | ⟨rfl, _, rfl⟩ | ⟨rfl, _, rfl⟩ | ⟨rfl, _, rfl⟩) hx
    · exact absurd hx hnil
    · rw [hg _ hs, hg₁]
      omega
    · rw [hg₁, hg₂]
      omega
    · rw [hg _ ht, hg₁]
      omega
  · intro q hq
    by_cases hqn : q = n
    · subst hqn
      apply endsAlike_of_only (.inr endsWith_empty)
      rintro p x (⟨_, _, hq'⟩ | ⟨_, rfl, _⟩ | ⟨_, rfl, _⟩ | ⟨_, rfl, _⟩)
      · omega
      · rfl
      · rfl
      · rfl
    · apply endsAlike_of_only hends
      rintro p x (⟨_, rfl, _⟩ | ⟨_, _, rfl⟩ | ⟨_, _, rfl⟩ | ⟨_, _, rfl⟩)
      · rfl
      · exact absurd rfl hqn
      · exact absurd rfl hqn
      · exact absurd ht hq
  · rintro p x q (⟨_, _, rfl⟩ | ⟨_, _, rfl⟩ | ⟨_, _, rfl⟩ | ⟨rfl, rfl, rfl⟩) hq
    · omega
    · omega
    · omega
    · refine ⟨rfl, fun heq => ?_, ?_⟩
      · rw [hf _ ht, hf₁] at heq
        omega
      · intro e hends
        cases e with
        | letter => cases hends
        | empty => rfl

/-! ## The rewriting of an automaton -/

/-- The states of the automaton have levels. -/
def Leveled (A : FiniteAutomaton) : Prop := ∃ f g, Levels A.Edge f g

theorem shortenConcat_leveled (htarget : ∀ {p x q}, A.Edge p x q → q < A.states.length)
    (hs : s < A.states.length) (ht : t < A.states.length)
    (h : ∃ f g, Levels (fun p x q => A.Edge p x q ∨ (p = s ∧ x = .concat rs ∧ q = t)) f g)
    (hB : (shortenConcat A s t rs).Returns B) : Leveled B := by
  induction rs generalizing A s with
  | nil => exact absurd hB Comp.returns_throw
  | cons r rs ih =>
      obtain ⟨f, g, h⟩ := h
      cases rs with
      | nil =>
          cases Comp.returns_pure.mp hB
          refine ⟨f, g, (h.concat_single (.inr ⟨rfl, rfl, rfl⟩)).mono ?_⟩
          intro p x q he
          rcases (edge_addTransition hs).mp he with he | ⟨rfl, rfl, rfl⟩
          · exact .inl (.inl he)
          · exact .inr ⟨rfl, List.mem_singleton_self _, rfl⟩
      | cons x rs =>
          obtain ⟨f', g', h'⟩ := h.concat (fun p y q => ends_ne_fresh htarget hs ht)
            (.inr ⟨rfl, rfl, rfl⟩)
          refine ih (A := (A.addState false).1.addTransition s A.states.length r)
            (s := A.states.length) (target_chainStart htarget hs) (by simp) (by simp; omega)
            ⟨f', g', h'.mono ?_⟩ hB
          intro p y q hcases
          rcases hcases with he | hrest
          · rcases (edge_chainStart hs).mp he with he | hfirst
            · exact .inl (.inl he)
            · exact .inr (.inl hfirst)
          · exact .inr (.inr hrest)

theorem Leveled.removeTransition {i j : ℕ} (h : Leveled A) : Leveled (A.removeTransition i j) := by
  obtain ⟨f, g, h⟩ := h
  exact ⟨f, g, h.mono fun p x q he => he.of_removeTransition⟩

theorem shortenTransition_leveled {j : ℕ} (hA : A.InRange) (h : Leveled A)
    (hB : (shortenTransition A s j).Returns B) : Leveled B := by
  rw [shortenTransition] at hB
  cases hj : (A.state s).transitions[j]? with
  | none =>
      rw [hj] at hB
      exact absurd hB Comp.returns_throw
  | some u =>
      obtain ⟨r, t⟩ := u
      have he : A.Edge s r t := edge_of_getElem? hj
      have hs := he.source_lt
      have ht := hA.target_lt he
      obtain ⟨f, g, h⟩ := h
      rw [hj] at hB
      cases r with
      | char c => exact absurd hB Comp.returns_throw
      | concat rs =>
          obtain ⟨C, hC, hB⟩ := Comp.returns_bind.mp hB
          cases Comp.returns_pure.mp hB
          refine (shortenConcat_leveled hA.target_lt hs ht ⟨f, g, h.mono ?_⟩ hC).removeTransition
          rintro p x q (he' | ⟨rfl, rfl, rfl⟩)
          · exact he'
          · exact he
      | sum rs =>
          cases Comp.returns_pure.mp hB
          refine Leveled.removeTransition ⟨f, g, (h.sum he).mono fun p x q => ?_⟩
          exact (gadget_shortenSum rs hs ht).edge.mp
      | star r =>
          cases Comp.returns_pure.mp hB
          obtain ⟨f', g', h'⟩ := h.star (fun p x q he => ⟨he.source_lt, hA.target_lt he⟩) he
          exact Leveled.removeTransition
            ⟨f', g', h'.mono fun p x q => (adds_shortenStar hs).edge.mp⟩

theorem simplify_leveled (hA : A.InRange) (hl : LabelsOk A) (h : Leveled A)
    (hB : (simplify A).Returns B) : Leveled B :=
  simplify_invariant Leveled (fun _ _ _ _ hC h hD => shortenTransition_leveled hC h hD) hA hl h hB

theorem leveled_ofRegex (h : r.tame = true) : Leveled (FiniteAutomaton.ofRegex r) := by
  refine ⟨id, id, ?_, ?_, ?_, ?_⟩
  · rintro p x q he
    obtain ⟨rfl, _, rfl⟩ := edge_ofRegex.mp he
    exact Nat.zero_le 1
  · rintro p x q he _
    rwa [(edge_ofRegex.mp he).2.1]
  · intro q
    left
    rintro p x he hpq
    obtain ⟨rfl, _, rfl⟩ := edge_ofRegex.mp he
    cases hpq
  · rintro p x q he _
    obtain ⟨rfl, _, rfl⟩ := edge_ofRegex.mp he
    exact Nat.zero_lt_one

end FormalLanguages.AutomatonSimplifier
