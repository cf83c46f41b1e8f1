import FormalLanguages.Model.Determinator
import FormalLanguages.Verification.Automaton.Accepts

/-! # The successors of a superposition

The letter transitions of the states of a superposition are gathered in two stages, by
state and then over all states. For every letter that leads anywhere, the result has one
entry, with all targets. -/

namespace FormalLanguages.AutomatonDeterminator

open FiniteAutomaton

variable {A : FiniteAutomaton} {c d : CChar} {i p q : ℕ} {s u : StateSuperposition}
  {E E' : CChar → ℕ → Prop}

/-! ## The transitions of one state -/

/-- The variants list the pairs of a letter and a target that satisfy `E`. -/
structure Lists (E : CChar → ℕ → Prop) (variants : List SuperpositionVariant) : Prop where
  sound : ∀ v ∈ variants, v.targets ≠ [] ∧ ∀ q ∈ v.targets, E v.character q
  cover : ∀ c q, E c q → ∃ v ∈ variants, v.character = c ∧ q ∈ v.targets

theorem Lists.congr {variants : List SuperpositionVariant} (h : Lists E variants)
    (hE : ∀ c q, E c q ↔ E' c q) : Lists E' variants := by
  have : E = E' := by
    ext c q
    exact hE c q
  rwa [← this]

theorem mem_addTransition {variants : List SuperpositionVariant} {v : SuperpositionVariant}
    (h : v ∈ addTransition c q variants) :
    v ∈ variants ∨ (v.character = c ∧ (v.targets = [q] ∨
      ∃ w ∈ variants, w.character = c ∧ v.targets = w.targets ++ [q])) := by
  induction variants with
  | nil =>
      obtain rfl : v = ⟨c, [q]⟩ := by simpa [addTransition] using h
      exact .inr ⟨rfl, .inl rfl⟩
  | cons w variants ih =>
      rw [addTransition] at h
      split at h
      · rename_i hw
        rcases List.mem_cons.mp h with rfl | h
        · exact .inr ⟨rfl, .inr ⟨w, by simp, hw, rfl⟩⟩
        · exact .inl (List.mem_cons_of_mem _ h)
      · rcases List.mem_cons.mp h with rfl | h
        · exact .inl (by simp)
        · rcases ih h with h | ⟨hv, h | ⟨x, hx, hxc, hxt⟩⟩
          · exact .inl (List.mem_cons_of_mem _ h)
          · exact .inr ⟨hv, .inl h⟩
          · exact .inr ⟨hv, .inr ⟨x, List.mem_cons_of_mem _ hx, hxc, hxt⟩⟩

theorem mem_addTransition_self (variants : List SuperpositionVariant) :
    ∃ v ∈ addTransition c q variants, v.character = c ∧ q ∈ v.targets := by
  induction variants with
  | nil => exact ⟨⟨c, [q]⟩, by simp [addTransition], rfl, by simp⟩
  | cons w variants ih =>
      rw [addTransition]
      split
      · exact ⟨_, List.mem_cons_self, rfl, by simp⟩
      · obtain ⟨v, hv, h⟩ := ih
        exact ⟨v, List.mem_cons_of_mem _ hv, h⟩

theorem mem_addTransition_of_mem {variants : List SuperpositionVariant}
    {v : SuperpositionVariant} (h : v ∈ variants) :
    ∃ w ∈ addTransition c q variants, w.character = v.character ∧
      ∀ x ∈ v.targets, x ∈ w.targets := by
  induction variants with
  | nil => cases h
  | cons w variants ih =>
      rw [addTransition]
      split
      · rename_i hw
        rcases List.mem_cons.mp h with rfl | h
        · exact ⟨_, List.mem_cons_self, hw.symm, fun x hx => by simp [hx]⟩
        · exact ⟨v, List.mem_cons_of_mem _ h, rfl, fun _ hx => hx⟩
      · rcases List.mem_cons.mp h with rfl | h
        · exact ⟨v, by simp, rfl, fun _ hx => hx⟩
        · obtain ⟨x, hx, hxv⟩ := ih h
          exact ⟨x, List.mem_cons_of_mem _ hx, hxv⟩

theorem Lists.addTransition {variants : List SuperpositionVariant} (h : Lists E variants)
    (c : CChar) (q : ℕ) :
    Lists (fun d x => E d x ∨ (d = c ∧ x = q)) (addTransition c q variants) where
  sound v hv := by
    rcases mem_addTransition hv with hv | ⟨rfl, ht | ⟨w, hw, hwc, ht⟩⟩
    · exact ⟨(h.sound v hv).1, fun x hx => .inl ((h.sound v hv).2 x hx)⟩
    · rw [ht]
      exact ⟨by simp, fun x hx => .inr ⟨rfl, by simpa using hx⟩⟩
    · rw [ht]
      refine ⟨by simp, fun x hx => ?_⟩
      rcases List.mem_append.mp hx with hx | hx
      · exact .inl (hwc ▸ (h.sound w hw).2 x hx)
      · exact .inr ⟨rfl, by simpa using hx⟩
  cover d x hdx := by
    rcases hdx with hdx | ⟨rfl, rfl⟩
    · obtain ⟨v, hv, rfl, hx⟩ := h.cover d x hdx
      obtain ⟨w, hw, hwv, hwt⟩ := mem_addTransition_of_mem (c := c) (q := q) hv
      exact ⟨w, hw, hwv, hwt x hx⟩
    · exact mem_addTransition_self variants

/-- A loop over the transitions that lists the letter of each of them lists them all. -/
theorem Lists.foldl
    {step : List SuperpositionVariant → FiniteAutomatonTransition → List SuperpositionVariant}
    (hstep : ∀ {E variants} t, Lists E variants →
      Lists (fun c q => E c q ∨ (c ≠ 0 ∧ t = ⟨.char c, q⟩)) (step variants t))
    {variants : List SuperpositionVariant} (h : Lists E variants)
    (ts : List FiniteAutomatonTransition) :
    Lists (fun c q => E c q ∨ (c ≠ 0 ∧ ⟨.char c, q⟩ ∈ ts)) (ts.foldl step variants) := by
  induction ts generalizing E variants with
  | nil => exact h.congr fun c q => by simp
  | cons t ts ih =>
      refine (ih (hstep t h)).congr fun c q => ?_
      rw [List.mem_cons, eq_comm (a := t), and_or_left, or_assoc]

theorem lists_stateBoundSuperposition (A : FiniteAutomaton) (i : ℕ) :
    Lists (fun c q => c ≠ 0 ∧ A.Edge i (.char c) q) (stateBoundSuperposition A i) := by
  have hnil : Lists (fun _ _ => False) [] := ⟨by simp, by simp⟩
  refine (hnil.foldl ?_ (A.state i).transitions).congr fun c q => by rw [false_or]; rfl
  intro E variants t h
  obtain ⟨r, x⟩ := t
  cases r with
  | char ch =>
      by_cases hch : ch = 0
      · subst hch
        refine h.congr fun c q => ?_
        grind
      · have hne : (ch != 0) = true := by simpa using hch
        simp only [hne, if_true]
        refine (h.addTransition ch x).congr fun c q => ?_
        grind
  | concat rs =>
      exact h.congr fun c q => by simp
  | sum rs =>
      exact h.congr fun c q => by simp
  | star r =>
      exact h.congr fun c q => by simp

/-! ## The transitions of a superposition -/

/-- The superposition holds the states of `S`, and is final when one of them is. -/
structure Holds (A : FiniteAutomaton) (S : ℕ → Prop) (u : StateSuperposition) : Prop where
  mem : ∀ q, q ∈ u.states ↔ S q
  isFinal : u.isFinal = true ↔ ∃ q, S q ∧ A.Final q

theorem Holds.congr {S S' : ℕ → Prop} (h : Holds A S u) (hS : ∀ q, S q ↔ S' q) :
    Holds A S' u := by
  have : S = S' := by
    ext q
    exact hS q
  rwa [← this]

theorem Holds.addTargets {S : ℕ → Prop} (h : Holds A S u) (targets : List ℕ) :
    Holds A (fun q => S q ∨ q ∈ targets) (targets.foldl (addTarget A) u) := by
  induction targets generalizing S u with
  | nil => exact h.congr fun q => by simp
  | cons t targets ih =>
      have hone : Holds A (fun q => S q ∨ q = t) (addTarget A u t) := by
        constructor
        · intro q
          rw [addTarget, OrdSet.mem_insert, h.mem, or_comm]
        · simp only [addTarget, Bool.or_eq_true, h.isFinal]
          constructor
          · intro hcases
            rcases hcases with ⟨q, hq, hf⟩ | hf
            · exact ⟨q, .inl hq, hf⟩
            · exact ⟨t, .inr rfl, hf⟩
          · intro hex
            rcases hex with ⟨q, hq | rfl, hf⟩
            · exact .inl ⟨q, hq, hf⟩
            · exact .inr hf
      refine (ih hone).congr fun q => ?_
      rw [List.mem_cons, or_assoc]

theorem holds_empty : Holds A (fun _ => False) {} :=
  ⟨fun q => by simp, by simp⟩

/-- The entries are those of the relation `E` between letters and states. -/
structure Collects (A : FiniteAutomaton) (E : CChar → ℕ → Prop) (next : NextSuperpositions) :
    Prop where
  nodup : (next.map Prod.fst).Nodup
  sound : ∀ c u, (c, u) ∈ next → (∃ q, E c q) ∧ Holds A (E c) u
  cover : ∀ c q, E c q → ∃ u, (c, u) ∈ next

theorem Collects.congr {next : NextSuperpositions} (h : Collects A E next)
    (hE : ∀ c q, E c q ↔ E' c q) : Collects A E' next := by
  have : E = E' := by
    ext c q
    exact hE c q
  rwa [← this]

theorem keys_addSuperpositionCharTransition (A : FiniteAutomaton) (c : CChar)
    (targets : List ℕ) (next : NextSuperpositions) :
    (addSuperpositionCharTransition A c targets next).map Prod.fst =
      if c ∈ next.map Prod.fst then next.map Prod.fst else next.map Prod.fst ++ [c] := by
  induction next with
  | nil => rfl
  | cons e next ih =>
      rw [addSuperpositionCharTransition]
      split
      · rename_i he
        simp [he]
      · rename_i he
        rw [List.map_cons, ih, List.map_cons]
        simp only [List.mem_cons, Ne.symm he, false_or]
        split <;> rfl

theorem mem_addSuperpositionCharTransition {targets : List ℕ} {next : NextSuperpositions}
    (hnodup : (next.map Prod.fst).Nodup) :
    (d, u) ∈ addSuperpositionCharTransition A c targets next ↔
      (d ≠ c ∧ (d, u) ∈ next) ∨
      (d = c ∧ ((∃ v, (c, v) ∈ next ∧ u = targets.foldl (addTarget A) v) ∨
        ((∀ v, (c, v) ∉ next) ∧ u = targets.foldl (addTarget A) {}))) := by
  induction next with
  | nil => simp [addSuperpositionCharTransition]
  | cons e next ih =>
      obtain ⟨a, v⟩ := e
      obtain ⟨ha, hnodup⟩ := List.nodup_cons.mp hnodup
      have hnotin : ∀ v, (a, v) ∉ next := fun v hv => ha (List.mem_map.mpr ⟨_, hv, rfl⟩)
      rw [addSuperpositionCharTransition]
      split
      · rename_i hac
        obtain rfl : a = c := hac
        by_cases hda : d = a
        · subst hda
          simp [hnotin]
        · simp [hda]
      · rename_i hac
        have hac : a ≠ c := hac
        simp only [List.mem_cons, ih hnodup, Prod.mk.injEq]
        by_cases hdc : d = c
        · subst hdc
          simp [hac.symm]
        · simp [hdc]

theorem Collects.add {next : NextSuperpositions} (h : Collects A E next) (c : CChar)
    {targets : List ℕ} (hne : targets ≠ []) :
    Collects A (fun d q => E d q ∨ (d = c ∧ q ∈ targets))
      (addSuperpositionCharTransition A c targets next) where
  nodup := by
    rw [keys_addSuperpositionCharTransition]
    split
    · exact h.nodup
    · rename_i hc
      exact List.nodup_append.mpr ⟨h.nodup, by simp, by
        intro a ha b hb hab
        rw [List.mem_singleton.mp hb] at hab
        exact hc (hab ▸ ha)⟩
  sound d u hdu := by
    rcases (mem_addSuperpositionCharTransition h.nodup).mp hdu with
      ⟨hdc, hmem⟩ | ⟨rfl, ⟨v, hv, rfl⟩ | ⟨hnone, rfl⟩⟩
    · obtain ⟨⟨q, hq⟩, hu⟩ := h.sound d u hmem
      exact ⟨⟨q, .inl hq⟩, hu.congr fun q => by simp [hdc]⟩
    · obtain ⟨⟨q, hq⟩, hu⟩ := h.sound d v hv
      exact ⟨⟨q, .inl hq⟩, (hu.addTargets targets).congr fun q => by simp⟩
    · obtain ⟨q, hq⟩ := List.exists_mem_of_ne_nil _ hne
      refine ⟨⟨q, .inr ⟨rfl, hq⟩⟩, (holds_empty.addTargets targets).congr fun q => ?_⟩
      constructor
      · intro hcases
        rcases hcases with hf | hq
        · exact hf.elim
        · exact .inr ⟨rfl, hq⟩
      · intro hcases
        rcases hcases with hE | ⟨_, hq⟩
        · obtain ⟨v, hv⟩ := h.cover d q hE
          exact absurd hv (hnone v)
        · exact .inr hq
  cover d q hdq := by
    by_cases hdc : d = c
    · subst hdc
      by_cases hex : ∃ v, (d, v) ∈ next
      · obtain ⟨v, hv⟩ := hex
        exact ⟨_, (mem_addSuperpositionCharTransition h.nodup).mpr (.inr ⟨rfl, .inl ⟨v, hv, rfl⟩⟩)⟩
      · push Not at hex
        exact ⟨_, (mem_addSuperpositionCharTransition h.nodup).mpr (.inr ⟨rfl, .inr ⟨hex, rfl⟩⟩)⟩
    · obtain ⟨u, hu⟩ := h.cover d q (hdq.resolve_right fun hd => hdc hd.1)
      exact ⟨u, (mem_addSuperpositionCharTransition h.nodup).mpr (.inl ⟨hdc, hu⟩)⟩

/-- The variants of one state are all added. -/
theorem Collects.addVariants {variants : List SuperpositionVariant}
    (hne : ∀ v ∈ variants, v.targets ≠ []) {next : NextSuperpositions} (h : Collects A E next) :
    Collects A (fun c q => E c q ∨ ∃ v ∈ variants, v.character = c ∧ q ∈ v.targets)
      (addStateBoundSuperpositions A variants next) := by
  rw [addStateBoundSuperpositions]
  induction variants generalizing E next with
  | nil => exact h.congr fun c q => by simp
  | cons v variants ih =>
      rw [List.foldl_cons]
      refine (ih (fun w hw => hne w (List.mem_cons_of_mem _ hw))
        (h.add v.character (hne v (by simp)))).congr fun c q => ?_
      simp only [List.mem_cons, exists_eq_or_imp, or_assoc, eq_comm (a := c)]

/-- For every letter there is one entry, with all targets of the states of `s`. -/
theorem collects_nextSuperpositions (A : FiniteAutomaton) (s : StateSuperposition) :
    Collects A (fun c q => c ≠ 0 ∧ ∃ p ∈ s.states, A.Edge p (.char c) q)
      (nextSuperpositions A s) := by
  have hfold : ∀ (l : List ℕ) (E : CChar → ℕ → Prop) (next : NextSuperpositions),
      Collects A E next →
      Collects A (fun c q => E c q ∨ (c ≠ 0 ∧ ∃ p ∈ l, A.Edge p (.char c) q))
        (l.foldl (fun next i =>
          addStateBoundSuperpositions A (stateBoundSuperposition A i) next) next) := by
    intro l
    induction l with
    | nil => exact fun E next h => h.congr fun c q => by simp
    | cons i l ih =>
        intro E next h
        have hlists := lists_stateBoundSuperposition A i
        rw [List.foldl_cons]
        refine (ih _ _ (h.addVariants fun v hv => (hlists.sound v hv).1)).congr fun c q => ?_
        have hi : (∃ v ∈ stateBoundSuperposition A i, v.character = c ∧ q ∈ v.targets) ↔
            c ≠ 0 ∧ A.Edge i (.char c) q := by
          constructor
          · intro hex
            rcases hex with ⟨v, hv, rfl, hq⟩
            exact (hlists.sound v hv).2 q hq
          · exact hlists.cover c q
        rw [hi, List.exists_mem_cons_iff]
        tauto
  exact (hfold s.states.toList (fun _ _ => False) []
    ⟨by simp, by simp, by simp⟩).congr fun c q => by
      rw [false_or]
      rfl

end FormalLanguages.AutomatonDeterminator
