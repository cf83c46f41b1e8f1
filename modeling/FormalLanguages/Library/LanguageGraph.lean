import Mathlib.Computability.Language
import Mathlib.Order.CompletePartialOrder

/-! # Graphs whose edges carry languages

The words spelled from a vertex to a final vertex are the least solution of the linear
inequalities that the edges state. Every language comparison between two graphs is
therefore a check on single edges. -/

namespace FormalLanguages

/-- Edges labelled with languages, and final vertices. -/
structure LanguageGraph (α σ : Type*) where
  edge : σ → Language α → σ → Prop
  final : σ → Prop

/-- Inclusion of languages, word by word. -/
theorem language_le_iff {α : Type*} {l m : Language α} : l ≤ m ↔ ∀ w, w ∈ l → w ∈ m := Iff.rfl

namespace LanguageGraph

open scoped Computability

variable {α σ : Type*} {G : LanguageGraph α σ} {p q r : σ} {l : Language α} {u v w : List α}

/-- `Path p w q`: the edges of a walk from `p` to `q` contribute words that spell `w`. -/
inductive Path (G : LanguageGraph α σ) : σ → List α → σ → Prop where
  | nil (p : σ) : Path G p [] p
  | cons {p q r : σ} {l : Language α} {u v : List α} :
      G.edge p l q → u ∈ l → Path G q v r → Path G p (u ++ v) r

theorem Path.single (h : G.edge p l q) (hu : u ∈ l) : G.Path p u q := by
  simpa using Path.cons h hu (Path.nil q)

theorem Path.trans (h : G.Path p u q) (h' : G.Path q v r) : G.Path p (u ++ v) r := by
  induction h with
  | nil => exact h'
  | cons he hu _ ih =>
      rw [List.append_assoc]
      exact .cons he hu (ih h')

/-- The words from `p` to `q`. -/
def between (G : LanguageGraph α σ) (p q : σ) : Language α := {w | G.Path p w q}

/-- The words from `p` to some final vertex. -/
def residual (G : LanguageGraph α σ) (p : σ) : Language α := {w | ∃ q, G.final q ∧ G.Path p w q}

theorem mem_residual : w ∈ G.residual p ↔ ∃ q, G.final q ∧ G.Path p w q := Iff.rfl

theorem nil_mem_between : [] ∈ G.between p p := Path.nil p

/-! ## The least solution -/

/-- `X` assigns to every vertex a language that contains what its edges demand. -/
structure IsSolution (G : LanguageGraph α σ) (X : σ → Language α) : Prop where
  edge_le : ∀ {p l q}, G.edge p l q → l * X q ≤ X p
  one_le : ∀ {p}, G.final p → 1 ≤ X p

theorem edge_mul_residual_le (h : G.edge p l q) : l * G.residual q ≤ G.residual p := by
  rw [language_le_iff]
  intro w hex
  rcases hex with ⟨u, hu, v, ⟨r, hr, hv⟩, rfl⟩
  exact ⟨r, hr, .cons h hu hv⟩

theorem one_le_residual (h : G.final p) : 1 ≤ G.residual p := by
  intro w heq
  subst heq
  exact ⟨p, h, .nil p⟩

theorem nil_mem_residual (h : G.final p) : [] ∈ G.residual p := one_le_residual h rfl

theorem isSolution_residual : G.IsSolution G.residual :=
  ⟨edge_mul_residual_le, one_le_residual⟩

theorem IsSolution.path_append {X : σ → Language α} (hX : G.IsSolution X) (h : G.Path p u q)
    (hv : v ∈ X q) : u ++ v ∈ X p := by
  induction h with
  | nil => exact hv
  | cons he hu _ ih =>
      rw [List.append_assoc]
      exact hX.edge_le he ⟨_, hu, _, ih hv, rfl⟩

/-- The residual languages are the least solution. -/
theorem residual_le {X : σ → Language α} (hX : G.IsSolution X) (p : σ) : G.residual p ≤ X p := by
  rw [language_le_iff]
  intro w h
  rcases h with ⟨q, hq, hw⟩
  simpa using hX.path_append hw (hX.one_le hq rfl)

theorem append_mem_residual (h : G.Path p u q) (hv : v ∈ G.residual q) : u ++ v ∈ G.residual p :=
  isSolution_residual.path_append h hv

/-! ## Words that reach a vertex -/

/-- `Y` assigns to every vertex a language that contains what leads there from `p`. -/
structure IsPrefixSolution (G : LanguageGraph α σ) (p : σ) (Y : σ → Language α) : Prop where
  one_le : 1 ≤ Y p
  mul_edge_le : ∀ {q l r}, G.edge q l r → Y q * l ≤ Y r

/-- The languages of words from `p` are the least prefix solution. -/
theorem between_le {Y : σ → Language α} (hY : G.IsPrefixSolution p Y) (q : σ) :
    G.between p q ≤ Y q := by
  have key : ∀ {r v q}, G.Path r v q → ∀ u ∈ Y r, u ++ v ∈ Y q := by
    intro r v q h
    induction h with
    | nil => simp
    | cons he hu _ ih =>
        intro w hw
        rw [← List.append_assoc]
        exact ih _ (hY.mul_edge_le he ⟨w, hw, _, hu, rfl⟩)
  rw [language_le_iff]
  intro w hw
  simpa using key hw [] (hY.one_le rfl)

/-! ## Elimination of a vertex -/

/-- The words on the edges from `p` to `q`. -/
def label (G : LanguageGraph α σ) (p q : σ) : Language α := {w | ∃ l, G.edge p l q ∧ w ∈ l}

theorem mem_label : w ∈ G.label p q ↔ ∃ l, G.edge p l q ∧ w ∈ l := Iff.rfl

theorem le_label (h : G.edge p l q) : l ≤ G.label p q := fun _ hw => ⟨l, h, hw⟩

theorem isSolution_of_label {X : σ → Language α} (hedge : ∀ p q, G.label p q * X q ≤ X p)
    (hfinal : ∀ p, G.final p → 1 ≤ X p) : G.IsSolution X where
  edge_le {p _ q} h := (mul_le_mul_left (le_label h) _).trans (hedge p q)
  one_le {p} h := hfinal p h

theorem IsSolution.label_mul_le {X : σ → Language α} (hX : G.IsSolution X) (p q : σ) :
    G.label p q * X q ≤ X p := by
  rw [language_le_iff]
  intro w h
  rcases h with ⟨u, ⟨l, hl, hu⟩, v, hv, rfl⟩
  exact hX.edge_le hl ⟨u, hu, v, hv, rfl⟩

/-- Only the words between two vertices matter, not how the edges share them. -/
theorem residual_congr {H : LanguageGraph α σ} (hlabel : ∀ p q, G.label p q = H.label p q)
    (hfinal : ∀ p, G.final p ↔ H.final p) (p : σ) : G.residual p = H.residual p := by
  apply le_antisymm
  · apply residual_le
    apply isSolution_of_label
    · intro p q
      rw [hlabel]
      exact isSolution_residual.label_mul_le p q
    · exact fun p h => one_le_residual ((hfinal p).mp h)
  · apply residual_le
    apply isSolution_of_label
    · intro p q
      rw [← hlabel]
      exact isSolution_residual.label_mul_le p q
    · exact fun p h => one_le_residual ((hfinal p).mpr h)

/-- The empty word adds nothing to what is repeated. -/
theorem kstar_one_add (l : Language α) : (1 + l)∗ = l∗ := by
  apply le_antisymm
  · calc (1 + l)∗ ≤ l∗∗ := kstar_mono (add_le one_le_kstar le_kstar)
      _ = l∗ := kstar_idem l
  · exact kstar_mono le_sup_right

/-- The ways from `s` out to other vertices, followed by what `X` assigns to these. -/
def exits (G : LanguageGraph α σ) (X : σ → Language α) (s : σ) : Language α :=
  {w | ∃ q, q ≠ s ∧ w ∈ G.label s q * X q}

/-- A bound for all vertices but `s` extends to `s` when it allows for every way through `s`:
into it, any number of times round its loop, and out again. -/
theorem residual_le_of_elimination {s : σ} {X : σ → Language α} (hs : ¬G.final s)
    (hedge : ∀ p q, p ≠ s → q ≠ s → G.label p q * X q ≤ X p)
    (hthrough : ∀ p q, p ≠ s → q ≠ s →
      G.label p s * (G.label s s)∗ * G.label s q * X q ≤ X p)
    (hfinal : ∀ p, p ≠ s → G.final p → 1 ≤ X p) (hp : p ≠ s) : G.residual p ≤ X p := by
  classical
  set Y : σ → Language α := fun p => if p = s then (G.label s s)∗ * G.exits X s else X p
  have hYs : Y s = (G.label s s)∗ * G.exits X s := if_pos rfl
  have hY : ∀ {q}, q ≠ s → Y q = X q := fun hq => if_neg hq
  have hsolution : G.IsSolution Y := by
    apply isSolution_of_label
    · intro p q
      by_cases hp : p = s
      · subst hp
        by_cases hq : q = p
        · subst hq
          rw [hYs, ← mul_assoc]
          exact mul_le_mul_left mul_kstar_le_kstar _
        · have hexit : G.label p q * X q ≤ G.exits X p := fun w hw => ⟨q, hq, hw⟩
          rw [hYs, hY hq]
          exact hexit.trans (le_mul_of_one_le_left' one_le_kstar)
      · by_cases hq : q = s
        · subst hq
          rw [hYs, hY hp, language_le_iff]
          intro w h
          rcases h with ⟨u, hu, v, ⟨x, hx, y, ⟨t, ht, z, hz, o, ho, rfl⟩, rfl⟩, rfl⟩
          apply hthrough p t hp ht
          exact ⟨u ++ x ++ z, ⟨u ++ x, ⟨u, hu, x, hx, rfl⟩, z, hz, rfl⟩, o, ho, by simp⟩
        · rw [hY hp, hY hq]
          exact hedge p q hp hq
    · intro p hf
      by_cases hp : p = s
      · exact absurd (hp ▸ hf) hs
      · rw [hY hp]
        exact hfinal p hp hf
  exact (residual_le hsolution p).trans_eq (hY hp)

/-- The words of a graph with a start vertex `s` and one other vertex `t`, which is the only
final one. -/
theorem residual_two_vertices {s t : σ} (hst : s ≠ t)
    (hvertex : ∀ {p l q}, G.edge p l q → (p = s ∨ p = t) ∧ (q = s ∨ q = t))
    (hfinal : ∀ p, G.final p ↔ p = t) :
    G.residual s = (G.label s s)∗ * G.label s t *
      (G.label t t + G.label t s * (G.label s s)∗ * G.label s t)∗ := by
  classical
  set round : Language α := G.label t t + G.label t s * (G.label s s)∗ * G.label s t
  have hloop : ∀ p, (G.label p p)∗ * G.residual p ≤ G.residual p := fun p =>
    kstar_mul_le_self (isSolution_residual.label_mul_le p p)
  have hleave : (G.label s s)∗ * G.label s t * G.residual t ≤ G.residual s := by
    rw [mul_assoc]
    exact (mul_le_mul_right (isSolution_residual.label_mul_le s t) _).trans (hloop s)
  apply le_antisymm
  · set X : σ → Language α := fun p =>
      if p = s then (G.label s s)∗ * G.label s t * round∗ else if p = t then round∗ else 0
    have hXs : X s = (G.label s s)∗ * G.label s t * round∗ := if_pos rfl
    have hXt : X t = round∗ := by simp [X, hst.symm]
    have hsolution : G.IsSolution X := by
      apply isSolution_of_label
      · intro p q
        by_cases hedge : ∃ l, G.edge p l q
        · obtain ⟨l, hl⟩ := hedge
          rcases hvertex hl with ⟨rfl | rfl, rfl | rfl⟩
          · rw [hXs, ← mul_assoc, ← mul_assoc]
            exact mul_le_mul_left (mul_le_mul_left mul_kstar_le_kstar _) _
          · rw [hXs, hXt]
            exact mul_le_mul_left (le_mul_of_one_le_left' one_le_kstar) _
          · rw [hXs, hXt, ← mul_assoc, ← mul_assoc]
            exact (mul_le_mul_left le_sup_right _).trans mul_kstar_le_kstar
          · rw [hXt]
            exact (mul_le_mul_left le_sup_left _).trans mul_kstar_le_kstar
        · rw [language_le_iff]
          intro w h
          rcases h with ⟨u, ⟨l, hl, _⟩, _⟩
          exact absurd ⟨l, hl⟩ hedge
      · intro p hf
        rw [(hfinal p).mp hf, hXt]
        exact one_le_kstar
    exact (residual_le hsolution s).trans_eq hXs
  · have hround : round * G.residual t ≤ G.residual t := by
      rw [add_mul]
      apply add_le
      · exact isSolution_residual.label_mul_le t t
      · rw [mul_assoc, mul_assoc, ← mul_assoc _ _ (G.residual t)]
        exact (mul_le_mul_right hleave _).trans (isSolution_residual.label_mul_le t s)
    have hstar : round∗ ≤ G.residual t := by
      rw [← mul_one round∗]
      exact kstar_mul_le (one_le_residual ((hfinal t).mpr rfl)) hround
    exact (mul_le_mul_right hstar _).trans hleave

end LanguageGraph

end FormalLanguages
