import Mathlib.Data.List.Basic
import Mathlib.Data.Set.Function
import Mathlib.Data.Set.Prod

/-! # Texts that can be read back from their beginning

A way of writing values is prefix-free when the text of a value can be told from whatever
follows it. Fields with a terminator are, and so are records and lists of such fields. -/

namespace FormalLanguages

variable {α β σ : Type*} {s s' : Set α} {t : Set β} {f : α → List σ} {g : β → List σ} {c : σ}

/-- Whatever follows the text of a value in `s`, the text determines the value and the rest. -/
def PrefixFreeOn (f : α → List σ) (s : Set α) : Prop :=
  ∀ ⦃a⦄, a ∈ s → ∀ ⦃b⦄, b ∈ s → ∀ ⦃u v⦄, f a ++ u = f b ++ v → a = b ∧ u = v

namespace PrefixFreeOn

theorem injOn (h : PrefixFreeOn f s) : Set.InjOn f s := by
  intro a ha b hb hab
  exact (h ha hb (congrArg (· ++ []) hab)).1

theorem mono (h : PrefixFreeOn f s) (hs : s' ⊆ s) : PrefixFreeOn f s' :=
  fun _ ha _ hb _ _ heq => h (hs ha) (hs hb) heq

/-- Two lists that agree up to the first occurrence of a symbol agree behind it as well. -/
theorem append_cons_inj {x y u v : List σ} (hx : c ∉ x) (hy : c ∉ y)
    (h : x ++ c :: u = y ++ c :: v) : x = y ∧ u = v := by
  rcases List.append_eq_append_iff.mp h with ⟨z, rfl, hz⟩ | ⟨z, rfl, hz⟩
  · cases z with
    | nil => simpa using hz
    | cons d z =>
        simp only [List.cons_append, List.cons.injEq] at hz
        simp [hz.1] at hy
  · cases z with
    | nil => simpa [eq_comm] using hz
    | cons d z =>
        simp only [List.cons_append, List.cons.injEq] at hz
        simp [hz.1] at hx

/-- A field ends where a symbol stands that does not occur in it. -/
theorem terminated (hinj : Set.InjOn f s) (hc : ∀ a ∈ s, c ∉ f a) :
    PrefixFreeOn (fun a => f a ++ [c]) s := by
  intro a ha b hb u v heq
  simp only [List.append_assoc, List.singleton_append] at heq
  obtain ⟨hab, huv⟩ := append_cons_inj (hc a ha) (hc b hb) heq
  exact ⟨hinj ha hb hab, huv⟩

theorem const_append (h : PrefixFreeOn f s) (w : List σ) : PrefixFreeOn (fun a => w ++ f a) s := by
  intro a ha b hb u v heq
  simp only [List.append_assoc] at heq
  exact h ha hb (List.append_cancel_left heq)

theorem append_const (h : PrefixFreeOn f s) (w : List σ) : PrefixFreeOn (fun a => f a ++ w) s := by
  intro a ha b hb u v heq
  simp only [List.append_assoc] at heq
  obtain ⟨hab, huv⟩ := h ha hb heq
  exact ⟨hab, List.append_cancel_left huv⟩

/-- A record of two fields. -/
theorem prod (h : PrefixFreeOn f s) (h' : PrefixFreeOn g t) :
    PrefixFreeOn (fun x : α × β => f x.1 ++ g x.2) (s ×ˢ t) := by
  intro x hx y hy u v heq
  simp only [List.append_assoc] at heq
  obtain ⟨h₁, heq⟩ := h hx.1 hy.1 heq
  obtain ⟨h₂, huv⟩ := h' hx.2 hy.2 heq
  exact ⟨Prod.ext h₁ h₂, huv⟩

/-- Items one behind the other, closed by a symbol with which no item begins. -/
theorem flatMap (h : PrefixFreeOn f s) (hc : ∀ a ∈ s, f a ≠ [] ∧ (f a).head? ≠ some c) :
    PrefixFreeOn (fun l : List α => l.flatMap f ++ [c]) {l | ∀ a ∈ l, a ∈ s} := by
  -- an item does not begin where the list is closed
  have hopen : ∀ a ∈ s, ∀ u v : List σ, [c] ++ u ≠ f a ++ v := by
    intro a ha u v heq
    obtain ⟨hne, hhead⟩ := hc a ha
    obtain ⟨b, bs, hb⟩ := List.exists_cons_of_ne_nil hne
    rw [hb] at heq hhead
    simp only [List.cons_append, List.cons.injEq] at heq
    exact hhead (by rw [List.head?_cons, heq.1])
  intro l hl
  induction l with
  | nil =>
      intro l' hl' u v heq
      cases l' with
      | nil => exact ⟨rfl, List.append_cancel_left heq⟩
      | cons b l' =>
          simp only [List.flatMap_cons, List.flatMap_nil, List.nil_append, List.append_assoc] at heq
          exact absurd heq (hopen b (hl' b (by simp)) _ _)
  | cons a l ih =>
      intro l' hl' u v heq
      cases l' with
      | nil =>
          simp only [List.flatMap_cons, List.flatMap_nil, List.nil_append, List.append_assoc] at heq
          exact absurd heq.symm (hopen a (hl a (by simp)) _ _)
      | cons b l' =>
          simp only [List.flatMap_cons, List.append_assoc] at heq
          obtain ⟨rfl, heq⟩ := h (hl a (by simp)) (hl' b (by simp)) heq
          obtain ⟨rfl, huv⟩ := ih (fun x hx => hl x (List.mem_cons_of_mem _ hx))
            (fun x hx => hl' x (List.mem_cons_of_mem _ hx)) (by simpa using heq)
          exact ⟨rfl, huv⟩

end PrefixFreeOn

end FormalLanguages
