import FormalLanguages.Library.OrderedSet
import Mathlib.Data.List.Range
import Mathlib.Data.Finset.Range

/-! # Numbering by rank

The elements of an ordered set are numbered from zero in increasing order. A partition
that is refined by ranking keys, each of which begins with the number of a class, has the
same numbers again as soon as no class splits. -/

namespace FormalLanguages

variable {κ ν : Type} [LinearOrder κ]

namespace OrdSet

variable {s : OrdSet κ} {x y : κ} {i m : ℕ} {π : κ → ℕ}

/-- The number of smaller elements. -/
def rank (s : OrdSet κ) (x : κ) : ℕ := s.toList.idxOf x

theorem rank_lt (h : x ∈ s) : s.rank x < s.size := List.idxOf_lt_length_of_mem h

theorem rank_inj (hx : x ∈ s) (h : s.rank x = s.rank y) : x = y :=
  (List.idxOf_inj hx).mp h

theorem rank_getElem (h : i < s.toList.length) : s.rank s.toList[i] = i :=
  s.nodup_toList.idxOf_getElem i h

theorem rank_eq_of_getElem? (h : s.toList[i]? = some x) : s.rank x = i := by
  obtain ⟨hi, rfl⟩ := List.getElem?_eq_some_iff.mp h
  exact rank_getElem hi

theorem exists_rank_eq (h : i < s.size) : ∃ x ∈ s, s.rank x = i :=
  ⟨s.toList[i], List.getElem_mem h, rank_getElem h⟩

/-! ## Refinement -/

theorem le_size (hsurj : ∀ i < m, ∃ x ∈ s, π x = i) : m ≤ s.size := by
  have hsub : Finset.range m ⊆ (s.toList.map π).toFinset := by
    intro i hi
    obtain ⟨x, hx, rfl⟩ := hsurj i (Finset.mem_range.mp hi)
    exact List.mem_toFinset.mpr (List.mem_map_of_mem hx)
  calc m = (Finset.range m).card := (Finset.card_range m).symm
    _ ≤ (s.toList.map π).toFinset.card := Finset.card_le_card hsub
    _ ≤ (s.toList.map π).length := List.toFinset_card_le _
    _ = s.size := List.length_map ..

/-- When there is one key for each class, every key has the rank of its class. -/
theorem rank_eq_of_size_eq (hmono : ∀ x y : κ, x ≤ y → π x ≤ π y)
    (hsurj : ∀ i < m, ∃ x ∈ s, π x = i) (hlt : ∀ x ∈ s, π x < m) (hsize : s.size = m)
    (hx : x ∈ s) : s.rank x = π x := by
  have hset : (s.toList.map π).toFinset = Finset.range m := by
    ext i
    simp only [List.mem_toFinset, List.mem_map, Finset.mem_range]
    constructor
    · intro hex
      rcases hex with ⟨y, hy, rfl⟩
      exact hlt y hy
    · intro hi
      obtain ⟨y, hy, rfl⟩ := hsurj i hi
      exact ⟨y, hy, rfl⟩
  have hnodup : (s.toList.map π).Nodup := by
    have hcard : (s.toList.map π).toFinset.card = (s.toList.map π).length := by
      rw [hset, Finset.card_range, List.length_map]
      exact hsize.symm
    exact Multiset.coe_nodup.mp (Multiset.toFinset_card_eq_card_iff_nodup.mp hcard)
  have hsorted : (s.toList.map π).Pairwise (· ≤ ·) := by
    rw [List.pairwise_map]
    exact s.sorted.imp fun h => hmono _ _ h.le
  have hrange : s.toList.map π = List.range m := by
    have hperm : (s.toList.map π).Perm (List.range m) := by
      rw [List.perm_ext_iff_of_nodup hnodup List.nodup_range]
      intro i
      rw [← List.mem_toFinset, hset, Finset.mem_range, List.mem_range]
    exact hperm.eq_of_pairwise (fun a b _ _ hab hba => le_antisymm hab hba) hsorted
      List.pairwise_le_range
  obtain ⟨i, hi, rfl⟩ := List.mem_iff_getElem.mp hx
  rw [rank_getElem hi]
  have hget : (s.toList.map π)[i]? = some i := by
    rw [hrange, List.getElem?_range (hsize ▸ hi)]
  rw [List.getElem?_map, List.getElem?_eq_getElem hi] at hget
  exact (Option.some.inj hget).symm

end OrdSet

namespace OrdMap

/-- The keys of a map. -/
def keys (m : OrdMap κ ν) : OrdSet κ :=
  ⟨m.toList.map Prod.fst, OrderedSet.pairwise_map_fst.mp m.sorted⟩

theorem mem_keys {m : OrdMap κ ν} {k : κ} : k ∈ keys m ↔ ∃ v, (k, v) ∈ m := by
  change k ∈ m.toList.map Prod.fst ↔ _
  simp [OrderedSet.mem_def]

theorem size_keys (m : OrdMap κ ν) : (keys m).size = m.size := List.length_map ..

end OrdMap

end FormalLanguages
