import FormalLanguages.Library.Computation
import Mathlib.Data.Finset.Card
import Mathlib.Data.List.Pairwise
import Mathlib.Order.WithBot

/-! # Ordered sets and maps, and loops over a set that grows

A set is the list of its elements in strictly increasing order of their keys, so it
holds at most one element of each key. -/

namespace FormalLanguages

/-- The elements in strictly increasing order of `key`. -/
structure OrderedSet {α κ : Type} [LinearOrder κ] (key : α → κ) where
  toList : List α
  sorted : toList.Pairwise fun a b => key a < key b

namespace OrderedSet

variable {ε α κ ν σ : Type} [LinearOrder κ] {key : α → κ}

instance : Membership α (OrderedSet key) := ⟨fun s x => x ∈ s.toList⟩

instance [DecidableEq α] (s : OrderedSet key) (x : α) : Decidable (x ∈ s) :=
  inferInstanceAs (Decidable (x ∈ s.toList))

theorem mem_def {s : OrderedSet key} {x : α} : x ∈ s ↔ x ∈ s.toList := Iff.rfl

instance : EmptyCollection (OrderedSet key) := ⟨⟨[], .nil⟩⟩

@[simp] theorem toList_empty : (∅ : OrderedSet key).toList = [] := rfl

@[simp] theorem notMem_empty {x : α} : x ∉ (∅ : OrderedSet key) := List.not_mem_nil

@[ext] theorem ext {s t : OrderedSet key} (h : s.toList = t.toList) : s = t := by
  cases s
  cases t
  cases h
  rfl

/-- Elements of one set with equal keys are equal. -/
theorem eq_of_key_eq {s : OrderedSet key} {x y : α} (hx : x ∈ s) (hy : y ∈ s)
    (h : key x = key y) : x = y := by
  obtain ⟨l, hl⟩ := s
  change x ∈ l at hx
  change y ∈ l at hy
  induction hl with
  | nil => cases hx
  | cons hz _ ih =>
      rcases List.mem_cons.mp hx with hx' | hx' <;> rcases List.mem_cons.mp hy with hy' | hy'
      · rw [hx', hy']
      · exact absurd (hz y hy') (by simp [← hx', h])
      · exact absurd (hz x hx') (by simp [← hy', h])
      · exact ih hx' hy'

/-! ## Insertion and search -/

def insertList (key : α → κ) (x : α) : List α → List α
  | [] => [x]
  | y :: ys =>
      if key x < key y then x :: y :: ys
      else if key y < key x then y :: insertList key x ys
      else y :: ys

theorem mem_insertList {x y : α} {l : List α} (h : y ∈ insertList key x l) :
    y = x ∨ y ∈ l := by
  induction l with
  | nil => simpa [insertList] using h
  | cons z zs ih =>
      rw [insertList] at h
      split at h
      · simpa using h
      · split at h
        · rcases List.mem_cons.mp h with rfl | h
          · simp
          · rcases ih h with rfl | h <;> simp [*]
        · exact .inr h

theorem pairwise_insertList {x : α} {l : List α} (h : l.Pairwise fun a b => key a < key b) :
    (insertList key x l).Pairwise fun a b => key a < key b := by
  induction h with
  | nil => simp [insertList]
  | @cons y ys hy hys ih =>
      rw [insertList]
      split
      · rename_i hxy
        refine List.pairwise_cons.mpr ⟨?_, List.pairwise_cons.mpr ⟨hy, hys⟩⟩
        intro z hz
        rcases List.mem_cons.mp hz with rfl | hz
        · exact hxy
        · exact hxy.trans (hy z hz)
      · split
        · rename_i hyx
          refine List.pairwise_cons.mpr ⟨?_, ih⟩
          intro z hz
          rcases mem_insertList hz with rfl | hz
          · exact hyx
          · exact hy z hz
        · exact List.pairwise_cons.mpr ⟨hy, hys⟩

/-- Insert an element, unless one with the same key is there. -/
def insert (x : α) (s : OrderedSet key) : OrderedSet key :=
  ⟨insertList key x s.toList, pairwise_insertList s.sorted⟩

theorem mem_insertList_of_mem {x y : α} {l : List α} (h : y ∈ l) : y ∈ insertList key x l := by
  induction l with
  | nil => cases h
  | cons z zs ih =>
      rw [insertList]
      split
      · exact List.mem_cons_of_mem _ h
      · split
        · rcases List.mem_cons.mp h with rfl | h
          · simp
          · exact List.mem_cons_of_mem _ (ih h)
        · exact h

theorem mem_insert_of_mem {x y : α} {s : OrderedSet key} (h : y ∈ s) : y ∈ s.insert x :=
  mem_insertList_of_mem h

theorem mem_insert_self_or {x : α} {l : List α} :
    x ∈ insertList key x l ∨ ∃ y ∈ l, key y = key x := by
  induction l with
  | nil => simp [insertList]
  | cons z zs ih =>
      rw [insertList]
      split
      · simp
      · split
        · rcases ih with h | ⟨y, hy, hk⟩
          · exact .inl (List.mem_cons_of_mem _ h)
          · exact .inr ⟨y, List.mem_cons_of_mem _ hy, hk⟩
        · rename_i h h'
          exact .inr ⟨z, by simp, le_antisymm (not_lt.mp h) (not_lt.mp h')⟩

/-- Inserting an element whose key is new adds exactly that element. -/
theorem mem_insert_of_new {x y : α} {s : OrderedSet key} (h : ∀ z ∈ s, key z ≠ key x) :
    y ∈ s.insert x ↔ y = x ∨ y ∈ s := by
  refine ⟨mem_insertList, ?_⟩
  intro hcases
  rcases hcases with rfl | hy
  · have hself : y ∈ insertList key y s.toList ∨ ∃ z ∈ s.toList, key z = key y :=
      mem_insert_self_or
    rcases hself with hx | ⟨z, hz, hk⟩
    · exact hx
    · exact absurd hk (h z hz)
  · exact mem_insert_of_mem hy

/-- The element with a given key. -/
def find? (k : κ) (s : OrderedSet key) : Option α := s.toList.find? fun x => decide (key x = k)

theorem find?_eq_some {k : κ} {s : OrderedSet key} {x : α} :
    s.find? k = some x ↔ x ∈ s ∧ key x = k := by
  constructor
  · intro h
    exact ⟨List.mem_of_find?_eq_some h, by simpa using List.find?_some h⟩
  · intro hex
    rcases hex with ⟨hx, hk⟩
    cases h : s.find? k with
    | none =>
        have hn := List.find?_eq_none.mp h x hx
        simp [hk] at hn
    | some y =>
        have hy : key y = k := by simpa using List.find?_some h
        rw [eq_of_key_eq (List.mem_of_find?_eq_some h) hx (hy.trans hk.symm)]

theorem find?_eq_none {k : κ} {s : OrderedSet key} :
    s.find? k = none ↔ ∀ x ∈ s, key x ≠ k := by
  simp [find?, List.find?_eq_none, mem_def]

def contains (k : κ) (s : OrderedSet key) : Bool := (s.find? k).isSome

theorem contains_iff {k : κ} {s : OrderedSet key} :
    s.contains k = true ↔ ∃ x ∈ s, key x = k := by
  rw [contains, Option.isSome_iff_exists]
  simp only [find?_eq_some]

def size (s : OrderedSet key) : ℕ := s.toList.length

theorem length_insertList_of_new {x : α} {l : List α} (h : ∀ z ∈ l, key z ≠ key x) :
    (insertList key x l).length = l.length + 1 := by
  induction l with
  | nil => rfl
  | cons y ys ih =>
      rw [insertList]
      split
      · rfl
      · split
        · simp [ih fun z hz => h z (List.mem_cons_of_mem _ hz)]
        · rename_i hxy hyx
          exact absurd (le_antisymm (not_lt.mp hxy) (not_lt.mp hyx)) (h y (by simp))

theorem size_insert_of_new {s : OrderedSet key} {x : α} (h : ∀ z ∈ s, key z ≠ key x) :
    (s.insert x).size = s.size + 1 :=
  length_insertList_of_new h

theorem nodup_toList (s : OrderedSet key) : s.toList.Nodup :=
  s.sorted.imp fun hlt heq => absurd hlt (by rw [heq]; exact lt_irrefl _)

/-- The elements of a list, inserted one after another. -/
def ofList (key : α → κ) (l : List α) : OrderedSet key := l.foldl (fun s x => s.insert x) ∅

/-! ## Ordered maps -/

def alterList (k : κ) (fresh : ν) (f : ν → ν) : List (κ × ν) → List (κ × ν)
  | [] => [(k, f fresh)]
  | p :: ps =>
      if k < p.1 then (k, f fresh) :: p :: ps
      else if p.1 < k then p :: alterList k fresh f ps
      else (p.1, f p.2) :: ps

theorem keys_alterList {k : κ} {fresh : ν} {f : ν → ν} {l : List (κ × ν)} :
    (alterList k fresh f l).map Prod.fst = insertList id k (l.map Prod.fst) := by
  induction l with
  | nil => rfl
  | cons p ps ih =>
      simp only [alterList, List.map_cons, insertList, id_eq]
      split
      · rfl
      · split
        · simp [ih]
        · rfl

theorem pairwise_map_fst {l : List (κ × ν)} :
    l.Pairwise (fun a b => a.1 < b.1) ↔ (l.map Prod.fst).Pairwise (fun a b => id a < id b) := by
  rw [List.pairwise_map]
  rfl

/-- `m[k]` where a missing key is first given the value `fresh`; the value is then
changed by `f`. -/
def alter (k : κ) (fresh : ν) (f : ν → ν) (m : OrderedSet (Prod.fst : κ × ν → κ)) :
    OrderedSet (Prod.fst : κ × ν → κ) :=
  ⟨alterList k fresh f m.toList, by
    rw [pairwise_map_fst, keys_alterList]
    exact pairwise_insertList (pairwise_map_fst.mp m.sorted)⟩

theorem mem_alterList {k k' : κ} {v : ν} {fresh : ν} {f : ν → ν} {l : List (κ × ν)}
    (hl : l.Pairwise fun a b => a.1 < b.1) :
    (k', v) ∈ alterList k fresh f l ↔
      (k' ≠ k ∧ (k', v) ∈ l) ∨
      (k' = k ∧ ((∃ u, (k, u) ∈ l ∧ v = f u) ∨ ((∀ u, (k, u) ∉ l) ∧ v = f fresh))) := by
  induction hl with
  | nil => simp [alterList]
  | @cons p ps hp hps ih =>
      obtain ⟨a, b⟩ := p
      rw [alterList]
      have hlt : ∀ u, (a, u) ∉ ps := fun u hu => absurd (hp _ hu) (lt_irrefl a)
      split
      · rename_i hka
        have hk : ∀ u, (k, u) ∉ ps := fun u hu => absurd (hp _ hu) (not_lt.mpr (le_of_lt hka))
        have hne : k ≠ a := ne_of_lt hka
        by_cases hkk : k' = k
        · subst hkk
          simp [hk, hne]
        · simp [hkk]
      · split
        · rename_i hak
          have hne : a ≠ k := ne_of_lt hak
          simp only [List.mem_cons, ih, Prod.mk.injEq]
          by_cases hkk : k' = k
          · subst hkk
            simp [hne.symm]
          · simp [hkk]
        · rename_i h h'
          obtain rfl : k = a := le_antisymm (not_lt.mp h') (not_lt.mp h)
          by_cases hkk : k' = k
          · subst hkk
            simp [hlt]
          · simp [hkk]

/-! ## Iterating over a set that grows

The iterator of an ordered set moves to the next larger key, so what is inserted behind
it is not met any more and what is inserted ahead of it is. -/

/-- The first element whose key is beyond the cursor. -/
def nextAfter (cursor : WithBot κ) (s : OrderedSet key) : Option α :=
  s.toList.find? fun x => decide (cursor < (key x : WithBot κ))

theorem nextAfter_eq_none {cursor : WithBot κ} {s : OrderedSet key} :
    s.nextAfter cursor = none ↔ ∀ x ∈ s, (key x : WithBot κ) ≤ cursor := by
  simp [nextAfter, List.find?_eq_none, mem_def]

theorem nextAfter_eq_some {cursor : WithBot κ} {s : OrderedSet key} {x : α}
    (h : s.nextAfter cursor = some x) :
    x ∈ s ∧ cursor < (key x : WithBot κ) ∧
      ∀ y ∈ s, cursor < (key y : WithBot κ) → key x ≤ key y := by
  obtain ⟨hx, l, r, hl, hall⟩ := List.find?_eq_some_iff_append.mp h
  have hmem : ∀ y, y ∈ s ↔ y ∈ l ++ x :: r := by
    intro y
    rw [mem_def, hl]
  refine ⟨(hmem x).mpr (by simp), by simpa using hx, ?_⟩
  intro y hy hcy
  have hs := s.sorted
  rw [hl] at hs
  rcases List.mem_append.mp ((hmem y).mp hy) with hy | hy
  · have := hall y hy
    simp only [Bool.not_eq_eq_eq_not, Bool.not_true, decide_eq_false_iff_not] at this
    exact absurd hcy this
  · rcases List.mem_cons.mp hy with rfl | hy
    · exact le_rfl
    · exact le_of_lt (List.rel_of_pairwise_cons (List.pairwise_append.mp hs).2.1 hy)

/-- `for (auto &x : set) body(x)` where the body may insert into the set. -/
def forLive (view : σ → OrderedSet key) (body : α → σ → Comp ε σ) (s : σ) : Comp ε σ :=
  Comp.loop (fun p : WithBot κ × σ =>
    match (view p.2).nextAfter p.1 with
    | none => pure (.inr p.2)
    | some x => do
        let s' ← body x p.2
        pure (.inl ((key x : WithBot κ), s'))) (⊥, s)

/-- Every element present at the start is visited. `P x` is what the visit of `x`
establishes and later visits keep. -/
theorem forLive_ensures (view : σ → OrderedSet key) (body : α → σ → Comp ε σ)
    (Inv : σ → Prop) (P : α → σ → Prop) (bound : Finset κ)
    (hbound : ∀ s, Inv s → ∀ x ∈ view s, key x ∈ bound)
    (hbody : ∀ x s, Inv s → x ∈ view s → (body x s).Ensures fun s' =>
      Inv s' ∧ (∀ y ∈ view s, y ∈ view s') ∧ P x s' ∧ ∀ y, P y s → P y s')
    {s : σ} (hs : Inv s) :
    (forLive view body s).Ensures fun s' =>
      Inv s' ∧ (∀ y ∈ view s, y ∈ view s') ∧ ∀ y ∈ view s, P y s' := by
  refine Comp.loop_ensures_measure
    (fun p : WithBot κ × σ => Inv p.2 ∧ (∀ y ∈ view s, y ∈ view p.2) ∧
      ∀ y ∈ view s, (key y : WithBot κ) ≤ p.1 → P y p.2)
    (fun p => (bound.filter fun k : κ => p.1 < (k : WithBot κ)).card) ?_
    ⟨hs, fun y hy => hy, fun y _ hy => absurd hy (by simp)⟩
  intro h hex
  rcases h with ⟨cursor, t⟩
  rcases hex with ⟨ht, hsub, hP⟩
  cases hnext : (view t).nextAfter cursor with
  | none =>
      simp only
      refine Comp.ensures_pure.mpr ⟨ht, hsub, fun y hy => hP y hy ?_⟩
      exact nextAfter_eq_none.mp hnext y (hsub y hy)
  | some x =>
      obtain ⟨hx, hcx, hmin⟩ := nextAfter_eq_some hnext
      simp only
      refine Comp.ensures_bind.mpr ((hbody x t ht hx).mono ?_)
      intro t' h
      rcases h with ⟨ht', hgrow, hPx, hkeep⟩
      refine Comp.ensures_pure.mpr ⟨⟨ht', fun y hy => hgrow y (hsub y hy), ?_⟩, ?_⟩
      · intro y hy hyx
        by_cases hyc : (key y : WithBot κ) ≤ cursor
        · exact hkeep y (hP y hy hyc)
        · have hle := hmin y (hsub y hy) (not_le.mp hyc)
          have heq : key y = key x := le_antisymm (WithBot.coe_le_coe.mp hyx) hle
          rwa [eq_of_key_eq (hsub y hy) hx heq]
      · apply Finset.card_lt_card
        rw [Finset.ssubset_iff_of_subset]
        · refine ⟨key x, ?_, by simp⟩
          simp [hbound t ht x hx, hcx]
        · intro k hk
          simp only [Finset.mem_filter] at hk ⊢
          exact ⟨hk.1, hcx.trans hk.2⟩

/-! ## Iterating until nothing is added -/

/-- A step from set `s` and flag `b` to set `t` and flag `c`, where the flag is raised
exactly when something is added. -/
structure Grows (s t : OrderedSet key) (b c : Bool) : Prop where
  sub : ∀ x ∈ s, x ∈ t
  new : c = true → b = true ∨ ∃ x ∈ t, x ∉ s
  same : c = false → b = false ∧ ∀ x ∈ t, x ∈ s

theorem Grows.refl (s : OrderedSet key) (b : Bool) : Grows s s b b :=
  ⟨fun _ h => h, .inl, fun h => ⟨h, fun _ h => h⟩⟩

theorem Grows.trans {s t u : OrderedSet key} {b c d : Bool} (h : Grows s t b c)
    (h' : Grows t u c d) : Grows s u b d where
  sub x hx := h'.sub x (h.sub x hx)
  new hd := by
    rcases h'.new hd with hc | ⟨x, hx, hxt⟩
    · rcases h.new hc with hb | ⟨x, hx, hxs⟩
      · exact .inl hb
      · exact .inr ⟨x, h'.sub x hx, hxs⟩
    · exact .inr ⟨x, hx, fun hxs => hxt (h.sub x hxs)⟩
  same hd := by
    obtain ⟨hc, hut⟩ := h'.same hd
    obtain ⟨hb, hts⟩ := h.same hc
    exact ⟨hb, fun x hx => hts x (hut x hx)⟩

theorem grows_insert {s : OrderedSet key} {x : α} (b : Bool) (h : ∀ z ∈ s, key z ≠ key x) :
    Grows s (s.insert x) b true where
  sub _ hy := mem_insert_of_mem hy
  new _ := .inr ⟨x, (mem_insert_of_new h).mpr (.inl rfl), fun hx => h x hx rfl⟩
  same hc := by cases hc

/-- `do { changed = false; for (auto &x : set) body(x, changed); } while (changed);` -/
def saturate (view : σ → OrderedSet key) (body : α → σ × Bool → Comp ε (σ × Bool)) (s : σ) :
    Comp ε σ :=
  Comp.loop (fun s => do
    let p ← forLive (fun p : σ × Bool => view p.1) body (s, false)
    pure (if p.2 then .inl p.1 else .inr p.1)) s

/-- The passes end, and in the last one every element of the final set was visited. -/
theorem saturate_ensures (view : σ → OrderedSet key) (body : α → σ × Bool → Comp ε (σ × Bool))
    (Inv : σ → Prop) (P : α → σ → Prop) (bound : Finset κ)
    (hbound : ∀ s, Inv s → ∀ x ∈ view s, key x ∈ bound)
    (hbody : ∀ x p, Inv p.1 → x ∈ view p.1 → (body x p).Ensures fun p' =>
      Inv p'.1 ∧ Grows (view p.1) (view p'.1) p.2 p'.2 ∧ P x p'.1 ∧ ∀ y, P y p.1 → P y p'.1)
    {s : σ} (hs : Inv s) :
    (saturate view body s).Ensures fun s' => Inv s' ∧ ∀ x ∈ view s', P x s' := by
  classical
  refine Comp.loop_ensures_measure Inv
    (fun s => (bound.filter fun k => ∀ x ∈ view s, key x ≠ k).card) ?_ hs
  intro t ht
  have hpass := forLive_ensures (fun p : σ × Bool => view p.1) body
    (fun p => Inv p.1 ∧ Grows (view t) (view p.1) false p.2) (fun x p => P x p.1) bound
    (fun p hp => hbound p.1 hp.1)
    (fun x p hp hx => (hbody x p hp.1 hx).mono fun p' h =>
      ⟨⟨h.1, hp.2.trans h.2.1⟩, h.2.1.sub, h.2.2.1, h.2.2.2⟩)
    (s := (t, false)) ⟨ht, .refl _ _⟩
  refine Comp.ensures_bind.mpr (hpass.mono ?_)
  intro hex hex'
  rcases hex with ⟨u, changed⟩
  rcases hex' with ⟨⟨hu, hgrow⟩, hsub, hP⟩
  refine Comp.ensures_pure.mpr ?_
  cases changed with
  | true =>
      refine ⟨hu, ?_⟩
      obtain ⟨x, hx, hxt⟩ := (hgrow.new rfl).resolve_left (by simp)
      apply Finset.card_lt_card
      rw [Finset.ssubset_iff_of_subset]
      · refine ⟨key x, ?_, ?_⟩
        · refine Finset.mem_filter.mpr ⟨hbound u hu x hx, fun y hy hyx => hxt ?_⟩
          rwa [← eq_of_key_eq (hsub y hy) hx hyx]
        · intro hm
          exact (Finset.mem_filter.mp hm).2 x hx rfl
      · intro k hk
        obtain ⟨hkb, hkn⟩ := Finset.mem_filter.mp hk
        exact Finset.mem_filter.mpr ⟨hkb, fun y hy => hkn y (hsub y hy)⟩
  | false => exact ⟨hu, fun x hx => hP x ((hgrow.same rfl).2 x hx)⟩

end OrderedSet

/-- `std::set<T>` with the order of `T` itself. -/
abbrev OrdSet (α : Type) [LinearOrder α] := OrderedSet (id : α → α)

/-- `std::map<K, V>`. -/
abbrev OrdMap (κ ν : Type) [LinearOrder κ] := OrderedSet (Prod.fst : κ × ν → κ)

namespace OrdSet

variable {α : Type} [LinearOrder α]

@[simp] theorem mem_insert {x y : α} {s : OrdSet α} : y ∈ s.insert x ↔ y = x ∨ y ∈ s := by
  by_cases h : ∀ z ∈ s, id z ≠ id x
  · exact OrderedSet.mem_insert_of_new h
  · push Not at h
    obtain ⟨z, hz, hzx⟩ := h
    obtain rfl : z = x := hzx
    constructor
    · exact OrderedSet.mem_insertList
    · intro hcases
      rcases hcases with rfl | hy
      · exact OrderedSet.mem_insert_of_mem hz
      · exact OrderedSet.mem_insert_of_mem hy

@[simp] theorem contains_iff {x : α} {s : OrdSet α} : s.contains x = true ↔ x ∈ s := by
  simp [OrderedSet.contains_iff]

theorem mem_foldl_insert {x : α} {l : List α} {s : OrdSet α} :
    x ∈ l.foldl (fun s y => s.insert y) s ↔ x ∈ s ∨ x ∈ l := by
  induction l generalizing s with
  | nil => simp
  | cons y ys ih =>
      rw [List.foldl_cons, ih, mem_insert, List.mem_cons]
      tauto

@[simp] theorem mem_ofList {x : α} {l : List α} : x ∈ OrderedSet.ofList id l ↔ x ∈ l := by
  rw [OrderedSet.ofList, mem_foldl_insert]
  simp

/-- Sets with the same elements are the same list. -/
theorem ext_mem {s t : OrdSet α} (h : ∀ x, x ∈ s ↔ x ∈ t) : s = t := by
  apply OrderedSet.ext
  have hs : s.toList.Pairwise (· < ·) := s.sorted
  have ht : t.toList.Pairwise (· < ·) := t.sorted
  have hp : s.toList.Perm t.toList := by
    rw [List.perm_ext_iff_of_nodup (hs.imp fun h => ne_of_lt h) (ht.imp fun h => ne_of_lt h)]
    exact h
  exact hp.eq_of_pairwise (fun a b _ _ hab hba => absurd hab (lt_asymm hba)) hs ht

end OrdSet

end FormalLanguages
