import Mathlib.Logic.Relation
import Mathlib.Order.WellFounded

/-! # Computations that may fail or run for ever

A computation is given by what it has produced after a number of units of fuel. More
fuel never changes an outcome, so `Returns` and `Throws` speak of the computation itself. -/

namespace FormalLanguages

/-- The outcome after `n` units of fuel, or `none` while the computation still runs. -/
structure Comp (ε α : Type) where
  run : ℕ → Option (Except ε α)
  mono : ∀ {m n : ℕ} {o : Except ε α}, m ≤ n → run m = some o → run n = some o

namespace Comp

variable {ε α β σ σ' ρ ρ' : Type}

/-! ## The operations -/

/-- The computation that is already done. -/
protected def pure (a : α) : Comp ε α :=
  ⟨fun _ => some (.ok a), fun _ h => h⟩

/-- The computation that fails, with the fault it fails with. -/
def throw (e : ε) : Comp ε α :=
  ⟨fun _ => some (.error e), fun _ h => h⟩

/-- The computation that never ends. -/
def diverge : Comp ε α :=
  ⟨fun _ => none, fun _ h => h⟩

/-- Sequencing at a fixed amount of fuel. -/
def bindRun (o : Option (Except ε α)) (f : α → Option (Except ε β)) : Option (Except ε β) :=
  match o with
  | none => none
  | some (.error e) => some (.error e)
  | some (.ok a) => f a

protected def bind (c : Comp ε α) (f : α → Comp ε β) : Comp ε β where
  run n := bindRun (c.run n) fun a => (f a).run n
  mono {m n o} hmn h := by
    cases hc : c.run m with
    | none => simp [bindRun, hc] at h
    | some r =>
        rw [c.mono hmn hc]
        cases r with
        | error e => simpa [bindRun, hc] using h
        | ok a =>
            simp only [bindRun, hc] at h ⊢
            exact (f a).mono hmn h

instance : Monad (Comp ε) where
  pure := Comp.pure
  bind := Comp.bind

/-- `assert(condition)`: go on when the condition holds, fail otherwise. -/
def assert (condition : Bool) (e : ε) : Comp ε Unit :=
  if condition then pure () else throw e

/-- At most `k` rounds of a loop, each with `n` units of fuel. A round either goes on
with a new state or ends the loop with a result. -/
def loopRun (body : σ → Comp ε (σ ⊕ ρ)) (n : ℕ) : ℕ → σ → Option (Except ε ρ)
  | 0, _ => none
  | k + 1, s =>
      bindRun ((body s).run n) fun
        | .inl s' => loopRun body n k s'
        | .inr r => some (.ok r)

theorem loopRun_mono (body : σ → Comp ε (σ ⊕ ρ)) {m n k l : ℕ} (hmn : m ≤ n) (hkl : k ≤ l)
    {s : σ} {o : Except ε ρ} (h : loopRun body m k s = some o) :
    loopRun body n l s = some o := by
  induction k generalizing l s with
  | zero => simp [loopRun] at h
  | succ k ih =>
      obtain ⟨l, rfl⟩ : ∃ l', l = l' + 1 := ⟨l - 1, by omega⟩
      simp only [loopRun] at h ⊢
      cases hb : (body s).run m with
      | none => simp [bindRun, hb] at h
      | some r =>
          rw [(body s).mono hmn hb]
          cases r with
          | error e => simpa [bindRun, hb] using h
          | ok t =>
              cases t with
              | inl s' =>
                  simp only [bindRun, hb] at h ⊢
                  exact ih (by omega) h
              | inr r => simpa [bindRun, hb] using h

/-- Repeat a body from a start state until it yields a result. -/
def loop (body : σ → Comp ε (σ ⊕ ρ)) (s : σ) : Comp ε ρ where
  run n := loopRun body n n s
  mono hmn h := loopRun_mono body hmn hmn h

/-! ## Outcomes -/

/-- The computation ends with this outcome. -/
def Finishes (c : Comp ε α) (o : Except ε α) : Prop := ∃ n, c.run n = some o

/-- The computation ends without a fault and returns `a`. -/
def Returns (c : Comp ε α) (a : α) : Prop := c.Finishes (.ok a)

/-- The computation ends with the fault `e`. -/
def Throws (c : Comp ε α) (e : ε) : Prop := c.Finishes (.error e)

/-- Total correctness: the computation returns, and what it returns satisfies `Q`. -/
def Ensures (c : Comp ε α) (Q : α → Prop) : Prop := ∃ a, c.Returns a ∧ Q a

theorem Finishes.unique {c : Comp ε α} {o o' : Except ε α} (h : c.Finishes o)
    (h' : c.Finishes o') : o = o' := by
  obtain ⟨m, hm⟩ := h
  obtain ⟨n, hn⟩ := h'
  have hm' := c.mono (Nat.le_max_left m n) hm
  have hn' := c.mono (Nat.le_max_right m n) hn
  exact Option.some.inj (hm'.symm.trans hn')

theorem Returns.unique {c : Comp ε α} {a a' : α} (h : c.Returns a) (h' : c.Returns a') :
    a = a' :=
  Except.ok.inj (Finishes.unique h h')

theorem Returns.not_throws {c : Comp ε α} {a : α} {e : ε} (h : c.Returns a) : ¬c.Throws e := by
  intro h'
  cases Finishes.unique h h'

theorem Ensures.of_returns {c : Comp ε α} {Q : α → Prop} {a : α} (h : c.Ensures Q)
    (ha : c.Returns a) : Q a := by
  obtain ⟨b, hb, hQ⟩ := h
  rwa [ha.unique hb]

theorem Ensures.mono {c : Comp ε α} {P Q : α → Prop} (h : c.Ensures P)
    (hPQ : ∀ a, P a → Q a) : c.Ensures Q := by
  obtain ⟨a, ha, hP⟩ := h
  exact ⟨a, ha, hPQ a hP⟩

theorem Ensures.and {c : Comp ε α} {P Q : α → Prop} (h : c.Ensures P) (h' : c.Ensures Q) :
    c.Ensures fun a => P a ∧ Q a := by
  obtain ⟨a, ha, hP⟩ := h
  exact ⟨a, ha, hP, h'.of_returns ha⟩

/-- A total computation that decides `P` returns `true` exactly when `P` holds. -/
theorem Ensures.returns_true_iff {c : Comp ε Bool} {P : Prop}
    (h : c.Ensures fun b => b = true ↔ P) : c.Returns true ↔ P := by
  obtain ⟨b, hb, hP⟩ := h
  rw [← hP]
  exact ⟨fun ht => hb.unique ht, fun ht => ht ▸ hb⟩

theorem Ensures.returns_false_iff {c : Comp ε Bool} {P : Prop}
    (h : c.Ensures fun b => b = true ↔ P) : c.Returns false ↔ ¬P := by
  obtain ⟨b, hb, hP⟩ := h
  rw [← hP, Bool.not_eq_true]
  exact ⟨fun ht => hb.unique ht, fun ht => ht ▸ hb⟩

/-- Two computations that decide the same return the same. -/
theorem Ensures.returns_same {c d : Comp ε Bool} {P : Prop}
    (hc : c.Ensures fun b => b = true ↔ P) (hd : d.Ensures fun b => b = true ↔ P) :
    c.Ensures fun b => d.Returns b := by
  apply hc.mono
  intro b hb
  obtain ⟨b', hret, hb'⟩ := hd
  have hbb : b' = b := Bool.eq_iff_iff.mpr (hb'.trans hb.symm)
  rwa [← hbb]

/-! ## Rules for the operations -/

@[simp] theorem returns_pure {a b : α} : (pure a : Comp ε α).Returns b ↔ b = a := by
  constructor
  · intro h
    rcases h with ⟨n, h⟩
    cases h
    rfl
  · intro heq
    subst heq
    exact ⟨0, rfl⟩

@[simp] theorem returns_throw {e : ε} {a : α} : ¬(throw e : Comp ε α).Returns a := by
  intro h
  rcases h with ⟨n, h⟩
  cases h

theorem returns_bind {c : Comp ε α} {f : α → Comp ε β} {b : β} :
    (c >>= f).Returns b ↔ ∃ a, c.Returns a ∧ (f a).Returns b := by
  constructor
  · intro h
    rcases h with ⟨n, h⟩
    change bindRun (c.run n) (fun a => (f a).run n) = _ at h
    cases hc : c.run n with
    | none => simp [bindRun, hc] at h
    | some r =>
        cases r with
        | error e => simp [bindRun, hc] at h
        | ok a => exact ⟨a, ⟨n, hc⟩, ⟨n, by simpa [bindRun, hc] using h⟩⟩
  · intro hex
    rcases hex with ⟨a, ⟨m, hm⟩, ⟨n, hn⟩⟩
    refine ⟨max m n, ?_⟩
    change bindRun (c.run (max m n)) (fun a => (f a).run (max m n)) = _
    rw [c.mono (Nat.le_max_left m n) hm]
    exact (f a).mono (Nat.le_max_right m n) hn

@[simp] theorem pure_bind {a : α} {f : α → Comp ε β} : (pure a >>= f) = f a := rfl

theorem ext_run {c d : Comp ε α} (h : ∀ n, c.run n = d.run n) : c = d := by
  cases c
  cases d
  cases funext h
  rfl

theorem bind_assoc {γ : Type} {c : Comp ε α} {f : α → Comp ε β} {g : β → Comp ε γ} :
    ((c >>= f) >>= g) = (c >>= fun a => f a >>= g) := by
  apply ext_run
  intro n
  change bindRun (bindRun (c.run n) fun a => (f a).run n) (fun b => (g b).run n) =
    bindRun (c.run n) fun a => bindRun ((f a).run n) fun b => (g b).run n
  cases c.run n with
  | none => rfl
  | some o => cases o <;> rfl

/-- Continuations that agree on what is returned can be exchanged. -/
theorem bind_congr_of_returns {c : Comp ε α} {f g : α → Comp ε β}
    (h : ∀ a, c.Returns a → f a = g a) : (c >>= f) = (c >>= g) := by
  apply ext_run
  intro n
  change bindRun (c.run n) (fun a => (f a).run n) = bindRun (c.run n) fun a => (g a).run n
  cases hc : c.run n with
  | none => rfl
  | some o =>
      cases o with
      | error e => rfl
      | ok a => simp only [bindRun, h a ⟨n, hc⟩]

theorem throws_throw (e : ε) : (throw e : Comp ε α).Throws e := ⟨0, rfl⟩

theorem throws_bind {c : Comp ε α} {f : α → Comp ε β} {e : ε} (h : c.Throws e) :
    (c >>= f).Throws e := by
  obtain ⟨n, hn⟩ := h
  refine ⟨n, ?_⟩
  change bindRun (c.run n) (fun a => (f a).run n) = _
  rw [hn]
  rfl

/-- Behind a computation that returns, the outcome is that of the rest. -/
theorem Returns.finishes_bind {c : Comp ε α} {f : α → Comp ε β} {a : α} {o : Except ε β}
    (h : c.Returns a) : (c >>= f).Finishes o ↔ (f a).Finishes o := by
  obtain ⟨m, hm⟩ := h
  have hrun : ∀ n, m ≤ n → (c >>= f).run n = (f a).run n := by
    intro n hmn
    change bindRun (c.run n) (fun a => (f a).run n) = _
    rw [c.mono hmn hm]
    rfl
  constructor
  · intro hex
    obtain ⟨n, hn⟩ := hex
    refine ⟨max m n, ?_⟩
    rw [← hrun _ (Nat.le_max_left m n)]
    exact (c >>= f).mono (Nat.le_max_right m n) hn
  · intro hex
    obtain ⟨n, hn⟩ := hex
    refine ⟨max m n, ?_⟩
    rw [hrun _ (Nat.le_max_left m n)]
    exact (f a).mono (Nat.le_max_right m n) hn

/-- A function applied at the end acts on the outcome. -/
theorem Finishes.bind_pure {c : Comp ε α} {o : Except ε α} (h : c.Finishes o) (f : α → β) :
    (c >>= fun a => pure (f a)).Finishes (o.map f) := by
  cases o with
  | error e => exact throws_bind h
  | ok a => exact Returns.finishes_bind h |>.mpr (returns_pure.mpr rfl)

theorem ensures_pure {a : α} {Q : α → Prop} : (pure a : Comp ε α).Ensures Q ↔ Q a := by
  simp [Ensures]

theorem ensures_bind {c : Comp ε α} {f : α → Comp ε β} {Q : β → Prop} :
    (c >>= f).Ensures Q ↔ c.Ensures fun a => (f a).Ensures Q := by
  constructor
  · intro h
    rcases h with ⟨b, hb, hQ⟩
    obtain ⟨a, ha, hb⟩ := returns_bind.mp hb
    exact ⟨a, ha, b, hb, hQ⟩
  · intro h
    rcases h with ⟨a, ha, b, hb, hQ⟩
    exact ⟨b, returns_bind.mpr ⟨a, ha, hb⟩, hQ⟩

@[simp] theorem returns_assert {condition : Bool} {e : ε} {u : Unit} :
    (assert condition e).Returns u ↔ condition = true := by
  rw [assert]
  split <;> simp_all

theorem ensures_assert {condition : Bool} {e : ε} {Q : Unit → Prop} :
    (assert condition e).Ensures Q ↔ condition = true ∧ Q () := by
  constructor
  · intro h
    rcases h with ⟨u, hu, hQ⟩
    exact ⟨returns_assert.mp hu, hQ⟩
  · intro h
    rcases h with ⟨hc, hQ⟩
    exact ⟨(), returns_assert.mpr hc, hQ⟩

/-- The rule for a fold: what holds of the elements met so far is kept by each step. -/
theorem foldlM_ensures {f : σ → α → Comp ε σ} (Inv : List α → σ → Prop) {l : List α} {s : σ}
    (hstep : ∀ done x rest s, l = done ++ x :: rest → Inv done s →
      (f s x).Ensures (Inv (done ++ [x])))
    (hs : Inv [] s) : (l.foldlM f s).Ensures (Inv l) := by
  suffices h : ∀ rest done s, l = done ++ rest → Inv done s →
      (rest.foldlM f s).Ensures (Inv l) from h l [] s rfl hs
  intro rest
  induction rest with
  | nil =>
      intro done s hl h
      rw [List.append_nil] at hl
      exact ensures_pure.mpr (hl ▸ h)
  | cons x rest ih =>
      intro done s hl h
      rw [List.foldlM_cons]
      exact ensures_bind.mpr ((hstep done x rest s hl h).mono fun s' hs' =>
        ih (done ++ [x]) s' (by simp [hl]) hs')

/-- What every step of the fold preserves holds of its result. -/
theorem foldlM_returns_of {f : σ → α → Comp ε σ} (Inv : σ → Prop) {l : List α} {s s' : σ}
    (hstep : ∀ t x t', Inv t → (f t x).Returns t' → Inv t') (hs : Inv s)
    (h : (l.foldlM f s).Returns s') : Inv s' := by
  induction l generalizing s with
  | nil =>
      cases returns_pure.mp h
      exact hs
  | cons x l ih =>
      rw [List.foldlM_cons] at h
      obtain ⟨t, ht, h⟩ := returns_bind.mp h
      exact ih (hstep s x t hs ht) h

/-- The rule for a fold over the numbers below `n`, with an invariant for each of them. -/
theorem foldlM_range_ensures {f : σ → ℕ → Comp ε σ} (Inv : ℕ → σ → Prop) {n : ℕ} {s : σ}
    (hstep : ∀ m < n, ∀ s, Inv m s → (f s m).Ensures (Inv (m + 1))) (hs : Inv 0 s) :
    ((List.range n).foldlM f s).Ensures (Inv n) := by
  have h := foldlM_ensures (f := f) (fun done => Inv done.length) (l := List.range n) (s := s)
    (fun done m rest t hl ht => by
      have hm : (List.range n)[done.length]? = some m := by
        rw [hl]
        simp
      obtain ⟨hlt, hget⟩ := List.getElem?_eq_some_iff.mp hm
      rw [List.getElem_range] at hget
      rw [List.length_range] at hlt
      rw [List.length_append, List.length_singleton, ← hget]
      exact hstep done.length hlt t ht) hs
  simpa only [List.length_range] using h

/-! ## Loops -/

/-- One round of the loop leads from `s` to `s'`. -/
def Next (body : σ → Comp ε (σ ⊕ ρ)) (s s' : σ) : Prop := (body s).Returns (.inl s')

/-- The states at which the loop started from `s` begins a round. -/
def Reaches (body : σ → Comp ε (σ ⊕ ρ)) : σ → σ → Prop := Relation.ReflTransGen (Next body)

theorem loop_returns_step {body : σ → Comp ε (σ ⊕ ρ)} {s : σ} {r : ρ} :
    (loop body s).Returns r ↔
      (body s).Returns (.inr r) ∨ ∃ s', Next body s s' ∧ (loop body s').Returns r := by
  constructor
  · intro h
    rcases h with ⟨n, h⟩
    cases n with
    | zero => cases h
    | succ n =>
        change bindRun ((body s).run (n + 1)) _ = _ at h
        cases hb : (body s).run (n + 1) with
        | none => simp [bindRun, hb] at h
        | some o =>
            cases o with
            | error e => simp [bindRun, hb] at h
            | ok t =>
                cases t with
                | inl s' =>
                    simp only [bindRun, hb] at h
                    exact .inr ⟨s', ⟨n + 1, hb⟩, n + 1, loopRun_mono body le_rfl (by omega) h⟩
                | inr r' =>
                    have hr : r' = r := by simpa [bindRun, hb] using h
                    exact .inl ⟨n + 1, hr ▸ hb⟩
  · intro hcases
    rcases hcases with ⟨n, hn⟩ | ⟨s', ⟨m, hm⟩, ⟨n, hn⟩⟩
    · refine ⟨n + 1, ?_⟩
      change bindRun ((body s).run (n + 1)) _ = _
      rw [(body s).mono (Nat.le_succ n) hn]
      rfl
    · refine ⟨max m n + 1, ?_⟩
      change bindRun ((body s).run (max m n + 1)) _ = _
      rw [(body s).mono (by omega) hm]
      exact loopRun_mono body (by omega) (by omega) hn

/-- A loop fails when a round does. -/
theorem loop_throws {body : σ → Comp ε (σ ⊕ ρ)} {s : σ} {e : ε} (h : (body s).Throws e) :
    (loop body s).Throws e := by
  obtain ⟨n, hn⟩ := h
  refine ⟨n + 1, ?_⟩
  change bindRun ((body s).run (n + 1)) _ = _
  rw [(body s).mono (Nat.le_succ n) hn]
  rfl

theorem loop_throws_of_next {body : σ → Comp ε (σ ⊕ ρ)} {s s' : σ} {e : ε}
    (hs : Next body s s') (h : (loop body s').Throws e) : (loop body s).Throws e := by
  obtain ⟨m, hm⟩ := hs
  obtain ⟨n, hn⟩ := h
  refine ⟨max m n + 1, ?_⟩
  change bindRun ((body s).run (max m n + 1)) _ = _
  rw [(body s).mono (by omega) hm]
  exact loopRun_mono body (by omega) (by omega) hn

theorem loopRun_reaches {body : σ → Comp ε (σ ⊕ ρ)} {n : ℕ} (k : ℕ) {s : σ} {r : ρ}
    (h : loopRun body n k s = some (.ok r)) :
    ∃ s', Reaches body s s' ∧ (body s').Returns (.inr r) := by
  induction k generalizing s with
  | zero => simp [loopRun] at h
  | succ k ih =>
      simp only [loopRun] at h
      cases hb : (body s).run n with
      | none => simp [bindRun, hb] at h
      | some o =>
          cases o with
          | error e => simp [bindRun, hb] at h
          | ok t =>
              cases t with
              | inl s' =>
                  simp only [bindRun, hb] at h
                  obtain ⟨t, ht, hr⟩ := ih h
                  exact ⟨t, .head ⟨n, hb⟩ ht, hr⟩
              | inr r' =>
                  have hr : r' = r := by simpa [bindRun, hb] using h
                  exact ⟨s, .refl, n, hr ▸ hb⟩

/-- A loop returns exactly what the body yields at some state the loop reaches. -/
theorem loop_returns_iff {body : σ → Comp ε (σ ⊕ ρ)} {s : σ} {r : ρ} :
    (loop body s).Returns r ↔ ∃ s', Reaches body s s' ∧ (body s').Returns (.inr r) := by
  constructor
  · intro h
    rcases h with ⟨n, h⟩
    exact loopRun_reaches n h
  · intro hex
    rcases hex with ⟨s', hs, hr⟩
    induction hs using Relation.ReflTransGen.head_induction_on with
    | refl => exact loop_returns_step.mpr (.inl hr)
    | head h _ ih => exact loop_returns_step.mpr (.inr ⟨_, h, ih⟩)

/-- What every round preserves holds of every state the loop reaches. -/
theorem Reaches.invariant {body : σ → Comp ε (σ ⊕ ρ)} (Inv : σ → Prop) {s s' : σ}
    (hstep : ∀ s s', Inv s → Next body s s' → Inv s') (h : Reaches body s s') (hs : Inv s) :
    Inv s' := by
  induction h with
  | refl => exact hs
  | tail _ h ih => exact hstep _ _ ih h

/-- The partial-correctness rule: every round keeps the invariant or ends with a good result. -/
theorem loop_returns_of {body : σ → Comp ε (σ ⊕ ρ)} (Inv : σ → Prop) (Q : ρ → Prop)
    (hstep : ∀ s x, Inv s → (body s).Returns x → Sum.elim Inv Q x) {s : σ} {r : ρ}
    (hs : Inv s) (hr : (loop body s).Returns r) : Q r := by
  obtain ⟨t, ht, hlast⟩ := loop_returns_iff.mp hr
  exact hstep t _ (ht.invariant Inv (fun u v hu hv => hstep u _ hu hv) hs) hlast

/-- The rule for two loops side by side: from related states the rounds lead to related
states, or both loops end with related results. -/
theorem loop_returns_rel {body : σ → Comp ε (σ ⊕ ρ)} {body' : σ' → Comp ε (σ' ⊕ ρ')}
    (R : σ → σ' → Prop) (Q : ρ → ρ' → Prop)
    (hnext : ∀ s t s', R s t → Next body s s' → ∃ t', Next body' t t' ∧ R s' t')
    (hend : ∀ s t r, R s t → (body s).Returns (.inr r) →
      ∃ r', (body' t).Returns (.inr r') ∧ Q r r')
    {s : σ} {t : σ'} {r : ρ} (hst : R s t) (hr : (loop body s).Returns r) :
    ∃ r', (loop body' t).Returns r' ∧ Q r r' := by
  obtain ⟨u, hu, hlast⟩ := loop_returns_iff.mp hr
  clear hr
  induction hu using Relation.ReflTransGen.head_induction_on generalizing t with
  | refl =>
      obtain ⟨r', hr', hQ⟩ := hend _ _ _ hst hlast
      exact ⟨r', loop_returns_step.mpr (.inl hr'), hQ⟩
  | head h _ ih =>
      obtain ⟨t', ht', hst'⟩ := hnext _ _ _ hst h
      obtain ⟨r', hr', hQ⟩ := ih hst'
      exact ⟨r', loop_returns_step.mpr (.inr ⟨t', ht', hr'⟩), hQ⟩

/-- From every state it reaches the loop still returns the same. -/
theorem Reaches.loop_returns {body : σ → Comp ε (σ ⊕ ρ)} {s s' : σ} {r : ρ}
    (h : Reaches body s s') (hr : (loop body s).Returns r) : (loop body s').Returns r := by
  induction h with
  | refl => exact hr
  | tail _ hstep ih =>
      rcases loop_returns_step.mp ih with hend | ⟨u, hu, hr⟩
      · cases hstep.unique hend
      · cases hstep.unique hu
        exact hr

/-- The total-correctness rule: the body keeps the invariant or ends with a good
result, and the rounds from the start state are well founded. -/
theorem loop_ensures {body : σ → Comp ε (σ ⊕ ρ)} {Q : ρ → Prop} (Inv : σ → Prop)
    (hstep : ∀ s, Inv s → (body s).Ensures (Sum.elim Inv Q)) {s : σ}
    (hacc : Acc (fun t s => Next body s t) s) (hs : Inv s) :
    (loop body s).Ensures Q := by
  induction hacc with
  | intro s _ ih =>
      obtain ⟨t, ht, hQ⟩ := hstep s hs
      cases t with
      | inl s' =>
          obtain ⟨r, hr, hQr⟩ := ih s' ht hQ
          exact ⟨r, loop_returns_step.mpr (.inr ⟨s', ht, hr⟩), hQr⟩
      | inr r => exact ⟨r, loop_returns_step.mpr (.inl ht), hQ⟩

/-- The same rule with a measure that every round decreases. -/
theorem loop_ensures_measure {body : σ → Comp ε (σ ⊕ ρ)} {Q : ρ → Prop} (Inv : σ → Prop)
    (m : σ → ℕ)
    (hstep : ∀ s, Inv s → (body s).Ensures (Sum.elim (fun s' => Inv s' ∧ m s' < m s) Q))
    {s : σ} (hs : Inv s) : (loop body s).Ensures Q := by
  have hacc : ∀ n s, m s < n → Inv s → Acc (fun t s => Next body s t) s := by
    intro n
    induction n with
    | zero => intro s h; omega
    | succ n ih =>
        intro s hn hs
        refine ⟨s, fun t ht => ?_⟩
        have h := (hstep s hs).of_returns ht
        exact ih t (by have := h.2; omega) h.1
  refine loop_ensures Inv (fun s hs => (hstep s hs).mono ?_) (hacc _ s (Nat.lt_succ_self _) hs) hs
  rintro (s' | r) h
  · exact h.1
  · exact h

end Comp

end FormalLanguages
