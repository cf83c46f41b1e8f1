import FormalLanguages.Verification.Regex.Secluded
import FormalLanguages.Verification.Simplifier.Correctness

/-! # Places of the states

The simplifier keeps the stars of a label apart. Each state has a place that says where it comes
from, and the labels are fit for the places they lead to. -/

namespace FormalLanguages.AutomatonSimplifier

open FiniteAutomaton Regex

variable {A B C : FiniteAutomaton} {E E' : ℕ → Regex → ℕ → Prop} {j n p q s t : ℕ}
  {r x : Regex} {rs : List Regex}

/-- The place of a state: the end, behind a star, behind a letter with one way on, the end of the
operand of a star that begins in `start`, or any other. -/
inductive Place where
  | last
  | behindStar
  | alone
  | operandEnd (start : ℕ)
  | branching

/-- There is one way on. -/
def Place.single : Place → Bool
  | alone => true
  | operandEnd _ => true
  | _ => false

/-- What a label from `p` leads to. -/
def Place.target (p : ℕ) : Place → Target
  | last => .last
  | behindStar => .behindStar
  | operandEnd start => if start = p then .operandEnd else .inner
  | alone => .inner
  | branching => .inner

/-- The labels of the edges are fit for the places. -/
structure Places (E : ℕ → Regex → ℕ → Prop) (place : ℕ → Place) : Prop where
  label : ∀ {p r q}, E p r q → Secluded (place p).single ((place q).target p) r
  last : ∀ {p r q}, E p r q → place p ≠ .last
  back : ∀ {p r q start}, E p r q → place p = .operandEnd start → r = Regex.empty ∧ q = start
  start : ∀ {p start}, place p = .operandEnd start → place start = .branching

variable {place place' : ℕ → Place}

theorem Places.mono (h : Places E place) (hsub : ∀ p r q, E' p r q → E p r q) :
    Places E' place where
  label he := h.label (hsub _ _ _ he)
  last he := h.last (hsub _ _ _ he)
  back he := h.back (hsub _ _ _ he)
  start := h.start

theorem Places.not_operandEnd (h : Places E place) (he : E s r t) (hr : r.isEmpty = false)
    {start : ℕ} : place s ≠ .operandEnd start := by
  intro hs
  rw [(h.back he hs).1] at hr
  cases hr

/-- From a fresh state the target looks as from behind the first operand. -/
theorem target_fresh {place : Place} (hn : place ≠ .operandEnd n) :
    place.target n = (place.target s).behind := by
  cases place with
  | operandEnd start =>
      have hne : start ≠ n := fun heq => hn (by rw [heq])
      rw [Place.target, Place.target, if_neg hne]
      split
      · rfl
      · rfl
  | last => rfl
  | behindStar => rfl
  | alone => rfl
  | branching => rfl

/-! ## New edges in place of one -/

theorem Places.concat_single (h : Places E place) (he : E s (.concat [r]) t) :
    Places (fun p y q => E p y q ∨ (p = s ∧ y = r ∧ q = t)) place where
  label {p y q} hcases := by
    rcases hcases with hE | ⟨rfl, rfl, rfl⟩
    · exact h.label hE
    · exact (h.label he).of_single
  last {p y q} hcases := by
    rcases hcases with hE | ⟨rfl, rfl, rfl⟩
    · exact h.last hE
    · exact h.last he
  back {p y q start} hcases hp := by
    rcases hcases with hE | ⟨rfl, rfl, rfl⟩
    · exact h.back hE hp
    · exact absurd hp (h.not_operandEnd he rfl)
  start := h.start

/-- The state between two operands of a `Concat` is behind a star, or alone. -/
theorem Places.concat (h : Places E place) (hn : ∀ p y q, E p y q → p ≠ n ∧ q ≠ n)
    (hback : ∀ p, place p ≠ .operandEnd n) (he : E s (.concat (r :: x :: rs)) t) :
    ∃ place', Places (fun p y q => E p y q ∨ ((p = s ∧ y = r ∧ q = n) ∨
        (p = n ∧ y = .concat (x :: rs) ∧ q = t))) place' ∧ (∀ p, p ≠ n → place' p = place p) ∧
      ∀ p start, place' p = .operandEnd start → place p = .operandEnd start := by
  obtain ⟨hs, ht⟩ := hn _ _ _ he
  have hbetween : ∃ between : Place, between ≠ .last ∧ (∀ start, between ≠ .operandEnd start) ∧
      Secluded (place s).single (between.target s) r ∧
      Secluded between.single ((place t).target s).behind (.concat (x :: rs)) := by
    rcases (h.label he).of_cons with ⟨hr, hrs⟩ | ⟨hr, hrs⟩
    · exact ⟨.alone, by simp, by simp, hr, hrs⟩
    · exact ⟨.behindStar, by simp, by simp, hr, hrs⟩
  obtain ⟨between, hlast, hend, hr, hrs⟩ := hbetween
  have hold : ∀ {p}, p ≠ n → Function.update place n between p = place p :=
    fun hp => Function.update_of_ne hp _ _
  have hnew : Function.update place n between n = between := Function.update_self _ _ _
  have hopEnd : ∀ p start, Function.update place n between p = .operandEnd start →
      place p = .operandEnd start := by
    intro p start hp
    by_cases hpn : p = n
    · rw [hpn, hnew] at hp
      exact absurd hp (hend start)
    · rwa [hold hpn] at hp
  refine ⟨Function.update place n between, ⟨?_, ?_, ?_, ?_⟩, fun p hp => hold hp, hopEnd⟩
  · rintro p y q (hE | ⟨rfl, rfl, rfl⟩ | ⟨rfl, rfl, rfl⟩)
    · rw [hold (hn _ _ _ hE).1, hold (hn _ _ _ hE).2]
      exact h.label hE
    · rw [hold hs, hnew]
      exact hr
    · rw [hold ht, hnew, target_fresh (hback q)]
      exact hrs
  · rintro p y q (hE | ⟨rfl, rfl, rfl⟩ | ⟨rfl, rfl, rfl⟩)
    · rw [hold (hn _ _ _ hE).1]
      exact h.last hE
    · rw [hold hs]
      exact h.last he
    · rw [hnew]
      exact hlast
  · rintro p y q start (hE | ⟨rfl, rfl, rfl⟩ | ⟨rfl, rfl, rfl⟩) hp
    · exact h.back hE (hopEnd _ _ hp)
    · exact absurd (hopEnd _ _ hp) (h.not_operandEnd he rfl)
    · rw [hnew] at hp
      exact absurd hp (hend start)
  · intro p start hp
    have hp := hopEnd p start hp
    have hstart : start ≠ n := fun heq => hback p (heq ▸ hp)
    rw [hold hstart]
    exact h.start hp

/-- The place of a state that several ways lead on from. -/
def Place.split : Place → Place
  | alone => branching
  | place => place

theorem target_split (place : Place) : place.split.target p = place.target p := by
  cases place <;> rfl

theorem split_eq_last {place : Place} (h : place.split = .last) : place = .last := by
  cases place <;> simp_all [Place.split]

theorem split_eq_operandEnd {place : Place} {start : ℕ} (h : place.split = .operandEnd start) :
    place = .operandEnd start := by
  cases place <;> simp_all [Place.split]

/-- Apart from the end of an operand, a state with one way on is alone. -/
theorem eq_alone_of_single {place : Place} (hend : ∀ start, place ≠ .operandEnd start)
    (h : place.single = true) : place = .alone := by
  cases place with
  | alone => rfl
  | operandEnd start => exact absurd rfl (hend start)
  | last => cases h
  | behindStar => cases h
  | branching => cases h

theorem single_split {place : Place} (hend : ∀ start, place ≠ .operandEnd start) :
    place.split.single = false := by
  cases place with
  | operandEnd start => exact absurd rfl (hend start)
  | last => rfl
  | behindStar => rfl
  | alone => rfl
  | branching => rfl

/-- The parallel edges of a `Sum`, which no other edge leaves beside if its state was alone. -/
theorem Places.sum (h : Places E place) (he : E s (.sum rs) t)
    (hone : place s = .alone → ∀ y q, E s y q → y = .sum rs) :
    Places (fun p y q => E p y q ∨ (p = s ∧ y ∈ rs ∧ q = t))
      (Function.update place s (place s).split) := by
  have hsame : ∀ p q, (Function.update place s (place s).split q).target p =
      (place q).target p := by
    intro p q
    by_cases hq : q = s
    · rw [hq, Function.update_self, target_split]
    · rw [Function.update_of_ne hq]
  have hend : ∀ {p start}, Function.update place s (place s).split p = .operandEnd start →
      place p = .operandEnd start := by
    intro p start hp
    by_cases hps : p = s
    · rw [hps, Function.update_self] at hp
      rw [hps]
      exact split_eq_operandEnd hp
    · rwa [Function.update_of_ne hps] at hp
  have hnotEnd : ∀ start, place s ≠ .operandEnd start := fun _ => h.not_operandEnd he rfl
  have hsplit : (place s).split.single = false := single_split hnotEnd
  have hoperands : ∀ y ∈ rs, Secluded false ((place t).target s) y := secluded_sum.mp (h.label he)
  refine ⟨?_, ?_, ?_, ?_⟩
  · rintro p y q (hE | ⟨rfl, hy, rfl⟩)
    · rw [hsame]
      by_cases hp : p = s
      · subst hp
        rw [Function.update_self, hsplit]
        by_cases hsingle : (place p).single = true
        · have hlabel := h.label hE
          rw [hone (eq_alone_of_single hnotEnd hsingle) y q hE] at hlabel ⊢
          exact .sum (secluded_sum.mp hlabel)
        · rw [Bool.not_eq_true] at hsingle
          exact hsingle ▸ h.label hE
      · rw [Function.update_of_ne hp]
        exact h.label hE
    · rw [hsame, Function.update_self, hsplit]
      exact hoperands y hy
  · rintro p y q (hE | ⟨rfl, _, rfl⟩)
    · by_cases hp : p = s
      · subst hp
        rw [Function.update_self]
        exact fun hsplit => h.last hE (split_eq_last hsplit)
      · rw [Function.update_of_ne hp]
        exact h.last hE
    · rw [Function.update_self]
      exact fun hsplit => h.last he (split_eq_last hsplit)
  · rintro p y q start (hE | ⟨rfl, _, rfl⟩) hp
    · exact h.back hE (hend hp)
    · exact absurd (hend hp) (hnotEnd start)
  · intro p start hp
    have hstart := h.start (hend hp)
    by_cases hs : start = s
    · rw [hs] at hstart ⊢
      rw [Function.update_self, hstart]
      rfl
    · rw [Function.update_of_ne hs]
      exact hstart

/-- Nor do the targets of a star look like inner states from elsewhere. -/
theorem target_ne_inner {place : Place}
    (h : place.target s = .last ∨ place.target s = .behindStar) : place.target p ≠ .inner := by
  cases place with
  | operandEnd start =>
      rw [Place.target] at h
      split at h <;> simp at h
  | last => simp [Place.target]
  | behindStar => simp [Place.target]
  | alone => simp [Place.target] at h
  | branching => simp [Place.target] at h

/-- The places with those of the two states of a star. -/
def starPlace (place : ℕ → Place) (n p : ℕ) : Place :=
  if p = n then .branching else if p = n + 1 then .operandEnd n else place p

theorem starPlace_start : starPlace place n n = .branching := if_pos rfl

theorem starPlace_end : starPlace place n (n + 1) = .operandEnd n := by
  rw [starPlace, if_neg (by omega), if_pos rfl]

theorem starPlace_of_lt (hp : p < n) : starPlace place n p = place p := by
  rw [starPlace, if_neg (by omega), if_neg (by omega)]

theorem starPlace_cases {here : Place} (h : starPlace place n p = here) (hbegin : here ≠ .branching)
    (hend : here ≠ .operandEnd n) : p ≠ n ∧ p ≠ n + 1 ∧ place p = here := by
  have hp : p ≠ n := by
    rintro rfl
    exact hbegin (h.symm.trans starPlace_start)
  have hp' : p ≠ n + 1 := by
    rintro rfl
    exact hend (h.symm.trans starPlace_end)
  rw [starPlace, if_neg hp, if_neg hp'] at h
  exact ⟨hp, hp', h⟩

/-- The state before a star is alone, and stays so. -/
theorem Places.star (h : Places E place) (hn : ∀ p y q, E p y q → p < n ∧ q < n)
    (hback : ∀ p start, place p = .operandEnd start → p < n ∧ start < n)
    (he : E s (.star r) t) :
    Places (fun p y q => E p y q ∨ StarEdges n s t r p y q) (starPlace place n) := by
  obtain ⟨hs, ht⟩ := hn _ _ _ he
  obtain ⟨hsingle, htarget, hr⟩ := secluded_star.mp (h.label he)
  refine ⟨?_, ?_, ?_, ?_⟩
  · rintro p y q (hE | ⟨rfl, rfl, rfl⟩ | ⟨rfl, rfl, rfl⟩ | ⟨rfl, rfl, rfl⟩ | ⟨rfl, rfl, rfl⟩)
    · rw [starPlace_of_lt (hn _ _ _ hE).1, starPlace_of_lt (hn _ _ _ hE).2]
      exact h.label hE
    · rw [starPlace_start, starPlace_end, Place.target, if_pos rfl]
      exact hr
    · rw [starPlace_of_lt hs]
      exact secluded_empty.mpr (.inl hsingle)
    · rw [starPlace_end]
      exact secluded_empty.mpr (.inl rfl)
    · rw [starPlace_of_lt ht, starPlace_start]
      exact secluded_empty.mpr (.inr (target_ne_inner htarget))
  · rintro p y q (hE | ⟨rfl, _⟩ | ⟨rfl, _⟩ | ⟨rfl, _⟩ | ⟨rfl, _⟩)
    · rw [starPlace_of_lt (hn _ _ _ hE).1]
      exact h.last hE
    · simp [starPlace_start]
    · rw [starPlace_of_lt hs]
      exact h.last he
    · simp [starPlace_end]
    · simp [starPlace_start]
  · rintro p y q start (hE | ⟨rfl, _⟩ | ⟨rfl, rfl, rfl⟩ | ⟨rfl, rfl, rfl⟩ | ⟨rfl, _⟩) hp
    · rw [starPlace_of_lt (hn _ _ _ hE).1] at hp
      exact h.back hE hp
    · simp [starPlace_start] at hp
    · rw [starPlace_of_lt hs] at hp
      exact absurd hp (h.not_operandEnd he rfl)
    · rw [starPlace_end] at hp
      exact ⟨rfl, Place.operandEnd.inj hp⟩
    · simp [starPlace_start] at hp
  · intro p start hp
    by_cases hend : p = n + 1
    · rw [hend, starPlace_end] at hp
      cases hp
      exact starPlace_start
    · have hold : place p = .operandEnd start := by
        by_cases hbegin : p = n
        · rw [hbegin, starPlace_start] at hp
          cases hp
        · rwa [starPlace, if_neg hbegin, if_neg hend] at hp
      rw [starPlace_of_lt (hback p start hold).2]
      exact h.start hold

/-! ## The rewriting of an automaton -/

/-- The number of transitions of a state. -/
def outDegree (A : FiniteAutomaton) (p : ℕ) : ℕ := (A.state p).transitions.length

theorem outDegree_addState : outDegree (A.addState false).1 p = outDegree A p := by
  rw [outDegree, outDegree, state_addState]
  split
  · rename_i hp
    rw [hp, state_of_le le_rfl]
    rfl
  · rfl

theorem outDegree_addTransition (hs : s < A.states.length) :
    outDegree (A.addTransition s t r) p = outDegree A p + if p = s then 1 else 0 := by
  rw [outDegree, outDegree, state_addTransition hs]
  split
  · simp
  · rfl

theorem outDegree_removeTransition (hj : j < outDegree A s) :
    outDegree (A.removeTransition s j) p = outDegree A p - if p = s then 1 else 0 := by
  rw [outDegree, outDegree, state_removeTransition]
  split
  · rename_i hp
    rw [hp]
    exact List.length_eraseIdx_of_lt hj
  · rfl

theorem outDegree_of_le (hp : A.states.length ≤ p) : outDegree A p = 0 := by
  rw [outDegree, state_of_le hp]
  rfl

theorem length_shortenConcat (hB : (shortenConcat A s t rs).Returns B) :
    A.states.length ≤ B.states.length := by
  induction rs generalizing A s with
  | nil => exact absurd hB Comp.returns_throw
  | cons r rs ih =>
      cases rs with
      | nil =>
          cases Comp.returns_pure.mp hB
          simp
      | cons x rs =>
          have hlen := ih (A := (A.addState false).1.addTransition s A.states.length r)
            (s := A.states.length) hB
          simp only [length_addTransition, length_addState] at hlen
          omega

/-- One way leads on from each fresh state of a `Concat`. -/
theorem outDegree_shortenConcat (hs : s < A.states.length)
    (hB : (shortenConcat A s t rs).Returns B) :
    outDegree B p = outDegree A p +
      if p = s ∨ (A.states.length ≤ p ∧ p < B.states.length) then 1 else 0 := by
  induction rs generalizing A s with
  | nil => exact absurd hB Comp.returns_throw
  | cons r rs ih =>
      cases rs with
      | nil =>
          cases Comp.returns_pure.mp hB
          rw [outDegree_addTransition hs, length_addTransition]
          congr 2
          simp only [eq_iff_iff]
          omega
      | cons x rs =>
          have hlen := length_shortenConcat (A := (A.addState false).1.addTransition s
            A.states.length r) (s := A.states.length) hB
          simp only [length_addTransition, length_addState] at hlen
          rw [ih (A := (A.addState false).1.addTransition s A.states.length r)
            (s := A.states.length) (by simp) hB, outDegree_addTransition (by simp; omega),
            outDegree_addState, length_addTransition, length_addState]
          split_ifs <;> omega

theorem shortenConcat_places (htarget : ∀ {p x q}, A.Edge p x q → q < A.states.length)
    (hs : s < A.states.length) (ht : t < A.states.length)
    (hback : ∀ p start, place p = .operandEnd start →
      p < A.states.length ∧ start < A.states.length)
    (h : Places (fun p x q => A.Edge p x q ∨ (p = s ∧ x = .concat rs ∧ q = t)) place)
    (hB : (shortenConcat A s t rs).Returns B) :
    ∃ place', Places B.Edge place' ∧ (∀ p < A.states.length, place' p = place p) ∧
      ∀ p start, place' p = .operandEnd start → place p = .operandEnd start := by
  induction rs generalizing A s place with
  | nil => exact absurd hB Comp.returns_throw
  | cons r rs ih =>
      cases rs with
      | nil =>
          cases Comp.returns_pure.mp hB
          refine ⟨place, (h.concat_single (.inr ⟨rfl, rfl, rfl⟩)).mono ?_, fun _ _ => rfl,
            fun _ _ hp => hp⟩
          intro p x q he
          rcases (edge_addTransition hs).mp he with he | hnew
          · exact .inl (.inl he)
          · exact .inr hnew
      | cons x rs =>
          obtain ⟨place₁, h', hold₁, hend₁⟩ := h.concat (fun p y q => ends_ne_fresh htarget hs ht)
            (fun p hp => lt_irrefl _ (hback p _ hp).2) (.inr ⟨rfl, rfl, rfl⟩)
          have hlen : ((A.addState false).1.addTransition s A.states.length r).states.length =
              A.states.length + 1 := by simp
          have hback₁ : ∀ p start, place₁ p = .operandEnd start →
              p < ((A.addState false).1.addTransition s A.states.length r).states.length ∧
                start < ((A.addState false).1.addTransition s A.states.length r).states.length := by
            intro p start hp
            rw [hlen]
            obtain ⟨hp, hstart⟩ := hback p start (hend₁ p start hp)
            omega
          have hplaces : Places (fun p y q =>
              ((A.addState false).1.addTransition s A.states.length r).Edge p y q ∨
                (p = A.states.length ∧ y = .concat (x :: rs) ∧ q = t)) place₁ := by
            apply h'.mono
            intro p y q hcases
            rcases hcases with he | hrest
            · rcases (edge_chainStart hs).mp he with he | hfirst
              · exact .inl (.inl he)
              · exact .inr (.inl hfirst)
            · exact .inr (.inr hrest)
          obtain ⟨place', hB', hold, hend'⟩ :=
            ih (target_chainStart htarget hs) (by simp) (by simp; omega) hback₁ hplaces hB
          refine ⟨place', hB', ?_, fun p start hp => hend₁ p start (hend' p start hp)⟩
          intro p hp
          rw [hold p (by omega)]
          exact hold₁ p hp.ne

/-- The states have places, and those with one way on have one transition at most. -/
structure Placed (A : FiniteAutomaton) (place : ℕ → Place) : Prop where
  places : Places A.Edge place
  alone : ∀ {p}, place p = .alone → outDegree A p ≤ 1
  back : ∀ {p start}, place p = .operandEnd start → A.Edge p Regex.empty start
  final : ∀ {p}, A.Final p → place p = .last

theorem eq_of_outDegree_le (h : outDegree A p ≤ 1) {y : Regex} (he : A.Edge p r q)
    (he' : A.Edge p y t) : y = r ∧ t = q := by
  obtain ⟨i, hi⟩ := List.mem_iff_getElem?.mp he
  obtain ⟨k, hk⟩ := List.mem_iff_getElem?.mp he'
  have hilt := (List.getElem?_eq_some_iff.mp hi).1
  have hklt := (List.getElem?_eq_some_iff.mp hk).1
  rw [outDegree] at h
  obtain rfl : i = k := by omega
  rw [hi] at hk
  cases hk
  exact ⟨rfl, rfl⟩

theorem outDegree_shortenSum (hs : s < A.states.length) :
    outDegree (shortenSum A s t rs) p = outDegree A p + if p = s then rs.length else 0 := by
  rw [shortenSum]
  induction rs generalizing A with
  | nil => simp
  | cons r rs ih =>
      rw [List.foldl_cons, ih (by simpa using hs), outDegree_addTransition hs, List.length_cons]
      split_ifs <;> omega

theorem outDegree_shortenStar (hs : s < A.states.length) (hp : p ≠ A.states.length)
    (hp' : p ≠ A.states.length + 1) :
    outDegree (shortenStar A s t r) p = outDegree A p + if p = s then 1 else 0 := by
  simp only [shortenStar]
  rw [outDegree_addTransition (by simp only [length_addTransition, length_addState]; omega),
    outDegree_addTransition (by simp),
    outDegree_addTransition (by simp only [length_addTransition, length_addState]; omega),
    outDegree_addTransition (by simp only [length_addState]; omega),
    outDegree_addState, outDegree_addState, if_neg hp, if_neg hp', Nat.add_zero, Nat.add_zero]

/-- Epsilon transitions are not rewritten. -/
theorem edge_of_rewritten
    (hget : ∀ {i k : ℕ} {u}, (A.state i).transitions[k]? = some u →
      (C.state i).transitions[k]? = some u)
    (hj : (A.state s).transitions[j]? = some ⟨r, t⟩) (hr : r.isEmpty = false)
    (he : A.Edge p Regex.empty q) : (C.removeTransition s j).Edge p Regex.empty q := by
  obtain ⟨k, hk⟩ := List.mem_iff_getElem?.mp he
  rcases (edge_of_getElem? (hget hk)).removeTransition (i := s) (j := j) with he | ⟨_, he⟩
  · exact he
  · rw [hget hj] at he
    cases he
    cases hr

theorem Placed.back_lt (h : Placed A place) (hA : A.InRange) {start : ℕ}
    (hp : place p = .operandEnd start) : p < A.states.length ∧ start < A.states.length :=
  ⟨(h.back hp).source_lt, hA.target_lt (h.back hp)⟩

/-- The rewriting of a `Concat`. -/
theorem Placed.concat (h : Placed A place) (hA : A.InRange)
    (hj : (A.state s).transitions[j]? = some ⟨.concat rs, t⟩)
    (hfinal : ∀ {p}, C.Final p → A.Final p) (hC : (shortenConcat A s t rs).Returns C) :
    ∃ place, Placed (C.removeTransition s j) place := by
  have he := edge_of_getElem? hj
  have hs := he.source_lt
  obtain ⟨place', hplaces, hold, hend⟩ := shortenConcat_places hA.target_lt hs (hA.target_lt he)
    (fun p start => h.back_lt hA) (h.places.mono fun p x q hcases => by
      rcases hcases with hE | ⟨rfl, rfl, rfl⟩
      · exact hE
      · exact he) hC
  have hjC : j < outDegree C s := (List.getElem?_eq_some_iff.mp (getElem?_shortenConcat hj hC)).1
  refine ⟨place', hplaces.mono fun p x q hE => hE.of_removeTransition, ?_, ?_, ?_⟩
  · intro p hp
    rw [outDegree_removeTransition hjC, outDegree_shortenConcat hs hC]
    by_cases hlt : p < A.states.length
    · have hdeg := h.alone ((hold p hlt).symm.trans hp)
      split_ifs <;> omega
    · have hdeg := outDegree_of_le (not_lt.mp hlt)
      split_ifs <;> omega
  · intro p start hp
    exact edge_of_rewritten (fun hu => getElem?_shortenConcat hu hC) hj rfl
      (h.back (hend p start hp))
  · intro p hp
    have hf := hfinal (final_removeTransition.mp hp)
    rw [hold p hf.lt]
    exact h.final hf

/-- The rewriting of a `Sum`. -/
theorem Placed.sum (h : Placed A place) (hA : A.InRange)
    (hj : (A.state s).transitions[j]? = some ⟨.sum rs, t⟩) :
    ∃ place, Placed ((shortenSum A s t rs).removeTransition s j) place := by
  have he := edge_of_getElem? hj
  have hs := he.source_lt
  have g := gadget_shortenSum rs hs (hA.target_lt he)
  have hjC : j < outDegree (shortenSum A s t rs) s :=
    (List.getElem?_eq_some_iff.mp (g.getElem? hj)).1
  have hplaces := h.places.sum he fun halone y q hE => (eq_of_outDegree_le (h.alone halone) he hE).1
  refine ⟨_, hplaces.mono fun p x q hE => g.edge.mp hE.of_removeTransition, ?_, ?_, ?_⟩
  · intro p hp
    have hps : p ≠ s := by
      rintro rfl
      rw [Function.update_self] at hp
      cases hplace : place p <;> simp_all [Place.split]
    rw [Function.update_of_ne hps] at hp
    rw [outDegree_removeTransition hjC, outDegree_shortenSum hs, if_neg hps, if_neg hps]
    exact h.alone hp
  · intro p start hp
    apply edge_of_rewritten g.getElem? hj rfl
    apply h.back
    by_cases hps : p = s
    · rw [hps, Function.update_self] at hp
      rw [hps]
      exact split_eq_operandEnd hp
    · rwa [Function.update_of_ne hps] at hp
  · intro p hp
    have hlast := h.final (g.final.mp (final_removeTransition.mp hp))
    have hps : p ≠ s := by
      rintro rfl
      exact h.places.last he hlast
    rw [Function.update_of_ne hps]
    exact hlast

/-- The rewriting of a `Star`. -/
theorem Placed.star (h : Placed A place) (hA : A.InRange)
    (hj : (A.state s).transitions[j]? = some ⟨.star r, t⟩) :
    ∃ place, Placed ((shortenStar A s t r).removeTransition s j) place := by
  have he := edge_of_getElem? hj
  have hs := he.source_lt
  have hadds := adds_shortenStar (t := t) (r := r) hs
  have hjC : j < outDegree (shortenStar A s t r) s :=
    (List.getElem?_eq_some_iff.mp (hadds.getElem? hj)).1
  have hplaces := h.places.star (fun p y q hE => ⟨hE.source_lt, hA.target_lt hE⟩)
    (fun p start => h.back_lt hA) he
  refine ⟨_, hplaces.mono fun p x q hE => hadds.edge.mp hE.of_removeTransition, ?_, ?_, ?_⟩
  · intro p hp
    obtain ⟨hbegin, hend, hp⟩ := starPlace_cases hp (by simp) (by simp)
    have hdeg := h.alone hp
    rw [outDegree_removeTransition hjC, outDegree_shortenStar hs hbegin hend]
    omega
  · intro p start hp
    by_cases hend : p = A.states.length + 1
    · rw [hend, starPlace_end] at hp
      cases hp
      have hback : (shortenStar A s t r).Edge p Regex.empty A.states.length :=
        hadds.edge.mpr (.inr (.inr (.inr (.inl ⟨hend, rfl, rfl⟩))))
      exact hback.removeTransition.resolve_right fun hps => by omega
    · have hbegin : p ≠ A.states.length := by
        rintro rfl
        rw [starPlace_start] at hp
        cases hp
      rw [starPlace, if_neg hbegin, if_neg hend] at hp
      exact edge_of_rewritten hadds.getElem? hj rfl (h.back hp)
  · intro p hp
    have hf := hadds.final.mp (final_removeTransition.mp hp)
    rw [starPlace_of_lt hf.lt]
    exact h.final hf

theorem shortenTransition_placed (hA : A.InRange) (h : ∃ place, Placed A place)
    (hB : (shortenTransition A s j).Returns B) : ∃ place, Placed B place := by
  obtain ⟨place, h⟩ := h
  rw [shortenTransition] at hB
  cases hj : (A.state s).transitions[j]? with
  | none =>
      rw [hj] at hB
      exact absurd hB Comp.returns_throw
  | some u =>
      obtain ⟨r, t⟩ := u
      have he := edge_of_getElem? hj
      rw [hj] at hB
      cases r with
      | char c => exact absurd hB Comp.returns_throw
      | concat rs =>
          obtain ⟨C, hC, hB⟩ := Comp.returns_bind.mp hB
          cases Comp.returns_pure.mp hB
          have hne : rs ≠ [] := by
            rintro rfl
            exact absurd hC Comp.returns_throw
          obtain ⟨_, g⟩ :=
            (shortenConcat_ensures hne he.source_lt (hA.target_lt he)).of_returns hC
          exact h.concat hA hj g.final.mp hC
      | sum rs =>
          cases Comp.returns_pure.mp hB
          exact h.sum hA hj
      | star r =>
          cases Comp.returns_pure.mp hB
          exact h.star hA hj

theorem simplify_placed (hA : A.InRange) (hl : LabelsOk A) (h : ∃ place, Placed A place)
    (hB : (simplify A).Returns B) : ∃ place, Placed B place :=
  simplify_invariant (fun C => ∃ place, Placed C place)
    (fun _ _ _ _ hC h hD => shortenTransition_placed hC h hD) hA hl h hB

theorem placed_ofRegex (h : Secluded true .last r) : ∃ place, Placed (ofRegex r) place := by
  refine ⟨fun p => if p = 0 then .alone else if p = 1 then .last else .branching,
    ⟨?_, ?_, ?_, ?_⟩, ?_, ?_, ?_⟩
  · intro p x q he
    obtain ⟨rfl, rfl, rfl⟩ := edge_ofRegex.mp he
    exact h
  · intro p x q he
    obtain ⟨rfl, rfl, rfl⟩ := edge_ofRegex.mp he
    simp
  · intro p x q start he hp
    obtain ⟨rfl, rfl, rfl⟩ := edge_ofRegex.mp he
    cases hp
  · intro p start hp
    split_ifs at hp
  · intro p hp
    split_ifs at hp with hzero
    rw [hzero]
    exact le_rfl
  · intro p start hp
    split_ifs at hp
  · intro p hp
    rw [final_ofRegex.mp hp]
    rfl

end FormalLanguages.AutomatonSimplifier
