import FormalLanguages.Verification.Regex.Language

/-! # Regexes whose stars are set apart

A star does no harm where the state it is entered from leads nowhere else and the state it is
left to is entered from nowhere else. The converter builds such regexes only. -/

namespace FormalLanguages.Regex

variable {r s : Regex} {rs ss : List Regex} {alone alone' : Bool}

/-- Where the ways through a regex lead. -/
inductive Target where
  /-- the state behind the whole regex -/
  | last
  /-- a state that only a star leads to -/
  | behindStar
  /-- the end of the operand of the star that the ways begin in -/
  | operandEnd
  /-- any other state -/
  | inner

/-- The target as seen from behind the first operand of a `Concat`. -/
def Target.behind : Target → Target
  | operandEnd => inner
  | target => target

variable {target target' : Target}

/-- All stars are set apart when the ways through the regex lead to `target`. With `alone` the
state that they begin in leads nowhere else. -/
inductive Secluded : Bool → Target → Regex → Prop
  | letter {alone : Bool} {target : Target} {c : CChar} : c ≠ 0 → target ≠ .behindStar →
      Secluded alone target (.char c)
  | empty {alone : Bool} {target : Target} : alone = true ∨ target ≠ .inner →
      Secluded alone target (.char 0)
  | sum {alone : Bool} {target : Target} {rs : List Regex} :
      (∀ r ∈ rs, Secluded false target r) → Secluded alone target (.sum rs)
  | single {alone : Bool} {target : Target} {r : Regex} : Secluded alone target r →
      Secluded alone target (.concat [r])
  | cons {alone : Bool} {target : Target} {r s : Regex} {rs : List Regex} :
      Secluded alone .inner r → Secluded true target.behind (.concat (s :: rs)) →
      Secluded alone target (.concat (r :: s :: rs))
  | consStar {alone : Bool} {target : Target} {r s : Regex} {rs : List Regex} :
      Secluded alone .behindStar (.star r) → Secluded false target.behind (.concat (s :: rs)) →
      Secluded alone target (.concat (.star r :: s :: rs))
  | star {target : Target} {r : Regex} : target = .last ∨ target = .behindStar →
      Secluded false .operandEnd r → Secluded true target (.star r)

theorem secluded_sum : Secluded alone target (.sum rs) ↔ ∀ r ∈ rs, Secluded false target r := by
  constructor
  · intro h
    cases h with
    | sum hall => exact hall
  · exact .sum

theorem secluded_star : Secluded alone target (.star r) ↔
    alone = true ∧ (target = .last ∨ target = .behindStar) ∧ Secluded false .operandEnd r := by
  constructor
  · intro h
    cases h with
    | star ht hr => exact ⟨rfl, ht, hr⟩
  · rintro ⟨rfl, ht, hr⟩
    exact .star ht hr

theorem Secluded.of_single (h : Secluded alone target (.concat [r])) : Secluded alone target r := by
  cases h with
  | single h => exact h

theorem Secluded.of_cons (h : Secluded alone target (.concat (r :: s :: rs))) :
    (Secluded alone .inner r ∧ Secluded true target.behind (.concat (s :: rs))) ∨
      (Secluded alone .behindStar r ∧ Secluded false target.behind (.concat (s :: rs))) := by
  cases h with
  | cons hr hrs => exact .inl ⟨hr, hrs⟩
  | consStar hr hrs => exact .inr ⟨hr, hrs⟩

theorem secluded_empty :
    Secluded alone target Regex.empty ↔ alone = true ∨ target ≠ .inner := by
  constructor
  · intro h
    cases h with
    | letter hc => exact absurd rfl hc
    | empty hor => exact hor
  · exact .empty

theorem Secluded.eq_zero {c : CChar} (h : Secluded alone .behindStar (.char c)) : c = 0 := by
  cases h with
  | letter _ ht => exact absurd rfl ht
  | empty _ => rfl

/-- What leads to an inner state may lead to any but the one behind a star, and the state
that it begins in may be alone. -/
theorem Secluded.mono (h : Secluded alone target r) (halone : alone = true → alone' = true)
    (htarget : target' = target ∨ (target = .inner ∧ target' ≠ .behindStar)) :
    Secluded alone' target' r := by
  have hbehind : ∀ {t t' : Target}, t' = t ∨ (t = .inner ∧ t' ≠ .behindStar) →
      t'.behind = t.behind ∨ (t.behind = .inner ∧ t'.behind ≠ .behindStar) := by
    rintro t t' (rfl | ⟨rfl, ht'⟩)
    · exact .inl rfl
    · cases t' <;> simp_all [Target.behind]
  induction h generalizing alone' target' with
  | letter hc ht =>
      refine .letter hc ?_
      rcases htarget with rfl | htarget
      · exact ht
      · exact htarget.2
  | empty hor =>
      refine .empty ?_
      rcases hor with ha | ht
      · exact .inl (halone ha)
      · exact .inr ((htarget.resolve_right fun h => ht h.1) ▸ ht)
  | sum _ ih => exact .sum fun r hr => ih r hr id htarget
  | single _ ih => exact .single (ih halone htarget)
  | cons _ _ ihr ihs => exact .cons (ihr halone (.inl rfl)) (ihs id (hbehind htarget))
  | consStar _ _ ihr ihs => exact .consStar (ihr halone (.inl rfl)) (ihs id (hbehind htarget))
  | star ht hr _ =>
      obtain rfl : alone' = true := halone rfl
      refine .star ?_ hr
      rcases htarget with rfl | ⟨rfl, _⟩
      · exact ht
      · simp at ht

theorem secluded_zero : Secluded alone target .zero :=
  .sum fun _ hr => absurd hr List.not_mem_nil

/-- Labels between inner states begin and end with a letter. -/
theorem Secluded.ne_empty (h : Secluded false .inner r) : r.isEmpty = false := by
  cases h with
  | letter hc => simpa [isEmpty] using hc
  | empty hor => simp at hor
  | sum => rfl
  | single => rfl
  | cons => rfl
  | consStar => rfl

/-! ## Sums -/

theorem Secluded.addAssign (hr : Secluded false target r) (hs : Secluded false target s) :
    Secluded false target (r.addAssign s) := by
  unfold Regex.addAssign
  split
  · exact hs
  · split
    · exact hr
    · split
      · refine .sum fun x hx => ?_
        rcases List.mem_append.mp hx with hx | hx
        · exact secluded_sum.mp hr x hx
        · rw [List.mem_singleton.mp hx]
          exact hs
      · refine .sum fun x hx => ?_
        rcases List.mem_cons.mp hx with rfl | hx
        · exact hr
        · rw [List.mem_singleton.mp hx]
          exact hs

theorem Secluded.foldl_addAssign (hr : Secluded false target r)
    (hrs : ∀ s ∈ rs, Secluded false target s) :
    Secluded false target (rs.foldl Regex.addAssign r) := by
  induction rs generalizing r with
  | nil => exact hr
  | cons s rs ih =>
      exact ih (hr.addAssign (hrs s List.mem_cons_self)) fun t ht =>
        hrs t (List.mem_cons_of_mem _ ht)

/-! ## Products -/

/-- A `Concat` that ends with a letter goes on in any way. -/
theorem Secluded.append (h : Secluded alone .inner (.concat rs)) (htarget : target.behind = target)
    (hs : Secluded true target (.concat (s :: ss))) :
    Secluded alone target (.concat (rs ++ s :: ss)) := by
  induction rs generalizing alone with
  | nil => cases h
  | cons r rs ih =>
      cases h with
      | single h => exact .cons h (htarget.symm ▸ hs)
      | cons hr hrs => exact .cons hr (htarget.symm ▸ ih hrs)
      | consStar hr hrs => exact .consStar hr (htarget.symm ▸ ih hrs)

theorem Secluded.mulAssign (hr : Secluded alone .inner r) (hempty : r.isEmpty = false)
    (hs : Secluded true target s) (htarget : target.behind = target)
    (hstar : target ≠ .behindStar) : Secluded alone target (r.mulAssign s) := by
  have hmono : Secluded alone target r := hr.mono id (.inr ⟨rfl, hstar⟩)
  unfold Regex.mulAssign
  split
  · exact hmono
  · split
    · exact secluded_zero
    · split
      · rename_i h
        rw [hempty] at h
        cases h
      · split
        · exact hmono
        · split
          · exact hr.append htarget (.single hs)
          · exact .cons hr (htarget.symm ▸ .single hs)

theorem zero_mulAssign : zero.mulAssign s = zero := rfl

theorem mulAssign_zero : r.mulAssign zero = zero := by
  unfold Regex.mulAssign
  split
  · rename_i h
    exact isZero_iff.mp h
  · rfl

theorem empty_mulAssign : empty.mulAssign s = s := by
  unfold Regex.mulAssign
  by_cases hs : s.isZero = true
  · rw [isZero_iff.mp hs]
    rfl
  · rw [if_neg hs]
    rfl

theorem mulAssign_empty : r.mulAssign empty = r := by
  unfold Regex.mulAssign
  by_cases hr : r.isZero = true
  · rw [if_pos hr]
  · by_cases hr' : r.isEmpty = true
    · rw [isEmpty_iff.mp hr']
      rfl
    · rw [if_neg hr, if_neg hr']
      rfl

@[simp] theorem isZero_concat : (concat rs).isZero = false := rfl

@[simp] theorem isEmpty_concat : (concat rs).isEmpty = false := rfl

@[simp] theorem isZero_star : (star r).isZero = false := rfl

@[simp] theorem isEmpty_star : (star r).isEmpty = false := rfl

theorem concat_mulAssign (hs : ¬s.isZero = true) (hs' : ¬s.isEmpty = true) :
    (concat rs).mulAssign s = .concat (rs ++ [s]) := by
  simp [Regex.mulAssign, hs, hs']

theorem star_mulAssign (hs : ¬s.isZero = true) (hs' : ¬s.isEmpty = true) :
    (star r).mulAssign s = .concat [.star r, s] := by
  simp [Regex.mulAssign, hs, hs']

theorem isEmpty_of_mulAssign (h : (r.mulAssign s).isEmpty = true) : s.isEmpty = true := by
  unfold Regex.mulAssign at h
  split at h
  · rename_i hr
    rw [isZero_iff.mp hr] at h
    cases h
  · split at h
    · cases h
    · split at h
      · exact h
      · split at h
        · assumption
        · split at h <;> cases h

/-! ## Stars between two ways -/

theorem Secluded.unaryStar (hr : Secluded false .operandEnd r) :
    Secluded true .last r.unaryStar := by
  rw [Regex.unaryStar]
  split
  · rename_i h
    rcases (Bool.or_eq_true _ _).mp h with h | h
    · rw [isEmpty_iff.mp h]
      exact .empty (.inl rfl)
    · rw [isZero_iff.mp h]
      exact secluded_zero
  · exact .star (.inl rfl) hr

/-- A star at the beginning, and a way on. -/
theorem Secluded.unaryStar_mulAssign (hr : Secluded false .operandEnd r)
    (hs : Secluded false target s) (htarget : target = .inner ∨ target = .last) :
    Secluded true target (r.unaryStar.mulAssign s) := by
  have hon : Secluded true target s := hs.mono (fun _ => rfl) (.inl rfl)
  rw [Regex.unaryStar]
  split
  · rename_i h
    rcases (Bool.or_eq_true _ _).mp h with h | h
    · rw [isEmpty_iff.mp h, empty_mulAssign]
      exact hon
    · rw [isZero_iff.mp h, zero_mulAssign]
      exact secluded_zero
  · by_cases hs0 : s.isZero = true
    · rw [isZero_iff.mp hs0, mulAssign_zero]
      exact secluded_zero
    · by_cases hs1 : s.isEmpty = true
      · rw [isEmpty_iff.mp hs1, mulAssign_empty]
        rcases htarget with rfl | rfl
        · rw [hs.ne_empty] at hs1
          cases hs1
        · exact .star (.inl rfl) hr
      · rw [star_mulAssign hs0 hs1]
        refine .consStar (.star (.inr rfl) hr) (.single ?_)
        rcases htarget with rfl | rfl
        · exact hs
        · exact hs

/-- The loop of a state, between a way to the state and a way on. -/
theorem Secluded.mulAssign_star {x : Regex} (hr : Secluded alone .inner r)
    (hempty : r.isEmpty = false) (hx : Secluded false .operandEnd x)
    (hs : Secluded false target s) (htarget : target = .inner ∨ target = .last) :
    Secluded alone target ((r.mulAssign x.unaryStar).mulAssign s) := by
  have hbehind : target.behind = target := by
    rcases htarget with rfl | rfl
    · rfl
    · rfl
  have hstar : target ≠ .behindStar := by
    rcases htarget with rfl | rfl <;> simp
  have hon : Secluded true target s := hs.mono (fun _ => rfl) (.inl rfl)
  rw [Regex.unaryStar]
  split
  · rename_i h
    rcases (Bool.or_eq_true _ _).mp h with h | h
    · rw [isEmpty_iff.mp h, mulAssign_empty]
      exact hr.mulAssign hempty hon hbehind hstar
    · rw [isZero_iff.mp h, mulAssign_zero, zero_mulAssign]
      exact secluded_zero
  · by_cases hr0 : r.isZero = true
    · rw [isZero_iff.mp hr0, zero_mulAssign, zero_mulAssign]
      exact secluded_zero
    by_cases hs0 : s.isZero = true
    · rw [isZero_iff.mp hs0, mulAssign_zero]
      exact secluded_zero
    by_cases hs1 : s.isEmpty = true
    · rw [isEmpty_iff.mp hs1, mulAssign_empty]
      rcases htarget with rfl | rfl
      · rw [hs.ne_empty] at hs1
        cases hs1
      · exact hr.mulAssign hempty (.star (.inl rfl) hx) hbehind hstar
    have hthrough : ∃ rs, r.mulAssign (.star x) = .concat (rs ++ [.star x]) ∧
        Secluded alone .inner (.concat rs) := by
      simp only [Regex.mulAssign, hr0, hempty, isZero_star, isEmpty_star, Bool.false_eq_true,
        if_false]
      split
      · exact ⟨_, rfl, hr⟩
      · exact ⟨[r], rfl, .single hr⟩
    obtain ⟨rs, heq, hrs⟩ := hthrough
    rw [heq, concat_mulAssign hs0 hs1, List.append_assoc]
    exact hrs.append hbehind (.consStar (.star (.inr rfl) hx) (hbehind.symm ▸ .single hs))

end FormalLanguages.Regex
