import FormalLanguages.Verification.Regex.Language

/-! # What the operators mean

The regex that literals and operators construct has the language of the expression, unless a
star is applied to an operand without words or a literal contains the epsilon marker. -/

namespace FormalLanguages

namespace Regex

variable {s : List CChar}

/-! ## Literals -/

/-- The markers of a literal stand for the empty word. -/
theorem language_literal (s : List CChar) : (literal s).language = {s.filter (· ≠ 0)} := by
  rw [literal, language_concat, List.map_map]
  induction s with
  | nil => rfl
  | cons c s ih =>
      rw [List.map_cons, List.prod_cons, ih]
      by_cases hc : c = 0
      · subst hc
        simp [language_char_zero]
      · rw [Function.comp_apply, language_char hc, List.filter_cons_of_pos (by simpa using hc)]
        exact Set.image2_singleton

theorem language_literal_eq_iff : (literal s).language = {s} ↔ 0 ∉ s := by
  have hsingleton : ({s.filter (· ≠ 0)} : Language CChar) = {s} ↔ s.filter (· ≠ 0) = s :=
    Set.singleton_eq_singleton_iff
  rw [language_literal, hsingleton, List.filter_eq_self]
  constructor
  · intro h h0
    simpa using h 0 h0
  · intro h0 c hc
    simpa using fun heq : c = 0 => h0 (heq ▸ hc)

/-! ## Empty `Concat` nodes -/

theorem noEmptyConcat_literal : (literal s).noEmptyConcat = true ↔ s ≠ [] := by
  rw [literal, noEmptyConcat_concat]
  simp [noEmptyConcat]

theorem noEmptyConcat_addAssign {a b : Regex} (ha : a.noEmptyConcat = true)
    (hb : b.noEmptyConcat = true) : (a.addAssign b).noEmptyConcat = true := by
  unfold addAssign
  split
  · exact hb
  · split
    · exact ha
    · split
      · rw [noEmptyConcat_sum] at ha ⊢
        simpa [or_imp, forall_and] using ⟨ha, hb⟩
      · rw [noEmptyConcat_sum]
        simp [ha, hb]

theorem noEmptyConcat_mulAssign {a b : Regex} (ha : a.noEmptyConcat = true)
    (hb : b.noEmptyConcat = true) : (a.mulAssign b).noEmptyConcat = true := by
  unfold mulAssign
  split
  · exact ha
  · split
    · rfl
    · split
      · exact hb
      · split
        · exact ha
        · split
          · rw [noEmptyConcat_concat] at ha ⊢
            simpa [or_imp, forall_and] using ⟨ha.2, hb⟩
          · rw [noEmptyConcat_concat]
            simp [ha, hb]

theorem noEmptyConcat_unaryStar {a : Regex} (ha : a.noEmptyConcat = true) :
    a.unaryStar.noEmptyConcat = true := by
  rw [unaryStar]
  split
  · exact ha
  · rwa [noEmptyConcat_star]

end Regex

namespace Expression

variable {e : Expression}

/-! ## The language of an expression -/

/-- What the expression says: a literal is that one word, `+` is union, binary `*` is
concatenation and unary `*` is the Kleene star. -/
def language : Expression → Language CChar
  | literal string => {string}
  | zero => 0
  | empty => 1
  | add left right => left.language + right.language
  | mul left right => left.language * right.language
  | star operand => KStar.kstar operand.language

/-- The value is right here: no literal with the marker, no star of an operand without words. -/
def Plain : Expression → Prop
  | literal string => 0 ∉ string
  | star operand => operand.language ≠ 0
  | _ => True

theorem mem_subexpressions (e : Expression) : e ∈ e.subexpressions := by
  cases e <;> simp [subexpressions]

theorem language_ne_zero_iff {L : Language CChar} : L ≠ 0 ↔ ∃ w, w ∈ L :=
  Set.nonempty_iff_ne_empty.symm

/-- A value that has no word is zero itself. -/
theorem isZero_value_iff (e : Expression) : e.value.isZero = true ↔ e.value.language = 0 := by
  constructor
  · intro h
    rw [Regex.isZero_iff.mp h, Regex.language_zero]
  · contrapose!
    rw [ne_eq, Bool.not_eq_true, language_ne_zero_iff]
    intro h
    induction e with
    | literal s => exact ⟨_, (Regex.language_literal s).ge rfl⟩
    | zero => cases h
    | empty => exact ⟨[], Regex.language_empty.ge rfl⟩
    | add a b iha ihb =>
        rw [value, Regex.language_add]
        have hor : a.value.isZero = false ∨ b.value.isZero = false := by
          have hab := (Regex.isZero_addAssign a.value b.value).symm.trans h
          rwa [Bool.and_eq_false_iff] at hab
        rcases hor with ha | hb
        · obtain ⟨w, hw⟩ := iha ha
          exact ⟨w, .inl hw⟩
        · obtain ⟨w, hw⟩ := ihb hb
          exact ⟨w, .inr hw⟩
    | mul a b iha ihb =>
        rw [value, Regex.language_mul]
        have hand : a.value.isZero = false ∧ b.value.isZero = false := by
          have hab := (Regex.isZero_mulAssign a.value b.value).symm.trans h
          rwa [Bool.or_eq_false_iff] at hab
        obtain ⟨u, hu⟩ := iha hand.1
        obtain ⟨v, hv⟩ := ihb hand.2
        exact ⟨u ++ v, u, hu, v, hv, rfl⟩
    | star a _ =>
        rw [value, Regex.isZero_unaryStar] at h
        rw [value, Regex.language_unaryStar h]
        exact ⟨[], Language.nil_mem_kstar _⟩

/-! ## When the value has the language of the expression -/

/-- Over operands with the right language the star is right exactly when its operand has a
word. -/
theorem language_value_star_iff (h : e.value.language = e.language) :
    (star e).value.language = (star e).language ↔ e.language ≠ 0 := by
  rw [value, language, ← h, ne_eq, ← isZero_value_iff, Bool.not_eq_true]
  constructor
  · intro heq
    by_contra hzero
    rw [Bool.not_eq_false] at hzero
    have hnil : [] ∈ e.value.unaryStar.language := heq.ge (Language.nil_mem_kstar _)
    rw [Regex.isZero_iff.mp ((Regex.isZero_unaryStar _).trans hzero), Regex.language_zero] at hnil
    exact Language.notMem_zero _ hnil
  · exact Regex.language_unaryStar

/-- In an expression and all its parts the value has the language of the expression exactly
when no literal contains the marker and no star has an operand without words. -/
theorem language_value_iff (e : Expression) :
    (∀ s ∈ e.subexpressions, s.value.language = s.language) ↔
      ∀ s ∈ e.subexpressions, s.Plain := by
  induction e with
  | literal s => simp [subexpressions, Plain, value, language, Regex.language_literal_eq_iff]
  | zero => simp [subexpressions, Plain, value, language]
  | empty => simp [subexpressions, Plain, value, language]
  | add a b iha ihb =>
      simp only [subexpressions, List.forall_mem_cons, List.forall_mem_append, iha, ihb, Plain,
        true_and, and_iff_right_iff_imp]
      intro h
      rw [value, language, Regex.language_add, iha.mpr h.1 a a.mem_subexpressions,
        ihb.mpr h.2 b b.mem_subexpressions]
  | mul a b iha ihb =>
      simp only [subexpressions, List.forall_mem_cons, List.forall_mem_append, iha, ihb, Plain,
        true_and, and_iff_right_iff_imp]
      intro h
      rw [value, language, Regex.language_mul, iha.mpr h.1 a a.mem_subexpressions,
        ihb.mpr h.2 b b.mem_subexpressions]
  | star a iha =>
      simp only [subexpressions, List.forall_mem_cons, iha]
      apply and_congr_left
      intro h
      exact language_value_star_iff (iha.mpr h a a.mem_subexpressions)

/-- Only the empty literal brings in a `Concat` node without operands. -/
theorem noEmptyConcat_value (e : Expression) (h : ∀ s ∈ e.subexpressions, s ≠ literal []) :
    e.value.noEmptyConcat = true := by
  induction e with
  | literal s =>
      refine Regex.noEmptyConcat_literal.mpr fun hs => h _ (mem_subexpressions _) ?_
      rw [hs]
  | zero => rfl
  | empty => rfl
  | add a b iha ihb =>
      simp only [subexpressions, List.forall_mem_cons, List.forall_mem_append] at h
      exact Regex.noEmptyConcat_addAssign (iha h.2.1) (ihb h.2.2)
  | mul a b iha ihb =>
      simp only [subexpressions, List.forall_mem_cons, List.forall_mem_append] at h
      exact Regex.noEmptyConcat_mulAssign (iha h.2.1) (ihb h.2.2)
  | star a iha =>
      simp only [subexpressions, List.forall_mem_cons] at h
      exact Regex.noEmptyConcat_unaryStar (iha h.2)

/-- The star of zero has no word, not even the empty one. -/
theorem language_value_star_zero : (star zero).value.language ≠ (star zero).language := by
  intro heq
  have hvalue : (star zero).value = Regex.zero := rfl
  have hnil : [] ∈ (star zero).language := Language.nil_mem_kstar _
  rw [← heq, hvalue, Regex.language_zero] at hnil
  exact Language.notMem_zero _ hnil

end Expression

end FormalLanguages
