import FormalLanguages.Model.Regex
import FormalLanguages.Library.LanguageGraph

/-! # The language of a regex, its letters and its operators -/

namespace FormalLanguages.Regex

/-! ## Induction over the syntax -/

/-- Induction where the operands of a node are the members of a list. -/
@[elab_as_elim]
theorem induction {motive : Regex → Prop} (char : ∀ c, motive (.char c))
    (concat : ∀ operands, (∀ r ∈ operands, motive r) → motive (.concat operands))
    (sum : ∀ operands, (∀ r ∈ operands, motive r) → motive (.sum operands))
    (star : ∀ operand, motive operand → motive (.star operand)) (r : Regex) : motive r := by
  refine @Regex.rec motive (fun rs => ∀ r ∈ rs, motive r)
    char concat sum star ?_ ?_ r
  · intro r hr
    cases hr
  · intro r rs hr hrs s hs
    rcases List.mem_cons.mp hs with rfl | hs
    · exact hr
    · exact hrs s hs

/-! ## The language -/

mutual

/-- The usual language of a regex; the byte `0` stands for the empty word. -/
def language : Regex → Language CChar
  | .char ch => if ch = 0 then 1 else {[ch]}
  | .concat operands => languageProd operands
  | .sum operands => languageSum operands
  | .star operand => KStar.kstar operand.language

def languageProd : List Regex → Language CChar
  | [] => 1
  | r :: rs => r.language * languageProd rs

def languageSum : List Regex → Language CChar
  | [] => 0
  | r :: rs => r.language + languageSum rs

end

theorem language_char_zero : (Regex.char 0).language = 1 := by
  rw [language, if_pos rfl]

theorem language_char {c : CChar} (h : c ≠ 0) : (Regex.char c).language = {[c]} := by
  rw [language, if_neg h]

theorem language_star (r : Regex) : (Regex.star r).language = KStar.kstar r.language := by
  rw [language]

theorem languageProd_eq (rs : List Regex) : languageProd rs = (rs.map language).prod := by
  induction rs with
  | nil => rfl
  | cons r rs ih => rw [languageProd, List.map_cons, List.prod_cons, ih]

theorem languageSum_eq (rs : List Regex) : languageSum rs = (rs.map language).sum := by
  induction rs with
  | nil => rfl
  | cons r rs ih => rw [languageSum, List.map_cons, List.sum_cons, ih]

theorem language_concat (rs : List Regex) :
    (Regex.concat rs).language = (rs.map language).prod := by
  rw [language, languageProd_eq]

theorem language_sum (rs : List Regex) : (Regex.sum rs).language = (rs.map language).sum := by
  rw [language, languageSum_eq]

theorem mem_language_sum {rs : List Regex} {w : List CChar} :
    w ∈ (Regex.sum rs).language ↔ ∃ r ∈ rs, w ∈ r.language := by
  rw [language_sum]
  induction rs with
  | nil => simp [Language.notMem_zero]
  | cons r rs ih => simp [Language.mem_add, ih]

@[simp] theorem language_empty : empty.language = 1 := language_char_zero

@[simp] theorem language_zero : zero.language = 0 := by
  rw [zero, language_sum]
  rfl

/-! ## Kinds of labels -/

theorem isZero_iff {r : Regex} : r.isZero = true ↔ r = zero := by
  unfold isZero zero
  split <;> simp_all

theorem isEmpty_iff {r : Regex} : r.isEmpty = true ↔ r = empty := by
  cases r <;> simp [isEmpty, empty]

theorem isCharOf_iff {c : CChar} {r : Regex} : r.isCharOf c = true ↔ r = .char c := by
  cases r <;> simp [isCharOf]

theorem isCharTransition_iff {r : Regex} : r.isCharTransition = true ↔ ∃ c, r = .char c := by
  cases r <;> simp [isCharTransition]

/-! ## Concat nodes without operands -/

mutual

/-- No `Concat` node, at any depth, has zero operands. -/
def noEmptyConcat : Regex → Bool
  | .char _ => true
  | .concat operands => !operands.isEmpty && allNoEmptyConcat operands
  | .sum operands => allNoEmptyConcat operands
  | .star operand => operand.noEmptyConcat

def allNoEmptyConcat : List Regex → Bool
  | [] => true
  | r :: rs => r.noEmptyConcat && allNoEmptyConcat rs

end

theorem allNoEmptyConcat_iff {rs : List Regex} :
    allNoEmptyConcat rs = true ↔ ∀ r ∈ rs, r.noEmptyConcat = true := by
  induction rs with
  | nil => simp [allNoEmptyConcat]
  | cons r rs ih => simp [allNoEmptyConcat, ih]

theorem noEmptyConcat_concat {rs : List Regex} :
    (Regex.concat rs).noEmptyConcat = true ↔
      rs ≠ [] ∧ ∀ r ∈ rs, r.noEmptyConcat = true := by
  rw [noEmptyConcat, Bool.and_eq_true, allNoEmptyConcat_iff]
  simp

theorem noEmptyConcat_sum {rs : List Regex} :
    (Regex.sum rs).noEmptyConcat = true ↔ ∀ r ∈ rs, r.noEmptyConcat = true := by
  rw [noEmptyConcat, allNoEmptyConcat_iff]

@[simp] theorem noEmptyConcat_star {r : Regex} :
    (Regex.star r).noEmptyConcat = r.noEmptyConcat := by
  rw [noEmptyConcat]

/-! ## Letters -/

/-- The letters of a regex, as `fill_alphabet` collects them. -/
def letters (r : Regex) : OrdSet CChar := r.fillAlphabet ∅

theorem mem_fillAlphabetAll_of {rs : List Regex} {c : CChar}
    (h : ∀ r ∈ rs, ∀ s : OrdSet CChar, c ∈ r.fillAlphabet s ↔ c ∈ s ∨ c ∈ r.letters)
    (s : OrdSet CChar) :
    c ∈ fillAlphabetAll rs s ↔ c ∈ s ∨ ∃ r ∈ rs, c ∈ r.letters := by
  induction rs generalizing s with
  | nil => simp [fillAlphabetAll]
  | cons r rs ih =>
      rw [fillAlphabetAll, ih (fun r hr => h r (List.mem_cons_of_mem _ hr)), h r (by simp)]
      simp [or_assoc]

theorem mem_fillAlphabet {c : CChar} {r : Regex} :
    ∀ {s : OrdSet CChar}, c ∈ r.fillAlphabet s ↔ c ∈ s ∨ c ∈ r.letters := by
  induction r using Regex.induction with
  | char d =>
      intro s
      simp only [letters, fillAlphabet]
      split <;> simp [or_comm]
  | concat rs ih =>
      intro s
      have h := @mem_fillAlphabetAll_of rs c fun r hr s => ih r hr
      rw [letters, fillAlphabet, fillAlphabet, h s, h ∅]
      simp
  | sum rs ih =>
      intro s
      have h := @mem_fillAlphabetAll_of rs c fun r hr s => ih r hr
      rw [letters, fillAlphabet, fillAlphabet, h s, h ∅]
      simp
  | star r ih =>
      intro s
      rw [letters, fillAlphabet, fillAlphabet, ih, ih]
      simp

@[simp] theorem mem_letters_char {c d : CChar} : c ∈ (Regex.char d).letters ↔ d ≠ 0 ∧ c = d := by
  simp only [letters, fillAlphabet]
  split <;> simp_all

@[simp] theorem mem_letters_concat {c : CChar} {rs : List Regex} :
    c ∈ (Regex.concat rs).letters ↔ ∃ r ∈ rs, c ∈ r.letters := by
  rw [letters, fillAlphabet, mem_fillAlphabetAll_of fun r _ _ => mem_fillAlphabet]
  simp

@[simp] theorem mem_letters_sum {c : CChar} {rs : List Regex} :
    c ∈ (Regex.sum rs).letters ↔ ∃ r ∈ rs, c ∈ r.letters := by
  rw [letters, fillAlphabet, mem_fillAlphabetAll_of fun r _ _ => mem_fillAlphabet]
  simp

@[simp] theorem mem_letters_star {c : CChar} {r : Regex} :
    c ∈ (Regex.star r).letters ↔ c ∈ r.letters := by
  rw [letters, fillAlphabet]
  rfl

@[simp] theorem notMem_letters_empty {c : CChar} : c ∉ empty.letters := by
  simp [empty]

/-- An alphabet that has all letters of the label is not changed by them. -/
theorem fillAlphabet_eq_self {r : Regex} {s : OrdSet CChar} (h : ∀ c ∈ r.letters, c ∈ s) :
    r.fillAlphabet s = s := by
  apply OrdSet.ext_mem
  intro c
  rw [mem_fillAlphabet]
  exact ⟨fun hc => hc.elim id (h c), .inl⟩

theorem ne_zero_of_mem_letters {c : CChar} {r : Regex} : c ∈ r.letters → c ≠ 0 := by
  induction r using Regex.induction with
  | char d =>
      rw [mem_letters_char]
      intro h
      rcases h with ⟨hd, rfl⟩
      exact hd
  | concat rs ih =>
      rw [mem_letters_concat]
      intro h
      rcases h with ⟨r, hr, hc⟩
      exact ih r hr hc
  | sum rs ih =>
      rw [mem_letters_sum]
      intro h
      rcases h with ⟨r, hr, hc⟩
      exact ih r hr hc
  | star r ih =>
      rw [mem_letters_star]
      exact ih

/-- The words of a regex are words over its letters. -/
theorem mem_letters_of_mem_language {c : CChar} {r : Regex} :
    ∀ {w : List CChar}, w ∈ r.language → c ∈ w → c ∈ r.letters := by
  induction r using Regex.induction with
  | char d =>
      intro w hw hc
      by_cases hd : d = 0
      · subst hd
        rw [language_char_zero, Language.mem_one] at hw
        simp [hw] at hc
      · rw [language_char hd] at hw
        obtain rfl : w = [d] := hw
        simp_all
  | concat rs ih =>
      intro w hw hc
      rw [language_concat] at hw
      rw [mem_letters_concat]
      induction rs generalizing w with
      | nil =>
          obtain rfl : w = [] := hw
          cases hc
      | cons r rs ih' =>
          rw [List.map_cons, List.prod_cons] at hw
          obtain ⟨u, hu, v, hv, rfl⟩ := Language.mem_mul.mp hw
          rcases List.mem_append.mp hc with hc | hc
          · exact ⟨r, by simp, ih r (by simp) hu hc⟩
          · obtain ⟨s, hs, hcs⟩ := ih' (fun s hs => ih s (List.mem_cons_of_mem _ hs)) hv hc
            exact ⟨s, List.mem_cons_of_mem _ hs, hcs⟩
  | sum rs ih =>
      intro w hw hc
      obtain ⟨r, hr, hw⟩ := mem_language_sum.mp hw
      exact mem_letters_sum.mpr ⟨r, hr, ih r hr hw hc⟩
  | star r ih =>
      intro w hw hc
      rw [language_star, Language.mem_kstar] at hw
      obtain ⟨l, rfl, hl⟩ := hw
      obtain ⟨u, hu, hcu⟩ := List.mem_flatten.mp hc
      exact mem_letters_star.mpr (ih (hl u hu) hcu)

/-! ## Operators -/

theorem language_addAssign (a b : Regex) : (a.addAssign b).language = a.language + b.language := by
  unfold addAssign
  split
  · rename_i h
    rw [isZero_iff.mp h, language_zero, zero_add]
  · split
    · rename_i h
      rw [isZero_iff.mp h, language_zero, add_zero]
    · split <;> simp [language_sum]

theorem language_mulAssign (a b : Regex) : (a.mulAssign b).language = a.language * b.language := by
  unfold mulAssign
  split
  · rename_i h
    rw [isZero_iff.mp h, language_zero, zero_mul]
  · split
    · rename_i h
      rw [isZero_iff.mp h, language_zero, mul_zero]
    · split
      · rename_i h
        rw [isEmpty_iff.mp h, language_empty, one_mul]
      · split
        · rename_i h
          rw [isEmpty_iff.mp h, language_empty, mul_one]
        · split <;> simp [language_concat]

@[simp] theorem language_add (a b : Regex) : (a + b).language = a.language + b.language :=
  language_addAssign a b

@[simp] theorem language_mul (a b : Regex) : (a * b).language = a.language * b.language :=
  language_mulAssign a b

/-- The star is right for every operand but zero, which it returns as it is. -/
theorem language_unaryStar {r : Regex} (h : r.isZero = false) :
    r.unaryStar.language = KStar.kstar r.language := by
  rw [unaryStar]
  split
  · rename_i he
    rw [h, Bool.or_false] at he
    rw [isEmpty_iff.mp he, language_empty, kstar_one]
  · exact language_star r

theorem isZero_addAssign (a b : Regex) :
    (a.addAssign b).isZero = (a.isZero && b.isZero) := by
  unfold addAssign
  split
  · simp_all
  · split
    · simp_all
    · split <;> simp_all [isZero]

theorem isZero_mulAssign (a b : Regex) :
    (a.mulAssign b).isZero = (a.isZero || b.isZero) := by
  unfold mulAssign
  split
  · simp_all
  · split
    · simp_all [isZero, zero]
    · split
      · simp_all
      · split
        · simp_all
        · split <;> simp_all [isZero]

theorem mem_letters_addAssign {a b : Regex} {c : CChar} (h : c ∈ (a.addAssign b).letters) :
    c ∈ a.letters ∨ c ∈ b.letters := by
  unfold addAssign at h
  split at h
  · exact .inr h
  · split at h
    · exact .inl h
    · split at h
      · simpa [or_and_right, exists_or] using h
      · simpa using h

theorem mem_letters_mulAssign {a b : Regex} {c : CChar} (h : c ∈ (a.mulAssign b).letters) :
    c ∈ a.letters ∨ c ∈ b.letters := by
  unfold mulAssign at h
  split at h
  · exact .inl h
  · split at h
    · exact absurd h OrderedSet.notMem_empty
    · split at h
      · exact .inr h
      · split at h
        · exact .inl h
        · split at h
          · simpa [or_and_right, exists_or] using h
          · simpa using h

theorem mem_letters_unaryStar {a : Regex} {c : CChar} (h : c ∈ a.unaryStar.letters) :
    c ∈ a.letters := by
  rw [unaryStar] at h
  split at h
  · exact h
  · rwa [mem_letters_star] at h

theorem isZero_unaryStar (a : Regex) : a.unaryStar.isZero = a.isZero := by
  rw [unaryStar]
  split
  · rfl
  · rename_i h
    rw [Bool.or_eq_true, not_or, Bool.not_eq_true, Bool.not_eq_true] at h
    rw [h.2]
    rfl

/-! ## Sums built one operand at a time -/

theorem mem_language_foldl_addAssign {rs : List Regex} {r : Regex} {w : List CChar} :
    w ∈ (rs.foldl addAssign r).language ↔ w ∈ r.language ∨ ∃ s ∈ rs, w ∈ s.language := by
  induction rs generalizing r with
  | nil => simp
  | cons s rs ih =>
      rw [List.foldl_cons, ih, language_addAssign, Language.mem_add]
      simp [or_assoc]

theorem mem_letters_foldl_addAssign {rs : List Regex} {r : Regex} {c : CChar}
    (h : c ∈ (rs.foldl addAssign r).letters) : c ∈ r.letters ∨ ∃ s ∈ rs, c ∈ s.letters := by
  induction rs generalizing r with
  | nil => exact .inl h
  | cons s rs ih =>
      rcases ih h with hc | ⟨t, ht, hc⟩
      · rcases mem_letters_addAssign hc with hc | hc
        · exact .inl hc
        · exact .inr ⟨s, by simp, hc⟩
      · exact .inr ⟨t, List.mem_cons_of_mem _ ht, hc⟩

theorem isZero_foldl_addAssign {rs : List Regex} {r : Regex} :
    (rs.foldl addAssign r).isZero = true ↔ r.isZero = true ∧ ∀ s ∈ rs, s.isZero = true := by
  induction rs generalizing r with
  | nil => simp
  | cons s rs ih =>
      rw [List.foldl_cons, ih, isZero_addAssign]
      simp [and_assoc]

/-! ## Equality -/

theorem beqAll_iff {rs ss : List Regex} (h : ∀ r ∈ rs, ∀ s, r.beq s = true ↔ r = s) :
    beqAll rs ss = true ↔ rs = ss := by
  induction rs generalizing ss with
  | nil =>
      cases ss with
      | nil => simp [beqAll]
      | cons s ss => simp [beqAll]
  | cons r rs ih =>
      cases ss with
      | nil => simp [beqAll]
      | cons s ss =>
          rw [beqAll, Bool.and_eq_true, h r (by simp),
            ih fun x hx => h x (List.mem_cons_of_mem _ hx), List.cons.injEq]

/-- `operator==` compares the trees. -/
theorem beq_iff {r s : Regex} : r.beq s = true ↔ r = s := by
  induction r using Regex.induction generalizing s with
  | char c => cases s <;> simp [beq]
  | concat rs ih =>
      cases s with
      | concat ss => rw [beq, beqAll_iff fun r hr s => ih r hr, concat.injEq]
      | _ => simp [beq]
  | sum rs ih =>
      cases s with
      | sum ss => rw [beq, beqAll_iff fun r hr s => ih r hr, sum.injEq]
      | _ => simp [beq]
  | star r ih =>
      cases s with
      | star s => rw [beq, ih, star.injEq]
      | _ => simp [beq]

instance : LawfulBEq Regex where
  eq_of_beq h := beq_iff.mp h
  rfl := beq_iff.mpr rfl

end FormalLanguages.Regex
