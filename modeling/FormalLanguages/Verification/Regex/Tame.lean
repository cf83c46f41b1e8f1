import FormalLanguages.Verification.Regex.Language

/-! # Regexes on which no replacement goes wrong

The epsilon remover only goes wrong at a state that has a self-loop and is entered by an epsilon
transition. The shape of a regex can rule this out: inside of a star all ways to a state have
to end alike, with a letter or with the empty word, and the operand must not have the empty
word. -/

namespace FormalLanguages.Regex

variable {r s : Regex} {rs : List Regex} {w : List CChar}

/-! ## The empty word -/

mutual

/-- The empty word is in the language. -/
def nullable : Regex → Bool
  | .char c => c == 0
  | .concat operands => allNullable operands
  | .sum operands => anyNullable operands
  | .star _ => true

def allNullable : List Regex → Bool
  | [] => true
  | r :: rs => r.nullable && allNullable rs

def anyNullable : List Regex → Bool
  | [] => false
  | r :: rs => r.nullable || anyNullable rs

end

theorem allNullable_iff : allNullable rs = true ↔ ∀ r ∈ rs, r.nullable = true := by
  induction rs with
  | nil => simp [allNullable]
  | cons r rs ih => simp [allNullable, ih]

theorem anyNullable_iff : anyNullable rs = true ↔ ∃ r ∈ rs, r.nullable = true := by
  induction rs with
  | nil => simp [anyNullable]
  | cons r rs ih => simp [anyNullable, ih]

theorem nil_mem_mul {l m : Language CChar} : [] ∈ l * m ↔ [] ∈ l ∧ [] ∈ m := by
  rw [Language.mem_mul]
  constructor
  · intro hex
    obtain ⟨u, hu, v, hv, huv⟩ := hex
    obtain ⟨rfl, rfl⟩ := List.append_eq_nil_iff.mp huv
    exact ⟨hu, hv⟩
  · exact fun h => ⟨[], h.1, [], h.2, rfl⟩

theorem nil_mem_prod {ls : List (Language CChar)} : [] ∈ ls.prod ↔ ∀ l ∈ ls, [] ∈ l := by
  induction ls with
  | nil => simp
  | cons l ls ih => simp [nil_mem_mul, ih]

theorem nullable_iff : r.nullable = true ↔ [] ∈ r.language := by
  induction r using Regex.induction with
  | char c =>
      by_cases hc : c = 0
      · subst hc
        simp [nullable, language_char_zero]
      · rw [language_char hc]
        refine iff_of_false (by simpa [nullable] using hc) fun hnil => ?_
        exact List.cons_ne_nil c [] (Set.mem_singleton_iff.mp hnil).symm
  | concat rs ih =>
      rw [nullable, allNullable_iff, language_concat, nil_mem_prod]
      simp only [List.mem_map, forall_exists_index, and_imp, forall_apply_eq_imp_iff₂]
      exact forall₂_congr ih
  | sum rs ih =>
      rw [nullable, anyNullable_iff, mem_language_sum]
      exact exists_congr fun r => and_congr_right (ih r)
  | star r _ =>
      rw [nullable, language_star]
      exact iff_of_true rfl (Language.nil_mem_kstar _)

/-! ## How the ways through a regex end -/

/-- The last transition of a way through a regex. -/
inductive Ending where
  | letter
  | empty

mutual

/-- All ways through the regex, broken into single letters and empty words, end alike. The
ways through a star end with the empty word that leaves it. -/
def endsWith : Ending → Regex → Bool
  | .letter, .char c => c != 0
  | .empty, .char c => c == 0
  | e, .concat operands => lastEndsWith e operands
  | e, .sum operands => allEndWith e operands
  | .letter, .star _ => false
  | .empty, .star operand =>
      (operand.endsWith .letter || operand.endsWith .empty) && !operand.nullable

/-- The last operand ends so, and the ways through each of the others end alike. -/
def lastEndsWith (e : Ending) : List Regex → Bool
  | [] => true
  | [r] => r.endsWith e
  | r :: s :: rs => (r.endsWith .letter || r.endsWith .empty) && lastEndsWith e (s :: rs)

def allEndWith (e : Ending) : List Regex → Bool
  | [] => true
  | r :: rs => r.endsWith e && allEndWith e rs

end

mutual

/-- Inside of every star the operand has not the empty word and the ways to a state end
alike. -/
def tame : Regex → Bool
  | .char _ => true
  | .concat operands => allTame operands
  | .sum operands => allTame operands
  | .star operand => endsWith .empty (.star operand)

def allTame : List Regex → Bool
  | [] => true
  | r :: rs => r.tame && allTame rs

end

/-! ### Lemmas for the operands -/

theorem allEndWith_iff {e : Ending} : allEndWith e rs = true ↔ ∀ r ∈ rs, r.endsWith e = true := by
  induction rs with
  | nil => simp [allEndWith]
  | cons r rs ih => simp [allEndWith, ih]

theorem endsWith_sum {e : Ending} :
    (Regex.sum rs).endsWith e = true ↔ ∀ r ∈ rs, r.endsWith e = true := by
  cases e <;> rw [endsWith, allEndWith_iff]

theorem endsWith_concat_single {e : Ending} :
    (Regex.concat [r]).endsWith e = r.endsWith e := by
  cases e <;> rw [endsWith, lastEndsWith]

theorem endsWith_concat_cons {e : Ending} :
    (Regex.concat (r :: s :: rs)).endsWith e = true ↔
      (r.endsWith .letter = true ∨ r.endsWith .empty = true) ∧
        (Regex.concat (s :: rs)).endsWith e = true := by
  cases e <;> rw [endsWith, endsWith, lastEndsWith, Bool.and_eq_true, Bool.or_eq_true]

theorem endsWith_star :
    (Regex.star r).endsWith .empty = true ↔
      (r.endsWith .letter = true ∨ r.endsWith .empty = true) ∧ [] ∉ r.language := by
  rw [endsWith, Bool.and_eq_true, Bool.or_eq_true, ← nullable_iff, Bool.not_eq_true',
    Bool.not_eq_true]

theorem allTame_iff : allTame rs = true ↔ ∀ r ∈ rs, r.tame = true := by
  induction rs with
  | nil => simp [allTame]
  | cons r rs ih => simp [allTame, ih]

theorem tame_concat_cons : (Regex.concat (r :: rs)).tame = true ↔
    r.tame = true ∧ (Regex.concat rs).tame = true := by
  rw [tame, tame, allTame, Bool.and_eq_true]

theorem tame_sum : (Regex.sum rs).tame = true ↔ ∀ r ∈ rs, r.tame = true := by
  rw [tame, allTame_iff]

end FormalLanguages.Regex
