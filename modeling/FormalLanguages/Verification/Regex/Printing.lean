import FormalLanguages.Verification.Regex.Language

/-! # The printed form

A reader that goes through the text once, with a stack of the brackets that are open, gets
back the printed regex up to the nesting of its concatenations. So the text determines the
language. -/

namespace FormalLanguages

namespace Regex

variable {r s : Regex} {rs : List Regex} {c : CChar}

/-! ## What the text keeps -/

mutual

/-- The factors of a regex: concatenations within concatenations are taken apart. -/
def factors : Regex → List Regex
  | .char c => [.char c]
  | .concat operands => factorsAll operands
  | .sum operands => [.sum (flattenAll operands)]
  | .star operand => [.star (.concat operand.factors)]

def factorsAll : List Regex → List Regex
  | [] => []
  | r :: rs => r.factors ++ factorsAll rs

def flattenAll : List Regex → List Regex
  | [] => []
  | r :: rs => .concat r.factors :: flattenAll rs

end

theorem factorsAll_eq (rs : List Regex) : factorsAll rs = rs.flatMap factors := by
  induction rs with
  | nil => rfl
  | cons r rs ih => rw [factorsAll, ih, List.flatMap_cons]

theorem flattenAll_eq (rs : List Regex) :
    flattenAll rs = rs.map fun r => .concat r.factors := by
  induction rs with
  | nil => rfl
  | cons r rs ih => rw [flattenAll, ih, List.map_cons]

theorem language_concat_factors (r : Regex) : (concat r.factors).language = r.language := by
  induction r using Regex.induction with
  | char c => rw [factors, language_concat, List.map_singleton, List.prod_singleton]
  | concat rs ih =>
      rw [factors, factorsAll_eq]
      induction rs with
      | nil => rfl
      | cons r rs ih' =>
          have hr := ih r (by simp)
          have hrs := ih' fun s hs => ih s (List.mem_cons_of_mem _ hs)
          rw [language_concat] at hr hrs ⊢
          rw [List.flatMap_cons, List.map_append, List.prod_append, hr, hrs, language_concat,
            language_concat, List.map_cons, List.prod_cons]
  | sum rs ih =>
      rw [factors, language_concat, List.map_singleton, List.prod_singleton, flattenAll_eq,
        language_sum, language_sum, List.map_map]
      exact congrArg List.sum (List.map_congr_left ih)
  | star r ih =>
      rw [factors, language_concat, List.map_singleton, List.prod_singleton, language_star,
        language_star, ih]

/-! ## The reader -/

/-- A bracket that is open: the summands before the last `+`, and the factors after it, the
last one first. -/
structure Frame where
  summands : List Regex
  factors : List Regex

namespace Frame

/-- All summands, with the one that is being read. -/
def all (f : Frame) : List Regex := f.summands ++ [.concat f.factors.reverse]

/-- The bracket as a sum. Between brackets with nothing in them there is no summand. -/
def close (f : Frame) : Regex :=
  if f.summands.isEmpty && f.factors.isEmpty then .sum [] else .sum f.all

/-- More factors of the summand that is being read. -/
def append (f : Frame) (rs : List Regex) : Frame := { f with factors := rs.reverse ++ f.factors }

@[simp] theorem append_nil (f : Frame) : f.append [] = f := rfl

theorem append_append (f : Frame) (rs ss : List Regex) :
    (f.append rs).append ss = f.append (rs ++ ss) := by
  simp [append]

end Frame

/-- A bracket that turns out to be that of a star. -/
def starred : Regex → Regex
  | .sum [] => .star (.concat [])
  | .sum [r] => .star r
  | r => r

/-- The innermost bracket and the ones around it. -/
structure Reader where
  top : Frame
  outer : List Frame

namespace Reader

/-- One byte of the text. -/
def step (s : Reader) (c : CChar) : Reader :=
  if c = ascii '(' then ⟨⟨[], []⟩, s.top :: s.outer⟩
  else if c = ascii ')' then
    match s.outer with
    | [] => s
    | f :: outer => ⟨f.append [s.top.close], outer⟩
  else if c = ascii '*' then
    match s.top.factors with
    | [] => s
    | r :: rs => ⟨{ s.top with factors := starred r :: rs }, s.outer⟩
  else if c = ascii '+' then ⟨⟨s.top.all, []⟩, s.outer⟩
  else if c = ascii ' ' then s
  else if c = -50 then s
  else if c = -75 then ⟨s.top.append [.empty], s.outer⟩
  else ⟨s.top.append [.char c], s.outer⟩

def read (s : Reader) (text : List CChar) : Reader := text.foldl step s

variable {s : Reader} {f g : Frame} {outer : List Frame}

@[simp] theorem read_append (t u : List CChar) : read s (t ++ u) = read (read s t) u :=
  List.foldl_append

theorem read_open : read ⟨f, outer⟩ [ascii '('] = ⟨⟨[], []⟩, f :: outer⟩ := rfl

theorem read_close : read ⟨g, f :: outer⟩ [ascii ')'] = ⟨f.append [g.close], outer⟩ := rfl

theorem read_close_star :
    read ⟨g, f :: outer⟩ [ascii ')', ascii '*'] = ⟨f.append [starred g.close], outer⟩ := rfl

theorem read_plus :
    read ⟨f, outer⟩ [ascii ' ', ascii '+', ascii ' '] = ⟨⟨f.all, []⟩, outer⟩ := rfl

theorem read_epsilonSign : read ⟨f, outer⟩ epsilonSign = ⟨f.append [.empty], outer⟩ := rfl

end Reader

/-- The bytes that the printer writes of its own accord. -/
def reserved : List CChar :=
  [ascii '(', ascii ')', ascii '*', ascii '+', ascii ' '] ++ epsilonSign

theorem Reader.read_char {f : Frame} {outer : List Frame} (hc : c ∉ reserved) :
    read ⟨f, outer⟩ [c] = ⟨f.append [.char c], outer⟩ := by
  simp only [reserved, epsilonSign, List.cons_append, List.nil_append, List.mem_cons,
    List.not_mem_nil, or_false, not_or] at hc
  obtain ⟨hopen, hclose, hstar, hplus, hspace, hfirst, hsecond⟩ := hc
  rw [read, List.foldl_cons, List.foldl_nil, step]
  rw [if_neg hopen, if_neg hclose, if_neg hstar, if_neg hplus, if_neg hspace, if_neg hfirst,
    if_neg hsecond]

/-! ## Reading what was printed -/

/-- No sum, at any depth, has exactly one operand: in brackets it would look like nothing but
its operand. -/
inductive Branching : Regex → Prop where
  | char (c : CChar) : Branching (.char c)
  | concat {rs : List Regex} (operands : ∀ r ∈ rs, Branching r) : Branching (.concat rs)
  | sum {rs : List Regex} (operands : ∀ r ∈ rs, Branching r) (length_ne : rs.length ≠ 1) :
      Branching (.sum rs)
  | star {r : Regex} (operand : Branching r) : Branching (.star r)

/-- The reader goes through the text of a regex and adds its factors. -/
def ReadsBack (r : Regex) : Prop :=
  ∀ (f : Frame) (outer : List Frame),
    Reader.read ⟨f, outer⟩ r.print = ⟨f.append r.factors, outer⟩

theorem readsBack_char (hc : ∀ d ∈ (char c).letters, d ∉ reserved) : ReadsBack (char c) := by
  intro f outer
  by_cases h0 : c = 0
  · subst h0
    exact Reader.read_epsilonSign
  · have hprint : (char c).print = [c] := by simp [print, h0]
    rw [hprint, factors]
    exact Reader.read_char (hc c (mem_letters_char.mpr ⟨h0, rfl⟩))

theorem readsBack_concat (h : ∀ r ∈ rs, ReadsBack r) : ReadsBack (concat rs) := by
  intro f outer
  rw [print, factors]
  induction rs generalizing f with
  | nil => rfl
  | cons r rs ih =>
      rw [printConcat, factorsAll, Reader.read_append, h r (by simp),
        ih (fun s hs => h s (List.mem_cons_of_mem _ hs)), Frame.append_append]

/-- Reading the operands behind the first one, each with its `+` in front. -/
theorem read_printSum (h : ∀ r ∈ rs, ReadsBack r) (f : Frame) (outer : List Frame) :
    ∃ g : Frame, Reader.read ⟨f, outer⟩ (printSum false rs) = ⟨g, outer⟩ ∧
      g.all = f.all ++ flattenAll rs ∧ (rs ≠ [] → g.summands ≠ []) := by
  induction rs generalizing f with
  | nil => exact ⟨f, rfl, by simp [flattenAll], fun h => absurd rfl h⟩
  | cons r rs ih =>
      obtain ⟨g, hg, hall, hne⟩ := ih (fun s hs => h s (List.mem_cons_of_mem _ hs))
        (Frame.append ⟨f.all, []⟩ r.factors)
      refine ⟨g, ?_, ?_, fun _ hnil => ?_⟩
      · simp only [printSum, Bool.not_false, if_true, Reader.read_append, Reader.read_plus]
        rw [h r (by simp), hg]
      · rw [hall, flattenAll]
        simp [Frame.all, Frame.append]
      · -- the summands read before stay in front of the rest
        have hlen := congrArg List.length hall
        simp only [Frame.all, hnil, Frame.append, List.nil_append, List.length_append,
          List.length_singleton] at hlen
        omega

theorem readsBack_sum (h : ∀ r ∈ rs, ReadsBack r) (hlen : rs.length ≠ 1) :
    ReadsBack (sum rs) := by
  intro f outer
  rw [print, factors, Reader.read_append, Reader.read_append, Reader.read_open]
  cases rs with
  | nil => rfl
  | cons r rs =>
      have hrs : rs ≠ [] := by
        intro hnil
        simp [hnil] at hlen
      obtain ⟨g, hg, hall, hne⟩ := read_printSum (fun s hs => h s (List.mem_cons_of_mem _ hs))
        (Frame.append ⟨[], []⟩ r.factors) (f :: outer)
      have hclose : g.close = sum (flattenAll (r :: rs)) := by
        have hsummands : g.summands.isEmpty = false := by simpa using hne hrs
        rw [Frame.close, hsummands, Bool.false_and, if_neg Bool.false_ne_true, hall, flattenAll]
        simp [Frame.all, Frame.append]
      simp only [printSum, Bool.not_true, Bool.false_eq_true, if_false, List.nil_append,
        Reader.read_append]
      rw [h r (by simp), hg, Reader.read_close, hclose]

theorem readsBack_star (h : ReadsBack r) : ReadsBack (star r) := by
  intro f outer
  rw [print, factors, Reader.read_append, Reader.read_append, Reader.read_open, h,
    Reader.read_close_star]
  have hstarred : starred (Frame.append ⟨[], []⟩ r.factors).close = star (concat r.factors) := by
    cases hfactors : r.factors with
    | nil => rfl
    | cons s ss => simp [Frame.close, Frame.append, Frame.all, starred]
  rw [hstarred]

theorem Branching.readsBack (h : Branching r) (hr : ∀ c ∈ r.letters, c ∉ reserved) :
    ReadsBack r := by
  induction h with
  | char c => exact readsBack_char hr
  | concat _ ih =>
      exact readsBack_concat fun s hs => ih s hs fun c hc =>
        hr c (mem_letters_concat.mpr ⟨s, hs, hc⟩)
  | sum _ hlen ih =>
      exact readsBack_sum (fun s hs => ih s hs fun c hc =>
        hr c (mem_letters_sum.mpr ⟨s, hs, hc⟩)) hlen
  | star _ ih => exact readsBack_star (ih fun c hc => hr c (mem_letters_star.mpr hc))

/-- The text of such regexes determines their factors. -/
theorem factors_eq_of_print_eq (hr : ReadsBack r) (hs : ReadsBack s) (h : r.print = s.print) :
    r.factors = s.factors := by
  have hread := hr ⟨[], []⟩ []
  rw [h, hs] at hread
  simpa [Frame.append] using hread.symm

/-! ## What the operators build -/

theorem branching_zero : Branching zero := .sum (by simp) (by simp)

theorem branching_literal (string : List CChar) : Branching (literal string) := by
  refine .concat fun r hr => ?_
  obtain ⟨c, _, rfl⟩ := List.mem_map.mp hr
  exact .char c

theorem branching_addAssign (hr : Branching r) (hs : Branching s) :
    Branching (r.addAssign s) := by
  unfold addAssign
  split
  · exact hs
  · rename_i hzero
    split
    · exact hr
    · split
      · rename_i operands
        cases hr with
        | sum hoperands _ =>
            refine .sum (fun t ht => ?_) ?_
            · rcases List.mem_append.mp ht with ht | ht
              · exact hoperands t ht
              · rwa [List.mem_singleton.mp ht]
            · -- the left operand is not zero, so it has operands already
              have hne : operands ≠ [] := by
                rintro rfl
                exact hzero rfl
              rw [List.length_append, List.length_singleton]
              exact Nat.succ_ne_succ_iff.mpr fun h => hne (List.eq_nil_of_length_eq_zero h)
      · refine .sum (fun t ht => ?_) (by simp)
        simp only [List.mem_cons, List.not_mem_nil, or_false] at ht
        rcases ht with rfl | rfl
        · exact hr
        · exact hs

theorem branching_mulAssign (hr : Branching r) (hs : Branching s) :
    Branching (r.mulAssign s) := by
  unfold mulAssign
  split
  · exact hr
  · split
    · exact branching_zero
    · split
      · exact hs
      · split
        · exact hr
        · split
          · cases hr with
            | concat hoperands =>
                refine .concat fun t ht => ?_
                rcases List.mem_append.mp ht with ht | ht
                · exact hoperands t ht
                · rwa [List.mem_singleton.mp ht]
          · refine .concat fun t ht => ?_
            simp only [List.mem_cons, List.not_mem_nil, or_false] at ht
            rcases ht with rfl | rfl
            · exact hr
            · exact hs

theorem branching_unaryStar (hr : Branching r) : Branching r.unaryStar := by
  rw [unaryStar]
  split
  · exact hr
  · exact .star hr

end Regex

namespace Expression

theorem branching_value (e : Expression) : e.value.Branching := by
  induction e with
  | literal string => exact Regex.branching_literal string
  | zero => exact Regex.branching_zero
  | empty => exact .char 0
  | add _ _ iha ihb => exact Regex.branching_addAssign iha ihb
  | mul _ _ iha ihb => exact Regex.branching_mulAssign iha ihb
  | star _ iha => exact Regex.branching_unaryStar iha

/-- Values of expressions with the same text have the same language, unless some letter is a
byte that the printer writes itself. -/
theorem language_eq_of_print_eq (e f : Expression)
    (he : ∀ c ∈ e.value.letters, c ∉ Regex.reserved)
    (hf : ∀ c ∈ f.value.letters, c ∉ Regex.reserved) (h : e.value.print = f.value.print) :
    e.value.language = f.value.language := by
  have hfactors := Regex.factors_eq_of_print_eq (e.branching_value.readsBack he)
    (f.branching_value.readsBack hf) h
  calc e.value.language = (Regex.concat e.value.factors).language :=
        (Regex.language_concat_factors _).symm
    _ = (Regex.concat f.value.factors).language := by rw [hfactors]
    _ = f.value.language := Regex.language_concat_factors _

/-- `"ab"_r * ("a"_r + "b"_r)` and `"a"_r * ("b"_r * ("a"_r + "b"_r))` are different trees. -/
theorem language_eq_of_print_eq_nested :
    (mul (literal [97, 98]) (add (literal [97]) (literal [98]))).value.language =
      (mul (literal [97]) (mul (literal [98]) (add (literal [97]) (literal [98])))).value.language :=
  language_eq_of_print_eq (mul (literal [97, 98]) (add (literal [97]) (literal [98])))
    (mul (literal [97]) (mul (literal [98]) (add (literal [97]) (literal [98]))))
    (by decide +kernel) (by decide +kernel) (by decide +kernel)

/-- `test_regex_printing`. -/
example : (mul (star (add (add (literal [97]) (literal [98])) empty)) (literal [99])).value.print =
    "((a + b + ".toList.map Regex.ascii ++ Regex.epsilonSign ++ "))*c".toList.map Regex.ascii := by
  decide +kernel

end Expression

end FormalLanguages
