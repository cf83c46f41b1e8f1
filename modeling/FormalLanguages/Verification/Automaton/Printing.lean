import FormalLanguages.Library.PrefixCode
import FormalLanguages.Model.GraphvizPrinter
import FormalLanguages.Verification.Automaton.Deterministic
import FormalLanguages.Verification.Regex.Printing
import Mathlib.Tactic.FinCases
import Mathlib.Tactic.IntervalCases

/-! # The printed graph

The text is the start index, the list of the final states and the list of the transitions,
each written so that it can be told from what follows. So it determines the automaton as far
as the labels can be read back. -/

namespace FormalLanguages

/-! ## Numbers -/

theorem mem_digits {c : Char} (h : c.isDigit = true) : c ∈ "0123456789".toList := by
  simp only [Char.isDigit, Bool.and_eq_true, decide_eq_true_eq] at h
  have hlow : 48 ≤ c.toNat := h.1
  have hhigh : c.toNat ≤ 57 := h.2
  rw [← Char.ofNat_toNat c]
  generalize c.toNat = n at hlow hhigh
  interval_cases n <;> decide

/-- The character of an ASCII byte. -/
def ofByte (b : CChar) : Char := Char.ofNat b.toInt.toNat

theorem ofByte_ascii_digit : ∀ c ∈ "0123456789".toList, ofByte (Regex.ascii c) = c := by
  intro c hc
  fin_cases hc <;> rfl

theorem isDigit_of_mem_toDigits {c : Char} {n : ℕ} (h : c ∈ Nat.toDigits 10 n) :
    c ∈ "0123456789".toList :=
  mem_digits (Nat.isDigit_of_mem_toDigits (by decide) (by decide) h)

theorem mem_decimal {b : CChar} {n : ℕ} (h : b ∈ decimal n) :
    b ∈ "0123456789".toList.map Regex.ascii := by
  obtain ⟨c, hc, rfl⟩ := List.mem_map.mp h
  exact List.mem_map.mpr ⟨c, isDigit_of_mem_toDigits hc, rfl⟩

theorem decimal_ne_nil (n : ℕ) : decimal n ≠ [] := by simp [decimal, Nat.toDigits_ne_nil]

theorem ofDigitChars_decimal (n : ℕ) : Nat.ofDigitChars 10 ((decimal n).map ofByte) 0 = n := by
  have hread : (decimal n).map ofByte = Nat.toDigits 10 n := by
    rw [decimal, List.map_map]
    conv_rhs => rw [← List.map_id (Nat.toDigits 10 n)]
    apply List.map_congr_left
    intro c hc
    exact ofByte_ascii_digit c (isDigit_of_mem_toDigits hc)
  rw [hread, Nat.ofDigitChars_ten_toDigits]

theorem decimal_injective : Function.Injective decimal := by
  intro m n h
  rw [← ofDigitChars_decimal m, h, ofDigitChars_decimal]

/-- A number and a byte that is no digit. -/
theorem prefixFreeOn_decimal {b : CChar} (hb : b ∉ "0123456789".toList.map Regex.ascii) :
    PrefixFreeOn (fun n => decimal n ++ [b]) Set.univ :=
  .terminated decimal_injective.injOn fun _ _ h => hb (mem_decimal h)

/-! ## The bytes of a label -/

namespace Regex

theorem mem_printConcat {c : CChar} {rs : List Regex} (h : c ∈ printConcat rs) :
    ∃ r ∈ rs, c ∈ r.print := by
  induction rs with
  | nil => cases h
  | cons r rs ih =>
      rw [printConcat] at h
      rcases List.mem_append.mp h with h | h
      · exact ⟨r, by simp, h⟩
      · obtain ⟨s, hs, hc⟩ := ih h
        exact ⟨s, List.mem_cons_of_mem _ hs, hc⟩

theorem mem_printSum {c : CChar} {first : Bool} {rs : List Regex} (h : c ∈ printSum first rs) :
    (∃ r ∈ rs, c ∈ r.print) ∨ c ∈ reserved := by
  have hplus : [ascii ' ', ascii '+', ascii ' '] ⊆ reserved := by decide
  induction rs generalizing first with
  | nil => cases h
  | cons r rs ih =>
      rw [printSum] at h
      rcases List.mem_append.mp h with h | h
      · rcases List.mem_append.mp h with h | h
        · right
          split at h
          · exact hplus h
          · cases h
        · exact .inl ⟨r, by simp, h⟩
      · rcases ih h with ⟨s, hs, hc⟩ | h
        · exact .inl ⟨s, List.mem_cons_of_mem _ hs, hc⟩
        · exact .inr h

/-- The text of a regex has its letters and the bytes of the printer. -/
theorem mem_print {c : CChar} {r : Regex} (h : c ∈ r.print) : c ∈ r.letters ∨ c ∈ reserved := by
  have hopen : [ascii '('] ⊆ reserved := by decide
  have hclose : [ascii ')', ascii '*'] ⊆ reserved := by decide
  induction r using Regex.induction with
  | char d =>
      rw [print] at h
      split at h
      · exact .inr (List.mem_append_right _ h)
      · rename_i hd
        exact .inl (mem_letters_char.mpr ⟨by simpa using hd, List.mem_singleton.mp h⟩)
  | concat rs ih =>
      rw [print] at h
      obtain ⟨r, hr, hc⟩ := mem_printConcat h
      exact (ih r hr hc).imp_left fun hl => mem_letters_concat.mpr ⟨r, hr, hl⟩
  | sum rs ih =>
      rw [print] at h
      rcases List.mem_append.mp h with h | h
      · rcases List.mem_append.mp h with h | h
        · exact .inr (hopen h)
        · rcases mem_printSum h with ⟨r, hr, hc⟩ | h
          · exact (ih r hr hc).imp_left fun hl => mem_letters_sum.mpr ⟨r, hr, hl⟩
          · exact .inr h
      · exact .inr (hclose (List.mem_append_left _ h))
  | star r ih =>
      rw [print] at h
      rcases List.mem_append.mp h with h | h
      · rcases List.mem_append.mp h with h | h
        · exact .inr (hopen h)
        · exact (ih h).imp_left mem_letters_star.mpr
      · exact .inr (hclose h)

end Regex

/-! ## What the text shows -/

namespace AutomatonGraphvizPrinter

open FiniteAutomaton Regex

variable {A B : FiniteAutomaton} {p q : ℕ} {r : Regex}

def finals (A : FiniteAutomaton) : List ℕ :=
  (List.range A.states.length).filter fun i => (A.state i).isFinal

/-- Source, target and label text of every transition. -/
def arrows (A : FiniteAutomaton) : List (ℕ × ℕ × List CChar) :=
  (List.range A.states.length).flatMap fun i =>
    (A.state i).transitions.map fun t => (i, t.targetIndex, t.regex.print)

def finalText (i : ℕ) : List CChar := decimal i ++ [ascii ' ']

def labelText (label : List CChar) : List CChar :=
  text "[ label = \"" ++ ((label ++ text "\" ];") ++ [ascii '\n'])

def arrowText (x : ℕ × ℕ × List CChar) : List CChar :=
  text "    " ++ ((decimal x.1 ++ [ascii ' ']) ++
    (text "-> " ++ ((decimal x.2.1 ++ [ascii ' ']) ++ labelText x.2.2)))

def headText : List CChar :=
  text "digraph finite_state_machine \x7b\n" ++ text "    rankdir=LR;\n" ++
    text "    size=\"8,5\"\n" ++ text "    node [shape = doublecircle]; "

def startText : List CChar :=
  text "\n" ++ (text "    node [shape = circle];\n" ++
    (text "    start [label=\"\", shape = none];\n" ++ text "    start -> "))

/-- The text of the final states, the start state and the arrows. -/
def graphText (x : List ℕ × ℕ × List (ℕ × ℕ × List CChar)) : List CChar :=
  headText ++ ((x.1.flatMap finalText ++ [ascii ';']) ++
    (startText ++ ((decimal x.2.1 ++ [ascii ';']) ++
      (text "\n" ++ ((x.2.2.flatMap arrowText ++ [ascii '\x7d']) ++ text "\n")))))

theorem printFinals_eq (A : FiniteAutomaton) : printFinals A = (finals A).flatMap finalText := by
  rw [printFinals, finals]
  induction List.range A.states.length with
  | nil => rfl
  | cons i l ih =>
      rw [List.flatMap_cons, ih, List.filter_cons]
      split
      · rfl
      · rfl

theorem printTransition_eq (i : ℕ) (t : FiniteAutomatonTransition) :
    printTransition i t = arrowText (i, t.targetIndex, t.regex.print) := by
  have harrow : text " -> " = [ascii ' '] ++ text "-> " := by decide
  have hopen : text " [ label = \"" = [ascii ' '] ++ text "[ label = \"" := by decide
  have hclose : text "\" ];\n" = text "\" ];" ++ [ascii '\n'] := by decide
  rw [printTransition, harrow, hopen, hclose, arrowText, labelText]
  simp only [List.append_assoc]

theorem printTransitions_eq (A : FiniteAutomaton) :
    printTransitions A = (arrows A).flatMap arrowText := by
  rw [printTransitions, arrows, List.flatMap_assoc]
  congr 1
  funext i
  rw [List.flatMap_map]
  congr 1
  funext t
  exact printTransition_eq i t

theorem print_eq (A : FiniteAutomaton) :
    print A = graphText (finals A, A.startStateIndex, arrows A) := by
  have hsemicolon : text ";\n" = [ascii ';'] ++ text "\n" := by decide
  have hend : text "\x7d\n" = [ascii '\x7d'] ++ text "\n" := by decide
  rw [print, hsemicolon, hend, printFinals_eq, printTransitions_eq, graphText, headText,
    startText]
  simp only [List.append_assoc]

/-! ## Reading it back -/

/-- A label ends with its line. -/
theorem prefixFreeOn_labelText : PrefixFreeOn labelText {label | ascii '\n' ∉ label} := by
  refine (PrefixFreeOn.terminated ?_ ?_).const_append _
  · intro l _ l' _ h
    exact List.append_cancel_right h
  · intro l hl h
    rcases List.mem_append.mp h with h | h
    · exact hl h
    · revert h
      decide

/-- Labels of one byte need no terminator. -/
theorem prefixFreeOn_labelText_byte : PrefixFreeOn labelText {label | label.length = 1} := by
  have hbyte : PrefixFreeOn (fun label : List CChar => label) {label | label.length = 1} := by
    intro l hl l' hl' u v h
    exact List.append_inj h (hl.trans hl'.symm)
  exact ((hbyte.append_const _).append_const _).const_append _

variable {L : Set (List CChar)}

theorem prefixFreeOn_arrowText (hL : PrefixFreeOn labelText L) :
    PrefixFreeOn arrowText {x | x.2.2 ∈ L} := by
  have hnumber : PrefixFreeOn (fun n => decimal n ++ [ascii ' ']) Set.univ :=
    prefixFreeOn_decimal (by decide)
  have htarget := (hnumber.prod hL).const_append (text "-> ")
  exact ((hnumber.prod htarget).const_append _).mono fun x hx => ⟨trivial, trivial, hx⟩

theorem head_arrowText (x : ℕ × ℕ × List CChar) :
    arrowText x ≠ [] ∧ (arrowText x).head? ≠ some (ascii '\x7d') := by
  have htext : text "    " = ascii ' ' :: text "   " := by decide
  rw [arrowText, htext]
  simp only [List.cons_append, List.head?_cons]
  exact ⟨List.cons_ne_nil _ _, by decide⟩

theorem head_finalText (i : ℕ) :
    finalText i ≠ [] ∧ (finalText i).head? ≠ some (ascii ';') := by
  obtain ⟨b, bs, hb⟩ := List.exists_cons_of_ne_nil (decimal_ne_nil i)
  have hdigit : b ∈ "0123456789".toList.map ascii := mem_decimal (hb ▸ List.mem_cons_self)
  rw [finalText, hb]
  simp only [List.cons_append, List.head?_cons]
  refine ⟨List.cons_ne_nil _ _, fun heq => ?_⟩
  rw [Option.some.inj heq] at hdigit
  revert hdigit
  decide

/-- Final states, a start state and arrows with labels of one kind. -/
def Drawable (L : Set (List CChar)) : Set (List ℕ × ℕ × List (ℕ × ℕ × List CChar)) :=
  {x | ∀ a ∈ x.2.2, a.2.2 ∈ L}

/-- The text determines everything it shows when the labels can be told from what follows. -/
theorem graphText_injOn (hL : PrefixFreeOn labelText L) : Set.InjOn graphText (Drawable L) := by
  have hfinals : PrefixFreeOn (fun l : List ℕ => l.flatMap finalText ++ [ascii ';'])
      {l | ∀ i ∈ l, i ∈ Set.univ} :=
    (prefixFreeOn_decimal (by decide)).flatMap fun i _ => head_finalText i
  have hstart : PrefixFreeOn (fun n => decimal n ++ [ascii ';']) Set.univ :=
    prefixFreeOn_decimal (by decide)
  have harrows := (prefixFreeOn_arrowText hL).flatMap fun x _ => head_arrowText x
  have hrest := hstart.prod ((harrows.append_const (text "\n")).const_append (text "\n"))
  have hall := (hfinals.prod (hrest.const_append startText)).const_append headText
  exact (hall.mono fun x hx => ⟨fun _ _ => trivial, trivial, hx⟩).injOn

/-! ## What the text determines -/

theorem mem_finals : p ∈ finals A ↔ A.Final p := by
  rw [finals, List.mem_filter, List.mem_range]
  exact ⟨fun h => h.2, fun h => ⟨Final.lt h, h⟩⟩

theorem mem_arrows {label : List CChar} :
    (p, q, label) ∈ arrows A ↔ ∃ r, A.Edge p r q ∧ r.print = label := by
  simp only [arrows, List.mem_flatMap, List.mem_range, List.mem_map, Prod.mk.injEq]
  constructor
  · intro h
    obtain ⟨i, _, t, ht, rfl, rfl, rfl⟩ := h
    exact ⟨t.regex, ht, rfl⟩
  · intro h
    obtain ⟨r, he, hr⟩ := h
    exact ⟨p, he.source_lt, ⟨r, q⟩, he, rfl, rfl, hr⟩

/-- No label has a letter that breaks the line. -/
def LabelsOnOneLine (A : FiniteAutomaton) : Prop :=
  ∀ p r q, A.Edge p r q → ascii '\n' ∉ r.letters

theorem LabelsOnOneLine.notMem_print (h : LabelsOnOneLine A) (he : A.Edge p r q) :
    ascii '\n' ∉ r.print := by
  intro hline
  rcases mem_print hline with hc | hc
  · exact h p r q he hc
  · revert hc
    decide

theorem flatMap_range_single {α : Type} (f : ℕ → List α) (p n : ℕ) :
    ((List.range n).flatMap fun i => if i = p then f i else []) = if p < n then f p else [] := by
  induction n with
  | zero => rfl
  | succ n ih =>
      rw [List.range_succ, List.flatMap_append, ih, List.flatMap_singleton]
      by_cases hnp : n = p
      · subst hnp
        simp
      · have hlt : p < n + 1 ↔ p < n := by omega
        simp [hnp, hlt]

/-- The arrows out of one state, in the order of its transitions. -/
theorem arrows_of_source (A : FiniteAutomaton) (p : ℕ) :
    ((arrows A).filter fun x => x.1 = p).map Prod.snd =
      (A.state p).transitions.map fun t => (t.targetIndex, t.regex.print) := by
  have hfilter : (fun i => ((A.state i).transitions.map
      fun t => (i, t.targetIndex, t.regex.print)).filter fun x => x.1 = p) =
      fun i => if i = p then (A.state i).transitions.map
        fun t => (i, t.targetIndex, t.regex.print) else [] := by
    funext i
    by_cases hi : i = p
    · simp [hi]
    · simp [hi]
  rw [arrows, List.filter_flatMap, hfilter, flatMap_range_single]
  split
  · simp
  · rename_i hp
    rw [state_of_le (not_lt.mp hp)]
    rfl

theorem drawable (h : ∀ p r q, A.Edge p r q → r.print ∈ L) :
    (finals A, A.startStateIndex, arrows A) ∈ Drawable L := by
  rintro ⟨p, q, label⟩ hx
  obtain ⟨r, he, rfl⟩ := mem_arrows.mp hx
  exact h p r q he

/-- Automata with the same text have the same start state, the same final states and, in the
same order, transitions with the same targets and label texts. -/
theorem shown_eq_of_print_eq (hL : PrefixFreeOn labelText L)
    (hA : ∀ p r q, A.Edge p r q → r.print ∈ L) (hB : ∀ p r q, B.Edge p r q → r.print ∈ L)
    (h : print A = print B) :
    A.startStateIndex = B.startStateIndex ∧ (∀ p, A.Final p ↔ B.Final p) ∧
      ∀ p, ((A.state p).transitions.map fun t => (t.targetIndex, t.regex.print)) =
        (B.state p).transitions.map fun t => (t.targetIndex, t.regex.print) := by
  rw [print_eq, print_eq] at h
  have heq := graphText_injOn hL (drawable hA) (drawable hB) h
  simp only [Prod.mk.injEq] at heq
  obtain ⟨hfinals, hstart, harrows⟩ := heq
  refine ⟨hstart, fun p => ?_, fun p => ?_⟩
  · rw [← mem_finals, hfinals, mem_finals]
  · rw [← arrows_of_source, harrows, arrows_of_source]

/-- The text of a label of `A` and `B` determines its language. -/
def LabelsReadBack (A B : FiniteAutomaton) : Prop :=
  ∀ p r q p' r' q', A.Edge p r q → B.Edge p' r' q' → r.print = r'.print → r.language = r'.language

/-- An arrow that both texts show carries the same language in both automata. -/
theorem exists_edge_of_shown (hread : LabelsReadBack A B)
    (h : ((A.state p).transitions.map fun t => (t.targetIndex, t.regex.print)) =
      (B.state p).transitions.map fun t => (t.targetIndex, t.regex.print)) (he : A.Edge p r q) :
    ∃ r', B.Edge p r' q ∧ r'.language = r.language := by
  have hmem : (q, r.print) ∈ (A.state p).transitions.map
      fun t => (t.targetIndex, t.regex.print) := List.mem_map.mpr ⟨⟨r, q⟩, he, rfl⟩
  rw [h] at hmem
  obtain ⟨t, ht, heq⟩ := List.mem_map.mp hmem
  simp only [Prod.mk.injEq] at heq
  obtain ⟨rfl, hprint⟩ := heq
  exact ⟨t.regex, ht, (hread _ _ _ _ _ _ he ht hprint.symm).symm⟩

theorem LabelsReadBack.symm (h : LabelsReadBack A B) : LabelsReadBack B A :=
  fun _ _ _ _ _ _ he he' heq => (h _ _ _ _ _ _ he' he heq.symm).symm

/-- What the texts show settles the words on the paths to the final states. -/
theorem pathLanguage_eq_of_shown (hread : LabelsReadBack A B)
    (hstart : A.startStateIndex = B.startStateIndex) (hfinal : ∀ p, A.Final p ↔ B.Final p)
    (hshown : ∀ p, ((A.state p).transitions.map fun t => (t.targetIndex, t.regex.print)) =
      (B.state p).transitions.map fun t => (t.targetIndex, t.regex.print)) :
    A.pathLanguage = B.pathLanguage := by
  have hgraph : A.graph = B.graph := by
    rw [graph, graph, LanguageGraph.mk.injEq]
    constructor
    · funext p l q
      apply propext
      constructor
      · intro hex
        obtain ⟨r, he, hl⟩ := hex
        obtain ⟨r', he', hr'⟩ := exists_edge_of_shown hread (hshown p) he
        exact ⟨r', he', hr'.trans hl⟩
      · intro hex
        obtain ⟨r, he, hl⟩ := hex
        obtain ⟨r', he', hr'⟩ := exists_edge_of_shown hread.symm (hshown p).symm he
        exact ⟨r', he', hr'.trans hl⟩
    · funext p
      exact propext (hfinal p)
  rw [pathLanguage, pathLanguage, FiniteAutomaton.residual, FiniteAutomaton.residual, hgraph,
    hstart]

theorem labelsReadBack_of_letterLabels (hA : A.LetterLabels) (hB : B.LetterLabels) :
    LabelsReadBack A B := by
  intro p r q p' r' q' he he' heq
  obtain ⟨c, hc, rfl⟩ := hA p r q he
  obtain ⟨c', hc', rfl⟩ := hB p' r' q' he'
  simp only [Regex.print, beq_iff_eq, hc, hc', if_false, List.cons.injEq, and_true] at heq
  rw [heq]

theorem length_print_of_letterLabels (hA : A.LetterLabels) (he : A.Edge p r q) :
    r.print.length = 1 := by
  obtain ⟨c, hc, rfl⟩ := hA p r q he
  simp [Regex.print, hc]

/-- Automata whose labels are letters and whose texts agree have the same language. -/
theorem pathLanguage_eq_of_print_eq (hA : A.LetterLabels) (hB : B.LetterLabels)
    (h : print A = print B) : A.pathLanguage = B.pathLanguage := by
  obtain ⟨hstart, hfinal, hshown⟩ := shown_eq_of_print_eq prefixFreeOn_labelText_byte
    (fun _ _ _ => length_print_of_letterLabels hA) (fun _ _ _ => length_print_of_letterLabels hB) h
  exact pathLanguage_eq_of_shown (labelsReadBack_of_letterLabels hA hB) hstart hfinal hshown

/-- No sum of a single operand, and no letter that the printer uses itself. -/
def PlainLabels (A : FiniteAutomaton) : Prop :=
  ∀ p r q, A.Edge p r q → r.Branching ∧ ∀ c ∈ r.letters, c ∉ reserved

theorem labelsReadBack_of_plainLabels (hA : PlainLabels A) (hB : PlainLabels B) :
    LabelsReadBack A B := by
  intro p r q p' r' q' he he' heq
  obtain ⟨hbranchA, hlettersA⟩ := hA p r q he
  obtain ⟨hbranchB, hlettersB⟩ := hB p' r' q' he'
  have hfactors := factors_eq_of_print_eq (hbranchA.readsBack hlettersA)
    (hbranchB.readsBack hlettersB) heq
  rw [← language_concat_factors r, hfactors, language_concat_factors]

/-- The printed graph determines the start state, the final states and the transitions with
their label texts, and with them the words on the paths to the final states. -/
theorem print_determines (A B : FiniteAutomaton) (hA : LabelsOnOneLine A)
    (hB : LabelsOnOneLine B) (hplainA : PlainLabels A) (hplainB : PlainLabels B)
    (h : print A = print B) :
    A.startStateIndex = B.startStateIndex ∧ (∀ p, A.Final p ↔ B.Final p) ∧
      (∀ p, ((A.state p).transitions.map fun t => (t.targetIndex, t.regex.print)) =
        (B.state p).transitions.map fun t => (t.targetIndex, t.regex.print)) ∧
      A.pathLanguage = B.pathLanguage := by
  obtain ⟨hstart, hfinal, hshown⟩ := shown_eq_of_print_eq prefixFreeOn_labelText
    (fun _ _ _ => hA.notMem_print) (fun _ _ _ => hB.notMem_print) h
  exact ⟨hstart, hfinal, hshown, pathLanguage_eq_of_shown
    (labelsReadBack_of_plainLabels hplainA hplainB) hstart hfinal hshown⟩

/-- One transition to a final state. -/
def oneTransition (label : Regex) : FiniteAutomaton where
  states := [⟨false, [⟨label, 1⟩]⟩, ⟨true, []⟩]

theorem eq_of_edge_oneTransition {label : Regex} (he : (oneTransition label).Edge p r q) :
    r = label := by
  have hp : p < 2 := he.source_lt
  interval_cases p
  · exact congrArg FiniteAutomatonTransition.regex (List.mem_singleton.mp he)
  · cases he

theorem print_oneTransition {label label' : Regex} (h : label.print = label'.print) :
    print (oneTransition label) = print (oneTransition label') := by
  have harrows : ∀ l, arrows (oneTransition l) = [(0, 1, l.print)] := fun _ => rfl
  rw [print_eq, print_eq, harrows, harrows, h]
  rfl

/-- The labels `"ab"_r` and `"a"_r * "b"_r` are different and have the same text. -/
theorem print_determines_oneTransition :
    (oneTransition (.concat [.char 97, .char 98])).pathLanguage =
      (oneTransition (.concat [.concat [.char 97], .char 98])).pathLanguage := by
  have hline : ascii '\n' ∉ (Regex.concat [.char 97, .char 98]).letters ∧
      ascii '\n' ∉ (Regex.concat [.concat [.char 97], .char 98]).letters := by decide
  have hread : ∀ c ∈ ([97, 98] : List CChar), c ∉ reserved := by
    intro c hc
    fin_cases hc <;> decide
  have hbranch : (Regex.concat [.char 97, .char 98]).Branching := branching_literal [97, 98]
  have hbranch' : (Regex.concat [.concat [.char 97], .char 98]).Branching := by
    refine .concat fun r hr => ?_
    rcases List.mem_pair.mp hr with rfl | rfl
    · exact branching_literal [97]
    · exact .char 98
  refine (print_determines _ _ ?_ ?_ ?_ ?_ (print_oneTransition (by decide))).2.2.2
  · intro p r q he
    exact eq_of_edge_oneTransition he ▸ hline.1
  · intro p r q he
    exact eq_of_edge_oneTransition he ▸ hline.2
  · intro p r q he
    exact eq_of_edge_oneTransition he ▸ ⟨hbranch, hread⟩
  · intro p r q he
    exact eq_of_edge_oneTransition he ▸ ⟨hbranch', hread⟩

end AutomatonGraphvizPrinter

end FormalLanguages
