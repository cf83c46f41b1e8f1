import FormalLanguages.Model.Completer
import FormalLanguages.Verification.Automaton.Accepts
import FormalLanguages.Verification.Automaton.RemoveState

/-! # Correctness of the completer and the inverter -/

namespace FormalLanguages

open FiniteAutomaton

variable {A B : FiniteAutomaton} {i n p q : ℕ} {r : Regex} {c : CChar} {letters : List CChar}
  {b : Bool}

namespace AutomatonCompleter

/-! ## Transitions to the trap -/

/-- State `i` has no transition for `c`. -/
def Missing (A : FiniteAutomaton) (i : ℕ) (c : CChar) : Prop := ∀ q, ¬A.Edge i (.char c) q

/-- Transitions for these letters, all to state `n`. -/
def letterTransitions (n : ℕ) (letters : List CChar) : List FiniteAutomatonTransition :=
  letters.map fun c => ⟨.char c, n⟩

theorem mem_letterTransitions : ⟨r, q⟩ ∈ letterTransitions n letters ↔
    q = n ∧ ∃ c ∈ letters, r = .char c := by
  rw [letterTransitions, List.mem_map]
  constructor
  · intro hex
    rcases hex with ⟨c, hc, heq⟩
    cases heq
    exact ⟨rfl, c, hc, rfl⟩
  · intro h
    rcases h with ⟨rfl, c, hc, rfl⟩
    exact ⟨c, hc, rfl⟩

theorem countP_letterTransitions :
    (letterTransitions n letters).countP (fun t => t.regex.isCharOf c) = letters.count c := by
  rw [letterTransitions, List.countP_map]
  rfl

/-- The letters of the list without a transition in state `i`. -/
def missingLetters (A : FiniteAutomaton) (letters : List CChar) (i : ℕ) : List CChar :=
  letters.filter fun c => (A.findTransition c i).isNone

theorem mem_missingLetters :
    c ∈ missingLetters A letters i ↔ c ∈ letters ∧ Missing A i c := by
  rw [missingLetters, List.mem_filter, Option.isNone_iff_eq_none, findTransition_eq_none]
  rfl

/-- `A` with more transitions at the end of state `i`. -/
def appendTransitions (A : FiniteAutomaton) (i : ℕ) (ts : List FiniteAutomatonTransition) :
    FiniteAutomaton :=
  A.modifyState i fun s => { s with transitions := s.transitions ++ ts }

@[simp] theorem length_appendTransitions (ts : List FiniteAutomatonTransition) :
    (appendTransitions A i ts).states.length = A.states.length :=
  length_modifyState _

@[simp] theorem appendTransitions_nil : appendTransitions A i [] = A := by
  have hid : (fun s : FiniteAutomatonState => { s with transitions := s.transitions ++ [] }) = id := by
    funext s
    simp
  rw [appendTransitions, modifyState, hid, List.modify_id]

theorem appendTransitions_append (ts us : List FiniteAutomatonTransition) :
    appendTransitions (appendTransitions A i ts) i us = appendTransitions A i (ts ++ us) := by
  simp only [appendTransitions, modifyState, List.modify_modify_eq, Function.comp_def,
    List.append_assoc]

theorem state_appendTransitions (hi : i < A.states.length) (ts : List FiniteAutomatonTransition) :
    (appendTransitions A i ts).state p =
      if p = i then { A.state p with transitions := (A.state p).transitions ++ ts }
      else A.state p :=
  state_modifyState _ hi

theorem addTransition_eq_append (hc : c ∈ A.alphabet) :
    A.addTransition i n (.char c) = appendTransitions A i (letterTransitions n [c]) := by
  have halpha : (Regex.char c).fillAlphabet A.alphabet = A.alphabet := by
    refine Regex.fillAlphabet_eq_self fun d hd => ?_
    rwa [(Regex.mem_letters_char.mp hd).2]
  rw [addTransition, halpha]
  rfl

/-- A new transition for `c` makes no difference to the search for another letter. -/
theorem missingLetters_appendTransitions (hi : i < A.states.length) (hc : c ∉ letters) :
    missingLetters (appendTransitions A i (letterTransitions n [c])) letters i =
      missingLetters A letters i := by
  apply List.filter_congr
  intro d hd
  rw [Bool.eq_iff_iff, Option.isNone_iff_eq_none, Option.isNone_iff_eq_none,
    findTransition_eq_none, findTransition_eq_none]
  simp only [Edge, state_appendTransitions hi, if_true, List.mem_append, mem_letterTransitions]
  constructor
  · exact fun h q hq => h q (.inl hq)
  · intro h q hcases
    rcases hcases with hq | ⟨_, e, he, heq⟩
    · exact h q hq
    · cases heq
      exact hc ((List.mem_singleton.mp he) ▸ hd)

/-! ## The loops -/

/-- The loop over the letters of state `i`: the missing ones get a transition to the trap. -/
theorem foldl_completeLetter (hi : i < A.states.length) (hnodup : letters.Nodup)
    (hletters : ∀ c ∈ letters, c ∈ A.alphabet) :
    letters.foldl (completeLetter n i) (A, b) =
      (appendTransitions A i (letterTransitions n (missingLetters A letters i)),
        b || !(missingLetters A letters i).isEmpty) := by
  induction letters generalizing A b with
  | nil => simp [missingLetters, letterTransitions]
  | cons c letters ih =>
      obtain ⟨hc, hnodup⟩ := List.nodup_cons.mp hnodup
      have hrest : ∀ d ∈ letters, d ∈ A.alphabet := fun d hd =>
        hletters d (List.mem_cons_of_mem _ hd)
      rw [List.foldl_cons, completeLetter]
      cases hfind : (A.findTransition c i).isNone with
      | true =>
          have hmissing : missingLetters A (c :: letters) i =
              c :: missingLetters A letters i := List.filter_cons_of_pos hfind
          rw [if_pos rfl, addTransition_eq_append (hletters c (by simp)),
            ih (A := appendTransitions A i (letterTransitions n [c])) (by simpa using hi) hnodup
              hrest,
            missingLetters_appendTransitions hi hc, appendTransitions_append, hmissing]
          simp [letterTransitions]
      | false =>
          have hmissing : missingLetters A (c :: letters) i = missingLetters A letters i :=
            List.filter_cons_of_neg (by simp [hfind])
          rw [if_neg Bool.false_ne_true, ih hi hnodup hrest, hmissing]

/-- The loop over the first `m` states has completed those that are not the trap. -/
structure Completed (A : FiniteAutomaton) (n : ℕ) (letters : List CChar) (m : ℕ)
    (P : FiniteAutomaton × Bool) : Prop where
  state : ∀ p, P.1.state p = if p < m ∧ p ≠ n then
    { A.state p with transitions := (A.state p).transitions ++
      letterTransitions n (missingLetters A letters p) } else A.state p
  length_eq : P.1.states.length = A.states.length
  start_eq : P.1.startStateIndex = A.startStateIndex
  alphabet_eq : P.1.alphabet = A.alphabet
  flag : P.2 = true ↔ ∃ p < m, p ≠ n ∧ missingLetters A letters p ≠ []

theorem Completed.next {m : ℕ} {P : FiniteAutomaton × Bool} (h : Completed A n letters m P)
    (hm : m < A.states.length) (hnodup : letters.Nodup)
    (hletters : ∀ c ∈ letters, c ∈ A.alphabet) :
    Completed A n letters (m + 1) (completeState n letters P m) := by
  rw [completeState]
  split
  · rename_i hmn
    have hlt : ∀ p, p < m ∧ p ≠ n ↔ p < m + 1 ∧ p ≠ n := fun p => by omega
    refine ⟨fun p => ?_, h.length_eq, h.start_eq, h.alphabet_eq, h.flag.trans ?_⟩
    · rw [h.state, if_congr (hlt p) rfl rfl]
    · refine exists_congr fun p => ?_
      rw [← and_assoc, ← and_assoc, hlt]
  · rename_i hmn
    have hstate : P.1.state m = A.state m := by
      rw [h.state, if_neg (by omega)]
    have hmissing : missingLetters P.1 letters m = missingLetters A letters m := by
      simp only [missingLetters, findTransition, hstate]
    obtain ⟨B, b⟩ := P
    have hmB : m < B.states.length := h.length_eq ▸ hm
    rw [foldl_completeLetter hmB hnodup fun c hc => h.alphabet_eq ▸ hletters c hc, hmissing]
    refine ⟨fun p => ?_, (length_appendTransitions _).trans h.length_eq, h.start_eq,
      h.alphabet_eq, ?_⟩
    · rw [state_appendTransitions hmB]
      by_cases hp : p = m
      · subst hp
        rw [if_pos rfl, if_pos ⟨by omega, hmn⟩, hstate]
      · rw [if_neg hp, h.state]
        exact if_congr (by omega) rfl rfl
    · rw [Bool.or_eq_true, h.flag, Bool.not_eq_true', List.isEmpty_eq_false_iff]
      constructor
      · intro hcases
        rcases hcases with ⟨p, hp, hne⟩ | hne
        · exact ⟨p, by omega, hne⟩
        · exact ⟨m, by omega, hmn, hne⟩
      · intro hex
        rcases hex with ⟨p, hp, hpn, hne⟩
        by_cases hpm : p = m
        · subst hpm
          exact .inr hne
        · exact .inl ⟨p, by omega, hpn, hne⟩

theorem completed_foldl (hnodup : letters.Nodup) (hletters : ∀ c ∈ letters, c ∈ A.alphabet)
    (m : ℕ) (hm : m ≤ A.states.length) :
    Completed A n letters m ((List.range m).foldl (completeState n letters) (A, false)) := by
  induction m with
  | zero => exact ⟨by simp, rfl, rfl, rfl, by simp⟩
  | succ m ih =>
      rw [List.range_succ, List.foldl_concat]
      exact (ih (by omega)).next hm hnodup hletters

/-- The trap gets a loop for each letter. -/
theorem foldl_trapLoops (hletters : ∀ c ∈ letters, c ∈ A.alphabet) :
    letters.foldl (fun B c => B.addTransition n n (.char c)) A =
      appendTransitions A n (letterTransitions n letters) := by
  induction letters generalizing A with
  | nil => simp [letterTransitions]
  | cons c letters ih =>
      rw [List.foldl_cons, addTransition_eq_append (hletters c (by simp)),
        ih (A := appendTransitions A n (letterTransitions n [c]))
          fun d hd => hletters d (List.mem_cons_of_mem _ hd),
        appendTransitions_append]
      rfl

/-! ## What the completer leaves -/

/-- Every state has a transition for every letter of the alphabet. -/
def Covers (A : FiniteAutomaton) : Prop :=
  ∀ p < A.states.length, ∀ c ∈ A.alphabet, ¬Missing A p c

theorem covers_iff : Covers A ↔
    ∀ p < A.states.length, missingLetters A A.alphabet.toList p = [] := by
  refine forall₂_congr fun p _ => ?_
  rw [List.eq_nil_iff_forall_not_mem]
  refine forall_congr' fun c => ?_
  rw [mem_missingLetters, not_and, OrderedSet.mem_def]

/-- `B` is `A` with a trap, to which the missing letters lead. -/
structure TrapAdded (A B : FiniteAutomaton) : Prop where
  state : ∀ p < A.states.length, B.state p = { A.state p with
    transitions := (A.state p).transitions ++
      letterTransitions A.states.length (missingLetters A A.alphabet.toList p) }
  trap : B.state A.states.length =
    ⟨false, letterTransitions A.states.length A.alphabet.toList⟩
  length_eq : B.states.length = A.states.length + 1
  start_eq : B.startStateIndex = A.startStateIndex
  alphabet_eq : B.alphabet = A.alphabet

/-- Adding a state that no index refers to and removing it again changes nothing. -/
theorem removeState_addState (hA : A.InRange) :
    (A.addState b).1.removeState A.states.length = A := by
  have hdrop : ∀ s ∈ A.states, dropTarget A.states.length s.transitions = s.transitions := by
    intro s hs
    obtain ⟨p, hp, rfl⟩ := List.mem_iff_getElem.mp hs
    have hlt : ∀ t ∈ A.states[p].transitions, t.targetIndex < A.states.length := by
      intro t ht
      rw [← state_of_lt hp] at ht
      exact hA.target_lt (r := t.regex) ht
    rw [dropTarget_eq_map_filter, List.filter_eq_self.mpr]
    · refine (List.map_congr_left fun t ht => ?_).trans (List.map_id _)
      rw [retarget, skip, if_neg (not_lt.mpr (hlt t ht).le), id]
    · exact fun t ht => decide_eq_true (hlt t ht).ne
  have hstart := hA.start_lt
  have hmap : (A.states.map fun s =>
      { s with transitions := dropTarget A.states.length s.transitions }) = A.states :=
    (List.map_congr_left fun s hs => by rw [hdrop s hs, id]).trans (List.map_id _)
  rw [removeState, alphabet_addState, start_addState, if_neg hstart.ne,
    if_neg (not_lt.mpr hstart.le)]
  simp only [addState, List.map_append, hmap]
  rw [List.eraseIdx_append_of_length_le (by simp)]
  simp

/-- The loop over the states leaves everything as it was where no letter is missing. -/
theorem Completed.eq {m : ℕ} {P : FiniteAutomaton × Bool} (h : Completed A n letters m P)
    (hP : P.2 = false) : P.1 = A := by
  have hnone : ∀ p, p < m ∧ p ≠ n → missingLetters A letters p = [] := by
    intro p hp
    by_contra hne
    exact absurd (h.flag.mpr ⟨p, hp.1, hp.2, hne⟩) (by simp [hP])
  have hstates : P.1.states = A.states := by
    apply List.ext_getElem h.length_eq
    intro p hp hpA
    have hst := h.state p
    rw [← state_of_lt hp, ← state_of_lt hpA, hst]
    split
    · rename_i hlt
      rw [hnone p hlt]
      simp [letterTransitions]
    · rfl
  exact eq_of_fields h.alphabet_eq hstates h.start_eq

theorem missingLetters_addState (hp : p ≠ A.states.length) :
    missingLetters (A.addState b).1 letters p = missingLetters A letters p := by
  simp only [missingLetters, findTransition, state_addState, if_neg hp]

/-- Either nothing was missing and the automaton is as before, or the trap is there. -/
theorem complete_cases (hA : A.InRange) :
    (Covers A ∧ complete A = A) ∨ (¬Covers A ∧ TrapAdded A (complete A)) := by
  set n := A.states.length with hn
  obtain ⟨P, hfold⟩ : ∃ P, P = (List.range (A.addState false).1.states.length).foldl
      (completeState n A.alphabet.toList) ((A.addState false).1, false) := ⟨_, rfl⟩
  have hcomplete : complete A = if P.2 then
      A.alphabet.toList.foldl (fun B c => B.addTransition n n (.char c)) P.1
      else P.1.removeState n := by
    rw [hfold]
    rfl
  have hletters : ∀ c ∈ A.alphabet.toList, c ∈ (A.addState false).1.alphabet := fun c hc => hc
  have h : Completed (A.addState false).1 n A.alphabet.toList
      (A.addState false).1.states.length P :=
    hfold ▸ completed_foldl (OrderedSet.nodup_toList A.alphabet) hletters _ le_rfl
  rw [hcomplete]
  have hflag : P.2 = true ↔ ¬Covers A := by
    rw [h.flag, covers_iff, length_addState]
    push Not
    refine exists_congr fun p => ?_
    constructor
    · intro hex
      rcases hex with ⟨hp, hpn, hne⟩
      rw [missingLetters_addState hpn] at hne
      exact ⟨by omega, hne⟩
    · intro hex
      rcases hex with ⟨hp, hne⟩
      rw [missingLetters_addState hp.ne]
      exact ⟨by omega, hp.ne, hne⟩
  cases hP : P.2 with
  | false =>
      left
      refine ⟨by simpa [hP] using hflag, ?_⟩
      rw [if_neg Bool.false_ne_true, h.eq hP, removeState_addState hA]
  | true =>
      right
      refine ⟨hflag.mp hP, ?_⟩
      have hlen : P.1.states.length = n + 1 := by
        rw [h.length_eq, length_addState]
      rw [if_pos rfl, foldl_trapLoops fun c hc => h.alphabet_eq ▸ hc]
      refine ⟨fun p hp => ?_, ?_, (length_appendTransitions _).trans hlen, h.start_eq,
        h.alphabet_eq⟩
      · rw [state_appendTransitions (by omega), if_neg hp.ne, h.state, length_addState,
          if_pos ⟨by omega, hp.ne⟩, missingLetters_addState hp.ne, state_addState, if_neg hp.ne]
      · rw [← hn, state_appendTransitions (by omega), if_pos rfl, h.state,
          if_neg (by simp), hn, state_addState, if_pos rfl, List.nil_append]

/-! ## The result -/

/-- `B` is `A`, with a trap for the missing letters where there are any. -/
structure Completes (A B : FiniteAutomaton) : Prop where
  edge : ∀ {p r q}, B.Edge p r q ↔ A.Edge p r q ∨
    (A.states.length < B.states.length ∧ q = A.states.length ∧
      ∃ c ∈ A.alphabet, r = .char c ∧
        (p = A.states.length ∨ (p < A.states.length ∧ Missing A p c)))
  final : ∀ {p}, B.Final p ↔ A.Final p
  length_le : A.states.length ≤ B.states.length ∧ B.states.length ≤ A.states.length + 1
  start_eq : B.startStateIndex = A.startStateIndex
  alphabet_eq : B.alphabet = A.alphabet
  covers : B.states.length = A.states.length → ∀ p < A.states.length, ∀ c ∈ A.alphabet,
    ¬Missing A p c

theorem TrapAdded.edge_iff (h : TrapAdded A B) : B.Edge p r q ↔ A.Edge p r q ∨
    (q = A.states.length ∧ ∃ c ∈ A.alphabet, r = .char c ∧
      (p = A.states.length ∨ (p < A.states.length ∧ Missing A p c))) := by
  rcases lt_trichotomy p A.states.length with hp | rfl | hp
  · rw [Edge]
    rw [h.state p hp, List.mem_append, mem_letterTransitions]
    refine or_congr_right (and_congr_right fun _ => exists_congr fun c => ?_)
    rw [mem_missingLetters, ← OrderedSet.mem_def, and_assoc]
    refine and_congr_right fun _ => ?_
    rw [and_comm]
    exact and_congr_right fun _ => by simp [hp, hp.ne]
  · have hnone : ¬A.Edge A.states.length r q := fun he => lt_irrefl _ he.source_lt
    rw [Edge]
    rw [h.trap, mem_letterTransitions, or_iff_right hnone]
    refine and_congr_right fun _ => exists_congr fun c => ?_
    rw [← OrderedSet.mem_def]
    simp
  · have hlen := h.length_eq
    have hB : ¬B.Edge p r q := fun he => absurd he.source_lt (by omega)
    have hA : ¬A.Edge p r q := fun he => absurd he.source_lt (by omega)
    refine iff_of_false hB fun hcases => ?_
    rcases hcases with he | ⟨_, _, _, _, hp' | ⟨hp', _⟩⟩
    · exact hA he
    · omega
    · omega

theorem TrapAdded.final_iff (h : TrapAdded A B) : B.Final p ↔ A.Final p := by
  rcases lt_trichotomy p A.states.length with hp | rfl | hp
  · rw [Final]
    rw [h.state p hp]
    rfl
  · rw [Final]
    rw [h.trap]
    exact iff_of_false Bool.false_ne_true fun hf => lt_irrefl _ (Final.lt hf)
  · have hlen := h.length_eq
    exact iff_of_false (fun hf => absurd hf.lt (by omega)) fun hf => absurd hf.lt (by omega)

theorem TrapAdded.completes (h : TrapAdded A B) : Completes A B where
  edge := by
    have hlt : A.states.length < B.states.length := by
      rw [h.length_eq]
      exact Nat.lt_succ_self _
    intro p r q
    rw [h.edge_iff, and_iff_right hlt]
  final := h.final_iff
  length_le := by
    have hlen := h.length_eq
    omega
  start_eq := h.start_eq
  alphabet_eq := h.alphabet_eq
  covers hlen := by
    have hlen' := h.length_eq
    omega

theorem completes_complete (hA : A.InRange) : Completes A (complete A) := by
  rcases complete_cases hA with ⟨hcov, heq⟩ | ⟨_, htrap⟩
  · rw [heq]
    refine ⟨fun {p r q} => ?_, Iff.rfl, by omega, rfl, rfl, fun _ => hcov⟩
    simp
  · exact htrap.completes

theorem Completes.inRange (h : Completes A B) (hA : A.InRange) : B.InRange where
  start_lt := by
    rw [h.start_eq]
    exact hA.start_lt.trans_le h.length_le.1
  target_lt he := by
    rcases h.edge.mp he with heA | ⟨hlt, rfl, _⟩
    · exact (hA.target_lt heA).trans_le h.length_le.1
    · exact hlt

theorem Completes.isSimple (h : Completes A B) (hA : A.isSimple = true) : B.isSimple = true := by
  rw [isSimple_iff] at hA ⊢
  intro p r q he
  rcases h.edge.mp he with heA | ⟨_, _, c, _, hr, _⟩
  · exact hA p r q heA
  · exact ⟨c, hr⟩

theorem Completes.lettersIn (h : Completes A B) (hA : A.LettersIn) : B.LettersIn := by
  intro p r q he c hc
  rw [h.alphabet_eq]
  rcases h.edge.mp he with heA | ⟨_, _, d, hd, rfl, _⟩
  · exact hA p r q heA c hc
  · rw [(Regex.mem_letters_char.mp hc).2]
    exact hd

theorem Completes.isComplete (h : Completes A B) (hA : A.isSimple = true) :
    B.isComplete = true := by
  refine isComplete_iff.mpr ⟨h.isSimple hA, fun p hp c hc => ?_⟩
  rw [h.alphabet_eq] at hc
  by_cases hpn : p < A.states.length
  · by_cases hm : Missing A p c
    · have hlt : A.states.length < B.states.length := by
        refine lt_of_le_of_ne h.length_le.1 fun heq => ?_
        exact h.covers heq.symm p hpn c hc hm
      exact ⟨_, h.edge.mpr (.inr ⟨hlt, rfl, c, hc, rfl, .inr ⟨hpn, hm⟩⟩)⟩
    · rw [Missing] at hm
      push Not at hm
      obtain ⟨q, hq⟩ := hm
      exact ⟨q, h.edge.mpr (.inl hq)⟩
  · have := h.length_le.2
    exact ⟨_, h.edge.mpr (.inr ⟨by omega, rfl, c, hc, rfl, .inl (by omega)⟩)⟩

theorem Completes.epsilonFree (h : Completes A B) (hA : A.hasEpsilonTransitions = false)
    (h0 : 0 ∉ A.alphabet) : B.hasEpsilonTransitions = false := by
  rw [Bool.eq_false_iff, ne_eq, hasEpsilonTransitions_iff] at hA ⊢
  intro hex
  rcases hex with ⟨p, q, he⟩
  rcases h.edge.mp he with heA | ⟨_, _, c, hc, hr, _⟩
  · exact hA ⟨p, q, heA⟩
  · cases hr
    exact h0 hc

/-- No path leads out of the trap, so no word is added. -/
theorem Completes.pathLanguage_eq (h : Completes A B) : B.pathLanguage = A.pathLanguage := by
  have hle : ∀ p, A.residual p ≤ B.residual p := FiniteAutomaton.residual_le
    (fun p r q he => edge_mul_residual_le (h.edge.mpr (.inl he)))
    (fun p hf => one_le_residual (h.final.mpr hf))
  have hge : ∀ p, B.residual p ≤ A.residual p := by
    refine FiniteAutomaton.residual_le (fun p r q he => ?_)
      (fun p hf => one_le_residual (h.final.mp hf))
    rcases h.edge.mp he with heA | ⟨_, rfl, _⟩
    · exact edge_mul_residual_le heA
    · rw [residual_of_le le_rfl, mul_zero]
      exact bot_le
  rw [pathLanguage, pathLanguage, h.start_eq]
  exact le_antisymm (hge _) (hle _)

/-! ## What the completer keeps -/

theorem countTransitions_eq_zero_iff : A.countTransitions c p = 0 ↔ Missing A p c := by
  rw [countTransitions, List.countP_eq_zero, Missing, ← findTransition_eq_none, findTransition,
    List.findIdx?_eq_none_iff]
  simp only [Bool.not_eq_true]

/-- A letter that is missing in one state is given one transition there, any other none. -/
theorem TrapAdded.countTransitions_le (h : TrapAdded A B)
    (hcount : p < A.states.length → A.countTransitions c p ≤ 1) (hp : p < B.states.length) :
    B.countTransitions c p ≤ 1 := by
  have hnodup := OrderedSet.nodup_toList A.alphabet
  by_cases hpA : p < A.states.length
  · have hcount := hcount hpA
    rw [FiniteAutomaton.countTransitions, h.state p hpA, List.countP_append,
      countP_letterTransitions, ← FiniteAutomaton.countTransitions]
    by_cases hmiss : Missing A p c
    · rw [countTransitions_eq_zero_iff.mpr hmiss, zero_add]
      exact List.nodup_iff_count_le_one.mp (hnodup.filter _) c
    · rw [List.count_eq_zero_of_not_mem fun hmem => hmiss (mem_missingLetters.mp hmem).2]
      exact hcount
  · have hlen := h.length_eq
    obtain rfl : p = A.states.length := by omega
    rw [FiniteAutomaton.countTransitions, h.trap, countP_letterTransitions]
    exact List.nodup_iff_count_le_one.mp hnodup c

theorem TrapAdded.isDeterministic (h : TrapAdded A B) (hA : A.isDeterministic = true) :
    B.isDeterministic = true := by
  obtain ⟨hsimple, hcount⟩ := isDeterministic_iff.mp hA
  refine isDeterministic_iff.mpr ⟨h.completes.isSimple hsimple, fun p hp c hc => ?_⟩
  rw [h.alphabet_eq] at hc
  exact h.countTransitions_le (fun hpA => hcount p hpA c hc) hp

/-- An automaton with all transitions is left as it is. -/
theorem complete_eq_self (hA : A.InRange) (hcov : Covers A) : complete A = A := by
  rcases complete_cases hA with ⟨_, heq⟩ | ⟨hnot, _⟩
  · exact heq
  · exact absurd hcov hnot

theorem covers_of_isComplete (h : A.isComplete = true) : Covers A := by
  intro p hp c hc hmiss
  obtain ⟨q, hq⟩ := (isComplete_iff.mp h).2 p hp c hc
  exact hmiss q hq

/-- The states keep their numbers, their flags and, in front, their transitions. -/
structure Extends (A B : FiniteAutomaton) : Prop where
  length_le : A.states.length ≤ B.states.length
  isFinal : ∀ p < A.states.length, (B.state p).isFinal = (A.state p).isFinal
  transitions : ∀ p < A.states.length, (A.state p).transitions <+: (B.state p).transitions

theorem Extends.refl (A : FiniteAutomaton) : Extends A A where
  length_le := le_rfl
  isFinal _ _ := rfl
  transitions _ _ := List.prefix_rfl

theorem TrapAdded.keepsStates (h : TrapAdded A B) : Extends A B where
  length_le := by
    rw [h.length_eq]
    exact Nat.le_succ _
  isFinal p hp := by
    rw [h.state p hp]
  transitions p hp := by
    rw [h.state p hp]
    exact List.prefix_append _ _

/-- The completer makes a simple automaton complete. It keeps its words, its states and
whether it is deterministic, and a second run changes nothing. -/
theorem complete_correct (A : FiniteAutomaton) (hsimple : A.isSimple = true) (hA : A.InRange) :
    (complete A).isComplete = true ∧
    (∀ w : List CChar, (∀ c ∈ w, c ≠ 0) →
      ((complete A).accepts w).Ensures fun b => (A.accepts w).Returns b) ∧
    Extends A (complete A) ∧
    (A.isDeterministic = true → (complete A).isDeterministic = true) ∧
    complete (complete A) = complete A ∧
    (complete A).alphabet = A.alphabet ∧ (complete A).InRange := by
  have h := completes_complete hA
  have hcomplete := h.isComplete hsimple
  refine ⟨hcomplete, fun w hw => ?_, ?_, fun hdet => ?_,
    complete_eq_self (h.inRange hA) (covers_of_isComplete hcomplete), h.alphabet_eq,
    h.inRange hA⟩
  · have haccepts := accepts_ensures (h.isSimple hsimple) (h.inRange hA) hw
    rw [h.pathLanguage_eq] at haccepts
    exact haccepts.returns_same (accepts_ensures hsimple hA hw)
  · rcases complete_cases hA with ⟨_, heq⟩ | ⟨_, htrap⟩
    · rw [heq]
      exact .refl A
    · exact htrap.keepsStates
  · rcases complete_cases hA with ⟨_, heq⟩ | ⟨_, htrap⟩
    · rw [heq]
      exact hdet
    · exact htrap.isDeterministic hdet

/-- One state with a loop for `a`, over the letters `a` and `b`. -/
def loopForA : FiniteAutomaton where
  alphabet := OrderedSet.insert 97 (OrderedSet.insert 98 ∅)
  states := [⟨true, [⟨.char 97, 0⟩]⟩]

theorem complete_correct_loopForA :
    (complete loopForA).isComplete = true ∧
    (∀ w : List CChar, (∀ c ∈ w, c ≠ 0) →
      ((complete loopForA).accepts w).Ensures fun b => (loopForA.accepts w).Returns b) ∧
    Extends loopForA (complete loopForA) ∧
    (loopForA.isDeterministic = true → (complete loopForA).isDeterministic = true) ∧
    complete (complete loopForA) = complete loopForA ∧
    (complete loopForA).alphabet = loopForA.alphabet ∧ (complete loopForA).InRange :=
  complete_correct loopForA (by decide) (by decide)

end AutomatonCompleter

namespace AutomatonInverter

theorem foldl_invert (m : ℕ) (hm : m ≤ A.states.length) :
    let B := (List.range m).foldl (fun B i => B.makeStateFinal i (!(B.state i).isFinal)) A
    (∀ p, (B.state p).transitions = (A.state p).transitions) ∧
    B.states.length = A.states.length ∧
    B.startStateIndex = A.startStateIndex ∧ B.alphabet = A.alphabet ∧
    ∀ {p}, B.Final p ↔ if p < m then ¬A.Final p else A.Final p := by
  induction m with
  | zero => simp
  | succ m ih =>
      obtain ⟨htrans, hlen, hstart, halpha, hfinal⟩ := ih (by omega)
      rw [List.range_succ, List.foldl_concat]
      set B := (List.range m).foldl (fun B i => B.makeStateFinal i (!(B.state i).isFinal)) A
      refine ⟨?_, length_makeStateFinal.trans hlen, hstart, halpha, fun {p} => ?_⟩
      · intro p
        rw [state_makeStateFinal (by omega), ← htrans p]
        split <;> rfl
      · rw [final_makeStateFinal (by omega)]
        by_cases hp : p = m
        · subst hp
          have hm : B.Final p ↔ A.Final p := by
            rw [hfinal, if_neg (lt_irrefl p)]
          rw [if_pos rfl, if_pos (by omega), ← hm, Final]
          simp
        · rw [if_neg hp, hfinal]
          by_cases hlt : p < m
          · rw [if_pos hlt, if_pos (by omega)]
          · rw [if_neg hlt, if_neg (by omega)]

/-- Only the final flags change, all of them. -/
structure Inverts (A B : FiniteAutomaton) : Prop where
  transitions : ∀ p, (B.state p).transitions = (A.state p).transitions
  length_eq : B.states.length = A.states.length
  start_eq : B.startStateIndex = A.startStateIndex
  alphabet_eq : B.alphabet = A.alphabet
  final : ∀ {p}, p < A.states.length → (B.Final p ↔ ¬A.Final p)

theorem inverts_invert (A : FiniteAutomaton) : Inverts A (invert A) := by
  obtain ⟨htrans, hlen, hstart, halpha, hfinal⟩ := foldl_invert (A := A) A.states.length le_rfl
  refine ⟨htrans, hlen, hstart, halpha, fun {p} hp => ?_⟩
  rw [invert, hfinal, if_pos hp]

theorem Inverts.edge (h : Inverts A B) : B.Edge p r q ↔ A.Edge p r q := by
  rw [Edge, h.transitions, Edge]

theorem Inverts.isDeterministic (h : Inverts A B) (hA : A.isDeterministic = true) :
    B.isDeterministic = true := by
  obtain ⟨hsimple, hcount⟩ := isDeterministic_iff.mp hA
  apply isDeterministic_iff.mpr
  constructor
  · rw [isSimple_iff] at hsimple ⊢
    exact fun p r q he => hsimple p r q (h.edge.mp he)
  · intro p hp c hc
    rw [h.length_eq] at hp
    rw [h.alphabet_eq] at hc
    rw [countTransitions]
    rw [h.transitions]
    exact hcount p hp c hc

end AutomatonInverter

end FormalLanguages
