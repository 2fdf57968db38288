import Macc.Proofs.Text.ReadBack

/-!
# Words of a text

A text of words with blanks between them (`Spaced`) is taken apart into these words again
(`Spaced.words_eq`).  A word is anything without blanks (`IsWord`), so it may hold signs as well as
letters and digits.
-/

namespace Macc

namespace Text

/-- Something without blanks. -/
structure IsWord (text : List Char) : Prop where
  ne_nil : text ≠ []
  nonblank : ∀ c ∈ text, isAsciiBlank c = false

theorem IsToken.isWord {text : List Char} (h : IsToken text) : IsWord text :=
  ⟨h.ne_nil, fun c hc => isAsciiBlank_of_isAlphanum (h.isAlphanum c hc)⟩

theorem filter_ne_nil {ws : List (List Char)} (h : ∀ w ∈ ws, IsWord w) :
    ws.filter (· ≠ []) = ws :=
  List.filter_eq_self.2 fun w hw => decide_eq_true (h w hw).ne_nil

theorem isLine_of_nonblank {text : List Char} (h : ∀ c ∈ text, isAsciiBlank c = false) :
    IsLine text := by
  intro c hc
  constructor
  · rintro rfl
    cases h _ hc
  · rintro rfl
    cases h _ hc

theorem IsWord.isLine {text : List Char} (h : IsWord text) : IsLine text :=
  isLine_of_nonblank h.nonblank

/-- Blanks that separate the words of a line. -/
structure IsGap (gap : List Char) : Prop where
  ne_nil : gap ≠ []
  blank : ∀ c ∈ gap, isAsciiBlank c ∧ c ≠ '\n'

theorem isGap_space : IsGap [' '] := ⟨by simp, by simp [isAsciiBlank]⟩

/-- The text consists of the words with gaps between them. -/
inductive Spaced : List (List Char) → List Char → Prop
  | single (w : List Char) : Spaced [w] w
  | cons (w : List Char) {gap text : List Char} {ws : List (List Char)} (h : IsGap gap)
      (rest : Spaced ws text) : Spaced (w :: ws) (w ++ (gap ++ text))

theorem Spaced.ne_nil {ws : List (List Char)} {text : List Char} (h : Spaced ws text) :
    ws ≠ [] := by
  cases h <;> simp

theorem spaced_intercalate {ws : List (List Char)} (h : ws ≠ []) :
    Spaced ws ([' '].intercalate ws) := by
  induction ws with
  | nil => exact absurd rfl h
  | cons w ws ih =>
    cases ws with
    | nil =>
      rw [List.intercalate_singleton]
      exact .single w
    | cons v ws =>
      rw [List.intercalate_cons_cons, List.append_assoc]
      exact .cons w isGap_space (ih (List.cons_ne_nil v ws))

/-- Words with gaps between them are a line. -/
theorem Spaced.isUnbroken {ws : List (List Char)} {text : List Char} (h : Spaced ws text)
    (hw : ∀ w ∈ ws, IsWord w) : IsUnbroken text ∧ text ≠ [] := by
  induction h with
  | single w =>
    have word := hw w (.head _)
    exact ⟨word.isLine.isUnbroken, word.ne_nil⟩
  | @cons w gap text ws hg _ ih =>
    rw [List.forall_mem_cons] at hw
    obtain ⟨unbroken, ne_nil⟩ := ih hw.2
    have front : '\n' ∉ w ++ gap := by
      simp only [List.mem_append, not_or]
      exact ⟨fun hn => (hw.1.isLine _ hn).1 rfl, fun hn => (hg.blank _ hn).2 rfl⟩
    rw [← List.append_assoc]
    exact ⟨isUnbroken_append front unbroken ne_nil, by simp [ne_nil]⟩

/-- A separator ends a word and begins no other. -/
theorem words_append_cons {separator : Char → Bool} {c : Char} (hc : separator c)
    (front behind : List Char) :
    words separator (front ++ c :: behind) = words separator front ++ words separator behind := by
  rw [words, List.splitOnP_append_cons front behind hc, List.filter_append, words, words]

theorem words_append_of_blank {separator : Char → Bool} {gap : List Char}
    (h : ∀ c ∈ gap, separator c) (text : List Char) :
    words separator (gap ++ text) = words separator text := by
  induction gap with
  | nil => rfl
  | cons c cs ih =>
    rw [List.forall_mem_cons] at h
    have cut := words_append_cons h.1 [] (cs ++ text)
    rw [ih h.2] at cut
    exact cut

theorem words_eq_singleton {separator : Char → Bool} {w : List Char} (hn : w ≠ [])
    (h : ∀ c ∈ w, separator c = false) : words separator w = [w] := by
  rw [words, List.splitOnP_eq_singleton h]
  exact List.filter_cons_of_pos (decide_eq_true hn)

theorem IsWord.words_eq {w : List Char} (h : IsWord w) : words isAsciiBlank w = [w] :=
  words_eq_singleton h.ne_nil h.nonblank

/-- Words with gaps between them are found again. -/
theorem Spaced.words_eq {ws : List (List Char)} {text : List Char} (h : Spaced ws text)
    (hw : ∀ w ∈ ws, IsWord w) : words isAsciiBlank text = ws := by
  induction h with
  | single w => exact (hw w (.head _)).words_eq
  | @cons w gap text ws hg _ ih =>
    rw [List.forall_mem_cons] at hw
    have blank : ∀ c ∈ gap, isAsciiBlank c := fun c hc => (hg.blank c hc).1
    obtain ⟨c, cs, rfl⟩ := List.exists_cons_of_ne_nil hg.ne_nil
    rw [List.forall_mem_cons] at blank
    rw [List.cons_append, words_append_cons blank.1, hw.1.words_eq,
      words_append_of_blank blank.2, ih hw.2, List.singleton_append]

theorem words_intercalate_space {ws : List (List Char)} (h : ∀ w ∈ ws, IsWord w) :
    words isAsciiBlank ([' '].intercalate ws) = ws := by
  by_cases hn : ws = []
  · subst hn
    rfl
  · exact (spaced_intercalate hn).words_eq h

end Text

end Macc
