import Macc.Text.Blank
import Macc.Text.Line
import Macc.Text.Numeral

/-!
# Text that reads back

Texts are written from tokens, which are letters and digits (`IsToken`), with blanks between them,
and lines of such text (`IsLine`, or more generally `IsUnbroken`) with line feeds between them.
Reading takes them apart again: `readNat?_hexDigits` for numerals, `words_intercalate` for words,
`lines_unlines` and `lines_intercalate` for lines.  Both of these go through `exists_lines_eq`, which
says how the lines of any text come from the pieces between its line feeds.
-/

namespace Macc

namespace Text

/-! ### Letters and digits -/

theorem char_le_iff (a b : Char) : a ≤ b ↔ a.toNat ≤ b.toNat := by
  rw [Char.le_def, UInt32.le_iff_toNat_le]
  rfl

theorem isAlphanum_iff (c : Char) :
    c.isAlphanum ↔ (48 ≤ c.toNat ∧ c.toNat ≤ 57) ∨ (65 ≤ c.toNat ∧ c.toNat ≤ 90) ∨
      (97 ≤ c.toNat ∧ c.toNat ≤ 122) := by
  delta Char.isAlphanum Char.isAlpha Char.isUpper Char.isLower Char.isDigit
  simp only [ge_iff_le, UInt32.le_iff_toNat_le, Bool.or_eq_true, Bool.and_eq_true,
    decide_eq_true_eq, Char.toNat, Char.reduceVal, UInt32.reduceToNat]
  omega

theorem isBlank_of_isAlphanum {c : Char} (h : c.isAlphanum) : isBlank c = false := by
  rw [isAlphanum_iff] at h
  simp only [isBlank, Bool.or_eq_false_iff, Bool.and_eq_false_iff, decide_eq_false_iff_not,
    beq_eq_false_iff_ne]
  omega

theorem isAsciiBlank_of_isAlphanum {c : Char} (h : c.isAlphanum) : isAsciiBlank c = false := by
  have := isBlank_of_isAlphanum h
  cases hc : isAsciiBlank c with
  | false => rfl
  | true => simp [isBlank_of_isAsciiBlank hc] at this

/-- One or more letters and digits. -/
structure IsToken (text : List Char) : Prop where
  ne_nil : text ≠ []
  isAlphanum : ∀ c ∈ text, c.isAlphanum

namespace IsToken

theorem cons {c : Char} {text : List Char} (hc : c.isAlphanum) (h : IsToken text) :
    IsToken (c :: text) := by
  constructor
  · exact List.cons_ne_nil _ _
  · exact List.forall_mem_cons.2 ⟨hc, h.isAlphanum⟩

theorem not_mem {text : List Char} (h : IsToken text) {c : Char} (hc : ¬ c.isAlphanum) :
    c ∉ text :=
  fun hm => hc (h.isAlphanum c hm)

end IsToken

/-! ### Numerals -/

theorem exists_of_mem_toDigits {radix n : Nat} (hr : 1 < radix) {c : Char}
    (h : c ∈ Nat.toDigits radix n) : ∃ d < radix, c = d.digitChar := by
  induction n using Nat.strongRecOn with
  | ind n ih =>
    rw [Nat.toDigits_eq_if hr] at h
    split at h
    next hn => exact ⟨n, hn, List.mem_singleton.1 h⟩
    next hn =>
      rcases List.mem_append.1 h with h | h
      · exact ih _ (Nat.div_lt_self (by omega) hr) h
      · exact ⟨n % radix, Nat.mod_lt _ (by omega), List.mem_singleton.1 h⟩

theorem isAlphanum_digitChar : ∀ d < 16, d.digitChar.isAlphanum := by decide

theorem isToken_toDigits {radix : Nat} (hr : 1 < radix) (hr' : radix ≤ 16) (n : Nat) :
    IsToken (Nat.toDigits radix n) := by
  refine ⟨Nat.toDigits_ne_nil, fun c hc => ?_⟩
  obtain ⟨d, hd, rfl⟩ := exists_of_mem_toDigits hr hc
  exact isAlphanum_digitChar d (Nat.lt_of_lt_of_le hd hr')

theorem isToken_toString (n : Nat) : IsToken (toString n).toList := by
  have digits : (toString n).toList = Nat.toDigits 10 n := String.toList_ofList
  rw [digits]
  exact isToken_toDigits (by decide) (by decide) n

theorem isToken_hexDigits (width n : Nat) : IsToken (hexDigits width n) := by
  refine ⟨hexDigits_ne_nil width n, fun c hc => ?_⟩
  rcases List.mem_append.1 hc with hc | hc
  · rw [(List.mem_replicate.1 hc).2]
    rfl
  · exact (isToken_toDigits (by decide) (by decide) n).isAlphanum c hc

theorem digitValue?_digitChar : ∀ d < 16, digitValue? d.digitChar = some d := by decide

theorem digit?_digitChar {radix d : Nat} (hr : radix ≤ 16) (hd : d < radix) :
    digit? radix d.digitChar = some d := by
  rw [digit?, digitValue?_digitChar d (by omega), Option.filter_some, if_pos (decide_eq_true hd)]

/-- The digits of a number are read as the number. -/
theorem readDigits?_toDigits {radix : Nat} (hr : 1 < radix) (hr' : radix ≤ 16) (n : Nat) :
    readDigits? radix 0 (Nat.toDigits radix n) = some n := by
  induction n using Nat.strongRecOn with
  | ind n ih =>
    rw [Nat.toDigits_eq_if hr]
    split
    next hn => rw [readDigits?_cons, digit?_digitChar hr' hn]; simp [readDigits?_nil]
    next hn =>
      have hd : n % radix < radix := Nat.mod_lt _ (by omega)
      rw [readDigits?_append, ih _ (Nat.div_lt_self (by omega) hr), Option.bind_some,
        readDigits?_cons, digit?_digitChar hr' hd, Option.bind_some, readDigits?_nil,
        Nat.div_add_mod]

/-- Zeros in front of a number do not count. -/
theorem readDigits?_replicate_zero (radix k : Nat) (hr : 0 < radix) :
    readDigits? radix 0 (List.replicate k '0') = some 0 := by
  have zero : digit? radix '0' = some 0 := by simp [digit?, digitValue?, hr]
  induction k with
  | zero => rfl
  | succ k ih => rw [List.replicate_succ, readDigits?_cons, zero]; simpa using ih

theorem readNat?_hexDigits (width n : Nat) : readNat? 16 (hexDigits width n) = some n := by
  rw [readNat?, if_neg (hexDigits_ne_nil width n), hexDigits, List.leftpad, readDigits?_append,
    readDigits?_replicate_zero 16 _ (by decide), Option.bind_some,
    readDigits?_toDigits (by decide) (by decide)]

theorem readBounded?_hexDigits {bound n : Nat} (width : Nat) (h : n < bound) :
    readBounded? 16 bound (hexDigits width n) = some n := by
  have unsigned : (hexDigits width n).head? ≠ some '+' := fun hp =>
    (isToken_hexDigits width n).not_mem (by decide) (List.mem_of_head? hp)
  rw [readBounded?, if_neg unsigned, readNat?_hexDigits, Option.filter_some,
    if_pos (decide_eq_true h)]

/-! ### Words -/

theorem forall_mem_intercalate {P : Char → Prop} {gap : List Char} (hg : ∀ c ∈ gap, P c)
    {ws : List (List Char)} (h : ∀ w ∈ ws, ∀ c ∈ w, P c) : ∀ c ∈ gap.intercalate ws, P c := by
  induction ws with
  | nil => exact fun c hc => by cases hc
  | cons w ws ih =>
    rw [List.forall_mem_cons] at h
    cases ws with
    | nil => rw [List.intercalate_singleton]; exact h.1
    | cons v ws =>
      rw [List.intercalate_cons_cons]
      exact List.forall_mem_append.2 ⟨List.forall_mem_append.2 ⟨h.1, hg⟩, ih h.2⟩

/-- Pieces without separators are what a text of them, with separators between them, is split
into. -/
theorem splitOnP_intercalate {p : Char → Bool} {x : Char} (hx : p x) {ws : List (List Char)}
    (hn : ws ≠ []) (h : ∀ w ∈ ws, ∀ c ∈ w, p c = false) :
    ([x].intercalate ws).splitOnP p = ws := by
  induction ws with
  | nil => exact absurd rfl hn
  | cons w ws ih =>
    rw [List.forall_mem_cons] at h
    cases ws with
    | nil => rw [List.intercalate_singleton, List.splitOnP_eq_singleton h.1]
    | cons v ws =>
      rw [List.intercalate_cons_cons, List.append_assoc, List.singleton_append,
        List.splitOnP_append_cons_of_forall_mem h.1 x hx, ih (List.cons_ne_nil v ws) h.2]

/-- The pieces that a text is split into have no separators. -/
theorem forall_mem_splitOnP (p : Char → Bool) (text : List Char) :
    ∀ w ∈ text.splitOnP p, ∀ c ∈ w, p c = false := by
  induction text with
  | nil => simp
  | cons c cs ih =>
    rw [List.splitOnP_cons_eq_if_modifyHead]
    split
    · exact List.forall_mem_cons.2 ⟨List.forall_mem_nil _, ih⟩
    next hc =>
      -- the character goes in front of the first piece
      obtain ⟨w, ws, cut⟩ := List.exists_cons_of_ne_nil (List.splitOnP_ne_nil p cs)
      rw [cut, List.forall_mem_cons] at ih
      rw [cut, List.modifyHead_cons, List.forall_mem_cons, List.forall_mem_cons]
      exact ⟨⟨Bool.eq_false_iff.2 hc, ih.1⟩, ih.2⟩

/-- What stands in front of a separator and what stands behind it are cut on their own. -/
theorem splitOn_append_cons (x : Char) (front behind : List Char) :
    (front ++ x :: behind).splitOn x = front.splitOn x ++ behind.splitOn x :=
  List.splitOnP_append_cons front behind (beq_self_eq_true x)

theorem words_intercalate {ws : List (List Char)} (h : ∀ w ∈ ws, IsToken w) :
    words isBlank ([' '].intercalate ws) = ws := by
  have filled : ws.filter (· ≠ []) = ws :=
    List.filter_eq_self.2 fun w hw => decide_eq_true (h w hw).ne_nil
  by_cases hn : ws = []
  · subst hn
    rfl
  · rw [words, splitOnP_intercalate (by decide) hn, filled]
    exact fun w hw c hc => isBlank_of_isAlphanum ((h w hw).isAlphanum c hc)

/-! ### Trimmed text -/

/-- Text that neither begins nor ends with a blank. -/
structure IsTrimmed (text : List Char) : Prop where
  ne_nil : text ≠ []
  head : ∀ c ∈ text.head?, isBlank c = false
  last : ∀ c ∈ text.getLast?, isBlank c = false

theorem dropWhile_eq_self {p : Char → Bool} {text : List Char}
    (h : ∀ c ∈ text.head?, p c = false) : text.dropWhile p = text := by
  cases text with
  | nil => rfl
  | cons c cs => rw [List.dropWhile_cons_of_neg (by simp [h c rfl])]

theorem trimStart_blank_append (line : List Char) {gap : List Char} (h : ∀ c ∈ gap, isBlank c) :
    trimStart (gap ++ line) = trimStart line := List.dropWhile_append_of_pos h

theorem trimStart_append_blank (line : List Char) {gap : List Char} (h : ∀ c ∈ gap, isBlank c) :
    trimStart (line ++ gap) = if trimStart line = [] then [] else trimStart line ++ gap := by
  have none : trimStart gap = [] := by
    have := trimStart_blank_append [] h
    rwa [List.append_nil] at this
  rw [trimStart, List.dropWhile_append, ← trimStart, ← trimStart, none]
  simp only [List.isEmpty_iff]

theorem trim_append_blank (line : List Char) {gap : List Char} (h : ∀ c ∈ gap, isBlank c) :
    trim (line ++ gap) = trim line := by
  rw [trim, trimStart_append_blank line h]
  split
  next empty => rw [trim, empty]
  next =>
    rw [List.reverse_append,
      List.dropWhile_append_of_pos fun c hc => h c (List.mem_reverse.1 hc), ← trim]

theorem IsTrimmed.trim_eq {text : List Char} (h : IsTrimmed text) : trim text = text := by
  rw [trim, trimStart, dropWhile_eq_self h.head, dropWhile_eq_self, List.reverse_reverse]
  rw [List.head?_reverse]
  exact h.last

theorem IsToken.isTrimmed {text : List Char} (h : IsToken text) : IsTrimmed text := by
  constructor
  · exact h.ne_nil
  · exact fun c hc => isBlank_of_isAlphanum (h.isAlphanum c (List.mem_of_head? hc))
  · exact fun c hc => isBlank_of_isAlphanum (h.isAlphanum c (List.mem_of_getLast? hc))

theorem IsTrimmed.append {u v : List Char} (hu : IsTrimmed u) (gap : List Char)
    (hv : IsTrimmed v) : IsTrimmed (u ++ gap ++ v) := by
  constructor
  · simp [hu.ne_nil]
  · rw [List.append_assoc, List.head?_append, Option.or_of_isSome (List.isSome_head?.2 hu.ne_nil)]
    exact hu.head
  · rw [List.getLast?_append, Option.or_of_isSome (List.getLast?_isSome.2 hv.ne_nil)]
    exact hv.last

theorem isTrimmed_intercalate {ws : List (List Char)} (hn : ws ≠ []) (gap : List Char)
    (h : ∀ w ∈ ws, IsToken w) : IsTrimmed (gap.intercalate ws) := by
  induction ws with
  | nil => exact absurd rfl hn
  | cons w ws ih =>
    rw [List.forall_mem_cons] at h
    cases ws with
    | nil => rw [List.intercalate_singleton]; exact h.1.isTrimmed
    | cons v ws =>
      rw [List.intercalate_cons_cons]
      exact h.1.isTrimmed.append gap (ih (List.cons_ne_nil v ws) h.2)

/-! ### Lines -/

/-- Text without line feeds and carriage returns. -/
def IsLine (text : List Char) : Prop := ∀ c ∈ text, c ≠ '\n' ∧ c ≠ '\r'

theorem IsToken.isLine {text : List Char} (h : IsToken text) : IsLine text := by
  intro c hc
  constructor
  · rintro rfl
    exact h.not_mem (by decide) hc
  · rintro rfl
    exact h.not_mem (by decide) hc

theorem IsLine.append {u v : List Char} (hu : IsLine u) (hv : IsLine v) : IsLine (u ++ v) :=
  List.forall_mem_append.2 ⟨hu, hv⟩

theorem isLine_append_iff {u v : List Char} : IsLine (u ++ v) ↔ IsLine u ∧ IsLine v :=
  List.forall_mem_append

theorem isLine_intercalate {gap : List Char} (hg : IsLine gap) {ws : List (List Char)}
    (h : ∀ w ∈ ws, IsLine w) : IsLine (gap.intercalate ws) :=
  forall_mem_intercalate hg h

/-- Text without line feeds that leaves no carriage return to the line end behind it. -/
structure IsUnbroken (text : List Char) : Prop where
  feed : '\n' ∉ text
  last : text.getLast? ≠ some '\r'

theorem IsLine.isUnbroken {text : List Char} (h : IsLine text) : IsUnbroken text :=
  ⟨fun hm => (h _ hm).1 rfl, fun hr => (h _ (List.mem_of_getLast? hr)).2 rfl⟩

/-- What a line ends with decides what it leaves to the line end. -/
theorem isUnbroken_append {u v : List Char} (hu : '\n' ∉ u) (hv : IsUnbroken v) (filled : v ≠ []) :
    IsUnbroken (u ++ v) := by
  refine ⟨fun hm => (List.mem_append.1 hm).elim hu hv.feed, ?_⟩
  rw [List.getLast?_append, Option.or_of_isSome (List.getLast?_isSome.2 filled)]
  exact hv.last

theorem IsLine.append_isUnbroken {u v : List Char} (hu : IsLine u) (hv : IsUnbroken v) :
    IsUnbroken (u ++ v) := by
  by_cases filled : v = []
  · rw [filled, List.append_nil]
    exact hu.isUnbroken
  · exact isUnbroken_append (fun hm => (hu _ hm).1 rfl) hv filled

theorem trim_subset (text : List Char) : trim text ⊆ text := by
  intro c hc
  have suffix := (List.dropWhile_sublist _).subset (List.mem_reverse.1 hc)
  exact (List.dropWhile_sublist _).subset (List.mem_reverse.1 suffix)

theorem isUnbroken_trim {text : List Char} (h : '\n' ∉ text) : IsUnbroken (trim text) := by
  refine ⟨fun hm => h (trim_subset text hm), fun last => ?_⟩
  rw [trim, List.getLast?_reverse] at last
  have kept := List.head?_dropWhile_not isBlank (trimStart text).reverse
  rw [last] at kept
  cases kept

theorem subset_dropReturn (text : List Char) : dropReturn text ⊆ text := by
  unfold dropReturn
  split
  · exact text.dropLast_subset
  · exact List.Subset.refl text

/-- The lines are the pieces between line feeds, the last one only if it is not empty. -/
theorem exists_lines_eq (text : List Char) :
    ∃ front last, text.splitOn '\n' = front ++ [last] ∧
      lines text = front.map dropReturn ++ if last = [] then [] else [last] := by
  obtain ⟨front, last, pieces⟩ :=
    (text.splitOn '\n').eq_nil_or_concat.resolve_left (List.splitOn_ne_nil _ _)
  rw [List.concat_eq_append] at pieces
  refine ⟨front, last, pieces, ?_⟩
  rw [lines, pieces, List.dropLast_concat, List.getLast?_concat]
  by_cases hl : last = []
  · simp only [hl, Option.filter_some, ne_eq, not_true_eq_false, decide_false,
      Bool.false_eq_true, if_false, Option.toList_none, if_true]
  · rw [Option.filter_some, if_pos (decide_eq_true hl), if_neg hl, Option.toList_some]

/-- No line has a line feed. -/
theorem feed_not_mem_of_mem_lines {text line : List Char} (h : line ∈ lines text) :
    '\n' ∉ line := by
  obtain ⟨front, last, pieces, eq⟩ := exists_lines_eq text
  have unbroken : ∀ w ∈ front ++ [last], '\n' ∉ w := by
    intro w hw hm
    cases forall_mem_splitOnP _ text w (pieces ▸ hw) _ hm
  rw [eq] at h
  rcases List.mem_append.1 h with h | h
  · obtain ⟨w, hw, rfl⟩ := List.mem_map.1 h
    exact fun hm => unbroken w (List.mem_append_left _ hw) (subset_dropReturn w hm)
  · split at h
    · cases h
    · exact unbroken line (List.mem_append_right _ h)

theorem splitOn_intercalate_lines {ls : List (List Char)} (hn : ls ≠ [])
    (h : ∀ l ∈ ls, IsUnbroken l) : (['\n'].intercalate ls).splitOn '\n' = ls :=
  List.splitOn_intercalate '\n' (fun l hl => (h l hl).feed) hn

theorem map_dropReturn {ls : List (List Char)} (h : ∀ l ∈ ls, IsUnbroken l) :
    ls.map dropReturn = ls :=
  List.map_congr_left (fun l hl => if_neg (h l hl).last) |>.trans ls.map_id

theorem toList_unlines (ls : List String) :
    (unlines ls).toList = ['\n'].intercalate (ls.map String.toList ++ [[]]) := by
  rw [unlines, String.toList_join, List.flatMap_map]
  induction ls with
  | nil => rfl
  | cons l ls ih =>
    rw [List.flatMap_cons, ih, List.map_cons, List.cons_append,
      List.intercalate_cons_of_ne_nil (by simp), String.toList_append]
    rfl

/-- Lines that are each ended by a line feed read back. -/
theorem lines_unlines {ls : List String} (h : ∀ l ∈ ls, IsUnbroken l.toList) :
    lines (unlines ls).toList = ls.map String.toList := by
  have unbroken : ∀ l ∈ ls.map String.toList, IsUnbroken l := List.forall_mem_map.2 h
  have ended : ∀ l ∈ ls.map String.toList ++ [[]], IsUnbroken l :=
    List.forall_mem_append.2 ⟨unbroken, List.forall_mem_singleton.2 ⟨by simp, by simp⟩⟩
  obtain ⟨front, last, pieces, eq⟩ := exists_lines_eq (unlines ls).toList
  rw [toList_unlines, splitOn_intercalate_lines (by simp) ended] at pieces
  obtain ⟨rfl, hlast⟩ := List.append_inj' pieces rfl
  rw [eq, map_dropReturn unbroken, if_pos (List.singleton_inj.1 hlast).symm, List.append_nil]

/-- Lines with line feeds between them read back, unless the last is empty. -/
theorem lines_intercalate {ls : List String} (h : ∀ l ∈ ls, IsUnbroken l.toList)
    (hn : ∀ l ∈ ls, l.toList ≠ []) :
    lines ("\n".intercalate ls).toList = ls.map String.toList := by
  by_cases hnil : ls = []
  · subst hnil
    rfl
  have unbroken : ∀ l ∈ ls.map String.toList, IsUnbroken l := List.forall_mem_map.2 h
  have filled : ∀ l ∈ ls.map String.toList, l ≠ [] := List.forall_mem_map.2 hn
  obtain ⟨front, last, pieces, eq⟩ := exists_lines_eq ("\n".intercalate ls).toList
  rw [String.toList_intercalate, show "\n".toList = ['\n'] from rfl,
    splitOn_intercalate_lines (by simpa using hnil) unbroken] at pieces
  rw [pieces, List.forall_mem_append] at unbroken filled
  rw [eq, pieces, map_dropReturn unbroken.1, if_neg (filled.2 last (.head _))]

/-- Both ways to join lines read back. -/
theorem lines_joined {ls : List String} {source : String}
    (h : source = unlines ls ∨ source = "\n".intercalate ls)
    (unbroken : ∀ l ∈ ls, IsUnbroken l.toList) (filled : ∀ l ∈ ls, l.toList ≠ []) :
    lines source.toList = ls.map String.toList := by
  rcases h with rfl | rfl
  · exact lines_unlines unbroken
  · exact lines_intercalate unbroken filled

end Text

end Macc
