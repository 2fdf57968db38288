import Mathlib.Data.List.Induction
import Mathlib.Logic.Relation
import Macc.Assembly.Program
import Macc.Proofs.Assembly.Evaluation
import Macc.Proofs.Assembly.Reading

/-!
# Blanks around lines

Blanks in front of a line and behind it are no part of what the line says
(`Statement.ofLine_blank_append`, `Statement.ofLine_append_blank`), and neither is the carriage
return of a line end.  So texts that are cut at their line feeds into lines that say the same
(`SameLines`) have the same program, or fail with the same error, and changes of blanks and line
ends (`Respaced`) lead from a text to such texts only.
-/

namespace Macc

open Text

/-! ### The last separator -/

/-- A text is cut behind the last separator that it has. -/
theorem not_mem_or_exists_last (x : Char) (text : List Char) :
    x ∉ text ∨ ∃ front last, text = front ++ x :: last ∧ x ∉ last := by
  induction text using List.reverseRecOn with
  | nil => exact .inl List.not_mem_nil
  | append_singleton text c ih =>
    by_cases hc : c = x
    · exact .inr ⟨text, [], by rw [hc], List.not_mem_nil⟩
    · have other {ys : List Char} (h : x ∉ ys) : x ∉ ys ++ [c] := by
        simpa [Ne.symm hc] using h
      rcases ih with none | ⟨front, last, rfl, behind⟩
      · exact .inl (other none)
      · exact .inr ⟨front, last ++ [c], by simp, other behind⟩

/-! ### One line -/

namespace Statement

theorem operandsOf_append_blank (spaced : Bool) (text : List Char) {gap : List Char}
    (h : ∀ c ∈ gap, isAsciiBlank c) : operandsOf spaced (text ++ gap) = operandsOf spaced text := by
  cases spaced with
  | true =>
    cases gap with
    | nil => rw [List.append_nil]
    | cons c cs =>
      rw [List.forall_mem_cons] at h
      have none : words isAsciiBlank cs = [] := by
        have := words_append_of_blank h.2 []
        rwa [List.append_nil] at this
      simp only [operandsOf, if_true, words_append_cons h.1, none, List.append_nil]
  | false =>
    have unblank (part : List Char) :
        (part ++ gap).filter (!isAsciiBlank ·) = part.filter (!isAsciiBlank ·) := by
      have none : gap.filter (!isAsciiBlank ·) = [] :=
        List.filter_eq_nil_iff.2 fun c hc => by simp [h c hc]
      rw [List.filter_append, none, List.append_nil]
    have comma {part : List Char} (hp : ',' ∉ part) : ',' ∉ part ++ gap := fun hm =>
      (List.mem_append.1 hm).elim hp fun hg => Bool.false_ne_true (h ',' hg)
    -- the blanks are a part of the last operand
    have parts : ((text ++ gap).splitOn ',').map (·.filter (!isAsciiBlank ·)) =
        (text.splitOn ',').map (·.filter (!isAsciiBlank ·)) := by
      rcases not_mem_or_exists_last ',' text with none | ⟨front, last, rfl, behind⟩
      · rw [List.splitOn_eq_singleton (comma none), List.splitOn_eq_singleton none,
          List.map_singleton, unblank, List.map_singleton]
      · rw [List.append_assoc, List.cons_append, splitOn_append_cons, splitOn_append_cons,
          List.splitOn_eq_singleton (comma behind), List.splitOn_eq_singleton behind,
          List.map_append, List.map_singleton, unblank, List.map_append, List.map_singleton]
    simp only [operandsOf, Bool.false_eq_true, if_false, parts]

theorem isBlankText_append_blank {text gap : List Char} (filled : text ≠ [])
    (h : ∀ c ∈ gap, isAsciiBlank c) : isBlankText (text ++ gap) = isBlankText text := by
  obtain ⟨c, cs, rfl⟩ := List.exists_cons_of_ne_nil filled
  cases cs with
  | cons d ds => simp [isBlankText, List.isPrefixOf]
  | nil =>
    cases gap with
    | nil => rfl
    | cons d ds =>
      have slash : ('/' == d) = false := by
        refine beq_false_of_ne ?_
        rintro rfl
        cases h '/' (.head _)
      simp [isBlankText, List.isPrefixOf, slash]

/-- Blanks behind a text do not make its first word longer. -/
theorem takeWhile_append_blank (text : List Char) {gap : List Char}
    (h : ∀ c ∈ gap, isAsciiBlank c) :
    (text ++ gap).takeWhile (!isAsciiBlank ·) = text.takeWhile (!isAsciiBlank ·) := by
  have cut : gap.takeWhile (!isAsciiBlank ·) = [] := by
    cases gap with
    | nil => rfl
    | cons c cs => exact List.takeWhile_cons_of_neg (by simp [h c (.head _)])
  rw [List.takeWhile_append, cut, List.append_nil]
  split
  next whole => exact ((List.takeWhile_prefix _).eq_of_length whole).symm
  next => rfl

/-- Blanks behind a text are behind what follows its first word. -/
theorem exists_drop_dropWhile_append (text : List Char) {gap : List Char}
    (h : ∀ c ∈ gap, isAsciiBlank c) :
    ∃ gap', (∀ c ∈ gap', isAsciiBlank c) ∧ ((text ++ gap).dropWhile (!isAsciiBlank ·)).drop 1 =
      (text.dropWhile (!isAsciiBlank ·)).drop 1 ++ gap' := by
  have kept : gap.dropWhile (!isAsciiBlank ·) = gap :=
    dropWhile_eq_self fun c hc => by rw [h c (List.mem_of_head? hc), Bool.not_true]
  rw [List.dropWhile_append, kept]
  cases text.dropWhile (!isAsciiBlank ·) with
  | nil => exact ⟨gap.drop 1, fun c hc => h c (List.mem_of_mem_drop hc), rfl⟩
  | cons d ds => exact ⟨gap, h, rfl⟩

/-- Blanks in front of a line are passed over. -/
theorem ofLine_blank_append (current : Option SectionKind) (line : List Char) {gap : List Char}
    (h : ∀ c ∈ gap, isBlank c) : ofLine current (gap ++ line) = ofLine current line := by
  rw [ofLine, trimStart_blank_append line h, ofLine]

/-- Blanks behind a line are passed over. -/
theorem ofLine_append_blank (current : Option SectionKind) (line : List Char) {gap : List Char}
    (h : ∀ c ∈ gap, isAsciiBlank c) : ofLine current (line ++ gap) = ofLine current line := by
  have start := trimStart_append_blank line fun c hc => isBlank_of_isAsciiBlank (h c hc)
  by_cases filled : trimStart line = []
  · rw [ofLine, start, if_pos filled, ofLine, filled]
  · rw [if_neg filled] at start
    obtain ⟨gap', blank', rest⟩ := exists_drop_dropWhile_append (trimStart line) h
    simp only [ofLine, start, isBlankText_append_blank filled h, takeWhile_append_blank _ h, rest,
      operandsOf_append_blank _ _ blank']

/-- The lines say the same in every section. -/
def Same (line line' : List Char) : Prop := ∀ current, ofLine current line = ofLine current line'

theorem same_dropReturn (line : List Char) : Same line (dropReturn line) := by
  intro current
  unfold dropReturn
  split
  next last =>
    obtain ⟨front, rfl⟩ := List.getLast?_eq_some_iff.1 last
    rw [List.dropLast_concat, ofLine_append_blank current front (by simp [isAsciiBlank])]
  next => rfl

end Statement

/-! ### Lists of lines -/

namespace Assembler

theorem feed_congr (a : Assembler) (n : Nat) {line line' : List Char}
    (h : Statement.Same line line') : a.feed n line = a.feed n line' := by
  rw [feed, h a.current, feed]

end Assembler

namespace Program

theorem foldlM_feedLine_congr {lines lines' : List (List Char)}
    (h : List.Forall₂ Statement.Same lines lines') (a : Assembler) (n : Nat) :
    (lines.zipIdx n).foldlM feedLine a = (lines'.zipIdx n).foldlM feedLine a := by
  induction h generalizing a n with
  | nil => rfl
  | @cons line line' _ _ same _ ih =>
    have step : feedLine a (line, n) = feedLine a (line', n) := by
      rw [feedLine, a.feed_congr n same, feedLine]
    simp only [List.zipIdx_cons, List.foldlM_cons, step, ih]

/-- Lines that say the same one by one have the same program or fail with the same error. -/
theorem ofLines_eq_of_same {lines lines' : List (List Char)}
    (h : List.Forall₂ Statement.Same lines lines') : ofLines lines = ofLines lines' := by
  rw [ofLines, foldlM_feedLine_congr h, ofLines]

/-- An empty line at the end says nothing. -/
theorem ofLines_concat_nil (lines : List (List Char)) :
    ofLines (lines ++ [[]]) = ofLines lines := by
  rw [ofLines, List.zipIdx_append, List.foldlM_append, ofLines]
  cases (lines.zipIdx 1).foldlM feedLine {} <;> rfl

/-- A source text may be read as the pieces between its line feeds, as they are. -/
theorem assemble_eq_ofLines (source : String) :
    assemble source = ofLines (source.toList.splitOn '\n') := by
  obtain ⟨front, last, pieces, lines⟩ := exists_lines_eq source.toList
  have same : List.Forall₂ Statement.Same (front.map dropReturn) front :=
    List.forall₂_map_left_iff.2 (List.forall₂_same.2 fun l _ current =>
      (Statement.same_dropReturn l current).symm)
  rw [assemble, lines, pieces]
  split
  next hl => rw [hl, List.append_nil, ofLines_concat_nil, ofLines_eq_of_same same]
  next => exact ofLines_eq_of_same (List.rel_append same (.cons (fun _ => rfl) .nil))

end Program

/-! ### Texts -/

/-- The texts are cut at their line feeds into lines that say the same. -/
def SameLines (text text' : List Char) : Prop :=
  List.Forall₂ Statement.Same (text.splitOn '\n') (text'.splitOn '\n')

namespace SameLines

theorem refl (text : List Char) : SameLines text text := List.forall₂_same.2 fun _ _ _ => rfl

/-- One line. -/
theorem single {line line' : List Char} (h : Statement.Same line line') (hf : '\n' ∉ line)
    (hf' : '\n' ∉ line') : SameLines line line' := by
  rw [SameLines, List.splitOn_eq_singleton hf, List.splitOn_eq_singleton hf']
  exact .cons h .nil

/-- Texts with a line feed between them. -/
theorem append {text text' rest rest' : List Char} (h : SameLines text text')
    (h' : SameLines rest rest') : SameLines (text ++ '\n' :: rest) (text' ++ '\n' :: rest') := by
  rw [SameLines, splitOn_append_cons, splitOn_append_cons]
  exact List.rel_append h h'

/-- Different blanks behind the last line. -/
theorem append_gap (front : List Char) {gap gap' : List Char}
    (h : ∀ c ∈ gap, isAsciiBlank c ∧ c ≠ '\n') (h' : ∀ c ∈ gap', isAsciiBlank c ∧ c ≠ '\n') :
    SameLines (front ++ gap) (front ++ gap') := by
  have last {line : List Char} (hl : '\n' ∉ line) : SameLines (line ++ gap) (line ++ gap') := by
    refine single (fun current => ?_) ?_ ?_
    · rw [Statement.ofLine_append_blank current line fun c hc => (h c hc).1,
        Statement.ofLine_append_blank current line fun c hc => (h' c hc).1]
    · exact List.not_mem_append hl fun hm => (h _ hm).2 rfl
    · exact List.not_mem_append hl fun hm => (h' _ hm).2 rfl
  rcases not_mem_or_exists_last '\n' front with none | ⟨front, line, rfl, behind⟩
  · exact last none
  · rw [List.append_assoc, List.cons_append, List.append_assoc, List.cons_append]
    exact (refl front).append (last behind)

/-- Blanks in front of the first line. -/
theorem gap_append (back : List Char) {gap : List Char} (h : ∀ c ∈ gap, isBlank c ∧ c ≠ '\n') :
    SameLines back (gap ++ back) := by
  have first {line : List Char} (hl : '\n' ∉ line) : SameLines line (gap ++ line) :=
    single (fun current => (Statement.ofLine_blank_append current line fun c hc => (h c hc).1).symm)
      hl (List.not_mem_append (fun hm => (h _ hm).2 rfl) hl)
  by_cases hb : '\n' ∈ back
  · obtain ⟨line, rest, rfl, hl⟩ := List.eq_append_cons_of_mem hb
    rw [← List.append_assoc]
    exact (first hl).append (refl rest)
  · exact first hb

end SameLines

/-! ### Changes of blanks -/

/-- The text with a carriage return in front of every line feed. -/
def withReturns (text : List Char) : List Char :=
  text.flatMap fun c => if c = '\n' then ['\r', '\n'] else [c]

/-- A change of the line ends of a text or of blanks around one of its lines. -/
inductive Respaced : List Char → List Char → Prop
  | returns (text : List Char) : Respaced text (withReturns text)
  /-- Blanks behind a line, in front of its line end if it has one. -/
  | behind (front : List Char) {gap back : List Char}
      (blank : ∀ c ∈ gap, c = ' ' ∨ c = '\t' ∨ c = '\x0c' ∨ c = '\r')
      (ends : back = [] ∨ ∃ rest, back = '\n' :: rest ∨ back = '\r' :: '\n' :: rest) :
      Respaced (front ++ back) (front ++ (gap ++ back))
  /-- Blanks in front of a line. -/
  | inFront {front gap : List Char} (back : List Char)
      (blank : ∀ c ∈ gap, isBlank c ∧ c ≠ '\n')
      (begins : front = [] ∨ front.getLast? = some '\n') :
      Respaced (front ++ back) (front ++ (gap ++ back))

theorem withReturns_of_not_mem {text : List Char} (h : '\n' ∉ text) : withReturns text = text := by
  induction text with
  | nil => rfl
  | cons c cs ih =>
    rw [List.mem_cons, not_or] at h
    rw [withReturns, List.flatMap_cons, if_neg (Ne.symm h.1), ← withReturns, ih h.2,
      List.singleton_append]

theorem sameLines_withReturns (text : List Char) : SameLines text (withReturns text) := by
  induction hn : text.length using Nat.strongRecOn generalizing text with
  | ind n ih =>
    by_cases hm : '\n' ∈ text
    · obtain ⟨line, rest, rfl, hl⟩ := List.eq_append_cons_of_mem hm
      have cut : withReturns (line ++ '\n' :: rest) =
          (line ++ ['\r']) ++ '\n' :: withReturns rest := by
        rw [withReturns, List.flatMap_append, ← withReturns, withReturns_of_not_mem hl,
          List.append_assoc]
        rfl
      have returned : SameLines line (line ++ ['\r']) := by
        have := SameLines.append_gap line (List.forall_mem_nil _)
          (List.forall_mem_singleton.2 (by decide : isAsciiBlank '\r' ∧ '\r' ≠ '\n'))
        rwa [List.append_nil] at this
      rw [cut]
      refine returned.append (ih rest.length ?_ rest rfl)
      rw [← hn, List.length_append, List.length_cons]
      omega
    · rw [withReturns_of_not_mem hm]
      exact .refl text

theorem Respaced.sameLines {text text' : List Char} (h : Respaced text text') :
    SameLines text text' := by
  cases h with
  | returns => exact sameLines_withReturns text
  | @behind front gap back blank ends =>
    have gapped : ∀ c ∈ gap, isAsciiBlank c ∧ c ≠ '\n' := by
      intro c hc
      rcases blank c hc with rfl | rfl | rfl | rfl <;> decide
    have returned : ∀ c ∈ ['\r'], isAsciiBlank c ∧ c ≠ '\n' :=
      List.forall_mem_singleton.2 (by decide)
    rcases ends with rfl | ⟨rest, rfl | rfl⟩
    · rw [List.append_nil gap]
      exact .append_gap front (List.forall_mem_nil _) gapped
    · have line := SameLines.append_gap front (List.forall_mem_nil _) gapped
      rw [List.append_nil] at line
      rw [← List.append_assoc]
      exact line.append (.refl rest)
    · -- the carriage return is a blank behind both lines
      have line := SameLines.append_gap front returned (List.forall_mem_append.2 ⟨gapped, returned⟩)
      have joined := line.append (.refl rest)
      simpa only [List.append_assoc, List.cons_append, List.nil_append] using joined
  | @inFront front gap back blank begins =>
    rcases begins with rfl | last
    · exact .gap_append back blank
    · obtain ⟨front, rfl⟩ := List.getLast?_eq_some_iff.1 last
      rw [List.append_assoc, List.append_assoc]
      exact (SameLines.refl front).append (.gap_append back blank)

namespace Program

/-- Line ends and blanks around lines make no difference, neither to the program of a source text
nor to the error that it has instead. -/
theorem assemble_eq_of_respaced {source source' : String}
    (h : Relation.ReflTransGen Respaced source.toList source'.toList) :
    assemble source' = assemble source := by
  rw [assemble_eq_ofLines, assemble_eq_ofLines]
  generalize source'.toList = text' at h
  induction h with
  | refl => rfl
  | tail _ step ih => rw [← ofLines_eq_of_same step.sameLines, ih]

/-- A label and an instruction without operands. -/
def plainSource : String := ".code\nloop:\nSync"

/-- The same with other line ends, a wide blank in front and blanks behind the label. -/
def respacedSource : String := "\u3000.code\r\nloop: \t\r\nSync"

theorem assemble_eq_of_respaced_respacedSource :
    assemble respacedSource = assemble plainSource ∧ ∃ p, assemble respacedSource = .ok p := by
  have returned : Respaced plainSource.toList ".code\r\nloop:\r\nSync".toList := by
    have ends : ".code\r\nloop:\r\nSync".toList = withReturns plainSource.toList := by
      decide +kernel
    rw [ends]
    exact .returns _
  have wide : Respaced ".code\r\nloop:\r\nSync".toList "\u3000.code\r\nloop:\r\nSync".toList := by
    have blank : "\u3000.code\r\nloop:\r\nSync".toList =
        [] ++ (['\u3000'] ++ ".code\r\nloop:\r\nSync".toList) := by decide +kernel
    rw [blank]
    exact .inFront _ (List.forall_mem_singleton.2 (by decide)) (.inl rfl)
  have label : Respaced "\u3000.code\r\nloop:\r\nSync".toList respacedSource.toList := by
    have cut : "\u3000.code\r\nloop:\r\nSync".toList =
        "\u3000.code\r\nloop:".toList ++ "\r\nSync".toList := by decide +kernel
    have blanks : respacedSource.toList =
        "\u3000.code\r\nloop:".toList ++ ([' ', '\t'] ++ "\r\nSync".toList) := by decide +kernel
    rw [cut, blanks]
    have spaces : ∀ c ∈ [' ', '\t'], c = ' ' ∨ c = '\t' ∨ c = '\x0c' ∨ c = '\r' :=
      List.forall_mem_cons.2 ⟨.inl rfl, List.forall_mem_singleton.2 (.inr (.inl rfl))⟩
    exact .behind _ spaces (.inr ⟨"Sync".toList, .inr (by decide +kernel)⟩)
  have same := assemble_eq_of_respaced (.head returned (.head wide (.single label)))
  obtain ⟨p, hp⟩ := (exists_ofLines_iff (Text.lines plainSource.toList)).2
    ⟨by decide +kernel, by decide +kernel, by decide +kernel⟩
  exact ⟨same, p, same.trans hp⟩

end Program

end Macc
