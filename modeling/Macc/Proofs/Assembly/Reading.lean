import Mathlib.Data.List.Forall2
import Macc.Assembly.Statement
import Macc.Proofs.Assembly.Summands
import Macc.Proofs.Text.Words

/-!
# Reading source lines

What a source line says when its words are known.  A line that begins with a word is read as that
word and the operands behind it (`Statement.ofLine_append`).  Operands between commas are read as
they were written, and so are words with any blanks between them (`Spaced`) where blanks separate
operands (`Statement.ofLine_spaced`).  An integer literal is an operand of one term, its value
(`Literal.ofOperand_of_value?`).
-/

namespace Macc

open Text

/-- What holds of everything that stands in a relation holds of all members of a related list. -/
theorem forall_mem_of_forall₂ {α β : Type} {R : α → β → Prop} {P : β → Prop} {xs : List α}
    {ys : List β} (h : List.Forall₂ R xs ys) (hp : ∀ x y, R x y → P y) : ∀ y ∈ ys, P y := by
  induction h with
  | nil => exact List.forall_mem_nil _
  | cons hr _ ih => exact List.forall_mem_cons.2 ⟨hp _ _ hr, ih⟩

/-! ### Operands -/

theorem splitOn_intercalate_commas (w : List Char) {ws : List (List Char)} (hw : ',' ∉ w)
    (hws : ∀ v ∈ ws, ',' ∉ v) :
    ([',', ' '].intercalate (w :: ws)).splitOn ',' = w :: ws.map (' ' :: ·) := by
  induction ws generalizing w with
  | nil => rw [List.intercalate_singleton, List.splitOn_eq_singleton hw, List.map_nil]
  | cons v ws ih =>
    rw [List.forall_mem_cons] at hws
    -- the space behind a comma begins the next piece
    have cut : [',', ' '].intercalate (w :: v :: ws) =
        w ++ ',' :: [',', ' '].intercalate ((' ' :: v) :: ws) := by
      rw [List.intercalate_cons_cons, List.intercalate_cons_cons_left, List.append_assoc]
      rfl
    rw [cut, List.splitOn_append_cons_self_of_not_mem hw, ih (' ' :: v) (by simp [hws.1]) hws.2,
      List.map_cons]

namespace Statement

/-- Operands with a comma and a space between them are read back. -/
theorem operandsOf_commas {ws : List (List Char)} (h : ∀ w ∈ ws, IsWord w)
    (comma : ∀ w ∈ ws, ',' ∉ w) : operandsOf false ([',', ' '].intercalate ws) = ws := by
  have unblank : ∀ w ∈ ws, w.filter (!isAsciiBlank ·) = w := fun w hw =>
    List.filter_eq_self.2 fun c hc => by rw [(h w hw).nonblank c hc, Bool.not_false]
  have filled := filter_ne_nil h
  cases ws with
  | nil => rfl
  | cons w ws =>
    rw [List.forall_mem_cons] at comma unblank
    have spaced : (ws.map (' ' :: ·)).map (List.filter (!isAsciiBlank ·)) = ws := by
      rw [List.map_map]
      exact (List.map_congr_left unblank.2).trans ws.map_id
    rw [operandsOf, if_neg (by decide), splitOn_intercalate_commas w comma.1 comma.2,
      List.map_cons, unblank.1, spaced, filled]

/-- Operands with gaps between them are read back. -/
theorem operandsOf_spaced {ws : List (List Char)} {text : List Char} (h : Spaced ws text)
    (hw : ∀ w ∈ ws, IsWord w) : operandsOf true text = ws := by
  rw [operandsOf, if_pos rfl, h.words_eq hw]

/-- One operand is read back in every section. -/
theorem operandsOf_word {w : List Char} (h : IsWord w) (comma : ',' ∉ w) (spaced : Bool) :
    operandsOf spaced w = [w] := by
  have words : ∀ v ∈ [w], IsWord v := by simpa using h
  cases spaced with
  | false => simpa using operandsOf_commas words (by simpa using comma)
  | true => exact operandsOf_spaced (.single w) words

/-! ### Lines -/

/-- The word begins no comment, and no blank at its front is passed over. -/
def Leads (head : List Char) : Prop :=
  ∀ c ∈ head.head?, isBlank c = false ∧ c ≠ '/' ∧ c ≠ '#'

theorem leads_of_isToken {head : List Char} (h : IsToken head) : Leads head := by
  intro c hc
  have mem := List.mem_of_head? hc
  refine ⟨isBlank_of_isAlphanum (h.isAlphanum c mem), ?_, ?_⟩
  · rintro rfl
    exact h.not_mem (by decide) mem
  · rintro rfl
    exact h.not_mem (by decide) mem

/-- A line that begins with a word. -/
theorem ofLine_append {head tail : List Char} (h : IsWord head) (leads : Leads head)
    (ht : ∀ c ∈ tail.head?, isAsciiBlank c) (current : Option SectionKind) :
    ofLine current (head ++ tail) =
      ofWords head
        (operandsOf (current == some .data || head.head? == some '.') (tail.drop 1)) := by
  obtain ⟨c, cs, rfl⟩ := List.exists_cons_of_ne_nil h.ne_nil
  obtain ⟨blank, slash, hash⟩ := leads c rfl
  have start : trimStart (c :: cs ++ tail) = c :: cs ++ tail :=
    List.dropWhile_cons_of_neg (by simp [blank])
  have statement : isBlankText (c :: cs ++ tail) = false := by
    simp [isBlankText, List.isPrefixOf, slash.symm, hash.symm]
  have nonblank : ∀ d ∈ c :: cs, (!isAsciiBlank d) = true := fun d hd => by
    rw [h.nonblank d hd, Bool.not_false]
  have behind : tail.dropWhile (!isAsciiBlank ·) = tail :=
    dropWhile_eq_self fun d hd => by rw [ht d hd, Bool.not_true]
  have cut : tail.takeWhile (!isAsciiBlank ·) = [] := by
    have whole := List.takeWhile_append_dropWhile (p := (!isAsciiBlank ·)) (l := tail)
    rwa [behind, List.append_left_eq_self] at whole
  simp only [ofLine, start, statement, List.takeWhile_append_of_pos nonblank,
    List.dropWhile_append_of_pos nonblank, cut, behind, List.append_nil]
  rfl

/-- A line of words in a data section, or one that begins with a dot, is cut at the gaps. -/
theorem ofLine_spaced {head text : List Char} {ws : List (List Char)}
    (h : Spaced (head :: ws) text) (hw : ∀ w ∈ head :: ws, IsWord w) (leads : Leads head)
    {current : Option SectionKind} (spaced : current = some .data ∨ head.head? = some '.') :
    ofLine current text = ofWords head ws := by
  have flag : (current == some .data || head.head? == some '.') = true := by
    rcases spaced with rfl | dot
    · rfl
    · rw [dot]
      exact Bool.or_true _
  rw [List.forall_mem_cons] at hw
  cases h with
  | single =>
    have line : ofLine current (head ++ []) = _ := ofLine_append hw.1 leads (by simp) current
    rw [List.append_nil, flag] at line
    exact line
  | @cons _ gap rest _ hg hrest =>
    obtain ⟨c, cs, rfl⟩ := List.exists_cons_of_ne_nil hg.ne_nil
    have blank : ∀ d ∈ cs, isAsciiBlank d := fun d hd => (hg.blank d (.tail c hd)).1
    have operands : operandsOf true (cs ++ rest) = ws := by
      rw [operandsOf, if_pos rfl, words_append_of_blank blank, hrest.words_eq hw.2]
    have blanks : ∀ d ∈ (c :: (cs ++ rest)).head?, isAsciiBlank d := by
      simpa using (hg.blank c (.head _)).1
    have line := ofLine_append hw.1 leads blanks current
    rwa [flag, List.drop_one, List.tail_cons, operands] at line

/-- The texts that a statement consists of. -/
def texts : Statement → List (List Char)
  | .blank => []
  | .symbol operands | .enter _ operands => operands
  | .unknownDirective name | .label name => [name]
  | .row head operands => head :: operands

theorem isWord_of_mem_operandsOf {spaced : Bool} {text w : List Char}
    (h : w ∈ operandsOf spaced text) : IsWord w := by
  unfold operandsOf at h
  split at h
  · obtain ⟨piece, filled⟩ := List.mem_filter.1 h
    exact ⟨of_decide_eq_true filled, forall_mem_splitOnP _ text w piece⟩
  · obtain ⟨piece, filled⟩ := List.mem_filter.1 h
    obtain ⟨part, -, rfl⟩ := List.mem_map.1 piece
    refine ⟨of_decide_eq_true filled, fun c hc => ?_⟩
    simpa using (List.mem_filter.1 hc).2

theorem isWord_of_mem_ofWords {head w : List Char} {operands : List (List Char)}
    (hh : IsWord head) (ho : ∀ v ∈ operands, IsWord v) (h : w ∈ (ofWords head operands).texts) :
    IsWord w := by
  unfold ofWords at h
  split at h
  · exact ho w h
  · split at h
    · exact ho w h
    · split at h
      · exact ho w h
      · split at h
        · exact List.mem_singleton.1 h ▸ hh
        · split at h
          next label =>
            obtain rfl := List.mem_singleton.1 h
            exact ⟨label.2.1, fun c hc => hh.nonblank c (List.dropLast_subset _ hc)⟩
          next =>
            rcases List.mem_cons.1 h with rfl | h
            · exact hh
            · exact ho w h

/-- Whatever a line says, it says it in words. -/
theorem isWord_of_mem_texts {current : Option SectionKind} {line w : List Char}
    (h : w ∈ (ofLine current line).texts) : IsWord w := by
  unfold ofLine at h
  dsimp only at h
  split at h
  · cases h
  next statement =>
    refine isWord_of_mem_ofWords ⟨?_, fun c hc => ?_⟩ (fun v hv => isWord_of_mem_operandsOf hv) h
    · cases text : trimStart line with
      | nil => simp [isBlankText, text] at statement
      | cons c cs =>
        have first : isBlank c = false := by
          have := List.head?_dropWhile_not isBlank line
          rw [← trimStart, text] at this
          simpa using this
        have nonblank : isAsciiBlank c = false := by
          refine Bool.eq_false_iff.2 fun hc => ?_
          rw [isBlank_of_isAsciiBlank hc] at first
          cases first
        simp [nonblank]
    · simpa using List.all_eq_true.1 List.all_takeWhile c hc

/-- What begins neither a directive nor ends a label is a row. -/
theorem ofWords_eq_row {head : List Char} (dot : head.head? ≠ some '.')
    (colon : head.getLast? ≠ some ':') (operands : List (List Char)) :
    ofWords head operands = .row head operands := by
  have directive {name : List Char} (hn : name.head? = some '.') : head ≠ name := by
    rintro rfl
    exact dot hn
  rw [ofWords, if_neg (directive rfl), if_neg (directive rfl), if_neg (directive rfl), if_neg dot,
    if_neg fun hl => colon hl.1]

theorem ofWords_of_isToken {head : List Char} (h : IsToken head) (operands : List (List Char)) :
    ofWords head operands = .row head operands := by
  refine ofWords_eq_row (fun hd => ?_) (fun hl => ?_) operands
  · exact h.not_mem (by decide) (List.mem_of_head? hd)
  · exact h.not_mem (by decide) (List.mem_of_getLast? hl)

/-- A line in a code section that begins with a token is a row. -/
theorem ofLine_of_isToken {head tail : List Char} (h : IsToken head)
    (ht : ∀ c ∈ tail.head?, isAsciiBlank c) :
    ofLine (some .code) (head ++ tail) = .row head (operandsOf false (tail.drop 1)) := by
  have dot : (head.head? == some '.') = false :=
    beq_eq_false_iff_ne.2 fun hd => h.not_mem (by decide) (List.mem_of_head? hd)
  rw [ofLine_append h.isWord (leads_of_isToken h) ht, ofWords_of_isToken h, dot]
  rfl

end Statement

/-! ### Terms -/

theorem isSign_of_isAlphanum {c : Char} (h : c.isAlphanum) : isSign c = false := by
  rw [isSign, Bool.or_eq_false_iff, beq_eq_false_iff_ne, beq_eq_false_iff_ne]
  constructor
  · rintro rfl
    exact absurd h (by decide)
  · rintro rfl
    exact absurd h (by decide)

theorem lastScaling?_of_isToken {text : List Char} (h : IsToken text) :
    lastScaling? text.reverse = none := by
  rw [lastScaling?]
  split
  next op c rest hd =>
    have mem : op ∈ text := by
      have : op ∈ text.reverse.dropWhile Char.isDigit := by simp [hd]
      exact List.mem_reverse.1 ((List.dropWhile_sublist _).subset this)
    refine if_neg ?_
    rintro (rfl | rfl)
    · exact h.not_mem (by decide) mem
    · exact h.not_mem (by decide) mem
  next => rfl

theorem unscale_of_isToken {text : List Char} (h : IsToken text) (factor divisor : Int64) :
    unscale factor divisor text.reverse = (text, factor, divisor) := by
  rw [unscale_of_eq_none (lastScaling?_of_isToken h), List.reverse_reverse]

/-! ### Literals -/

theorem isAlphanum_of_digitValue? {c : Char} {d : Nat} (h : digitValue? c = some d) :
    c.isAlphanum := by
  rw [isAlphanum_iff]
  simp only [digitValue?, char_le_iff] at h
  have z : '0'.toNat = 48 ∧ '9'.toNat = 57 ∧ 'a'.toNat = 97 ∧ 'z'.toNat = 122 ∧ 'A'.toNat = 65 ∧
      'Z'.toNat = 90 := by decide
  simp only [z] at h
  split at h
  · omega
  · split at h
    · omega
    · split at h
      · omega
      · cases h

theorem isAlphanum_of_readDigits? {radix n m : Nat} {text : List Char}
    (h : readDigits? radix n text = some m) : ∀ c ∈ text, c.isAlphanum := by
  induction text generalizing n with
  | nil => simp
  | cons c cs ih =>
    rw [readDigits?_cons] at h
    obtain ⟨d, hd, h⟩ := Option.bind_eq_some_iff.1 h
    exact List.forall_mem_cons.2
      ⟨isAlphanum_of_digitValue? (Option.filter_eq_some_iff.1 hd).1, ih h⟩

theorem isToken_of_readNat? {radix n : Nat} {text : List Char} (h : readNat? radix text = some n) :
    IsToken text := by
  unfold readNat? at h
  split at h
  · cases h
  next hn => exact ⟨hn, isAlphanum_of_readDigits? h⟩

namespace Literal

theorem isToken_of_magnitude? {text : List Char} {n : Nat} (h : magnitude? text = some n) :
    IsToken text := by
  have digits := isToken_of_readNat? (Option.filter_eq_some_iff.1 h).1
  unfold radixed at digits
  split at digits
  · exact (digits.cons (by decide)).cons (by decide)
  · exact (digits.cons (by decide)).cons (by decide)
  · exact digits.cons (by decide)
  · exact digits

/-- An integer literal is a magnitude with a sign or without. -/
theorem value?_cases {text : List Char} {v : Int} (h : value? text = some v) :
    ∃ body n, magnitude? body = some n ∧
      (text = '-' :: body ∧ v = -n ∨ (text = '+' :: body ∨ text = body) ∧ v = n) := by
  unfold value? at h
  split at h
  next body =>
    simp only [Option.map_eq_some_iff, Option.bind_eq_bind, Option.bind_eq_some_iff,
      Option.pure_def, Option.some.injEq] at h
    obtain ⟨-, ⟨n, hn, rfl⟩, rfl⟩ := h
    exact ⟨body, n, hn, .inl ⟨rfl, rfl⟩⟩
  next body =>
    obtain ⟨n, hn, rfl⟩ := Option.map_eq_some_iff.1 h
    exact ⟨body, n, hn, .inr ⟨.inl rfl, rfl⟩⟩
  next =>
    obtain ⟨n, hn, rfl⟩ := Option.map_eq_some_iff.1 h
    exact ⟨text, n, hn, .inr ⟨.inr rfl, rfl⟩⟩

theorem value?_of_magnitude? {text : List Char} {n : Nat} (h : magnitude? text = some n) :
    value? text = some (n : Int) := by
  have token := isToken_of_magnitude? h
  unfold value?
  split
  next => exact absurd (.head _) (token.not_mem (c := '-') (by decide))
  next => exact absurd (.head _) (token.not_mem (c := '+') (by decide))
  next => rw [h]; rfl

variable {text : List Char} {v : Int}

/-- The characters of an integer literal. -/
theorem forall_mem_of_value? (h : value? text = some v) :
    ∀ c ∈ text, c.isAlphanum ∨ c = '-' ∨ c = '+' := by
  obtain ⟨body, n, hn, cases⟩ := value?_cases h
  have token := (isToken_of_magnitude? hn).isAlphanum
  rcases cases with ⟨rfl, -⟩ | ⟨rfl | rfl, -⟩
  · simpa using fun c hc => .inl (token c hc)
  · simpa using fun c hc => .inl (token c hc)
  · exact fun c hc => .inl (token c hc)

theorem not_mem_of_value? (h : value? text = some v) {c : Char} (hc : ¬ c.isAlphanum)
    (minus : c ≠ '-') (plus : c ≠ '+') : c ∉ text := fun hm =>
  (forall_mem_of_value? h c hm).elim hc fun h => h.elim minus plus

theorem isWord_of_value? (h : value? text = some v) : IsWord text := by
  constructor
  · rintro rfl
    cases h
  · intro c hc
    rcases forall_mem_of_value? h c hc with ha | rfl | rfl
    · exact isAsciiBlank_of_isAlphanum ha
    · rfl
    · rfl

theorem isLine_of_value? (h : value? text = some v) : IsLine text := (isWord_of_value? h).isLine

theorem leads_of_value? (h : value? text = some v) : Statement.Leads text := by
  intro c hc
  rcases forall_mem_of_value? h c (List.mem_of_head? hc) with ha | rfl | rfl
  · refine ⟨isBlank_of_isAlphanum ha, ?_, ?_⟩
    · rintro rfl
      exact absurd ha (by decide)
    · rintro rfl
      exact absurd ha (by decide)
  · decide
  · decide

/-- An integer literal is one term, its value. -/
theorem ofOperand_of_value? (h : value? text = some v) :
    Term.ofOperand text = [.literal (.ofInt v)] := by
  obtain ⟨body, n, hn, cases⟩ := value?_cases h
  have token := isToken_of_magnitude? hn
  have unsigned : ∀ d ∈ body, isSign d = false := fun d hd =>
    isSign_of_isAlphanum (token.isAlphanum d hd)
  -- the sign becomes the factor
  have term {summand : List Char} {sign : Int64} (split : splitSign summand 1 = (body, sign)) :
      Term.ofSummand 1 1 summand = .literal (.ofInt n * sign) := by
    simp only [Term.ofSummand, Term.ofText, split, unscale_of_isToken token,
      value?_of_magnitude? hn]
  have alone (sign : Char) : summands (sign :: body) = [sign :: body] :=
    summands_eq_singleton unsigned
  rw [Term.ofOperand_eq]
  rcases cases with ⟨rfl, rfl⟩ | ⟨rfl | rfl, rfl⟩
  · rw [alone, List.map_singleton, term rfl, Int64.ofInt_neg, Int64.mul_neg, Int64.mul_one]
  · rw [alone, List.map_singleton, term rfl, Int64.mul_one]
  · rw [summands_eq_singleton fun d hd => unsigned d (List.mem_of_mem_tail hd),
      List.map_singleton, term (Term.splitSign_of_unsigned unsigned 1), Int64.mul_one]

/-- Texts that stand for given integers are integer literals. -/
theorem exists_value?_of_forall₂ {α : Type} {f : α → Int} {ws : List (List Char)} {xs : List α}
    (h : List.Forall₂ (fun w x => value? w = some (f x)) ws xs) :
    ∀ w ∈ ws, ∃ v, value? w = some v :=
  forall_mem_of_forall₂ h.flip fun _ _ hv => ⟨_, hv⟩

end Literal

end Macc
