import Mathlib.Data.List.Perm.Basic
import Macc.Proofs.Image.HexListing
import Macc.Proofs.Image.Overlay

/-!
# Sections of sparse hex text

A section says where it begins (`BeginsSection`), so what it describes does not depend on the text
in front of it: reading it puts its image on top of the one there is.  Therefore a text with a
section behind it describes the overlay of both images (`Image.ofHex_append_iff`), and sections can
change places if no two of them list the same address (`Image.ofHex_intercalate_perm`).
-/

namespace Macc

open Text

/-- No byte stands in front of the first marker. -/
def HexItem.Anchored (items : List HexItem) : Prop := ∀ item ∈ items.head?, item.isByte = false

/-- The first line that is not blank, if there is one, begins a section. -/
def BeginsSection (text : String) : Prop :=
  ∀ line ∈ ((Text.lines text.toList).map trim).find? (· ≠ []), line.head? = some '@'

instance (text : String) : Decidable (BeginsSection text) :=
  inferInstanceAs (Decidable (∀ line ∈ ((Text.lines text.toList).map trim).find? (· ≠ []),
    line.head? = some '@'))

theorem BeginsSection.anchored {text : String} (h : BeginsSection text) :
    HexItem.Anchored (HexItem.said text) := by
  rw [HexItem.said_eq_lines]
  rw [BeginsSection] at h
  generalize Text.lines text.toList = lines at h
  induction lines with
  | nil => exact fun item hi => by cases hi
  | cons line lines ih =>
    rw [List.map_cons] at h
    by_cases blank : trim line = []
    · rw [List.find?_cons_of_neg (by simpa using blank)] at h
      rw [List.flatMap_cons, HexItem.ofLine_of_trim_eq_nil blank]
      exact ih h
    · rw [List.find?_cons_of_pos (by simpa using blank)] at h
      intro item hi
      rw [List.flatMap_cons, HexItem.ofLine] at hi
      dsimp only at hi
      rw [if_pos (h _ rfl)] at hi
      obtain rfl := Option.some.inj hi
      cases readBounded? 16 UInt64.size (trim line).tail <;> rfl

namespace Image

/-! ### Placing on top -/

theorem overlay_empty (m : Image) : m.overlay empty = m :=
  ext_view (fun x => by rw [byte_overlay, isDefined_empty]; rfl)
    fun x => by rw [isDefined_overlay, isDefined_empty, Bool.false_or]

theorem setByte_overlay (m n : Image) (a : Address) (v : Byte) :
    (m.overlay n).setByte a v = m.overlay (n.setByte a v) := by
  refine ext_view (fun x => ?_) fun x => ?_
  · rw [byte_setByte, byte_overlay, byte_overlay, byte_setByte]
    by_cases hx : x = a <;> simp [isDefined_setByte, hx]
  · rw [Bool.eq_iff_iff, isDefined_setByte, isDefined_overlay, isDefined_overlay, Bool.or_eq_true,
      Bool.or_eq_true, isDefined_setByte, or_assoc]

/-- Which image is on top does not matter if no byte is defined in both. -/
theorem overlay_comm {m n : Image} (hm : m.ZeroElsewhere) (hn : n.ZeroElsewhere)
    (apart : ∀ x, ¬ (m.isDefined x ∧ n.isDefined x)) : m.overlay n = n.overlay m := by
  refine ext_view (fun x => ?_) fun x => ?_
  · rw [byte_overlay, byte_overlay]
    by_cases hx : m.isDefined x
    · rw [if_pos hx, if_neg fun h => apart x ⟨hx, h⟩]
    · rw [if_neg hx, hm x (Bool.eq_false_iff.2 hx)]
      split
      next => rfl
      next h => exact (hn x (Bool.eq_false_iff.2 h)).symm
  · rw [isDefined_overlay, isDefined_overlay, Bool.or_comm]

/-- The image and the next address, with `m` below the image. -/
def above (m : Image) (s : Image × Nat) : Image × Nat := (m.overlay s.1, s.2)

theorem place_above (m : Image) (s : Image × Nat) (item : HexItem) :
    place (m.above s) item = (place s item).map m.above := by
  cases item with
  | origin => rfl
  | malformed => rfl
  | byte v =>
    rw [above, place, place]
    split
    next => rfl
    next => rw [setByte_overlay]; rfl

/-- What lies below has no influence. -/
theorem foldlM_place_above (m : Image) (s : Image × Nat) (items : List HexItem) :
    items.foldlM place (m.above s) = (items.foldlM place s).map m.above := by
  induction items generalizing s with
  | nil => rfl
  | cons item items ih =>
    rw [List.foldlM_cons, List.foldlM_cons, place_above]
    cases place s item with
    | error => rfl
    | ok t => exact ih t

/-! ### Sections behind items -/

/-- Where the items in front of a section end does not matter for the section. -/
theorem map_fst_foldlM_place {items : List HexItem} (h : HexItem.Anchored items) (m : Image)
    (addr : Nat) :
    (items.foldlM place (m, addr)).map (·.1) = (items.foldlM place (m, 0)).map (·.1) := by
  cases items with
  | nil => rfl
  | cons item items =>
    cases item with
    | origin => rfl
    | malformed => rfl
    | byte v => cases h _ rfl

/-- A section is read as an image on top of the one in front of it. -/
theorem ofItems_append (front : List HexItem) {back : List HexItem} (h : HexItem.Anchored back) :
    ofItems (front ++ back) = (ofItems front).bind fun m => (ofItems back).map m.overlay := by
  rw [ofItems, List.foldlM_append, ofItems]
  cases front.foldlM place (empty, 0) with
  | error => rfl
  | ok s =>
    have below : (s.1, 0) = s.1.above (empty, 0) := by rw [above, overlay_empty]
    calc (back.foldlM place s).map (·.1)
        = (back.foldlM place (s.1.above (empty, 0))).map (·.1) := by
          rw [← below, ← map_fst_foldlM_place h s.1 s.2]
      _ = (ofItems back).map s.1.overlay := by
          rw [foldlM_place_above, ofItems]
          cases back.foldlM place (empty, 0) <;> rfl

theorem ofItems_append_eq_ok_iff (front : List HexItem) {back : List HexItem}
    (h : HexItem.Anchored back) (r : Image) :
    ofItems (front ++ back) = .ok r ↔
      ∃ m n, ofItems front = .ok m ∧ ofItems back = .ok n ∧ r = m.overlay n := by
  rw [ofItems_append front h]
  cases ofItems front with
  | error => exact iff_of_false nofun fun ⟨_, _, h, _⟩ => nomatch h
  | ok m =>
    cases ofItems back with
    | error => exact iff_of_false nofun fun ⟨_, _, _, h, _⟩ => nomatch h
    | ok n =>
      constructor
      · intro h
        exact ⟨m, n, rfl, rfl, (Except.ok.inj h).symm⟩
      · rintro ⟨_, _, hm, hn, rfl⟩
        rw [← Except.ok.inj hm, ← Except.ok.inj hn]
        rfl

/-- A text with a section behind it describes the overlay of both images. -/
theorem ofHex_append_iff (front : String) {back : String} (h : BeginsSection back) (r : Image) :
    ofHex (front ++ "\n" ++ back) = .ok r ↔
      ∃ m n, ofHex front = .ok m ∧ ofHex back = .ok n ∧ r = m.overlay n := by
  simp only [ofHex_eq_ok_iff, HexItem.said_append, ofItems_append_eq_ok_iff _ h.anchored]

/-! ### Changing places -/

/-- No address is listed in both texts. -/
def ListApart (s t : String) : Prop :=
  ∀ m n, ofHex s = .ok m → ofHex t = .ok n → ∀ x, ¬ (m.isDefined x ∧ n.isDefined x)

theorem ListApart.symm {s t : String} (h : ListApart s t) : ListApart t s :=
  fun m n hm hn x hx => h n m hn hm x hx.symm

theorem anchored_flatMap_said {texts : List String} (h : ∀ s ∈ texts, BeginsSection s) :
    HexItem.Anchored (texts.flatMap HexItem.said) := by
  induction texts with
  | nil => exact fun item hi => by cases hi
  | cons s texts ih =>
    rw [List.forall_mem_cons] at h
    intro item hi
    rw [List.flatMap_cons, List.head?_append, Option.mem_def, Option.or_eq_some_iff] at hi
    rcases hi with hi | ⟨-, hi⟩
    · exact h.1.anchored item hi
    · exact ih h.2 item hi

/-- Two sections in front of a text can change places. -/
theorem ofItems_swap {s t : String} (hs : BeginsSection s) (ht : BeginsSection t)
    (apart : ListApart s t) {items : List HexItem} (h : HexItem.Anchored items) {r : Image}
    (read : ofItems (HexItem.said s ++ (HexItem.said t ++ items)) = .ok r) :
    ofItems (HexItem.said t ++ (HexItem.said s ++ items)) = .ok r := by
  rw [← List.append_assoc, ofItems_append_eq_ok_iff _ h] at read ⊢
  obtain ⟨both, k, hb, hk, rfl⟩ := read
  rw [ofItems_append_eq_ok_iff _ ht.anchored] at hb
  obtain ⟨m, n, hm, hn, rfl⟩ := hb
  have comm : m.overlay n = n.overlay m :=
    overlay_comm (describes_ofItems hm).zeroElsewhere (describes_ofItems hn).zeroElsewhere
      (apart m n ((ofHex_eq_ok_iff s m).2 hm) ((ofHex_eq_ok_iff t n).2 hn))
  refine ⟨n.overlay m, k, ?_, hk, by rw [comm]⟩
  rw [ofItems_append_eq_ok_iff _ hs.anchored]
  exact ⟨n, m, hn, hm, rfl⟩

theorem ofItems_perm {ss ts : List String} (perm : ss.Perm ts)
    (sections : ∀ s ∈ ss, BeginsSection s) (apart : ss.Pairwise ListApart) {r : Image}
    (read : ofItems (ss.flatMap HexItem.said) = .ok r) :
    ofItems (ts.flatMap HexItem.said) = .ok r := by
  induction perm generalizing r with
  | nil => exact read
  | @cons s ss ts perm ih =>
    rw [List.forall_mem_cons] at sections
    rw [List.pairwise_cons] at apart
    have moved : ∀ t ∈ ts, BeginsSection t := fun t ht => sections.2 t (perm.mem_iff.2 ht)
    rw [List.flatMap_cons, ofItems_append_eq_ok_iff _ (anchored_flatMap_said sections.2)] at read
    obtain ⟨m, n, hm, hn, rfl⟩ := read
    rw [List.flatMap_cons, ofItems_append_eq_ok_iff _ (anchored_flatMap_said moved)]
    exact ⟨m, n, hm, ih sections.2 apart.2 hn, rfl⟩
  | swap t s ss =>
    rw [List.forall_mem_cons, List.forall_mem_cons] at sections
    exact ofItems_swap sections.1 sections.2.1
      ((List.pairwise_cons.1 apart).1 t (.head _)) (anchored_flatMap_said sections.2.2) read
  | @trans ss ts us first second ih ih' =>
    refine ih' (fun t ht => sections t (first.mem_iff.2 ht)) ?_ (ih sections apart read)
    exact (first.pairwise_iff ListApart.symm).1 apart

/-- Sections that list no address in common can change places. -/
theorem ofHex_intercalate_perm {ss ts : List String} (perm : ss.Perm ts)
    (sections : ∀ s ∈ ss, BeginsSection s) (apart : ss.Pairwise ListApart) (r : Image) :
    ofHex ("\n".intercalate ss) = .ok r ↔ ofHex ("\n".intercalate ts) = .ok r := by
  rw [ofHex_eq_ok_iff, ofHex_eq_ok_iff, HexItem.said_intercalate, HexItem.said_intercalate]
  constructor
  · exact ofItems_perm perm sections apart
  · exact ofItems_perm perm.symm (fun t ht => sections t (perm.mem_iff.2 ht))
      ((perm.pairwise_iff ListApart.symm).1 apart)

/-! ### The law of sections -/

/-- A section behind a text puts its image on top of the image of the text, sections that list no
address in common can change places, and an image that is read has the bytes that are listed, each
with the value listed last. -/
theorem ofHex_sections :
    (∀ front back r, BeginsSection back →
      (ofHex (front ++ "\n" ++ back) = .ok r ↔
        ∃ m n, ofHex front = .ok m ∧ ofHex back = .ok n ∧ r = m.overlay n)) ∧
    (∀ ss ts : List String, ss.Perm ts → (∀ s ∈ ss, BeginsSection s) → ss.Pairwise ListApart →
      ∀ r, ofHex ("\n".intercalate ss) = .ok r ↔ ofHex ("\n".intercalate ts) = .ok r) ∧
    ∀ text m, ofHex text = .ok m → HexItem.Describes (HexItem.said text) m :=
  ⟨fun front _ r h => ofHex_append_iff front h r,
    fun _ _ perm sections apart r => ofHex_intercalate_perm perm sections apart r,
    fun _ _ h => describes_ofHex h⟩

/-- Two bytes behind a marker, on lines that end with carriage returns. -/
def lowSection : String := "@10\r\n0a 0B\r\n"

/-- A section behind a blank line and a wide blank, with the second byte of `lowSection`. -/
def overlappingSection : String := "\n\u3000@11\nff +1 \n"

/-- Two sections without bytes of `lowSection`, the second up to the end of memory. -/
def highSections : String := "  @20\n7\n@1ffff\nc"

theorem ofHex_sections_lowSection :
    (∃ r, ofHex (lowSection ++ "\n" ++ overlappingSection) = .ok r ∧
      r.byte (.ofNat 17 0x11) = 0xff ∧ r.byte (.ofNat 17 0x10) = 0x0a) ∧
    (∃ r, ofHex ("\n".intercalate [lowSection, highSections]) = .ok r ∧
      ofHex ("\n".intercalate [highSections, lowSection]) = .ok r) ∧
    ∃ m, ofHex lowSection = .ok m ∧ HexItem.Describes (HexItem.said lowSection) m := by
  obtain ⟨append, perm, describes⟩ := ofHex_sections
  have low : ofHex lowSection =
      .ok ((empty.setByte (.ofNat 17 0x10) 0x0a).setByte (.ofNat 17 0x11) 0x0b) := by
    have items : HexItem.said lowSection = [.origin 0x10, .byte 0x0a, .byte 0x0b] := by
      decide +kernel
    rw [ofHex_eq_ok_iff, items]
    rfl
  have overlapping : ofHex overlappingSection =
      .ok ((empty.setByte (.ofNat 17 0x11) 0xff).setByte (.ofNat 17 0x12) 1) := by
    have items : HexItem.said overlappingSection = [.origin 0x11, .byte 0xff, .byte 1] := by
      decide +kernel
    rw [ofHex_eq_ok_iff, items]
    rfl
  have high : ofHex highSections =
      .ok ((empty.setByte (.ofNat 17 0x20) 7).setByte (.ofNat 17 0x1ffff) 0xc) := by
    have items : HexItem.said highSections =
        [.origin 0x20, .byte 7, .origin 0x1ffff, .byte 0xc] := by
      decide +kernel
    rw [ofHex_eq_ok_iff, items]
    rfl
  refine ⟨⟨_, (append _ _ _ (by decide +kernel)).2 ⟨_, _, low, overlapping, rfl⟩, ?_, ?_⟩, ?_,
    _, low, describes _ _ low⟩
  · simp [byte_overlay, isDefined_setByte, byte_setByte]
  · simp [byte_overlay, isDefined_setByte, byte_setByte, isDefined_empty]
  · have apart : ListApart lowSection highSections := by
      intro m n hm hn x ⟨hx, hx'⟩
      rw [← Except.ok.inj (low.symm.trans hm)] at hx
      rw [← Except.ok.inj (high.symm.trans hn)] at hx'
      simp only [isDefined_setByte, isDefined_empty, Bool.false_eq_true, or_false] at hx hx'
      rcases hx with rfl | rfl <;> exact absurd hx' (by decide)
    have read := (append _ _ _ (by decide +kernel)).2 ⟨_, _, low, high, rfl⟩
    have moved := perm [lowSection, highSections] [highSections, lowSection] (.swap ..)
      (by decide +kernel) (List.pairwise_pair.2 apart)
    rw [String.intercalate_cons_cons, String.intercalate_singleton] at moved
    exact ⟨_, read, (moved _).1 read⟩

end Image

end Macc
