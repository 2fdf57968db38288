import Mathlib.Data.List.DropRight
import Macc.Proofs.Image.SparseHex

/-!
# What sparse hex text lists

Whether a text can be read, and as which image, does not depend on its line numbers nor on how its
lines end, only on the items that it says (`HexItem.said`, `Image.ofHex_eq_ok_iff`).

What is listed where can be said without reading (`HexItem.Lists`): an address is that of the last
marker and one more for each byte behind it.  The image that a text describes has the bytes listed
last, and nothing else (`Image.describes_ofHex`).
-/

namespace Macc

open Text

/-! ### What a text says -/

namespace Text

theorem trim_dropReturn (line : List Char) : trim (dropReturn line) = trim line := by
  unfold dropReturn
  split
  next last =>
    obtain ⟨front, rfl⟩ := List.getLast?_eq_some_iff.1 last
    rw [List.dropLast_concat, trim_append_blank front (List.forall_mem_singleton.2 (by decide))]
  next => rfl

end Text

namespace HexItem

/-- The item without the number of its line. -/
def unnumbered : HexItem → HexItem
  | malformed _ text => malformed 0 text
  | item => item

theorem unnumbered_getD (item : Option HexItem) (number : Nat) (text : String)
    (h : ∀ i ∈ item, i.unnumbered = i) :
    (item.getD (.malformed number text)).unnumbered = item.getD (.malformed 0 text) := by
  cases item with
  | none => rfl
  | some i => exact h i rfl

theorem map_unnumbered_ofLine (number : Nat) (line : List Char) :
    (ofLine number line).map unnumbered = ofLine 0 line := by
  unfold ofLine
  dsimp only
  split
  · rw [List.map_singleton, unnumbered_getD]
    intro i hi
    obtain ⟨addr, -, rfl⟩ := Option.map_eq_some_iff.1 hi
    rfl
  · rw [List.map_map]
    refine List.map_congr_left fun w _ => unnumbered_getD _ _ _ fun i hi => ?_
    obtain ⟨v, -, rfl⟩ := Option.map_eq_some_iff.1 hi
    rfl

theorem ofLine_of_trim_eq_nil {line : List Char} (h : trim line = []) (number : Nat) :
    ofLine number line = [] := by
  rw [ofLine, h]
  rfl

theorem ofLine_dropReturn (number : Nat) (line : List Char) :
    ofLine number (dropReturn line) = ofLine number line := by
  rw [ofLine, trim_dropReturn, ofLine]

/-- What a text says, line numbers aside. -/
def said (text : String) : List HexItem := (ofText text.toList).map unnumbered

theorem said_eq_lines (text : String) :
    said text = (Text.lines text.toList).flatMap (ofLine 0) := by
  rw [said, ofText, List.map_flatMap]
  simp only [map_unnumbered_ofLine]
  rw [← List.flatMap_map Prod.fst (ofLine 0), List.zipIdx_map_fst]

/-- A carriage return in front of a line feed makes no difference. -/
theorem said_eq_pieces (text : String) :
    said text = (text.toList.splitOn '\n').flatMap (ofLine 0) := by
  obtain ⟨front, last, pieces, lines⟩ := exists_lines_eq text.toList
  have ended : (front.map dropReturn).flatMap (ofLine 0) = front.flatMap (ofLine 0) := by
    simp only [List.flatMap_map, ofLine_dropReturn]
  rw [said_eq_lines, lines, pieces, List.flatMap_append, List.flatMap_append, ended]
  split
  next hl =>
    subst hl
    rfl
  next => rfl

theorem said_append (front back : String) :
    said (front ++ "\n" ++ back) = said front ++ said back := by
  have cut : (front ++ "\n" ++ back).toList = front.toList ++ '\n' :: back.toList := by
    rw [String.toList_append, String.toList_append, List.append_assoc]
    rfl
  rw [said_eq_pieces, cut, splitOn_append_cons, List.flatMap_append, ← said_eq_pieces,
    ← said_eq_pieces]

theorem said_intercalate (texts : List String) :
    said ("\n".intercalate texts) = texts.flatMap said := by
  induction texts with
  | nil => rfl
  | cons text texts ih =>
    cases texts with
    | nil => rw [String.intercalate_singleton, List.flatMap_singleton]
    | cons next texts =>
      rw [String.intercalate_cons_cons, said_append, ih]
      rfl

end HexItem

namespace Image

/-- The image that items describe. -/
def ofItems (items : List HexItem) : Except ImageError Image :=
  (items.foldlM place (empty, 0)).map (·.1)

theorem foldlM_place_unnumbered (s t : Image × Nat) (items : List HexItem) :
    (items.map HexItem.unnumbered).foldlM place s = .ok t ↔ items.foldlM place s = .ok t := by
  induction items generalizing s with
  | nil => rfl
  | cons item items ih =>
    rw [List.map_cons, List.foldlM_cons, List.foldlM_cons]
    cases item with
    | malformed => exact iff_of_false nofun nofun
    | origin => exact ih _
    | byte v =>
      rw [show (HexItem.byte v).unnumbered = .byte v from rfl]
      cases place s (.byte v) with
      | error => exact iff_of_false nofun nofun
      | ok s => exact ih s

theorem map_fst_eq_ok_iff {r : Except ImageError (Image × Nat)} {m : Image} :
    r.map (·.1) = .ok m ↔ ∃ addr, r = .ok (m, addr) := by
  cases r with
  | error => exact iff_of_false nofun fun ⟨_, h⟩ => nomatch h
  | ok s =>
    constructor
    · intro h
      exact ⟨s.2, congrArg Except.ok (Prod.ext (Except.ok.inj h) rfl)⟩
    · rintro ⟨addr, h⟩
      rw [Except.ok.inj h]
      rfl

theorem ofHex_eq_ok_iff (text : String) (m : Image) :
    ofHex text = .ok m ↔ ofItems (HexItem.said text) = .ok m := by
  rw [ofHex, ofItems, map_fst_eq_ok_iff, map_fst_eq_ok_iff]
  simp only [HexItem.said, foldlM_place_unnumbered]

end Image

/-! ### Listed bytes -/

namespace HexItem

/-- The item is a byte. -/
def isByte : HexItem → Bool
  | byte _ => true
  | _ => false

/-- The address that an item says: that of a marker, else zero. -/
def start : HexItem → Nat
  | origin addr => addr
  | _ => 0

/-- The address of a byte behind the items: that of the last marker, or zero if there is none, and
one more for each byte behind it. -/
def addressBehind (items : List HexItem) : Nat :=
  ((items.rdropWhile isByte).getLast?.map start).getD 0 + (items.rtakeWhile isByte).length

theorem addressBehind_concat_byte (items : List HexItem) (v : Byte) :
    addressBehind (items ++ [byte v]) = addressBehind items + 1 := by
  rw [addressBehind, List.rdropWhile_concat_pos _ _ _ rfl, List.rtakeWhile_concat_pos _ _ _ rfl,
    List.length_append, List.length_singleton, ← Nat.add_assoc, ← addressBehind]

theorem addressBehind_concat_origin (items : List HexItem) (addr : Nat) :
    addressBehind (items ++ [origin addr]) = addr := by
  rw [addressBehind, List.rdropWhile_concat_neg _ _ _ Bool.false_ne_true,
    List.rtakeWhile_concat_neg _ _ _ Bool.false_ne_true, List.getLast?_concat]
  rfl

/-- The item at a position is a byte for an address. -/
def Lists (items : List HexItem) (k addr : Nat) (v : Byte) : Prop :=
  items[k]? = some (byte v) ∧ addressBehind (items.take k) = addr

variable {items : List HexItem} {item : HexItem} {k addr : Nat} {v : Byte}

theorem not_lists_nil : ¬ Lists [] k addr v := fun h => nomatch h.1

theorem Lists.lt_length (h : Lists items k addr v) : k < items.length :=
  (List.getElem?_eq_some_iff.1 h.1).1

theorem lists_concat_of_lt (h : k < items.length) :
    Lists (items ++ [item]) k addr v ↔ Lists items k addr v := by
  rw [Lists, Lists, List.getElem?_append_left h, List.take_append_of_le_length h.le]

theorem lists_concat_length :
    Lists (items ++ [item]) items.length addr v ↔ item = byte v ∧ addressBehind items = addr := by
  rw [Lists, List.getElem?_concat_length, List.take_left, Option.some_inj]

/-- Another item lists another byte at most. -/
theorem lists_concat_iff :
    Lists (items ++ [item]) k addr v ↔
      Lists items k addr v ∨ k = items.length ∧ item = byte v ∧ addressBehind items = addr := by
  constructor
  · intro h
    have bound := h.lt_length
    rw [List.length_append, List.length_singleton] at bound
    rcases Nat.lt_succ_iff_lt_or_eq.1 bound with hk | rfl
    · exact .inl ((lists_concat_of_lt hk).1 h)
    · exact .inr ⟨rfl, lists_concat_length.1 h⟩
  · rintro (h | ⟨rfl, h⟩)
    · exact (lists_concat_of_lt h.lt_length).2 h
    · exact lists_concat_length.2 h

/-- An item that is no byte lists none. -/
theorem lists_concat_of_isByte_eq_false (h : item.isByte = false) :
    Lists (items ++ [item]) k addr v ↔ Lists items k addr v := by
  rw [lists_concat_iff, or_iff_left]
  rintro ⟨-, rfl, -⟩
  cases h

/-- What items say about an image that they describe. -/
structure Describes (items : List HexItem) (m : Image) : Prop where
  /-- No address is listed that lies outside. -/
  inside : ∀ k addr v, Lists items k addr v → addr < memorySize
  isDefined_iff : ∀ x, m.isDefined x ↔ ∃ k v, Lists items k x.toNat v
  /-- The value that is listed last counts. -/
  byte : ∀ x k v, Lists items k x.toNat v → (∀ j w, Lists items j x.toNat w → j ≤ k) →
    m.byte x = v
  zeroElsewhere : m.ZeroElsewhere

theorem describes_nil : Describes [] .empty where
  inside k addr v h := absurd h not_lists_nil
  isDefined_iff x := by
    rw [Image.isDefined_empty]
    exact iff_of_false Bool.false_ne_true fun ⟨_, _, h⟩ => not_lists_nil h
  byte x k v h := absurd h not_lists_nil
  zeroElsewhere x _ := Image.byte_empty x

namespace Describes

variable {m : Image}

theorem concat (h : Describes items m) (hi : item.isByte = false) :
    Describes (items ++ [item]) m where
  inside k addr v hl := h.inside k addr v ((lists_concat_of_isByte_eq_false hi).1 hl)
  isDefined_iff x := by
    simp only [lists_concat_of_isByte_eq_false hi]
    exact h.isDefined_iff x
  byte x k v hl last := by
    simp only [lists_concat_of_isByte_eq_false hi] at hl last
    exact h.byte x k v hl last
  zeroElsewhere := h.zeroElsewhere

theorem concat_byte (h : Describes items m) (inside : addressBehind items < memorySize)
    (v : Byte) :
    Describes (items ++ [.byte v]) (m.setByte (.ofNat 17 (addressBehind items)) v) := by
  constructor
  case inside =>
    intro k addr w hl
    rcases lists_concat_iff.1 hl with hl | ⟨-, -, rfl⟩
    · exact h.inside k addr w hl
    · exact inside
  case isDefined_iff =>
    intro x
    rw [Image.isDefined_setByte, Image.eq_ofNat_iff inside, h.isDefined_iff]
    constructor
    · rintro (here | ⟨k, w, hl⟩)
      · exact ⟨_, v, lists_concat_length.2 ⟨rfl, here.symm⟩⟩
      · exact ⟨k, w, lists_concat_iff.2 (.inl hl)⟩
    · rintro ⟨k, w, hl⟩
      rcases lists_concat_iff.1 hl with hl | ⟨-, -, here⟩
      · exact .inr ⟨k, w, hl⟩
      · exact .inl here.symm
  case byte =>
    intro x k w hl last
    rw [Image.byte_setByte]
    by_cases here : x.toNat = addressBehind items
    · -- the new byte is listed for the address, so it is the last
      have new := last _ v (lists_concat_length.2 ⟨rfl, here.symm⟩)
      rw [if_pos ((Image.eq_ofNat_iff inside).2 here)]
      rcases lists_concat_iff.1 hl with hl | ⟨-, value, -⟩
      · exact absurd hl.lt_length (Nat.not_lt.2 new)
      · exact HexItem.byte.inj value
    · rw [if_neg fun e => here ((Image.eq_ofNat_iff inside).1 e)]
      rcases lists_concat_iff.1 hl with hl | ⟨-, -, there⟩
      · exact h.byte x k w hl fun j u hj => last j u (lists_concat_iff.2 (.inl hj))
      · exact absurd there.symm here
  case zeroElsewhere =>
    intro x hx
    rw [Bool.eq_false_iff, Ne, Image.isDefined_setByte, not_or] at hx
    rw [Image.byte_setByte, if_neg hx.1, h.zeroElsewhere x (Bool.eq_false_iff.2 hx.2)]

end Describes

end HexItem

namespace Image

open HexItem

/-- The image and the next address are what the items say. -/
structure Follows (items : List HexItem) (s : Image × Nat) : Prop where
  describes : Describes items s.1
  address : s.2 = addressBehind items

namespace Follows

variable {items : List HexItem} {s t : Image × Nat}

theorem place (h : Follows items s) {item : HexItem} (placed : Image.place s item = .ok t) :
    Follows (items ++ [item]) t := by
  cases item with
  | malformed => cases placed
  | origin addr =>
    obtain rfl := Except.ok.inj placed
    exact ⟨h.describes.concat rfl, (addressBehind_concat_origin items addr).symm⟩
  | byte v =>
    rw [Image.place, h.address] at placed
    split at placed
    · cases placed
    next inside =>
      obtain rfl := Except.ok.inj placed
      exact ⟨h.describes.concat_byte (Nat.not_le.1 inside) v,
        (addressBehind_concat_byte items v).symm⟩

theorem foldlM_place (h : Follows items s) {more : List HexItem}
    (placed : more.foldlM Image.place s = .ok t) : Follows (items ++ more) t := by
  induction more generalizing items s with
  | nil =>
    obtain rfl := Except.ok.inj placed
    rwa [List.append_nil]
  | cons item more ih =>
    rw [List.foldlM_cons] at placed
    rw [List.append_cons]
    cases step : Image.place s item with
    | error =>
      rw [step] at placed
      cases placed
    | ok u =>
      rw [step] at placed
      exact ih (h.place step) placed

end Follows

theorem describes_ofItems {items : List HexItem} {m : Image} (h : ofItems items = .ok m) :
    Describes items m := by
  obtain ⟨addr, placed⟩ := map_fst_eq_ok_iff.1 h
  have before : Follows [] (empty, 0) := ⟨describes_nil, rfl⟩
  exact (before.foldlM_place placed).describes

/-- A text describes the image with the bytes that it lists, each with the value listed last. -/
theorem describes_ofHex {text : String} {m : Image} (h : ofHex text = .ok m) :
    Describes (said text) m := describes_ofItems ((ofHex_eq_ok_iff text m).1 h)

end Image

end Macc
