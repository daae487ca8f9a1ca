import Mathlib.Tactic.SplitIfs
import Std.Data.TreeMap

/-! The order of texts is the order of their bytes in UTF-8: of two characters the lesser has the
lesser bytes, even though their numbers of bytes may differ. -/
namespace LoopStride

def utf8Bytes (s : String) : List UInt8 := s.toUTF8.data.toList

theorem utf8Bytes_eq_flatMap (s : String) :
    utf8Bytes s = s.toList.flatMap String.utf8EncodeChar := by
  rw [utf8Bytes, String.toUTF8_eq_toByteArray, ← String.utf8Encode_toList, List.utf8Encode,
    List.data_toByteArray]

theorem byte_cons_lt {m n : Nat} {r s : List UInt8} (hm : m < 256) (hn : n < 256) (hle : m ≤ n)
    (hrest : m = n → r < s) : UInt8.ofNat m :: r < UInt8.ofNat n :: s := by
  rw [List.cons_lt_cons_iff, UInt8.ofNat_lt_iff_lt hm hn]
  rcases Nat.lt_or_eq_of_le hle with hlt | rfl
  · exact .inl hlt
  · exact .inr ⟨rfl, hrest rfl⟩

/-- A lesser character has the lesser bytes, whatever comes behind them. -/
theorem utf8EncodeChar_append_lt {c d : Char} (h : c < d) (r s : List UInt8) :
    String.utf8EncodeChar c ++ r < String.utf8EncodeChar d ++ s := by
  have hlt : c.val.toNat < d.val.toNat := h
  have hd : d.val.toNat < 0x110000 := by
    have hvalid := d.valid
    simp only [UInt32.isValidChar, Nat.isValidChar] at hvalid
    omega
  simp only [String.utf8EncodeChar]
  -- where the numbers of bytes differ the first bytes do, and elsewhere some byte does at last
  split_ifs <;> (repeat refine byte_cons_lt (by omega) (by omega) (by omega) fun _ => ?_) <;> omega

theorem flatMap_utf8EncodeChar_lt {cs ds : List Char} (h : cs < ds) :
    cs.flatMap String.utf8EncodeChar < ds.flatMap String.utf8EncodeChar := by
  induction h with
  | @nil d ds =>
    have hne : (d :: ds).flatMap String.utf8EncodeChar ≠ [] := by simp
    exact List.not_le.mp fun hle => hne (List.le_nil.mp hle)
  | rel h => exact utf8EncodeChar_append_lt h _ _
  | cons _ ih => exact List.append_left_lt ih

theorem utf8Bytes_lt {s t : String} (h : s < t) : utf8Bytes s < utf8Bytes t := by
  rw [utf8Bytes_eq_flatMap, utf8Bytes_eq_flatMap]
  exact flatMap_utf8EncodeChar_lt (String.lt_iff.mp h)

/-- The keys of a map stand in the order of their bytes. -/
theorem keys_byteOrder {β : Type} (m : Std.TreeMap String β) :
    m.keys.Pairwise fun s t => utf8Bytes s < utf8Bytes t :=
  (Std.TreeMap.ordered_keys (t := m)).imp fun h => utf8Bytes_lt (compareOfLessAndEq_eq_lt.mp h)

end LoopStride
