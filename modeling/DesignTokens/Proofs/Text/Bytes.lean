import DesignTokens.Glob.Pattern
import Mathlib.Data.List.Basic

/-!
# Texts as bytes

Patterns are matched byte by byte, and paths are texts. The bytes of texts that are put behind each
other are those of the one and then those of the other (`bytes_append`), different texts have
different bytes (`bytes_inj`), and a slash among the bytes is a slash in the text
(`slash_mem_bytes_iff`), because the bytes of any other character are not that of a slash.
-/

namespace DesignTokens.Text

open Glob (slash)

/-- The bytes of a text. -/
def bytes (text : String) : List UInt8 :=
  text.toUTF8.toList

theorem toList_loop (array : ByteArray) (i : Nat) (read : List UInt8) :
    ByteArray.toList.loop array i read = read.reverse ++ array.data.toList.drop i := by
  fun_induction ByteArray.toList.loop array i read with
  | case1 i read hi ih =>
    have hlength : i < array.data.toList.length := by simpa using hi
    rw [ih, List.drop_eq_getElem_cons hlength]
    simp [ByteArray.get!, hi]
  | case2 i read hi =>
    rw [List.drop_eq_nil_of_le (by simpa using Nat.le_of_not_lt hi), List.append_nil]

theorem toList_eq (array : ByteArray) : array.toList = array.data.toList :=
  toList_loop array 0 []

theorem bytes_eq_data (text : String) : bytes text = text.toByteArray.data.toList :=
  toList_eq _

theorem bytes_eq_flatMap (text : String) :
    bytes text = text.toList.flatMap String.utf8EncodeChar := by
  rw [bytes_eq_data, ← String.ofList_toList (s := text), String.toByteArray_ofList,
    String.toList_ofList, List.utf8Encode, List.toList_data_toByteArray]

@[simp] theorem bytes_append (s t : String) : bytes (s ++ t) = bytes s ++ bytes t := by
  rw [bytes_eq_data, bytes_eq_data, bytes_eq_data, String.toByteArray_append,
    ByteArray.data_append, Array.toList_append]

theorem bytes_inj {s t : String} : bytes s = bytes t ↔ s = t := by
  rw [bytes_eq_data, bytes_eq_data, Array.toList_inj, ← ByteArray.ext_iff, String.toByteArray_inj]

@[simp] theorem bytes_empty : bytes "" = [] := by
  rw [bytes_eq_flatMap, String.toList_empty, List.flatMap_nil]

@[simp] theorem bytes_slash : bytes "/" = [slash] := by
  rw [bytes_eq_flatMap]
  decide

theorem slash_eq_ofNat_iff {n : Nat} (h : n < 256) : slash = UInt8.ofNat n ↔ n = 47 := by
  have hslash : slash.toNat = 47 := rfl
  rw [← UInt8.toNat_inj, hslash, UInt8.toNat_ofNat_of_lt' h]
  exact eq_comm

/-- A character whose bytes hold that of the slash is the slash: the bytes of characters beyond
ASCII are larger. -/
theorem slash_mem_utf8EncodeChar_iff {c : Char} : slash ∈ String.utf8EncodeChar c ↔ c = '/' := by
  have hchar : '/'.val.toNat = 47 := rfl
  rw [← Char.val_inj, ← UInt32.toNat_inj, hchar]
  unfold String.utf8EncodeChar
  dsimp only
  split_ifs with hone htwo hthree
  · rw [List.mem_singleton, slash_eq_ofNat_iff (by omega)]
  all_goals
    simp only [List.mem_cons, List.not_mem_nil, or_false]
    repeat rw [slash_eq_ofNat_iff (by omega)]
    omega

theorem slash_mem_bytes_iff {text : String} : slash ∈ bytes text ↔ '/' ∈ text.toList := by
  rw [bytes_eq_flatMap, List.mem_flatMap]
  simp [slash_mem_utf8EncodeChar_iff]

end DesignTokens.Text
