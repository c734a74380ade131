/-
  Subject: `Content-Range` values: swift/common/swob.py, `content_range_header_value`;
           swift/common/utils.py, `parse_content_range`.
-/
import Mitaka.Swift.RangeHeader

namespace Mitaka.Swift

open Numeral

/-- `content_range_header_value`. -/
def contentRangeHeaderValue (start stop size : Int) : Str :=
  "bytes ".toList ++ (intStr start ++ '-' :: (intStr (stop - 1) ++ '/' :: intStr size))

/-- What `$` lets stand behind the last digit. -/
def dropNewline (s : Str) : Str := if s.getLast? = some '\n' then s.dropLast else s

/-- `parse_content_range`; `none` is the `ValueError`. -/
def parseContentRange (contentRange : Str) : Option (ℕ × ℕ × ℕ) :=
  if contentRange.take 6 = "bytes ".toList then
    match splitFirst '-' (contentRange.drop 6) with
    | (first, some rest) =>
      match splitFirst '/' rest with
      | (last, some size) => do
        return (← readNat 10 first, ← readNat 10 last, ← readNat 10 (dropNewline size))
      | _ => none
    | _ => none
  else none

theorem take_unit (r : Str) : ("bytes ".toList ++ r).take 6 = "bytes ".toList := rfl

theorem drop_unit (r : Str) : ("bytes ".toList ++ r).drop 6 = r := rfl

/-- **Printed and read back.** -/
theorem parseContentRange_headerValue (first last size : ℕ) :
    parseContentRange (contentRangeHeaderValue first (last + 1) size) = some (first, last, size) := by
  have hread : ∀ n : ℕ, readNat 10 (Nat.toDigits 10 n) = some n := fun n => readNat_toDigits (by decide) (by decide) n
  have hsep : ∀ (n : ℕ) {c : Char}, c ∈ ['+', '-', '.', '_', '/', '='] → c ∉ Nat.toDigits 10 n := fun n c hc =>
    separator_notMem_toDigits (by decide) (by decide) n hc
  have hlast : intStr ((last : Int) + 1 - 1) = Nat.toDigits 10 last := by
    rw [add_sub_cancel_right]
    rfl
  have hnewline : dropNewline (Nat.toDigits 10 size) = Nat.toDigits 10 size := by
    rw [dropNewline, if_neg]
    intro hget
    have hcode := toNat_of_mem_toDigits (List.mem_of_getLast? hget)
    exact absurd hcode (by decide)
  unfold contentRangeHeaderValue parseContentRange
  rw [hlast, take_unit, drop_unit, if_pos rfl]
  have hfirst : splitFirst '-' (intStr first ++ '-' :: (Nat.toDigits 10 last ++ '/' :: intStr size)) =
      (Nat.toDigits 10 first, some (Nat.toDigits 10 last ++ '/' :: Nat.toDigits 10 size)) :=
    splitFirst_append (hsep first (by simp)) _
  rw [hfirst]
  dsimp only
  rw [splitFirst_append (hsep last (by simp))]
  dsimp only
  rw [hread, hread, hnewline, hread]
  rfl

/-- The value for an empty range at the start of a content is not one. -/
theorem parseContentRange_empty (first : ℕ) (size : Int) :
    parseContentRange (contentRangeHeaderValue first 0 size) = none := by
  have hfirst : splitFirst '-' (intStr first ++ '-' :: (intStr (0 - 1) ++ '/' :: intStr size)) =
      (Nat.toDigits 10 first, some ('-' :: '1' :: '/' :: intStr size)) :=
    splitFirst_append (separator_notMem_toDigits (by decide) (by decide) first (by simp)) _
  have hlast : splitFirst '/' ('-' :: '1' :: '/' :: intStr size) = (['-', '1'], some (intStr size)) :=
    splitFirst_append (s := ['-', '1']) (by decide) _
  unfold contentRangeHeaderValue parseContentRange
  rw [take_unit, drop_unit, if_pos rfl, hfirst]
  dsimp only
  rw [hlast]
  have hsign : readNat 10 ['-', '1'] = none := by decide
  dsimp only
  rw [hsign]
  cases readNat 10 (Nat.toDigits 10 first) <;> rfl

end Mitaka.Swift
