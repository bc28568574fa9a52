/-
This file develops decimal numbers in ASCII: a number of a fixed width with leading
zeros, which compares as its digits do, and a number without them. Both are read
back by one parser.
-/

import SeiChain.Library.ByteOrder

namespace SeiChain.Library

open List

/-- The digit of a number below ten. -/
def decimalDigit (digit : Nat) : UInt8 := UInt8.ofNat (48 + digit)

/-- The `width` low decimal digits of a number, most significant first. -/
def decimalDigits : Nat → Nat → Bytes
  | 0, _ => []
  | width + 1, number => decimalDigits width (number / 10) ++ [decimalDigit (number % 10)]

/-- The digits of a number of at most `width` digits, without leading zeros. -/
def decimal (width number : Nat) : Bytes :=
  match (decimalDigits width number).dropWhile (· = decimalDigit 0) with
  | [] => [decimalDigit 0]
  | digits => digits

/-- Read one more digit. -/
def readDigit (value : Option Nat) (byte : UInt8) : Option Nat :=
  value.bind fun value =>
    if 48 ≤ byte.toNat ∧ byte.toNat ≤ 57 then some (10 * value + (byte.toNat - 48)) else none

/-- The number that decimal digits stand for; nothing if a byte is not a digit. -/
def parseDecimal (bytes : Bytes) : Option Nat := bytes.foldl readDigit (some 0)

theorem decimalDigit_toNat {digit : Nat} (small : digit < 10) :
    (decimalDigit digit).toNat = 48 + digit := by
  rw [decimalDigit, UInt8.toNat_ofNat']
  omega

theorem parseDecimal_append (bytes : Bytes) {digit : Nat} (small : digit < 10) :
    parseDecimal (bytes ++ [decimalDigit digit]) =
      (parseDecimal bytes).map fun value => 10 * value + digit := by
  have isDigit : 48 ≤ 48 + digit ∧ 48 + digit ≤ 57 := by omega
  rw [parseDecimal, foldl_append, foldl_cons, readDigit, parseDecimal, decimalDigit_toNat small]
  simp only [if_pos isDigit, Nat.add_sub_cancel_left]
  cases bytes.foldl readDigit (some 0) <;> rfl

theorem length_decimalDigits (width number : Nat) :
    (decimalDigits width number).length = width := by
  induction width generalizing number with
  | zero => rfl
  | succ width ih =>
    rw [decimalDigits, length_append, ih, length_singleton]

variable {width number first second : Nat}

theorem parseDecimal_decimalDigits (fits : number < 10 ^ width) :
    parseDecimal (decimalDigits width number) = some number := by
  induction width generalizing number with
  | zero =>
    rw [Nat.lt_one_iff.mp fits]
    rfl
  | succ width ih =>
    have front : number / 10 < 10 ^ width := Nat.div_lt_of_lt_mul (by rwa [← Nat.pow_succ'])
    rw [decimalDigits, parseDecimal_append _ (Nat.mod_lt _ (by decide)),
      ih front, Option.map_some, Nat.div_add_mod]

/-- Leading zeros do not change the number. -/
theorem parseDecimal_dropWhile (bytes : Bytes) :
    parseDecimal (bytes.dropWhile (· = decimalDigit 0)) = parseDecimal bytes := by
  induction bytes with
  | nil => rfl
  | cons byte rest ih =>
    by_cases zero : byte = decimalDigit 0
    · rw [dropWhile_cons_of_pos (by simpa using zero), ih, zero]
      rfl
    · rw [dropWhile_cons_of_neg (by simpa using zero)]

theorem parseDecimal_decimal (fits : number < 10 ^ width) :
    parseDecimal (decimal width number) = some number := by
  have whole := parseDecimal_dropWhile (decimalDigits width number)
  rw [parseDecimal_decimalDigits fits] at whole
  rw [decimal]
  split
  · rename_i empty
    rw [empty] at whole
    exact whole
  · exact whole

theorem length_decimal (positive : 0 < width) (number : Nat) :
    0 < (decimal width number).length ∧ (decimal width number).length ≤ width := by
  rw [decimal]
  split
  · exact ⟨one_pos, positive⟩
  · rename_i notEmpty
    refine ⟨length_pos_iff.mpr notEmpty, ?_⟩
    have dropped := (dropWhile_sublist (· = decimalDigit 0)
      (l := decimalDigits width number)).length_le
    rwa [length_decimalDigits] at dropped

/-! ### The order of numbers of one width -/

theorem decimalDigits_lt_decimalDigits (width : Nat) {small large : Nat}
    (fits : large < 10 ^ width) (less : small < large) :
    decimalDigits width small < decimalDigits width large := by
  induction width generalizing small large with
  | zero => omega
  | succ width ih =>
    rw [decimalDigits, decimalDigits]
    rcases lt_or_eq_of_le (Nat.div_le_div_right less.le) with
      lessFront | sameFront
    · refine append_lt_append_of_length_eq ?_ (ih ?_ lessFront)
      · rw [length_decimalDigits, length_decimalDigits]
      · rw [Nat.div_lt_iff_lt_mul (by decide)]
        exact fits
    · rw [sameFront, append_lt_append_left_iff]
      refine cons_lt_cons_iff.mpr (.inl ?_)
      rw [UInt8.lt_iff_toNat_lt, decimalDigit_toNat (Nat.mod_lt _ (by decide)),
        decimalDigit_toNat (Nat.mod_lt _ (by decide))]
      omega

theorem decimalDigits_lt_iff (fits : first < 10 ^ width) (alsoFits : second < 10 ^ width) :
    decimalDigits width first < decimalDigits width second ↔ first < second := by
  have increases : StrictMonoOn (decimalDigits width) {number | number < 10 ^ width} :=
    fun _ _ _ fits => decimalDigits_lt_decimalDigits width fits
  exact increases.lt_iff_lt fits alsoFits

theorem decimalDigits_inj (fits : first < 10 ^ width) (alsoFits : second < 10 ^ width)
    (same : decimalDigits width first = decimalDigits width second) : first = second := by
  have parsed := congrArg parseDecimal same
  rw [parseDecimal_decimalDigits fits, parseDecimal_decimalDigits alsoFits] at parsed
  exact Option.some.inj parsed

end SeiChain.Library
