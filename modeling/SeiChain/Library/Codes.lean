/-
This file develops byte encodings. A natural number is cut into a given number
of bytes, least significant first or most significant first, and read back from
them; what does not fit is dropped, so the round trip is exact below `256 ^ width`.
A set of words is prefix free if a word can be told from what follows it. A string with
its length in front is such a word, and so are a number in groups of seven bits and a
number of fixed width. Words of a prefix free set can be told from their concatenation
if none of them is empty.
-/

import Mathlib.Data.Nat.ModEq
import Mathlib.Tactic.Ring

namespace SeiChain.Library

abbrev Bytes := List UInt8

instance lawfulBytes : LawfulBEq Bytes := inferInstance

/-- The `width` low bytes of `number`, least significant first. -/
def littleEndian : Nat → Nat → Bytes
  | 0, _ => []
  | width + 1, number => UInt8.ofNat (number % 256) :: littleEndian width (number / 256)

/-- The number whose bytes, least significant first, are the given ones. -/
def ofLittleEndian : Bytes → Nat
  | [] => 0
  | byte :: rest => byte.toNat + 256 * ofLittleEndian rest

/-- The `width` low bytes of `number`, most significant first. -/
def bigEndian (width number : Nat) : Bytes := (littleEndian width number).reverse

/-- The number whose bytes, most significant first, are the given ones. -/
def ofBigEndian (bytes : Bytes) : Nat := ofLittleEndian bytes.reverse

@[simp]
theorem length_littleEndian (width number : Nat) : (littleEndian width number).length = width := by
  induction width generalizing number with
  | zero => rfl
  | succ width ih => simp [littleEndian, ih]

@[simp]
theorem length_bigEndian (width number : Nat) : (bigEndian width number).length = width := by
  simp [bigEndian]

theorem ofLittleEndian_littleEndian (width number : Nat) (fits : number < 256 ^ width) :
    ofLittleEndian (littleEndian width number) = number := by
  induction width generalizing number with
  | zero =>
    have zero : number = 0 := by simpa using fits
    simp [littleEndian, ofLittleEndian, zero]
  | succ width ih =>
    have quotientFits : number / 256 < 256 ^ width := by
      rw [Nat.div_lt_iff_lt_mul (by decide)]
      exact fits
    have digit : (UInt8.ofNat (number % 256)).toNat = number % 256 := by
      exact Nat.mod_eq_of_lt (Nat.mod_lt _ (by decide))
    rw [littleEndian, ofLittleEndian, ih _ quotientFits, digit]
    exact Nat.mod_add_div number 256

theorem ofBigEndian_bigEndian (width number : Nat) (fits : number < 256 ^ width) :
    ofBigEndian (bigEndian width number) = number := by
  rw [ofBigEndian, bigEndian, List.reverse_reverse, ofLittleEndian_littleEndian width number fits]

/-! ### Prefix codes -/

open List UInt8

/-- A word at the front of a string is determined by the string. -/
def PrefixFree (words : Set Bytes) : Prop :=
  ∀ first ∈ words, ∀ second ∈ words, ∀ rest other, first ++ rest = second ++ other → first = second

/-- A number in groups of seven bits, the lowest first. All bytes but the last have the top
bit. -/
def varint (number : Nat) : Bytes :=
  if number < 128 then [ofNat number]
  else ofNat (number % 128 + 128) :: varint (number / 128)

/-- A string after its length. -/
def withLength (bytes : Bytes) : Bytes := varint bytes.length ++ bytes

variable {rest other : Bytes}

theorem byte_ofNat_inj {first second : Nat} (firstFits : first < 256)
    (secondFits : second < 256) (same : ofNat first = ofNat second) :
    first = second := by
  have numbers := congrArg toNat same
  rw [toNat_ofNat', toNat_ofNat'] at numbers
  omega

theorem varint_ne_nil (number : Nat) : varint number ≠ [] := by
  unfold varint
  split <;> exact cons_ne_nil _ _

theorem varint_append_inj {first second : Nat}
    (same : varint first ++ rest = varint second ++ other) : first = second ∧ rest = other := by
  induction first using Nat.strongRecOn generalizing second with
  | ind first ih =>
    rw [varint, varint.eq_def second] at same
    split at same <;> split at same <;> obtain ⟨head, tail⟩ := List.cons.inj same <;>
      have digit := byte_ofNat_inj (by omega) (by omega) head
    · exact ⟨digit, tail⟩
    · omega
    · omega
    · obtain ⟨quotient, same⟩ := ih (first / 128) (by omega) tail
      exact ⟨by omega, same⟩

theorem withLength_append_inj {first second : Bytes}
    (same : withLength first ++ rest = withLength second ++ other) :
    first = second ∧ rest = other := by
  rw [withLength, withLength, append_assoc, append_assoc] at same
  obtain ⟨sameLength, same⟩ := varint_append_inj same
  exact append_inj same sameLength

theorem littleEndian_inj {width first second : Nat} (firstFits : first < 256 ^ width)
    (secondFits : second < 256 ^ width)
    (same : littleEndian width first = littleEndian width second) : first = second := by
  rw [← ofLittleEndian_littleEndian width first firstFits, same,
    ofLittleEndian_littleEndian width second secondFits]

theorem PrefixFree.flatten_inj {words : Set Bytes} (free : PrefixFree words)
    (noEmpty : [] ∉ words) {first second : List Bytes} (firstWords : ∀ word ∈ first, word ∈ words)
    (secondWords : ∀ word ∈ second, word ∈ words) (same : first.flatten = second.flatten) :
    first = second := by
  induction first generalizing second with
  | nil =>
    cases second with
    | nil => rfl
    | cons word second =>
      have empty : word = [] := (append_eq_nil_iff.mp same.symm).1
      exact absurd (empty ▸ secondWords word mem_cons_self) noEmpty
  | cons word first ih =>
    cases second with
    | nil =>
      have empty : word = [] := (append_eq_nil_iff.mp same).1
      exact absurd (empty ▸ firstWords word mem_cons_self) noEmpty
    | cons otherWord second =>
      cases free word (firstWords word mem_cons_self) otherWord
        (secondWords otherWord mem_cons_self) _ _ same
      rw [ih (fun word later => firstWords word (mem_cons_of_mem _ later))
        (fun word later => secondWords word (.tail _ later))
        (append_cancel_left same)]

end SeiChain.Library
