/-
This file is about the lexicographic order of byte strings: how it goes through
a common front, what a terminating zero byte does to it, which strings begin
with a given one, and that numbers of one width compare as their bytes do, most
significant first.
-/

import Mathlib.Data.List.Lex
import Mathlib.Data.Prod.Lex
import SeiChain.Library.Codes

namespace SeiChain.Library

open List UInt8

instance byteOrder : LinearOrder UInt8 where
  le_refl := UInt8.le_refl
  le_trans _ _ _ := UInt8.le_trans
  lt_iff_le_not_ge _ _ := by
    rw [le_iff_toNat_le, le_iff_toNat_le, lt_iff_toNat_lt]
    omega
  le_antisymm _ _ := UInt8.le_antisymm
  le_total := UInt8.le_total
  toDecidableLE := inferInstance
  toDecidableEq := inferInstance
  toDecidableLT := inferInstance
  min_def _ _ := rfl
  max_def _ _ := rfl
  compare_eq_compareOfLessAndEq _ _ := rfl

-- the order of the lists, with the decision procedures that the lists themselves have
instance : LinearOrder Bytes where
  __ := (List.instLinearOrder : LinearOrder Bytes).toPartialOrder
  le_total := le_total
  toDecidableLE := inferInstance
  toDecidableEq := inferInstance
  toDecidableLT := inferInstance
  compare first second := compareOfLessAndEq first second

/-! ### Pairs -/

theorem cmp_toLex {Major Minor : Type} [LinearOrder Major] [LinearOrder Minor]
    {first second : Major} {firstMinor secondMinor : Minor} :
    cmp (toLex (first, firstMinor)) (toLex (second, secondMinor)) =
      (cmp first second).then (cmp firstMinor secondMinor) := by
  rcases lt_trichotomy first second with less | rfl | more
  · rw [less.cmp_eq_lt, (Prod.Lex.toLex_lt_toLex.mpr (.inl less)).cmp_eq_lt]
    rfl
  · rw [cmp_self_eq_eq]
    change _ = cmp firstMinor secondMinor
    rcases lt_trichotomy firstMinor secondMinor with less | rfl | more
    · rw [less.cmp_eq_lt, cmp_eq_lt_iff, Prod.Lex.toLex_lt_toLex]
      exact .inr ⟨rfl, less⟩
    · rw [cmp_self_eq_eq, cmp_self_eq_eq]
    · rw [more.cmp_eq_gt, cmp_eq_gt_iff, Prod.Lex.toLex_lt_toLex]
      exact .inr ⟨rfl, more⟩
  · rw [more.cmp_eq_gt, (Prod.Lex.toLex_lt_toLex.mpr (.inl more)).cmp_eq_gt]
    rfl

variable {first second front rest : Bytes}

/-! ### Strings with a common front -/

theorem append_lt_append_left_iff (front : Bytes) :
    front ++ first < front ++ second ↔ first < second := by
  induction front with
  | nil => rfl
  | cons byte front ih =>
    simp [ih]

theorem append_le_append_left_iff (front : Bytes) :
    front ++ first ≤ front ++ second ↔ first ≤ second := by
  rw [← not_lt, ← not_lt, append_lt_append_left_iff]

theorem cmp_append_left (front : Bytes) :
    cmp (front ++ first) (front ++ second) = cmp first second :=
  StrictMono.cmp_map_eq (fun _ _ => (append_lt_append_left_iff front).mpr) first second

theorem nil_le (bytes : Bytes) : [] ≤ bytes := by
  rw [← not_lt]
  exact not_lt_nil bytes

theorem le_append (bytes rest : Bytes) : bytes ≤ bytes ++ rest := by
  have := (append_le_append_left_iff bytes).mpr (nil_le rest)
  rwa [append_nil] at this

theorem lt_append_cons (bytes : Bytes) (byte : UInt8) : bytes < bytes ++ byte :: rest := by
  have := (append_lt_append_left_iff bytes).mpr (nil_lt_cons byte rest)
  rwa [append_nil] at this

/-- Appending a zero byte gives the next string. -/
theorem append_zero_le (less : first < second) : first ++ [0] ≤ second := by
  induction first generalizing second with
  | nil =>
    cases second with
    | nil => exact absurd less (not_lt_nil _)
    | cons byte second =>
      rcases eq_or_ne byte 0 with rfl | notZero
      · exact le_append [0] second
      · exact (cons_lt_cons_iff.mpr (.inl (UInt8.pos_iff_ne_zero.mpr notZero))).le
  | cons byte first ih =>
    cases second with
    | nil => exact absurd less (not_lt_nil _)
    | cons other second =>
      rw [cons_lt_cons_iff] at less
      rcases less with less | ⟨rfl, less⟩
      · exact (cons_lt_cons_iff.mpr (.inl less)).le
      · exact (append_le_append_left_iff [byte]).mpr (ih less)

/-! ### Strings that begin with another -/

/-- The strings that begin with `front` and `byte` lie between that and the same with the next
byte. -/
theorem isPrefix_iff_between {byte : UInt8} (notLast : byte ≠ 255) :
    (front ++ [byte]) <+: second ↔ front ++ [byte] ≤ second ∧ second < front ++ [byte + 1] := by
  have next : byte < byte + 1 := by
    have : byte.toNat ≠ 255 := fun last => notLast (UInt8.toNat_inj.mp last)
    have := byte.toNat_lt
    rw [UInt8.lt_iff_toNat_lt, UInt8.toNat_add, UInt8.toNat_one]
    omega
  constructor
  · rintro ⟨-, rfl⟩
    refine ⟨le_append _ _, ?_⟩
    rw [append_assoc, append_lt_append_left_iff]
    exact cons_lt_cons_iff.mpr (.inl next)
  · rintro ⟨atLeast, below⟩
    induction front generalizing second with
    | nil =>
      cases second with
      | nil => exact absurd atLeast (not_le.mpr (nil_lt_cons _ _))
      | cons other second =>
        have notBelow : ¬ other < byte := fun less =>
          absurd atLeast (not_le.mpr (cons_lt_cons_iff.mpr (.inl less)))
        have notAbove : other < byte + 1 := by
          rcases cons_lt_cons_iff.mp below with less | ⟨-, less⟩
          · exact less
          · exact absurd less (not_lt_nil _)
        have same : byte = other := by
          rw [lt_iff_toNat_lt] at notBelow notAbove next
          rw [UInt8.toNat_add, UInt8.toNat_one] at notAbove next
          refine UInt8.toNat_inj.mp ?_
          omega
        exact same ▸ ⟨second, rfl⟩
    | cons head front ih =>
      cases second with
      | nil => exact absurd atLeast (not_le.mpr (nil_lt_cons _ _))
      | cons other second =>
        rcases cons_lt_cons_iff.mp below with less | ⟨rfl, belowRest⟩
        · exact absurd atLeast (not_le.mpr (cons_lt_cons_iff.mpr (.inl less)))
        · have atLeast : front ++ [byte] ≤ second :=
            (append_le_append_left_iff [other]).mp atLeast
          exact cons_prefix_cons.mpr ⟨rfl, ih atLeast belowRest⟩

/-! ### Strings with a terminating zero byte -/

/-- A string of one zero byte, or of more if the other one does not begin with it, comes before. -/
theorem zero_lt_append_zero {byte : UInt8} {otherRest : Bytes}
    (ends : rest = [] ∨ ¬ [0] <+: byte :: second) :
    [] ++ 0 :: rest < byte :: second ++ 0 :: otherRest := by
  rw [nil_append, cons_append, cons_lt_cons_iff]
  rcases eq_or_ne byte 0 with rfl | notZero
  · rcases ends with rfl | notExtended
    · exact .inr ⟨rfl, (nil_le second).trans_lt (lt_append_cons second 0)⟩
    · exact absurd ⟨second, rfl⟩ notExtended
  · exact .inl (UInt8.pos_iff_ne_zero.mpr notZero)

/-- Two different strings compare as before when a zero byte and more follow each of them,
unless the one goes on with a zero byte where the other ends and has more to follow. -/
theorem cmp_terminated {firstRest secondRest : Bytes} (different : first ≠ second)
    (firstEnds : firstRest = [] ∨ ¬ (first ++ [0]) <+: second)
    (secondEnds : secondRest = [] ∨ ¬ (second ++ [0]) <+: first) :
    cmp (first ++ 0 :: firstRest) (second ++ 0 :: secondRest) = cmp first second := by
  induction first generalizing second with
  | nil =>
    cases second with
    | nil => exact absurd rfl different
    | cons byte second =>
      rw [(nil_lt_cons byte second).cmp_eq_lt, (zero_lt_append_zero firstEnds).cmp_eq_lt]
  | cons byte first ih =>
    cases second with
    | nil =>
      rw [(nil_lt_cons byte first).cmp_eq_gt, (zero_lt_append_zero secondEnds).cmp_eq_gt]
    | cons other second =>
      rcases lt_trichotomy byte other with less | rfl | more
      · rw [(cons_lt_cons_iff.mpr (.inl less)).cmp_eq_lt, cmp_eq_lt_iff]
        exact cons_lt_cons_iff.mpr (.inl less)
      · have tails := ih (fun same => different (congrArg _ same))
          (firstEnds.imp_right fun notExtended extended =>
            notExtended (cons_prefix_cons.mpr ⟨rfl, extended⟩))
          (secondEnds.imp_right fun notExtended extended =>
            notExtended (cons_prefix_cons.mpr ⟨rfl, extended⟩))
        exact (cmp_append_left [byte]).trans (tails.trans (cmp_append_left [byte]).symm)
      · rw [(cons_lt_cons_iff.mpr (.inl more)).cmp_eq_gt, cmp_eq_gt_iff]
        exact cons_lt_cons_iff.mpr (.inl more)

/-! ### Numbers of one width -/

theorem append_lt_append_of_length_eq {firstRest secondRest : Bytes}
    (sameLength : first.length = second.length) (less : first < second) :
    first ++ firstRest < second ++ secondRest := by
  induction first generalizing second with
  | nil =>
    cases length_eq_zero_iff.mp sameLength.symm
    exact absurd less (not_lt_nil _)
  | cons byte first ih =>
    cases second with
    | nil => cases sameLength
    | cons other second =>
      rw [cons_append, cons_append, cons_lt_cons_iff]
      rcases cons_lt_cons_iff.mp less with less | ⟨same, less⟩
      · exact .inl less
      · exact .inr ⟨same, ih (Nat.succ.inj sameLength) less⟩

theorem cmp_append_right (sameLength : first.length = second.length) :
    cmp (first ++ rest) (second ++ rest) = cmp first second := by
  have increases : StrictMonoOn (· ++ rest) {bytes | bytes.length = second.length} :=
    fun _ same _ other => append_lt_append_of_length_eq (same.trans other.symm)
  exact increases.cmp_map_eq sameLength rfl

theorem bigEndian_lt_bigEndian (width : Nat) {small large : Nat} (fits : large < 256 ^ width)
    (less : small < large) : bigEndian width small < bigEndian width large := by
  induction width generalizing small large with
  | zero => omega
  | succ width ih =>
    have split : ∀ number, bigEndian (width + 1) number =
        bigEndian width (number / 256) ++ [ofNat (number % 256)] := fun number =>
      reverse_cons
    rw [split, split]
    rcases lt_or_eq_of_le (Nat.div_le_div_right less.le) with
      lessFront | sameFront
    · refine append_lt_append_of_length_eq (by simp) (ih ?_ lessFront)
      rw [Nat.div_lt_iff_lt_mul (by decide)]
      exact fits
    · rw [sameFront, append_lt_append_left_iff]
      refine cons_lt_cons_iff.mpr (.inl ?_)
      rw [lt_iff_toNat_lt, toNat_ofNat', toNat_ofNat']
      omega

theorem cmp_bigEndian (width : Nat) {number other : Nat} (fits : number < 256 ^ width)
    (otherFits : other < 256 ^ width) :
    cmp (bigEndian width number) (bigEndian width other) = cmp number other := by
  have increases : StrictMonoOn (bigEndian width) {number | number < 256 ^ width} :=
    fun _ _ _ fits => bigEndian_lt_bigEndian width fits
  exact increases.cmp_map_eq fits otherFits

end SeiChain.Library
