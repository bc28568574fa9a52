/-
This file is about stores that keep their rows in the order of a comparer, and
about cursors over the rows between two bounds. A cursor stands on a row or on
none; it can be moved to the first and the last row, to the first row that is
not below a key, to the last row below a key, and to the next row.

A comparer need not order all keys. What is proved here is for rows and keys
that it compares as a map into some linear order does.
-/

import Mathlib.Data.List.Basic
import Mathlib.Data.List.TakeWhile
import Mathlib.Order.Lattice

namespace SeiChain.Library

open List

variable {Key Value Order : Type}

/-- Put a row, over the row with an equal key. -/
def putRow (compare : Key → Key → Ordering) (row : Key × Value) :
    List (Key × Value) → List (Key × Value)
  | [] => [row]
  | other :: rest =>
    match compare row.1 other.1 with
    | .lt => row :: other :: rest
    | .eq => row :: rest
    | .gt => other :: putRow compare row rest

variable (compare : Key → Key → Ordering)

/-- The value under a key. -/
def rowValue (rows : List (Key × Value)) (key : Key) : Option Value :=
  (rows.find? fun row => compare key row.1 = .eq).map Prod.snd

/-- A cursor. The row it stands on is the first of `position`. -/
structure Cursor (Key Value : Type) where
  compare : Key → Key → Ordering
  rows : List (Key × Value)
  position : List (Key × Value)

namespace Cursor

/-- A cursor over the rows from `lower` to below `upper`, not yet on a row. -/
def within (rows : List (Key × Value)) (lower : Key) (upper : Option Key) : Cursor Key Value where
  compare := compare
  rows := rows.filter fun row =>
    compare row.1 lower ≠ .lt ∧ ∀ bound ∈ upper, compare row.1 bound = .lt
  position := []

variable (cursor : Cursor Key Value)

def valid : Bool := !cursor.position.isEmpty

/-- The row the cursor stands on. -/
def current : Option (Key × Value) := cursor.position.head?

def first : Cursor Key Value :=
  { cursor with position := cursor.rows }

def last : Cursor Key Value :=
  { cursor with position := cursor.rows.drop (cursor.rows.length - 1) }

variable (key : Key)

/-- The rows below a key. -/
def below : List (Key × Value) := cursor.rows.takeWhile fun row => cursor.compare row.1 key = .lt

def seekGE : Cursor Key Value :=
  { cursor with position := cursor.rows.drop (cursor.below key).length }

def seekLT : Cursor Key Value :=
  { cursor with
    position :=
      if cursor.below key = [] then [] else cursor.rows.drop ((cursor.below key).length - 1) }

def next : Cursor Key Value :=
  { cursor with position := cursor.position.tail }

end Cursor

/-! ### Putting rows -/

variable [LinearOrder Order]

/-- On the keys of `domain` the comparer does what a map into a linear order does. -/
structure OrderedBy (compare : Key → Key → Ordering) (domain : Key → Prop)
    (place : Key → Order) : Prop where
  compare_eq : ∀ {first second}, domain first → domain second →
    compare first second = cmp (place first) (place second)
  injective : ∀ {first second}, domain first → domain second →
    place first = place second → first = second

section Put

variable {compare : Key → Key → Ordering} {domain : Key → Prop} {place : Key → Order}
  {rows : List (Key × Value)} {row other : Key × Value}

/-- Rows of the domain that stand in order. -/
structure Ordered (domain : Key → Prop) (place : Key → Order) (rows : List (Key × Value)) :
    Prop where
  domain : ∀ row ∈ rows, domain row.1
  sorted : rows.Pairwise fun first second => place first.1 < place second.1

theorem mem_of_mem_putRow (member : other ∈ putRow compare row rows) :
    other = row ∨ other ∈ rows := by
  induction rows with
  | nil => exact .inl (mem_singleton.mp member)
  | cons head rest ih =>
    rw [putRow] at member
    split at member
    · exact mem_cons.mp member
    · exact (mem_cons.mp member).imp_right (mem_cons_of_mem head)
    · rcases mem_cons.mp member with rfl | member
      · exact .inr mem_cons_self
      · exact (ih member).imp_right (mem_cons_of_mem head)

theorem Ordered.tail (ordered : Ordered domain place (row :: rows)) : Ordered domain place rows :=
  ⟨fun other member => ordered.domain other (mem_cons_of_mem row member),
    (pairwise_cons.mp ordered.sorted).2⟩

theorem Ordered.putRow (lawful : OrderedBy compare domain place)
    (ordered : Ordered domain place rows)
    (inDomain : domain row.1) : Ordered domain place (putRow compare row rows) := by
  refine ⟨fun other member => ?_, ?_⟩
  · rcases mem_of_mem_putRow member with rfl | member
    · exact inDomain
    · exact ordered.domain other member
  · induction rows with
    | nil => exact pairwise_singleton _ _
    | cons head rest ih =>
      obtain ⟨above, sorted⟩ := pairwise_cons.mp ordered.sorted
      have headInDomain := ordered.domain head mem_cons_self
      rw [Library.putRow]
      cases order : compare row.1 head.1 with
      | lt =>
        have less : place row.1 < place head.1 := by
          rwa [lawful.compare_eq inDomain headInDomain, cmp_eq_lt_iff] at order
        refine pairwise_cons.mpr ⟨fun other member => ?_, ordered.sorted⟩
        rcases mem_cons.mp member with rfl | member
        · exact less
        · exact less.trans (above other member)
      | eq =>
        have same : place row.1 = place head.1 := by
          rwa [lawful.compare_eq inDomain headInDomain, cmp_eq_eq_iff] at order
        exact pairwise_cons.mpr ⟨fun other member => same ▸ above other member, sorted⟩
      | gt =>
        have more : place head.1 < place row.1 := by
          rwa [lawful.compare_eq inDomain headInDomain, cmp_eq_gt_iff] at order
        refine pairwise_cons.mpr ⟨fun other member => ?_, ih ordered.tail⟩
        rcases mem_of_mem_putRow member with rfl | member
        · exact more
        · exact above other member

/-- The rows after a row is put: that row, and the rows with other keys. -/
theorem Ordered.mem_putRow (lawful : OrderedBy compare domain place)
    (ordered : Ordered domain place rows) (inDomain : domain row.1) :
    other ∈ Library.putRow compare row rows ↔ other = row ∨ other.1 ≠ row.1 ∧ other ∈ rows := by
  induction rows with
  | nil => simp [Library.putRow]
  | cons head rest ih =>
    obtain ⟨above, -⟩ := pairwise_cons.mp ordered.sorted
    have headInDomain := ordered.domain head mem_cons_self
    have distinct : ∀ other ∈ rest, place other.1 ≠ place head.1 := fun other member =>
      (above other member).ne'
    rw [Library.putRow]
    cases order : compare row.1 head.1 with
    | lt =>
      have less : place row.1 < place head.1 := by
        rwa [lawful.compare_eq inDomain headInDomain, cmp_eq_lt_iff] at order
      have notAmong : ∀ other ∈ head :: rest, other.1 ≠ row.1 := by
        intro other member same
        rcases mem_cons.mp member with rfl | member
        · exact less.ne' (congrArg place same)
        · exact (less.trans (above other member)).ne' (congrArg place same)
      rw [mem_cons]
      exact or_congr_right ⟨fun member => ⟨notAmong other member, member⟩, fun both => both.2⟩
    | eq =>
      have same : row.1 = head.1 := lawful.injective inDomain headInDomain
        (by rwa [lawful.compare_eq inDomain headInDomain, cmp_eq_eq_iff] at order)
      rw [mem_cons, mem_cons]
      refine or_congr_right ⟨fun member => ⟨fun sameKey => ?_, .inr member⟩, ?_⟩
      · exact distinct other member (by rw [sameKey, same])
      · rintro ⟨different, rfl | member⟩
        · exact absurd same.symm different
        · exact member
    | gt =>
      have more : place head.1 < place row.1 := by
        rwa [lawful.compare_eq inDomain headInDomain, cmp_eq_gt_iff] at order
      rw [mem_cons, mem_cons, ih ordered.tail]
      constructor
      · rintro (rfl | rfl | ⟨different, member⟩)
        · exact .inr ⟨fun same => more.ne (congrArg place same), .inl rfl⟩
        · exact .inl rfl
        · exact .inr ⟨different, .inr member⟩
      · rintro (rfl | ⟨different, rfl | member⟩)
        · exact .inr (.inl rfl)
        · exact .inl rfl
        · exact .inr (.inr ⟨different, member⟩)

end Put

/-! ### Moving a cursor -/

namespace Cursor

variable {cursor : Cursor Key Value} {key : Key} {Item : Type} {items : List Item}
  {toRow : Item → Key × Value} {place : Item → Order} {target : Order}

omit [LinearOrder Order] in
/-- The last row alone is left in front of a cursor that is moved there. -/
theorem position_last (rows_eq : cursor.rows = items.map toRow) :
    cursor.last.position = items.getLast?.toList.map toRow := by
  rcases eq_nil_or_concat' items with rfl | ⟨front, item, rfl⟩
  · simp [last, rows_eq]
  · simp [last, rows_eq]

section Seek

variable (rows_eq : cursor.rows = items.map toRow)
  (sorted : items.Pairwise fun first second => place first < place second)
  (compares : ∀ item ∈ items,
  cursor.compare (toRow item).1 key = .lt ↔ place item < target)

include rows_eq sorted compares

/-- The rows below a key come first. -/
theorem below_cut : ∃ under beyond, items = under ++ beyond ∧ cursor.below key = under.map toRow ∧
    (∀ item ∈ under, place item < target) ∧ ∀ item ∈ beyond, target ≤ place item := by
  let isBelow (item : Item) : Bool := cursor.compare (toRow item).1 key = .lt
  refine ⟨items.takeWhile isBelow, items.dropWhile isBelow,
    takeWhile_append_dropWhile.symm, ?_, fun item member => ?_, ?_⟩
  · rw [below, rows_eq, takeWhile_map]
    rfl
  · have chosen : isBelow item = true := mem_takeWhile_imp member
    exact (compares item (takeWhile_subset _ member)).mp (of_decide_eq_true chosen)
  · -- the first row that is not below the key is below all that follow
    have split : items = items.takeWhile isBelow ++ items.dropWhile isBelow :=
      takeWhile_append_dropWhile.symm
    have stops := head?_dropWhile_not isBelow items
    cases rest_eq : items.dropWhile isBelow with
    | nil => exact forall_mem_nil _
    | cons head =>
      rw [rest_eq] at split stops
      have headInItems : head ∈ items := by
        rw [split]
        simp
      have headAbove : target ≤ place head := not_lt.mp fun less =>
        of_decide_eq_false stops ((compares head headInItems).mpr less)
      rw [split, pairwise_append, pairwise_cons] at sorted
      refine forall_mem_cons.mpr ⟨headAbove, fun item member => ?_⟩
      exact headAbove.trans (sorted.2.1.1 item member).le

/-- Seeking the first row that is not below a key cuts the rows there. -/
theorem seekGE_cut : ∃ under beyond, items = under ++ beyond ∧
    (cursor.seekGE key).position = beyond.map toRow ∧
      (∀ item ∈ under, place item < target) ∧ ∀ item ∈ beyond, target ≤ place item := by
  obtain ⟨under, beyond, split, below_eq, isBelow, isAbove⟩ := below_cut rows_eq sorted compares
  refine ⟨under, beyond, split, ?_, isBelow, isAbove⟩
  rw [seekGE, below_eq, rows_eq, split]
  simp

/-- Seeking the last row below a key cuts the rows before it, if there is such a row. -/
theorem seekLT_cut :
    ((cursor.seekLT key).position = [] ∧ ∀ item ∈ items, target ≤ place item) ∨
      ∃ under item beyond, items = under ++ item :: beyond ∧
        (cursor.seekLT key).position = (item :: beyond).map toRow ∧
          (∀ other ∈ under ++ [item], place other < target) ∧
            ∀ other ∈ beyond, target ≤ place other := by
  obtain ⟨under, beyond, split, below_eq, isBelow, isAbove⟩ := below_cut rows_eq sorted compares
  rcases eq_nil_or_concat' under with rfl | ⟨under, item, rfl⟩
  · refine .inl ⟨if_pos below_eq, ?_⟩
    rwa [split]
  · refine .inr ⟨under, item, beyond, by simp [split], ?_, isBelow, isAbove⟩
    have position_eq : (cursor.seekLT key).position =
        cursor.rows.drop ((cursor.below key).length - 1) := if_neg (by simp [below_eq])
    rw [position_eq, below_eq, rows_eq, split]
    simp

end Seek

end Cursor

/-! ### Sorted lists with the same members -/

section Sorted

variable {Item : Type} {order : Item → Item → Prop} {first second : List Item}
  (antisymm : ∀ {item other}, order item other → order other item → item = other)
  (firstSorted : first.Pairwise order) (secondSorted : second.Pairwise order)
  (same : ∀ item, item ∈ first ↔ item ∈ second)

include antisymm firstSorted secondSorted same

theorem head?_eq_of_mem_iff : first.head? = second.head? := by
  rcases first with - | ⟨item, first⟩ <;> rcases second with - | ⟨other, second⟩
  · rfl
  · exact absurd ((same other).mpr mem_cons_self) not_mem_nil
  · exact absurd ((same item).mp mem_cons_self) not_mem_nil
  · rcases mem_cons.mp ((same item).mp mem_cons_self) with rfl | behind
    · rfl
    rcases mem_cons.mp ((same other).mpr mem_cons_self) with rfl | otherBehind
    · rfl
    exact congrArg some (antisymm ((pairwise_cons.mp firstSorted).1 other otherBehind)
      ((pairwise_cons.mp secondSorted).1 item behind))

theorem getLast?_eq_of_mem_iff : first.getLast? = second.getLast? := by
  rw [← head?_reverse, ← head?_reverse]
  exact head?_eq_of_mem_iff (fun one two => antisymm two one) (pairwise_reverse.mpr firstSorted)
    (pairwise_reverse.mpr secondSorted) (by simpa using same)

end Sorted

end SeiChain.Library
