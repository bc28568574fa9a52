/-
This file models `MarshalCanonical` and proves that it is injective. The message types
are those the plugin admits: every field is repeated or has explicit presence, and maps,
floats, groups and extensions cannot be written down. A message is encoded field by
field in the order of the numbers, and a list of scalars is packed if it has more than
one element. The bytes can be read back: each field starts with its number, the wire
type tells a packed list from an element, and every value shows where it ends.
-/

import Mathlib.Data.BitVec
import SeiChain.Library.Codes

namespace SeiChain.Hashable

open Library
open List hiding get

variable {Name : Type}

/-! ### Kinds of fields -/

/-- The kinds that can be packed. -/
inductive Scalar where
  | bool | enum | int32 | int64 | sint32 | sint64 | uint32 | uint64
  | fixed32 | fixed64 | sfixed32 | sfixed64

inductive Kind (Name : Type) where
  | scalar (scalar : Scalar)
  | bytes
  | string
  | message (name : Name)

inductive WireType where
  | varint | fixed64 | bytes | fixed32
  deriving DecidableEq

def WireType.number : WireType → Nat
  | .varint => 0
  | .fixed64 => 1
  | .bytes => 2
  | .fixed32 => 5

/-- The wire type that `Singular` puts into the tag. -/
def Scalar.wireType : Scalar → WireType
  | .bool | .enum | .int32 | .int64 | .sint32 | .sint64 | .uint32 | .uint64 => .varint
  | .fixed32 | .sfixed32 => .fixed32
  | .fixed64 | .sfixed64 => .fixed64

namespace Kind

def wireType : Kind Name → WireType
  | .scalar packable => packable.wireType
  | .bytes | .string | .message _ => .bytes

def isPackable : Kind Name → Bool
  | .scalar _ => true
  | .bytes | .string | .message _ => false

end Kind

structure Field (Name : Type) where
  number : Nat
  kind : Kind Name
  isList : Bool

/-- The hashable message types by name, each with its fields in the order of the declaration. -/
structure Schema (Name : Type) where
  fields : Name → List (Field Name)
  distinct : ∀ name, ((fields name).map Field.number).Nodup

inductive TimeoutMessage where
  | view
  | timeoutVote

/-- The messages that a timeout vote consists of. -/
def timeoutSchema : Schema TimeoutMessage where
  fields
    | .view => [1, 2, 3].map fun number => { number, kind := .scalar .uint64, isList := false }
    | .timeoutVote =>
      [{ number := 1, kind := .message .view, isList := false },
        { number := 2, kind := .scalar .uint64, isList := false }]
  distinct name := by cases name <;> decide

example : (timeoutSchema.fields .timeoutVote).map Field.number = [1, 2] := rfl

/-! ### Values -/

/-- The Go type of a scalar; signed numbers are in two's complement. -/
def Scalar.Value : Scalar → Type
  | .bool => Bool
  | .enum | .int32 | .sint32 | .uint32 | .fixed32 | .sfixed32 => BitVec 32
  | .int64 | .sint64 | .uint64 | .fixed64 | .sfixed64 => BitVec 64

mutual

/-- The values of a kind. A message has for each field of its type what the field holds. -/
inductive Value (schema : Schema Name) : Kind Name → Type
  | scalar {scalar : Scalar} (value : scalar.Value) : Value schema (.scalar scalar)
  | bytes (value : Bytes) : Value schema .bytes
  | string (value : Bytes) : Value schema .string
  | message {name : Name} (get : (field : {field // field ∈ schema.fields name}) →
      Content schema field.1.kind field.1.isList) : Value schema (.message name)

/-- What a field holds: nothing or a value, or the elements of a list. -/
inductive Content (schema : Schema Name) : Kind Name → Bool → Type
  | absent {kind : Kind Name} : Content schema kind false
  | present {kind : Kind Name} (value : Value schema kind) : Content schema kind false
  | nil {kind : Kind Name} : Content schema kind true
  | cons {kind : Kind Name} (value : Value schema kind) (rest : Content schema kind true) :
    Content schema kind true

end

/-! ### The encoding -/

def encodeZigZag (value : BitVec 64) : BitVec 64 := value <<< 1 ^^^ value.sshiftRight 63

/-- The unsigned number that is written for a scalar. -/
def Scalar.bits : (scalar : Scalar) → scalar.Value → Nat
  | .bool, value => Bool.toNat value
  | .enum, value => (BitVec.signExtend 64 value).toNat
  | .int32, value | .uint32, value | .fixed32, value | .sfixed32, value => BitVec.toNat value
  | .int64, value | .uint64, value | .fixed64, value | .sfixed64, value => BitVec.toNat value
  | .sint32, value => (encodeZigZag (BitVec.signExtend 64 value)).toNat
  | .sint64, value => (encodeZigZag value).toNat

def Scalar.encode (scalar : Scalar) (value : scalar.Value) : Bytes :=
  match scalar.wireType with
  | .fixed32 => littleEndian 4 (scalar.bits value)
  | .fixed64 => littleEndian 8 (scalar.bits value)
  | .varint | .bytes => varint (scalar.bits value)

/-- `AppendTag`. -/
def tag (number : Nat) (wireType : WireType) : Bytes := varint (number * 8 + wireType.number)

/-- `List` and `Singular`, for elements that are encoded already. -/
def Field.encode (field : Field Name) (values : List Bytes) : Bytes :=
  if field.isList && field.kind.isPackable && 1 < values.length then
    tag field.number .bytes ++ withLength values.flatten
  else values.flatMap fun value => tag field.number field.kind.wireType ++ value

/-- The fields of a type in the order of their numbers. -/
def Schema.sortedFields (schema : Schema Name) (name : Name) :
    List {field // field ∈ schema.fields name} :=
  (schema.fields name).attach.mergeSort fun first second => first.1.number ≤ second.1.number

/-- `Message`, for fields whose elements are encoded already. -/
def Schema.encodeMessage (schema : Schema Name) (name : Name)
    (values : {field // field ∈ schema.fields name} → List Bytes) : Bytes :=
  (schema.sortedFields name).flatMap fun field => field.1.encode (values field)

mutual

/-- `Value`: a value without a tag. -/
def Value.encode {schema : Schema Name} {kind : Kind Name} : Value schema kind → Bytes
  | .scalar value => Scalar.encode _ value
  | .bytes value | .string value => withLength value
  | .message get => withLength (schema.encodeMessage _ fun field => (get field).encodeAll)

/-- The encodings of the elements. -/
def Content.encodeAll {schema : Schema Name} {kind : Kind Name} {isList : Bool} :
    Content schema kind isList → List Bytes
  | .absent | .nil => []
  | .present value => [value.encode]
  | .cons value rest => value.encode :: rest.encodeAll

end

def marshalCanonical {schema : Schema Name} {name : Name} :
    Value schema (.message name) → Bytes
  | .message get => schema.encodeMessage name fun field => (get field).encodeAll

/-! ### Values show where they end -/

theorem getLsbD_encodeZigZag (value : BitVec 64) {index : Nat} (fits : index < 64) :
    (encodeZigZag value).getLsbD index =
      (if index = 0 then value.msb else value.getLsbD (index - 1) ^^ value.msb) := by
  have sign : (value.sshiftRight 63).getLsbD index = value.msb := by
    rw [BitVec.getLsbD_sshiftRight, decide_eq_false (by omega), Bool.not_false, Bool.true_and]
    split
    · rw [BitVec.msb_eq_getLsbD_last, show 63 + index = 64 - 1 by omega]
    · rfl
  rw [encodeZigZag, BitVec.getLsbD_xor, sign, BitVec.getLsbD_shiftLeft, decide_eq_true fits]
  rcases Nat.eq_zero_or_pos index with rfl | positive
  · simp
  · simp [positive.ne']

theorem encodeZigZag_inj {first second : BitVec 64}
    (same : encodeZigZag first = encodeZigZag second) : first = second := by
  have bits : ∀ index < 64, _ := fun index fits =>
    (getLsbD_encodeZigZag first fits).symm.trans (same ▸ getLsbD_encodeZigZag second fits)
  -- the lowest bit is the sign; the others are the bits of the number, or their complements
  have sign : first.msb = second.msb := bits 0 (by decide)
  refine BitVec.eq_of_getLsbD_eq fun index fits => ?_
  rcases lt_or_ge index 63 with low | high
  · have bit := bits (index + 1) (by omega)
    rw [sign] at bit
    simpa using bit
  · rw [show index = 64 - 1 by omega, ← BitVec.msb_eq_getLsbD_last, sign,
      BitVec.msb_eq_getLsbD_last]

theorem signExtend_inj {first second : BitVec 32}
    (same : first.signExtend 64 = second.signExtend 64) : first = second := by
  refine BitVec.eq_of_toInt_eq ?_
  rw [← BitVec.toInt_signExtend_of_le (by decide : 32 ≤ 64), same,
    BitVec.toInt_signExtend_of_le (by decide)]

namespace Scalar

variable {scalar : Scalar}

theorem bits_inj {first second : scalar.Value} (same : scalar.bits first = scalar.bits second) :
    first = second := by
  cases scalar with
  | bool => exact (by decide : ∀ one two : Bool, one.toNat = two.toNat → one = two) first second same
  | enum => exact signExtend_inj (BitVec.eq_of_toNat_eq same)
  | sint32 => exact signExtend_inj (encodeZigZag_inj (BitVec.eq_of_toNat_eq same))
  | sint64 => exact encodeZigZag_inj (BitVec.eq_of_toNat_eq same)
  | _ => exact BitVec.eq_of_toNat_eq same

theorem encode_append_inj {first second : scalar.Value} {rest other : Bytes}
    (same : scalar.encode first ++ rest = scalar.encode second ++ other) :
    first = second ∧ rest = other := by
  have fixed : ∀ width, scalar.bits first < 256 ^ width → scalar.bits second < 256 ^ width →
      littleEndian width (scalar.bits first) ++ rest =
        littleEndian width (scalar.bits second) ++ other → first = second ∧ rest = other := by
    intro width firstFits secondFits same
    obtain ⟨word, same⟩ := append_inj same (by simp)
    exact ⟨bits_inj (littleEndian_inj firstFits secondFits word), same⟩
  cases scalar with
  | fixed32 | sfixed32 => exact fixed 4 (BitVec.isLt first) (BitVec.isLt second) same
  | fixed64 | sfixed64 => exact fixed 8 (BitVec.isLt first) (BitVec.isLt second) same
  | _ =>
    obtain ⟨number, same⟩ := varint_append_inj same
    exact ⟨bits_inj number, same⟩

theorem encode_ne_nil (value : scalar.Value) : scalar.encode value ≠ [] := by
  cases scalar with
  | fixed32 | sfixed32 | fixed64 | sfixed64 => exact cons_ne_nil _ _
  | _ => exact varint_ne_nil _

end Scalar

variable {schema : Schema Name} {name : Name} {kind : Kind Name}

/-- The encodings of the values of a kind. -/
def Schema.words (schema : Schema Name) (kind : Kind Name) : Set Bytes :=
  {word | ∃ value : Value schema kind, value.encode = word}

theorem prefixFree_words : PrefixFree (schema.words kind) := by
  rintro _ ⟨first, rfl⟩ _ ⟨second, rfl⟩ rest other same
  cases first with
  | scalar value =>
    cases second with
    | scalar =>
      rw [(Scalar.encode_append_inj same).1]
  | bytes value | string value | message =>
    cases second
    rw [Value.encode, Value.encode] at same ⊢
    rw [(withLength_append_inj same).1]

theorem nil_notMem_words : [] ∉ schema.words kind := by
  rintro ⟨value, empty⟩
  cases value with
  | scalar value => exact Scalar.encode_ne_nil value empty
  | bytes value | string value | message =>
    exact varint_ne_nil _ (List.append_eq_nil_iff.mp empty).1

theorem mem_words_of_mem_encodeAll {word : Bytes} : ∀ {isList : Bool}
    {content : Content schema kind isList}, word ∈ content.encodeAll → word ∈ schema.words kind
  | _, .present value, member => ⟨value, (mem_singleton.mp member).symm⟩
  | _, .cons value _, member => by
    rcases mem_cons.mp member with rfl | later
    · exact ⟨value, rfl⟩
    · exact mem_words_of_mem_encodeAll later

/-! ### Reading a message back -/

variable {number otherNumber : Nat} {rest other : Bytes} {field : Field Name}

theorem tag_append_inj {wireType otherType : WireType}
    (same : tag number wireType ++ rest = tag otherNumber otherType ++ other) :
    number = otherNumber ∧ wireType = otherType ∧ rest = other := by
  obtain ⟨numbers, sameRest⟩ := varint_append_inj same
  cases wireType <;> cases otherType <;> simp only [WireType.number] at numbers <;>
    first | omega | exact ⟨by omega, rfl, sameRest⟩

/-- A string that does not go on with a field of the given number or a lower one. -/
def Later (number : Nat) (bytes : Bytes) : Prop :=
  ∀ next wireType tail, bytes = tag next wireType ++ tail → number < next

theorem Field.encode_nil (field : Field Name) : field.encode [] = [] := by
  simp [encode]

theorem Field.encode_cons (field : Field Name) (value : Bytes) (values : List Bytes) :
    ∃ wireType tail, field.encode (value :: values) = tag field.number wireType ++ tail := by
  unfold encode
  split
  · exact ⟨_, _, rfl⟩
  · exact ⟨_, _, by rw [flatMap_cons, append_assoc]⟩

/-- Elements that are not packed are read one after the other. -/
theorem elements_append_inj {wireType : WireType} {words : Set Bytes} (free : PrefixFree words)
    {first second : List Bytes} (firstWords : ∀ word ∈ first, word ∈ words)
    (secondWords : ∀ word ∈ second, word ∈ words) (later : Later number rest)
    (otherLater : Later number other)
    (same : first.flatMap (tag number wireType ++ ·) ++ rest =
      second.flatMap (tag number wireType ++ ·) ++ other) : first = second ∧ rest = other := by
  induction first generalizing second with
  | nil =>
    cases second with
    | nil => exact ⟨rfl, same⟩
    | cons word second =>
      rw [flatMap_cons, append_assoc, append_assoc] at same
      exact absurd (later _ _ _ same) (lt_irrefl _)
  | cons word first ih =>
    rw [flatMap_cons, append_assoc, append_assoc] at same
    cases second with
    | nil => exact absurd (otherLater _ _ _ same.symm) (lt_irrefl _)
    | cons otherWord second =>
      rw [flatMap_cons, append_assoc, append_assoc] at same
      have same := (tag_append_inj same).2.2
      cases free word (firstWords word mem_cons_self) otherWord
        (secondWords otherWord mem_cons_self) _ _ same
      obtain ⟨sameRest, same⟩ := ih
        (fun word later => firstWords word (.tail _ later))
        (fun word later => secondWords word (.tail _ later))
        (append_cancel_left same)
      exact ⟨by rw [sameRest], same⟩

/-- A packed list is not taken for elements. -/
theorem packed_ne_elements (packable : field.kind.isPackable = true) (packed : Bytes)
    {values : List Bytes} (later : Later field.number other) :
    tag field.number .bytes ++ packed ++ rest ≠
      values.flatMap (tag field.number field.kind.wireType ++ ·) ++ other := by
  intro same
  rw [append_assoc] at same
  cases values with
  | nil => exact absurd (later _ _ _ same.symm) (lt_irrefl _)
  | cons value values =>
    rw [flatMap_cons, append_assoc, append_assoc] at same
    have wireType := (tag_append_inj same).2.1
    cases isKind : field.kind with
    | scalar packable =>
      rw [isKind] at wireType
      cases packable <;> cases wireType
    | _ =>
      rw [isKind] at packable
      cases packable

theorem Field.encode_append_inj {words : Set Bytes} (free : PrefixFree words)
    (noEmpty : [] ∉ words) {first second : List Bytes}
    (firstWords : ∀ word ∈ first, word ∈ words) (secondWords : ∀ word ∈ second, word ∈ words)
    (later : Later field.number rest) (otherLater : Later field.number other)
    (same : field.encode first ++ rest = field.encode second ++ other) :
    first = second ∧ rest = other := by
  unfold encode at same
  split at same <;> split at same
  · rw [append_assoc, append_assoc] at same
    obtain ⟨flat, sameRest⟩ := withLength_append_inj (tag_append_inj same).2.2
    exact ⟨free.flatten_inj noEmpty firstWords secondWords flat, sameRest⟩
  · rename_i packed _
    simp only [Bool.and_eq_true] at packed
    exact absurd same (packed_ne_elements packed.1.2 _ otherLater)
  · rename_i packed
    simp only [Bool.and_eq_true] at packed
    exact absurd same.symm (packed_ne_elements packed.1.2 _ later)
  · exact elements_append_inj free firstWords secondWords later otherLater same

variable {fields : List {field // field ∈ schema.fields name}}
  {first second : {field // field ∈ schema.fields name} → List Bytes}

theorem later_fields (above : ∀ field ∈ fields, number < field.1.number) :
    Later number (fields.flatMap fun field => field.1.encode (first field)) := by
  induction fields with
  | nil =>
    intro next wireType tail same
    exact absurd (List.append_eq_nil_iff.mp same.symm).1 (varint_ne_nil _)
  | cons field fields ih =>
    rw [flatMap_cons]
    cases first field with
    | nil =>
      rw [Field.encode_nil]
      exact ih fun field later => above field (.tail _ later)
    | cons value values =>
      intro next wireType tail same
      obtain ⟨_, _, encoded⟩ := field.1.encode_cons value values
      rw [encoded, append_assoc] at same
      rw [← (tag_append_inj same).1]
      exact above field mem_cons_self

/-- The fields of a message are read one after the other. -/
theorem fields_inj (sorted : fields.Pairwise fun one two => one.1.number < two.1.number)
    (firstWords : ∀ field, ∀ word ∈ first field, word ∈ schema.words field.1.kind)
    (secondWords : ∀ field, ∀ word ∈ second field, word ∈ schema.words field.1.kind)
    (same : (fields.flatMap fun field => field.1.encode (first field)) =
      fields.flatMap fun field => field.1.encode (second field)) :
    ∀ field ∈ fields, first field = second field := by
  induction fields with
  | nil => exact fun _ member => nomatch member
  | cons field fields ih =>
    obtain ⟨above, sorted⟩ := pairwise_cons.mp sorted
    obtain ⟨here, same⟩ := Field.encode_append_inj prefixFree_words nil_notMem_words
      (firstWords field) (secondWords field) (later_fields above) (later_fields above) same
    intro other member
    rcases mem_cons.mp member with rfl | later
    · exact here
    · exact ih sorted same other later

theorem sorted_sortedFields (schema : Schema Name) (name : Name) :
    (schema.sortedFields name).Pairwise fun one two => one.1.number < two.1.number := by
  have sorted : (schema.sortedFields name).Pairwise fun one two => one.1.number ≤ two.1.number :=
    (pairwise_mergeSort (by simp; omega) (by simp; omega) _).imp of_decide_eq_true
  have distinct : ((schema.sortedFields name).map fun field => field.1.number).Nodup := by
    rw [Schema.sortedFields, ((mergeSort_perm _ _).map _).nodup_iff]
    have numbers := schema.distinct name
    rwa [← attach_map_subtype_val (schema.fields name), map_map] at numbers
  exact (sorted.and (pairwise_map.mp distinct)).imp fun both => lt_of_le_of_ne both.1 both.2

theorem encodeMessage_inj
    (firstWords : ∀ field, ∀ word ∈ first field, word ∈ schema.words field.1.kind)
    (secondWords : ∀ field, ∀ word ∈ second field, word ∈ schema.words field.1.kind)
    (same : schema.encodeMessage name first = schema.encodeMessage name second) :
    first = second := by
  funext field
  exact fields_inj (sorted_sortedFields schema name) firstWords secondWords same field
    (mem_mergeSort.mpr (mem_attach _ field))

mutual

theorem Value.encode_inj : ∀ {kind : Kind Name} {first second : Value schema kind},
    first.encode = second.encode → first = second
  | _, .scalar _, .scalar _, same => by
    rw [(Scalar.encode_append_inj (congrArg (· ++ []) same)).1]
  | _, .bytes _, .bytes _, same | _, .string _, .string _, same => by
    rw [(withLength_append_inj (congrArg (· ++ []) same)).1]
  | _, .message first, .message second, same => by
    have body := (withLength_append_inj (congrArg (· ++ []) same)).1
    have all := encodeMessage_inj (fun _ _ member => mem_words_of_mem_encodeAll member)
      (fun _ _ member => mem_words_of_mem_encodeAll member) body
    exact congrArg Value.message (funext fun field => Content.encodeAll_inj (congrFun all field))

theorem Content.encodeAll_inj : ∀ {kind : Kind Name} {isList : Bool}
    {first second : Content schema kind isList}, first.encodeAll = second.encodeAll → first = second
  | _, _, .absent, .absent, _ | _, _, .nil, .nil, _ => rfl
  | _, _, .present _, .present _, same => by
    rw [Value.encode_inj (List.cons.inj same).1]
  | _, _, .cons first _, .cons second _, same => by
    rw [Value.encode_inj (List.cons.inj same).1, Content.encodeAll_inj (List.cons.inj same).2]

end

/-- Equal bytes come from equal messages, presence included. The members of a oneof are fields
that may be absent; that at most one is present is not needed. -/
theorem marshalCanonical_injective (schema : Schema Name) (name : Name) :
    Function.Injective fun message : Value schema (.message name) => marshalCanonical message := by
  rintro ⟨-⟩ ⟨-⟩ same
  exact Value.encode_inj (congrArg withLength same)

end SeiChain.Hashable
