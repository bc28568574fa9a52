/-
This file models the file format of the A/B persister and how a pair of files
is read back. A file is `[4-byte CRC32-C BE][8-byte seq LE][message]`; reading
it checks the length, then the checksum, then that the sequence number is not
zero. The pair is read by keeping the valid copy with the higher sequence
number. The two facts every later proof uses are the round trip of one file and
that a valid copy wins over a partner that is absent, corrupt or older.
-/

import Mathlib.Data.List.Basic
import SeiChain.Library.Codes

namespace SeiChain.Autobahn

open Library List

/-! ### The checksum -/

/-- The reversed Castagnoli polynomial. -/
def castagnoli : BitVec 32 := 0x82f63b78#32

/-- Divide by the polynomial for one bit. -/
def crcBit (crc : BitVec 32) : BitVec 32 :=
  if crc.getLsbD 0 then (crc >>> 1) ^^^ castagnoli else crc >>> 1

/-- The entry of the Castagnoli table at `index`. -/
def crcTable (index : BitVec 32) : BitVec 32 :=
  crcBit (crcBit (crcBit (crcBit (crcBit (crcBit (crcBit (crcBit index)))))))

/-- `crc32.Checksum` with the Castagnoli table. -/
def checksum (bytes : Bytes) : BitVec 32 :=
  ~~~ bytes.foldl (fun crc byte =>
    crcTable ((crc ^^^ byte.toBitVec.setWidth 32) &&& 0xff#32) ^^^ (crc >>> 8)) (~~~ 0#32)

-- The check value of CRC32-C, the checksum of the text `123456789`.
example : checksum [49, 50, 51, 52, 53, 54, 55, 56, 57] = 0xe3069283#32 := by
  decide +kernel

/-! ### One file -/

/-- Length of the CRC32-C prefix. -/
def crcSize : Nat := 4

/-- Length of the sequence number. -/
def seqSize : Nat := 8

def headerSize : Nat := crcSize + seqSize

/-- The file of the pair that a name or an error speaks about, `_a.pb` or `_b.pb`. -/
inductive Suffix where
  | a
  | b
  deriving DecidableEq, Repr

/-- What the file system holds under one name. -/
inductive FileState where
  | missing
  /-- Reading fails for a reason of the operating system. -/
  | unreadable
  | content (bytes : Bytes)
  deriving DecidableEq, Repr

/-- The unit stored in each file; `data` is absent on a fresh start. -/
structure DataWithSeq where
  seq : Nat
  data : Option Bytes
  deriving DecidableEq, Repr

/-- Why one file gives no data. The last three are the errors that wrap `ErrCorrupt`. -/
inductive LoadFileError where
  | notExist
  | read (file : Suffix)
  | truncated (file : Suffix) (length : Nat)
  | crcMismatch (file : Suffix) (got want : Nat)
  | zeroSeq (file : Suffix)
  deriving DecidableEq, Repr

def LoadFileError.isCorrupt : LoadFileError → Bool
  | notExist | read _ => false
  | truncated _ _ | crcMismatch _ _ _ | zeroSeq _ => true

/-- The bytes `writeFile` leaves in the file. -/
def writeFile (seq : Nat) (data : Bytes) : Bytes :=
  bigEndian crcSize (checksum (littleEndian seqSize seq ++ data)).toNat ++
    (littleEndian seqSize seq ++ data)

def loadFile (file : Suffix) : FileState → Except LoadFileError DataWithSeq
  | .missing => .error .notExist
  | .unreadable => .error (.read file)
  | .content bytes =>
    -- `NewPersister` creates empty files, so an empty file counts as absent
    if bytes.length = 0 then .error .notExist
    else if bytes.length < headerSize then .error (.truncated file bytes.length)
    else
      let wantCRC := ofBigEndian (bytes.take crcSize)
      let payload := bytes.drop crcSize
      let got := (checksum payload).toNat
      if got ≠ wantCRC then .error (.crcMismatch file got wantCRC)
      else
        let seq := ofLittleEndian (payload.take seqSize)
        if seq = 0 then .error (.zeroSeq file)
        else .ok { seq := seq, data := some (payload.drop seqSize) }

/-- A completely written file reads back as what was written. -/
theorem loadFile_writeFile (file : Suffix) (seq : Nat) (data : Bytes) (positive : 0 < seq)
    (fits : seq < 2 ^ 64) :
    loadFile file (.content (writeFile seq data)) = .ok { seq := seq, data := some data } := by
  have crcFits : (checksum (littleEndian seqSize seq ++ data)).toNat < 256 ^ crcSize :=
    (checksum (littleEndian seqSize seq ++ data)).isLt
  have seqFits : seq < 256 ^ seqSize := fits
  have length : (writeFile seq data).length = headerSize + data.length := by
    simp [writeFile, headerSize, add_assoc]
  have crcBytes : (writeFile seq data).take crcSize =
      bigEndian crcSize (checksum (littleEndian seqSize seq ++ data)).toNat :=
    take_left' (length_bigEndian _ _)
  have payload : (writeFile seq data).drop crcSize = littleEndian seqSize seq ++ data :=
    drop_left' (length_bigEndian _ _)
  have seqBytes : (littleEndian seqSize seq ++ data).take seqSize = littleEndian seqSize seq :=
    take_left' (length_littleEndian _ _)
  have dataBytes : (littleEndian seqSize seq ++ data).drop seqSize = data :=
    drop_left' (length_littleEndian _ _)
  have nonempty : ¬ (writeFile seq data).length = 0 := by rw [length]; simp [headerSize, crcSize]
  have full : ¬ (writeFile seq data).length < headerSize := by omega
  simp only [loadFile, nonempty, full, if_false, crcBytes, payload, seqBytes, dataBytes,
    ofBigEndian_bigEndian _ _ crcFits, ofLittleEndian_littleEndian _ _ seqFits, ne_eq,
    not_true_eq_false, positive.ne']

/-! ### The pair of files -/

/-- Why the pair gives no data. -/
inductive LoadError where
  /-- An error of the operating system on one file. -/
  | load (file : Suffix) (error : LoadFileError)
  | sameSeq
  /-- `ErrNoData`: no persisted file exists. -/
  | noData
  | noValidState (errorA errorB : LoadFileError)
  deriving DecidableEq, Repr

/-- An error of one file that `loadPersisted` tolerates. -/
def LoadFileError.tolerable (error : LoadFileError) : Bool := error = .notExist || error.isCorrupt

def loadPersisted (files : Suffix → FileState) : Except LoadError DataWithSeq :=
  match loadFile .a (files .a), loadFile .b (files .b) with
  | .ok a, .ok b =>
    if a.seq > b.seq then .ok a
    else if b.seq > a.seq then .ok b
    else .error .sameSeq
  | .ok a, .error errorB => if errorB.tolerable then .ok a else .error (.load .b errorB)
  | .error errorA, .ok b => if errorA.tolerable then .ok b else .error (.load .a errorA)
  | .error errorA, .error errorB =>
    if !errorA.tolerable then .error (.load .a errorA)
    else if !errorB.tolerable then .error (.load .b errorB)
    else if errorA = .notExist ∧ errorB = .notExist then .error .noData
    else .error (.noValidState errorA errorB)

def Suffix.other : Suffix → Suffix
  | a => b
  | b => a

/-- A file that `loadPersisted` passes over in favour of a copy numbered `seq`. -/
def YieldsTo (seq : Nat) : Except LoadFileError DataWithSeq → Prop
  | .error error => error.tolerable
  | .ok older => older.seq < seq

/-- A valid copy whose partner is absent, corrupt or older is the one that is loaded. -/
theorem loadPersisted_of_yieldsTo {files : Suffix → FileState} {file : Suffix}
    {loaded : DataWithSeq} (valid : loadFile file (files file) = .ok loaded)
    (yields : YieldsTo loaded.seq (loadFile file.other (files file.other))) :
    loadPersisted files = .ok loaded := by
  cases file with
  | a =>
    unfold loadPersisted
    simp only [Suffix.other] at yields
    cases partner : loadFile .b (files .b) with
    | error error | ok older => simp_all [YieldsTo]
  | b =>
    unfold loadPersisted
    rw [valid]
    simp only [Suffix.other] at yields
    cases partner : loadFile .a (files .a) with
    | error error => simp_all [YieldsTo]
    | ok older =>
      have below : older.seq < loaded.seq := by simpa [partner, YieldsTo] using yields
      simp [below, le_of_lt below]

end SeiChain.Autobahn
