/-
This file models the A/B persister and proves what survives its crashes. A
persister numbers its writes, odd numbers go to file `a` and even ones to file
`b`, so a write never touches the copy before it. A run interleaves starts
through `NewPersister`, completed writes, and crashes that leave the file being
written empty, completely written, or rejected by `loadFile`. The one hole is
the very first write: a rejected copy with an empty partner is reported as lost
data, not as a fresh start.
-/

import SeiChain.Library.Transition
import SeiChain.Autobahn.AbFile

namespace SeiChain.Autobahn

open Library Function Option

/-! ### The persister -/

/-- The message encoding of `protoutils`, with the round trip its callers rely on. -/
structure Codec (Message : Type) where
  marshal : Message → Bytes
  unmarshal : Bytes → Except String Message
  unmarshal_marshal : ∀ message, unmarshal (marshal message) = .ok message

/-- What `os.Stat` and the writability probe find under the directory's path. -/
inductive DirKind where
  | absent
  | notDirectory
  | readOnly
  | writable
  deriving DecidableEq, Repr

structure StateDir where
  kind : DirKind
  files : Suffix → FileState

inductive Persister where
  /-- Discards all writes; used when no directory is configured. -/
  | noop
  | ab (seq : Nat)
  deriving DecidableEq, Repr

inductive NewPersisterError where
  | invalidStateDir
  | notADirectory
  | notWritable
  | load (error : LoadError)
  | unmarshal (error : String)
  deriving DecidableEq, Repr

/-- Open one file with `O_CREATE`: a missing file comes to exist and is empty. -/
def openFile (files : Suffix → FileState) (file : Suffix) : Suffix → FileState :=
  if files file = .missing then update files file (.content []) else files

def openFiles (files : Suffix → FileState) (opened : List Suffix) : Suffix → FileState :=
  opened.foldl openFile files

variable {Message : Type} (codec : Codec Message)

/-- The part of `NewPersister` that runs once the directory has been checked. -/
def newAbPersister (dir : StateDir) :
    Except NewPersisterError (Persister × Option Message) × StateDir :=
  let opened := { dir with files := openFiles dir.files [.a, .b] }
  match loadPersisted dir.files with
  | .error .noData => (.ok (.ab 0, none), opened)
  | .error error => (.error (.load error), dir)
  | .ok loaded =>
    match loaded.data with
    | none => (.ok (.ab loaded.seq, none), opened)
    | some data =>
      match codec.unmarshal data with
      | .error error => (.error (.unmarshal error), opened)
      | .ok message => (.ok (.ab loaded.seq, some message), opened)

/-- `NewPersister`: the persister with the loaded message, or an error, and the directory it
leaves behind. -/
def newPersister (dir : Option StateDir) :
    Except NewPersisterError (Persister × Option Message) × Option StateDir :=
  match dir with
  | none => (.ok (.noop, none), none)
  | some dir =>
    match dir.kind with
    | .absent => (.error .invalidStateDir, some dir)
    | .notDirectory => (.error .notADirectory, some dir)
    | .readOnly => (.error .notWritable, some dir)
    | .writable => (newAbPersister codec dir).map id some

/-- The number of the write after `seq`, in the 64 bits of the counter. -/
def nextSeq (seq : Nat) : Nat := (seq + 1) % 2 ^ 64

/-- Odd numbers go to file `a`, even ones to file `b`. -/
def suffixFor (seq : Nat) : Suffix := if seq % 2 = 1 then .a else .b

/-- The bytes that the `Persist` after number `seq` writes. -/
def persistBytes (seq : Nat) (message : Message) : Bytes :=
  writeFile (nextSeq seq) (codec.marshal message)

/-- The directory once the `Persist` after number `seq` has left `left` in its file. -/
def persistLeaves (dir : StateDir) (seq : Nat) (left : Bytes) : StateDir :=
  { dir with files := update dir.files (suffixFor (nextSeq seq)) (.content left) }

/-! ### Runs with crashes -/

/-- A directory with the process that uses it. `completed` is the message of the last write
that completed, where a message that `NewPersister` returned counts as completed;
`inFlight` is the message of the write the last crash interrupted. -/
structure PersisterWorld (Message : Type) where
  dir : StateDir
  process : Option Nat
  completed : Option Message
  inFlight : Option Message

inductive PersisterEvent (Message : Type) where
  | start
  | persist (message : Message)
  | crash
  /-- The process dies in `NewPersister` after it opened the first files of the pair. -/
  | crashInStart (opened : Nat)
  /-- The process dies in `Persist` and leaves these bytes in the file it was writing. -/
  | crashInPersist (message : Message) (left : Bytes)

def PersisterWorld.empty (Message : Type) : PersisterWorld Message where
  dir := { kind := .writable, files := fun _ => .missing }
  process := none
  completed := none
  inFlight := none

/-- A start that fails leaves the process down. -/
def persisterStart (world : PersisterWorld Message) : PersisterWorld Message :=
  match newPersister codec (some world.dir) with
  | (.ok (.ab seq, loaded), some dir) =>
    { dir := dir, process := some seq, completed := loaded, inFlight := none }
  | (_, some dir) => { world with dir := dir }
  | (_, none) => world

def persisterStep (world : PersisterWorld Message) :
    PersisterEvent Message → Option (PersisterWorld Message)
  | .start => if world.process = none then some (persisterStart codec world) else none
  | .crashInStart opened =>
    if world.process = none then
      some { world with
        dir := { world.dir with files := openFiles world.dir.files ([.a, .b].take opened) } }
    else none
  | .persist message => world.process.map fun seq =>
    { dir := persistLeaves world.dir seq (persistBytes codec seq message)
      process := some (nextSeq seq), completed := some message, inFlight := none }
  | .crash => world.process.map fun _ => { world with process := none }
  | .crashInPersist message left => world.process.map fun seq =>
    { world with
      dir := persistLeaves world.dir seq left, process := none, inFlight := some message }

/-! ### What is on disk -/

variable {seq : Nat}

section Disk

variable {codec} {files : Suffix → FileState}

theorem suffixFor_succ (seq : Nat) : suffixFor (seq + 1) = (suffixFor seq).other := by
  unfold suffixFor
  rcases Nat.mod_two_eq_zero_or_one seq with even | odd
  · have next : (seq + 1) % 2 = 1 := by omega
    simp [even, next, Suffix.other]
  · have next : (seq + 1) % 2 = 0 := by omega
    simp [odd, next, Suffix.other]

@[simp]
theorem Suffix.other_other (file : Suffix) : file.other.other = file := by
  cases file <;> rfl

theorem Suffix.other_ne (file : Suffix) : file.other ≠ file := by
  cases file <;> decide

theorem nextSeq_of_lt (bound : seq + 1 < 2 ^ 64) : nextSeq seq = seq + 1 := Nat.mod_eq_of_lt bound

/-- Opening a file never changes what is loaded from it, as an empty file counts as absent. -/
theorem loadFile_openFiles (opened : List Suffix) (file : Suffix) :
    loadFile file (openFiles files opened file) = loadFile file (files file) := by
  induction opened generalizing files with
  | nil => rfl
  | cons first rest ih =>
    have single : loadFile file (openFile files first file) = loadFile file (files file) := by
      unfold openFile
      by_cases absent : files first = .missing
      · rw [if_pos absent]
        by_cases same : file = first
        · subst same
          simp [absent, loadFile]
        · simp [update_of_ne same]
      · rw [if_neg absent]
    rw [← single]
    exact ih

/-- No file holds anything, so the next start is a fresh one. -/
def AllAbsent (files : Suffix → FileState) : Prop :=
  ∀ file, loadFile file (files file) = .error .notExist

/-- The copy numbered `seq` is intact in its file and its partner yields to it. -/
structure HoldsCopy (codec : Codec Message) (files : Suffix → FileState) (seq : Nat)
    (message : Message) : Prop where
  valid : loadFile (suffixFor seq) (files (suffixFor seq)) =
    .ok { seq := seq, data := some (codec.marshal message) }
  partner : YieldsTo seq (loadFile (suffixFor seq).other (files (suffixFor seq).other))

theorem AllAbsent.openFiles (absent : AllAbsent files) (opened : List Suffix) :
    AllAbsent (openFiles files opened) := fun file => by
  rw [loadFile_openFiles, absent file]

theorem HoldsCopy.openFiles {message : Message}
    (holds : HoldsCopy codec files seq message) (opened : List Suffix) :
    HoldsCopy codec (openFiles files opened) seq message where
  valid := by rw [loadFile_openFiles, holds.valid]
  partner := by rw [loadFile_openFiles]; exact holds.partner

theorem newPersister_of_allAbsent (codec : Codec Message) (absent : AllAbsent files) :
    newPersister codec (some { kind := .writable, files := files }) =
      (.ok (.ab 0, none),
        some { kind := .writable, files := Autobahn.openFiles files [.a, .b] }) := by
  simp [newPersister, newAbPersister, loadPersisted, absent .a, absent .b, LoadFileError.tolerable]

theorem newPersister_of_holdsCopy {message : Message} (holds : HoldsCopy codec files seq message) :
    newPersister codec (some { kind := .writable, files := files }) =
      (.ok (.ab seq, some message),
        some { kind := .writable, files := Autobahn.openFiles files [.a, .b] }) := by
  simp [newPersister, newAbPersister, loadPersisted_of_yieldsTo holds.valid holds.partner,
    codec.unmarshal_marshal]

section

variable (bound : seq + 1 < 2 ^ 64)

include bound

theorem persistLeaves_written (dir : StateDir) (left : Bytes) :
    (persistLeaves dir seq left).files (suffixFor (seq + 1)) = .content left := by
  simp [persistLeaves, nextSeq_of_lt bound]

theorem persistLeaves_untouched (dir : StateDir) (left : Bytes) :
    (persistLeaves dir seq left).files (suffixFor seq) = dir.files (suffixFor seq) := by
  have different : suffixFor seq ≠ suffixFor (seq + 1) := by
    rw [suffixFor_succ]
    exact (Suffix.other_ne _).symm
  simp [persistLeaves, nextSeq_of_lt bound, update_of_ne different]

/-- A completed write makes its copy the one that is held, as long as the copy before it, in
the other file, is not newer. -/
theorem holdsCopy_persistLeaves {dir : StateDir}
    (older : YieldsTo (seq + 1) (loadFile (suffixFor seq) (dir.files (suffixFor seq))))
    (message : Message) :
    HoldsCopy codec (persistLeaves dir seq (persistBytes codec seq message)).files (seq + 1)
      message where
  valid := by
    rw [persistLeaves_written bound, persistBytes, nextSeq_of_lt bound]
    exact loadFile_writeFile _ _ _ (Nat.succ_pos seq) bound
  partner := by
    rw [suffixFor_succ, Suffix.other_other, persistLeaves_untouched bound]
    exact older

/-- A write that leaves its file rejected or absent does not disturb the copy before it. -/
theorem HoldsCopy.persistLeaves {dir : StateDir} {message : Message} {left : Bytes}
    (holds : HoldsCopy codec dir.files seq message)
    {error : LoadFileError} (tolerable : error.tolerable)
    (torn : loadFile (suffixFor (seq + 1)) (.content left) = .error error) :
    HoldsCopy codec (persistLeaves dir seq left).files seq message where
  valid := by rw [persistLeaves_untouched bound]; exact holds.valid
  partner := by
    rw [← suffixFor_succ, persistLeaves_written bound, torn]
    exact tolerable

end

end Disk

/-! ### Every run -/

section Runs

variable (world : PersisterWorld Message)

/-- `loadFile` reports these bytes as corrupt. -/
def Rejected (file : Suffix) (bytes : Bytes) : Prop :=
  ∃ error, loadFile file (.content bytes) = .error error ∧ error.isCorrupt

/-- A crash leaves the file being written empty, cut to a prefix, or rejected. -/
def crashTears : PersisterEvent Message → Prop
  | .crashInPersist message left => ∀ seq, world.process = some seq →
    left = [] ∨ left <+: persistBytes codec seq message ∨ Rejected (suffixFor (nextSeq seq)) left
  | _ => True

/-- The assumption the guarantee needs: the 64-bit number of a write does not wrap around, and
a crash in a write leaves its file empty, completely written, or rejected. While no write
has completed it must not leave the file rejected. -/
def crashTearsCopy : PersisterEvent Message → Prop
  | .persist _ => ∀ seq, world.process = some seq → seq + 1 < 2 ^ 64
  | .crashInPersist message left => ∀ seq, world.process = some seq → seq + 1 < 2 ^ 64 ∧
    (left = [] ∨ left = persistBytes codec seq message ∨
      (world.completed ≠ none ∧ Rejected (suffixFor (nextSeq seq)) left))
  | _ => True

/-- A start now succeeds, with the message of the last completed write or of the one the
crash interrupted, and with none only if no write had completed. -/
def Recovers : Prop :=
  ∃ seq loaded dir, newPersister codec (some world.dir) = (.ok (.ab seq, loaded), some dir) ∧
    (loaded = world.completed ∨ (loaded ≠ none ∧ loaded = world.inFlight)) ∧
    (loaded = none → world.completed = none)

/-- The copy of the last completed write is intact, and the next write goes to the other file. -/
def NextWriteSpares (seq : Nat) : Prop :=
  (∀ message, world.completed = some message →
    loadFile (suffixFor seq) (world.dir.files (suffixFor seq)) =
      .ok { seq := seq, data := some (codec.marshal message) }) ∧
  (seq + 1 < 2 ^ 64 → suffixFor (nextSeq seq) ≠ suffixFor seq)

/-- The three situations of a directory between two events. -/
inductive Situation : Prop
  /-- Nothing has been written. -/
  | fresh (absent : AllAbsent world.dir.files) (nothing : world.completed = none)
    (process : world.process = none ∨ world.process = some 0)
  /-- The copy on disk is that of the last completed write. -/
  | kept (seq : Nat) (message : Message) (holds : HoldsCopy codec world.dir.files seq message)
    (completed : world.completed = some message)
    (process : world.process = none ∨ world.process = some seq)
  /-- The interrupted write was complete on disk when the process died. -/
  | pending (seq : Nat) (message : Message) (holds : HoldsCopy codec world.dir.files seq message)
    (inFlight : world.inFlight = some message) (process : world.process = none)

structure PersisterInvariant : Prop where
  writable : world.dir.kind = .writable
  situation : Situation codec world

variable {codec world}

theorem persisterInvariant_empty : PersisterInvariant codec (PersisterWorld.empty Message) where
  writable := rfl
  situation := .fresh (fun _ => rfl) rfl (.inl rfl)

/-- A running process has an intact copy under its number, or no write has completed yet; in
both cases the file of its number yields to the next write. -/
theorem Situation.yieldsTo_next (situation : Situation codec world)
    (running : world.process = some seq) :
    YieldsTo (seq + 1) (loadFile (suffixFor seq) (world.dir.files (suffixFor seq))) := by
  cases situation with
  | fresh absent => rw [absent]; rfl
  | kept number message holds _ process =>
    have same : seq = number := by simpa [running] using process
    subst same
    rw [holds.valid]
    exact Nat.lt_succ_self seq
  | pending _ _ _ _ process => simp [running] at process

section

variable (ok : PersisterInvariant codec world)

include ok

theorem PersisterInvariant.start : PersisterInvariant codec (persisterStart codec world) := by
  obtain ⟨writable, situation⟩ := ok
  have dir : world.dir = { kind := .writable, files := world.dir.files } := by rw [← writable]
  cases situation with
  | fresh absent =>
    rw [persisterStart, dir, newPersister_of_allAbsent codec absent]
    exact ⟨rfl, .fresh (absent.openFiles _) rfl (.inr rfl)⟩
  | kept seq message holds =>
    rw [persisterStart, dir, newPersister_of_holdsCopy holds]
    exact ⟨rfl, .kept seq message (holds.openFiles _) rfl (.inr rfl)⟩
  | pending seq message holds =>
    rw [persisterStart, dir, newPersister_of_holdsCopy holds]
    exact ⟨rfl, .kept seq message (holds.openFiles _) rfl (.inr rfl)⟩

theorem PersisterInvariant.crashInStart (opened : List Suffix) :
    PersisterInvariant codec
      { world with dir := { world.dir with files := openFiles world.dir.files opened } } := by
  refine ⟨ok.writable, ?_⟩
  cases ok.situation with
  | fresh absent nothing process => exact .fresh (absent.openFiles _) nothing process
  | kept seq message holds completed process =>
    exact .kept seq message (holds.openFiles _) completed process
  | pending seq message holds inFlight process =>
    exact .pending seq message (holds.openFiles _) inFlight process

/-- A crash in a write leaves the directory in one of the three situations. -/
theorem PersisterInvariant.crashInPersist (running : world.process = some seq)
    (bound : seq + 1 < 2 ^ 64) (message : Message) (left : Bytes)
    (torn : left = [] ∨ left = persistBytes codec seq message ∨
      (world.completed ≠ none ∧ Rejected (suffixFor (nextSeq seq)) left)) :
    PersisterInvariant codec { world with
      dir := persistLeaves world.dir seq left, process := none, inFlight := some message } := by
  refine ⟨ok.writable, ?_⟩
  by_cases whole : left = persistBytes codec seq message
  · subst whole
    exact .pending (seq + 1) message
      (holdsCopy_persistLeaves bound (ok.situation.yieldsTo_next running) message) rfl rfl
  · cases ok.situation with
    | fresh absent nothing process =>
      have empty : left = [] := by
        rcases torn with empty | complete | ⟨completed, _⟩
        · exact empty
        · exact absurd complete whole
        · exact absurd nothing completed
      refine .fresh (fun file => ?_) nothing (.inl rfl)
      subst empty
      by_cases same : file = suffixFor (nextSeq seq)
      · simp [persistLeaves, same, loadFile]
      · simp [persistLeaves, update_of_ne same, absent file]
    | kept number kept holds completed process =>
      have same : seq = number := by simpa [running] using process
      subst same
      obtain ⟨error, rejected, tolerable⟩ : ∃ error,
          loadFile (suffixFor (seq + 1)) (.content left) = .error error ∧ error.tolerable := by
        rcases torn with empty | complete | ⟨_, error, rejected, corrupt⟩
        · exact ⟨.notExist, by rw [empty]; rfl, rfl⟩
        · exact absurd complete whole
        · rw [nextSeq_of_lt bound] at rejected
          exact ⟨error, rejected, by simp [LoadFileError.tolerable, corrupt]⟩
      exact .kept seq kept (holds.persistLeaves bound tolerable rejected) completed (.inl rfl)
    | pending _ _ _ _ process => simp [running] at process

theorem PersisterInvariant.step {after : PersisterWorld Message} {event : PersisterEvent Message}
    (admitted : crashTearsCopy codec world event)
    (taken : persisterStep codec world event = some after) : PersisterInvariant codec after := by
  cases event with
  | start =>
    obtain ⟨_, ⟨rfl⟩⟩ := ite_none_right_eq_some.mp taken
    exact ok.start
  | crashInStart =>
    obtain ⟨_, ⟨rfl⟩⟩ := ite_none_right_eq_some.mp taken
    exact ok.crashInStart _
  | persist message =>
    obtain ⟨seq, running, rfl⟩ := map_eq_some_iff.mp taken
    have bound := admitted seq running
    refine ⟨ok.writable, .kept (seq + 1) message ?_ rfl (.inr ?_)⟩
    · exact holdsCopy_persistLeaves bound (ok.situation.yieldsTo_next running) message
    · exact congrArg some (nextSeq_of_lt bound)
  | crash =>
    obtain ⟨seq, running, rfl⟩ := map_eq_some_iff.mp taken
    refine ⟨ok.writable, ?_⟩
    cases ok.situation with
    | fresh absent nothing => exact .fresh absent nothing (.inl rfl)
    | kept number message holds completed => exact .kept number message holds completed (.inl rfl)
    | pending _ _ _ _ process => simp [running] at process
  | crashInPersist message left =>
    obtain ⟨seq, running, rfl⟩ := map_eq_some_iff.mp taken
    obtain ⟨bound, torn⟩ := admitted seq running
    exact ok.crashInPersist running bound message left torn

theorem PersisterInvariant.recovers : Recovers codec world := by
  obtain ⟨writable, situation⟩ := ok
  have dir : world.dir = { kind := .writable, files := world.dir.files } := by rw [← writable]
  unfold Recovers
  cases situation with
  | fresh absent nothing =>
    rw [dir]
    exact ⟨0, none, _, newPersister_of_allAbsent codec absent, .inl nothing.symm, fun _ => nothing⟩
  | kept seq message holds completed =>
    rw [dir]
    exact ⟨seq, some message, _, newPersister_of_holdsCopy holds, .inl completed.symm, nofun⟩
  | pending seq message holds inFlight =>
    rw [dir]
    exact ⟨seq, some message, _, newPersister_of_holdsCopy holds, .inr ⟨nofun, inFlight.symm⟩,
      nofun⟩

theorem PersisterInvariant.nextWriteSpares (running : world.process = some seq) :
    NextWriteSpares codec world seq := by
  refine ⟨fun message completed => ?_, fun bound => ?_⟩
  · cases ok.situation with
    | fresh _ nothing => simp [nothing] at completed
    | kept number kept holds keeps process =>
      have same : seq = number := by simpa [running] using process
      have sameMessage : kept = message := by simpa [keeps] using completed
      subst same sameMessage
      exact holds.valid
    | pending _ _ _ _ process => simp [running] at process
  · rw [nextSeq_of_lt bound, suffixFor_succ]
    exact Suffix.other_ne _

/-- The hole: while no write has completed, a crash that leaves the first file rejected makes
every later start fail. -/
theorem PersisterInvariant.first_write_rejected (running : world.process = some seq)
    (nothing : world.completed = none) {left : Bytes} {error : LoadFileError}
    (rejected : loadFile .a (.content left) = .error error) (corrupt : error.isCorrupt) :
    newPersister codec (some (persistLeaves world.dir seq left)) =
      (.error (.load (.noValidState error .notExist)), some (persistLeaves world.dir seq left)) := by
  cases ok.situation with
  | fresh absent _ process =>
    have first : seq = 0 := by simpa [running] using process
    subst first
    have fileA : (persistLeaves world.dir 0 left).files .a = .content left := rfl
    have fileB : (persistLeaves world.dir 0 left).files .b = world.dir.files .b := rfl
    have present : error ≠ .notExist := by rintro rfl; exact absurd corrupt (by decide)
    have load : loadPersisted (persistLeaves world.dir 0 left).files =
        .error (.noValidState error .notExist) := by
      unfold loadPersisted
      simp [fileA, fileB, rejected, absent .b, LoadFileError.tolerable, corrupt, present]
    have writable : (persistLeaves world.dir 0 left).kind = .writable := ok.writable
    simp [newPersister, newAbPersister, writable, load]
  | kept _ _ _ completed => simp [nothing] at completed
  | pending _ _ _ _ process => simp [running] at process

end

/-- Crash safety of the persister. In every run whose crashes tear only the copy being
written, and never the very first one, a start succeeds with the last completed message or
the interrupted one; a running persister spares the last completed copy on its next write; and
a first write that is torn in its middle is what makes a start fail. -/
theorem persister_crash_safe (codec : Codec Message) (world : PersisterWorld Message)
    (reached : Reaches (persisterStep codec) (crashTearsCopy codec)
      (PersisterWorld.empty Message) world) :
    (world.process = none → Recovers codec world) ∧
    (∀ seq, world.process = some seq → NextWriteSpares codec world seq) ∧
    (∀ seq message left after error, world.process = some seq → world.completed = none →
      loadFile .a (.content left) = .error error → error.isCorrupt →
      persisterStep codec world (.crashInPersist message left) = some after →
      (newPersister codec (some after.dir)).1 =
        .error (.load (.noValidState error .notExist))) := by
  have invariant : PersisterInvariant codec world :=
    reached.invariant persisterInvariant_empty fun _ _ _ holds => holds.step
  refine ⟨fun _ => invariant.recovers, fun _ => invariant.nextWriteSpares, ?_⟩
  intro seq message left after error running nothing rejected corrupt taken
  obtain ⟨number, sameProcess, rfl⟩ := map_eq_some_iff.mp taken
  have same : seq = number := by simpa [running] using sameProcess
  subst same
  rw [invariant.first_write_rejected running nothing rejected corrupt]

end Runs

/-- Messages that are their own encoding. -/
def bytesCodec : Codec Bytes where
  marshal := id
  unmarshal := .ok
  unmarshal_marshal _ := rfl

/-- A process that wrote two messages and died in the middle of the third write. -/
theorem persister_crash_safe_after_two_writes :
    ∃ world, Reaches (persisterStep bytesCodec) (crashTearsCopy bytesCodec)
        (PersisterWorld.empty Bytes) world ∧
      world.process = none ∧ world.completed = some [2] ∧ Recovers bytesCodec world := by
  have empty : Reaches (persisterStep bytesCodec) (crashTearsCopy bytesCodec)
      (PersisterWorld.empty Bytes) (PersisterWorld.empty Bytes) := .refl _
  have started := empty.next .start trivial rfl
  have once := started.next (.persist [1]) (by rintro _ ⟨⟩; decide) rfl
  have twice := once.next (.persist [2]) (by rintro _ ⟨⟩; decide) rfl
  have torn := twice.next (.crashInPersist [3] [0])
    (by rintro _ ⟨⟩; exact ⟨by decide, .inr (.inr ⟨nofun, .truncated .a 1, rfl, rfl⟩)⟩) rfl
  exact ⟨_, torn, rfl, rfl, (persister_crash_safe bytesCodec _ torn).1 rfl⟩

/-- The very first write, cut after its first byte: the next start fails. -/
theorem persister_first_write_torn :
    ¬ ∀ world, Reaches (persisterStep bytesCodec) (crashTears bytesCodec)
        (PersisterWorld.empty Bytes) world →
      world.process = none → Recovers bytesCodec world := by
  intro recovers
  have empty : Reaches (persisterStep bytesCodec) (crashTears bytesCodec)
      (PersisterWorld.empty Bytes) (PersisterWorld.empty Bytes) := .refl _
  have started := empty.next .start trivial rfl
  have torn := started.next (.crashInPersist [1] ((persistBytes bytesCodec 0 [1]).take 1))
    (by rintro _ ⟨⟩; exact .inr (.inl (List.take_prefix _ _))) rfl
  obtain ⟨seq, loaded, dir, opened, _⟩ := recovers _ torn rfl
  exact absurd (congrArg Prod.fst opened) nofun

end SeiChain.Autobahn
