import OrderBookServer.FileCursor
import OrderBookServer.HashMap
import OrderBookServer.ParseInt
import Mathlib.Data.List.MinMax
import Mathlib.Data.Prod.Lex

/-!
# The files of the sources

The node writes one file an hour below the directory of each source. The listener holds a
cursor for each path it follows; what a path names can change under an open cursor, so
the file a cursor reads and the file its path names are told apart. What the file system
answers is an argument of each call.
-/
namespace OrderBookServer

/-! ### Paths -/

/-- The components of an absolute path, the root's first. -/
abbrev PathBuf := List String

namespace PathBuf

def fileName (path : PathBuf) : Option String := path.getLast?

def parent : PathBuf → Option PathBuf
  | [] => none
  | path => some path.dropLast

def startsWith (path root : PathBuf) : Bool := root.isPrefixOf path

theorem startsWith_iff {path root : PathBuf} : path.startsWith root = true ↔ root <+: path := by
  simp [startsWith]

end PathBuf

def parseU32 (text : String) : Option ℕ := (ParseInt.parse (2 ^ 32) text).toOption

/-- The date and the hour of a file `hourly/{date}/{hour}`. -/
def hourlyPosition (path : PathBuf) : Option (ℕ × ℕ) := do
  let hour ← parseU32 (← path.fileName)
  let datePath ← path.parent
  let date ← datePath.fileName
  let above ← (← datePath.parent).fileName
  if hour > 23 || date.utf8ByteSize != 8 || above != "hourly" then none
  else return (← parseU32 date, hour)

/-- Positions in the order of time. -/
def Earlier (position other : ℕ × ℕ) : Prop := toLex position < toLex other

instance : DecidableRel Earlier := fun position other =>
  inferInstanceAs (Decidable (toLex position < toLex other))

/-! ### The file system -/

/-- The identity of a file, which it keeps when its path is moved or removed. -/
abbrev Inode := ℕ

structure Entry where
  inode : Inode
  isFile : Bool
  deriving DecidableEq, Repr

/-- What the paths name, and the bytes of every file that is named or open. -/
structure Disk where
  entry : PathBuf → Option Entry
  contents : Inode → List UInt8

def Disk.empty : Disk := ⟨fun _ => none, fun _ => []⟩

/-- No file loses or changes a byte; what the paths name may change. -/
def Disk.Grows (before after : Disk) : Prop :=
  ∀ inode, before.contents inode <+: after.contents inode

theorem Disk.Grows.refl (disk : Disk) : disk.Grows disk := fun _ => List.prefix_rfl

theorem Disk.Grows.trans {a b c : Disk} (h : a.Grows b) (h' : b.Grows c) : a.Grows c :=
  fun inode => (h inode).trans (h' inode)

/-- The file system at the time of a call, and what it answers. -/
structure FileSystem where
  disk : Disk
  fileMetadata : Inode → Except String Unit
  /-- Whether the metadata can be had of what a path names. -/
  pathMetadata : PathBuf → Except String Unit
  opens : PathBuf → Except String Unit
  read : Except String ℕ
  now : Instant
  later : Instant

namespace FileSystem

variable (fs : FileSystem)

def metadata (path : PathBuf) : Except String Entry :=
  match fs.disk.entry path with
  | none => .error "No such file or directory (os error 2)"
  | some entry => (fs.pathMetadata path).map fun _ => entry

def exists_ (path : PathBuf) : Bool := (fs.metadata path).isOk

def isFile (path : PathBuf) : Bool := (fs.metadata path).toOption.any Entry.isFile

end FileSystem

/-- A cursor with the file it holds open. -/
structure OpenFile where
  inode : Inode
  cursor : FileCursor
  deriving DecidableEq, Repr

abbrev Cursors := HashMap PathBuf OpenFile

namespace OpenFile

variable (self : OpenFile) (fs : FileSystem) (path : PathBuf)

/-- What the cursor's calls ask of the system. -/
def view : FileView where
  contents := fs.disk.contents self.inode
  metadata := do
    fs.fileMetadata self.inode
    let _ ← fs.metadata path
  sameFile := (fs.disk.entry path).any fun entry => entry.inode == self.inode
  read := fs.read
  now := fs.now
  later := fs.later

/-- `FileCursor::open` -/
def openPath (fromEnd : Bool) (maxRecordBytes : ℕ) : Except String OpenFile :=
  match fs.disk.entry path with
  | none => .error "No such file or directory (os error 2)"
  | some entry => do
    fs.opens path
    return ⟨entry.inode, .openFile (fs.disk.contents entry.inode) fromEnd maxRecordBytes⟩

def drained : Bool :=
  self.cursor.partialBytes.isEmpty && (fs.fileMetadata self.inode).isOk &&
    decide ((fs.disk.contents self.inode).length = self.cursor.offset)

def needsAttention : Bool :=
  self.cursor.partialExpired fs.now ||
    match self.cursor.verifyFile (self.view fs path) with
    | .error _ => true
    | .ok () => decide ((fs.disk.contents self.inode).length > self.cursor.offset)

def readTurn (budget : ℕ) : OpenFile × Except CursorError (String × Bool × ℕ) :=
  let (cursor, out) := self.cursor.readTurn (self.view fs path) budget
  ({ self with cursor := cursor }, out)

end OpenFile

theorem OpenFile.drained_iff {self : OpenFile} {fs : FileSystem} : self.drained fs = true ↔
    self.cursor.partialBytes = [] ∧ (fs.fileMetadata self.inode).isOk = true ∧
      (fs.disk.contents self.inode).length = self.cursor.offset := by
  simp [OpenFile.drained, and_assoc]

/-! ### The table of cursors -/

/-- An order in which the entries of a map of paths are visited. -/
structure PathOrder where
  visit : Finset PathBuf → List PathBuf
  visit_nodup : ∀ paths, (visit paths).Nodup
  mem_visit : ∀ paths path, path ∈ visit paths ↔ path ∈ paths

theorem PathOrder.nonempty : Nonempty PathOrder :=
  ⟨⟨Finset.toList, fun paths => paths.nodup_toList, fun paths _ => paths.mem_toList⟩⟩

namespace Cursors

/-- `retain`, each entry being asked at a time of its own. -/
def retainExisting (self : Cursors) (fs : PathBuf → FileSystem) : Cursors :=
  self.restrict fun path =>
    (self.lookup path).any fun file => (fs path).exists_ path || !file.drained (fs path)

/-- The older positions of the stream at which a cursor has nothing left to read. -/
def retirable (self : Cursors) (order : PathOrder) (fs : PathBuf → FileSystem) (root : PathBuf)
    (newPosition : ℕ × ℕ) : List ((ℕ × ℕ) × PathBuf) :=
  (order.visit self.keys).filterMap fun path => do
    let file ← self.lookup path
    if path.startsWith root && file.drained (fs path) && !file.needsAttention (fs path) path then
      let position ← hourlyPosition path
      if Earlier position newPosition then return (position, path) else none
    else none

/-- Retire the cursor of the oldest file of the stream that has rotated. -/
def evictRetiredCursor (self : Cursors) (order : PathOrder) (fs : PathBuf → FileSystem)
    (root incoming : PathBuf) : Bool × Cursors :=
  match hourlyPosition incoming with
  | none => (false, self)
  | some newPosition =>
    match (self.retirable order fs root newPosition).argmin fun e => toLex e.1 with
    | some (_, path) => (true, self.erase path)
    | none => (false, self)

variable {self : Cursors} {order : PathOrder} {fs : PathBuf → FileSystem}
  {root incoming path : PathBuf} {file : OpenFile} {position newPosition : ℕ × ℕ}

theorem lookup_retainExisting : (self.retainExisting fs).lookup path = some file ↔
    self.lookup path = some file ∧ ((fs path).exists_ path || !file.drained (fs path)) = true := by
  rw [retainExisting, HashMap.lookup_restrict]
  cases hfile : self.lookup path with
  | none => simp
  | some found =>
    simp only [Option.any_some]
    split_ifs with hkept
    · simp only [Option.some.injEq]
      constructor
      · rintro rfl
        exact ⟨rfl, hkept⟩
      · exact And.left
    · simp only [false_iff, not_and, Option.some.injEq]
      rintro rfl
      exact hkept

/-- A cursor that may be retired: nothing is left to read in its file, which its path still
names, and the file is of an earlier hour of the same stream. -/
structure Retirable (cursors : Cursors) (fs : PathBuf → FileSystem) (root : PathBuf)
    (newPosition position : ℕ × ℕ) (path : PathBuf) : Prop where
  below : root <+: path
  quiet : ∃ file, cursors.lookup path = some file ∧ file.drained (fs path) = true ∧
    file.needsAttention (fs path) path = false
  hourly : hourlyPosition path = some position
  earlier : Earlier position newPosition

theorem mem_retirable : (position, path) ∈ self.retirable order fs root newPosition ↔
    Retirable self fs root newPosition position path := by
  simp only [retirable, List.mem_filterMap, order.mem_visit, Option.bind_eq_bind,
    Option.bind_eq_some_iff]
  constructor
  · rintro ⟨found, -, file, hfile, hout⟩
    split_ifs at hout with hquiet
    simp only [Bool.and_eq_true, Bool.not_eq_true'] at hquiet
    obtain ⟨⟨hbelow, hdrained⟩, hattention⟩ := hquiet
    obtain ⟨at_, hat, hout⟩ := Option.bind_eq_some_iff.mp hout
    split_ifs at hout with hearlier
    simp only [Option.pure_def, Option.some.injEq, Prod.mk.injEq] at hout
    obtain ⟨rfl, rfl⟩ := hout
    exact ⟨PathBuf.startsWith_iff.mp hbelow, ⟨file, hfile, hdrained, hattention⟩, hat, hearlier⟩
  · rintro ⟨hbelow, ⟨file, hfile, hdrained, hattention⟩, hat, hearlier⟩
    refine ⟨path, ?_, file, hfile, ?_⟩
    · exact Finmap.mem_keys.mpr (Finmap.mem_of_lookup_eq_some hfile)
    · simp [PathBuf.startsWith_iff.mpr hbelow, hdrained, hattention, hat, hearlier]

/-- At most one cursor is retired, and only one that may be, the oldest of them; none is where
none may be. -/
theorem evictRetiredCursor_cases (self : Cursors) (order : PathOrder) (fs : PathBuf → FileSystem)
    (root incoming : PathBuf) :
    (self.evictRetiredCursor order fs root incoming = (false, self) ∧
      ∀ newPosition, hourlyPosition incoming = some newPosition →
        ∀ position path, ¬ Retirable self fs root newPosition position path) ∨
    ∃ newPosition position path, hourlyPosition incoming = some newPosition ∧
      self.evictRetiredCursor order fs root incoming = (true, self.erase path) ∧
      Retirable self fs root newPosition position path ∧
      ∀ other otherPath, Retirable self fs root newPosition other otherPath →
        ¬ Earlier other position := by
  unfold evictRetiredCursor
  cases hincoming : hourlyPosition incoming with
  | none => simp
  | some newPosition =>
    cases hmin : (self.retirable order fs root newPosition).argmin fun e => toLex e.1 with
    | none =>
      refine .inl ⟨by simp [hmin], fun found hfound position path hretirable => ?_⟩
      obtain rfl := Option.some.inj hfound
      rw [List.argmin_eq_none] at hmin
      have hmem : (position, path) ∈ self.retirable order fs root newPosition :=
        mem_retirable.mpr hretirable
      simp [hmin] at hmem
    | some oldest =>
      obtain ⟨position, path⟩ := oldest
      right
      refine ⟨newPosition, position, path, rfl, by simp [hmin],
        mem_retirable.mp (List.argmin_mem hmin), ?_⟩
      intro other otherPath hother hearlier
      exact not_lt_of_ge (List.le_of_mem_argmin (mem_retirable.mpr hother) hmin) hearlier

theorem lookup_evictRetiredCursor
    (h : (self.evictRetiredCursor order fs root incoming).2.lookup path = some file) :
    self.lookup path = some file := by
  obtain ⟨heq, -⟩ | ⟨newPosition, position, gone, -, heq, -⟩ :=
    evictRetiredCursor_cases self order fs root incoming
  · rwa [heq] at h
  · rw [heq, HashMap.lookup_erase_ite] at h
    split_ifs at h
    exact h

end Cursors
end OrderBookServer
