import OrderBookServer.Utf8
import OrderBookServer.BatchQueue

/-!
# The cursor of a source file

A source file only grows, and is read in turns of a bounded number of bytes. The
cursor keeps its byte offset and the part of a record that has been read; no text
is read before the record is complete. What a call asks of the system is an
argument: the file as it is at the time, how much of it a read returns, the clock.
-/
namespace OrderBookServer

/-- Why a call fails. -/
inductive CursorError where
  | io (message : String)
  /-- source file replaced; resnapshot required -/
  | replaced
  /-- source file truncated; resnapshot required -/
  | truncated
  /-- partial source record exceeded age limit; resnapshot required -/
  | aged
  /-- source record exceeds byte limit; resnapshot required -/
  | recordLimit
  /-- the bytes of a record are not those of a text -/
  | invalidUtf8
  deriving DecidableEq, Repr

/-- The file at the time of a call, and what the system answers. -/
structure FileView where
  contents : List UInt8
  /-- Whether the metadata of the file and of its path can be had. -/
  metadata : Except String Unit
  /-- The path still names the file that is open. -/
  sameFile : Bool
  /-- How many bytes a read returns, within what is asked for and what there is. -/
  read : Except String ℕ
  now : Instant
  /-- The clock when the call is done reading. -/
  later : Instant

structure FileCursor where
  /-- Also where the next read of the open file begins. -/
  offset : ℕ
  partialBytes : List UInt8
  maxRecordBytes : ℕ
  partialRecordBytes : ℕ
  partialSince : Option Instant
  maxPartialAge : ℕ
  deriving DecidableEq, Repr

/-- `b'\n'` -/
def newline : UInt8 := 10

namespace FileCursor

def openAt (offset maxRecordBytes : ℕ) : FileCursor where
  offset := offset
  partialBytes := []
  maxRecordBytes := maxRecordBytes
  partialRecordBytes := 0
  partialSince := none
  maxPartialAge := 120 * 1000000000

def openFile (contents : List UInt8) (fromEnd : Bool) (maxRecordBytes : ℕ) : FileCursor :=
  openAt (if fromEnd then contents.length else 0) maxRecordBytes

def withMaxAge (self : FileCursor) (age : ℕ) : FileCursor := { self with maxPartialAge := age }

def partialExpired (self : FileCursor) (now : Instant) : Bool :=
  self.partialSince.any fun at_ => decide (now - at_ > self.maxPartialAge)

def verifyFile (self : FileCursor) (file : FileView) : Except CursorError Unit :=
  match file.metadata with
  | .error message => .error (.io message)
  | .ok () =>
    if !file.sameFile then .error .replaced
    else if file.contents.length < self.offset then .error .truncated
    else .ok ()

/-- The loop over the bytes just read, `position` being where the next one comes in the partial
record: the bytes of the record it leaves unfinished, and the end of the last one finished. -/
def scan (maxRecordBytes : ℕ) : ℕ → ℕ → Option ℕ → List UInt8 → ℕ × Except CursorError (Option ℕ)
  | _, recordBytes, completeEnd, [] => (recordBytes, .ok completeEnd)
  | position, recordBytes, completeEnd, byte :: bytes =>
    if recordBytes + 1 > maxRecordBytes then (recordBytes + 1, .error .recordLimit)
    else if byte = newline then scan maxRecordBytes (position + 1) 0 (some (position + 1)) bytes
    else scan maxRecordBytes (position + 1) (recordBytes + 1) completeEnd bytes

/-- Split the complete records off the partial bytes, as text. -/
def takeComplete (self : FileCursor) : Option ℕ → FileCursor × Except CursorError String
  | none => (self, .ok "")
  | some completeEnd =>
    ({ self with partialBytes := self.partialBytes.drop completeEnd },
      match Utf8.decode (self.partialBytes.take completeEnd) with
      | some data => .ok data
      | none => .error .invalidUtf8)

/-- Note when the partial record began. -/
def markPartial (self : FileCursor) (completed : Bool) (now : Instant) : FileCursor :=
  if self.partialBytes.isEmpty then { self with partialSince := none }
  else if completed || self.partialSince.isNone then { self with partialSince := some now }
  else self

/-- The bytes that a call reads. -/
def chunk (self : FileCursor) (file : FileView) (budget : ℕ) : List UInt8 :=
  (file.contents.drop self.offset).take (min (file.read.toOption.getD 0) budget)

/-- The complete records read, whether anything was, and how many bytes. -/
def readTurn (self : FileCursor) (file : FileView) (budget : ℕ) :
    FileCursor × Except CursorError (String × Bool × ℕ) :=
  match self.verifyFile file with
  | .error e => (self, .error e)
  | .ok () =>
    if self.partialExpired file.now then (self, .error .aged)
    else
      match file.read with
      | .error message => (self, .error (.io message))
      | .ok _ =>
        let bytes := self.chunk file budget
        let self := { self with offset := self.offset + bytes.length }
        let priorBytes := self.partialBytes.length
        match scan self.maxRecordBytes priorBytes self.partialRecordBytes none bytes with
        | (recordBytes, .error e) => ({ self with partialRecordBytes := recordBytes }, .error e)
        | (recordBytes, .ok completeEnd) =>
          let self := { self with
            partialRecordBytes := recordBytes
            partialBytes := self.partialBytes ++ bytes }
          match self.takeComplete completeEnd with
          | (self, .error e) => (self, .error e)
          | (self, .ok data) =>
            (self.markPartial completeEnd.isSome file.later,
              .ok (data, decide (bytes.length > 0), bytes.length))

end FileCursor
end OrderBookServer
