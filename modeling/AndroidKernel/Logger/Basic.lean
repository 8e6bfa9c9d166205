import AndroidKernel.Lib.Bytes
import AndroidKernel.Lib.Ring

/-!
# The logger (`drivers/staging/android/logger.c`)

A log is a ring buffer of bytes. An entry is a header, which starts with the length of
the payload, and the payload; where the entries are can only be found out by going from
one to the next by their lengths. Each reader has an offset of its own, and `head` is
where a new reader starts. A write moves the readers that it would run into forward
before it starts, and goes back to the old offset if it fails.

Each call that takes the lock is one step. What is printed to the kernel log is left out,
and so are the wait queue (a read of an empty log returns `-EAGAIN`) and `poll`.
-/

namespace AndroidKernel.Logger

/-- A byte as an unsigned value and back. -/
abbrev Byte := UInt8

/-- `struct logger_entry` without its `len`, which the write sets. The padding is not
initialised. -/
structure Header where
  pad : UInt16
  pid : UInt32
  tid : UInt32
  sec : UInt32
  nsec : UInt32

/-- `sizeof(struct logger_entry)`. -/
def headerSize : Nat := 20

/-- `LOGGER_ENTRY_MAX_LEN`. -/
def entryMaxLen : Nat := 4 * 1024

/-- `LOGGER_ENTRY_MAX_PAYLOAD`. -/
def entryMaxPayload : Nat := entryMaxLen - headerSize

def Header.bytes (header : Header) (len : Nat) : List Byte :=
  Bytes.le 2 len ++ Bytes.le 2 header.pad.toNat ++ Bytes.le 4 header.pid.toNat ++
    Bytes.le 4 header.tid.toNat ++ Bytes.le 4 header.sec.toNat ++ Bytes.le 4 header.nsec.toNat

/-- A segment of the vector of a write: `iov_len` bytes of user space. From `fault` on they
cannot be read; a copy that fails leaves `junk` behind. -/
structure Segment where
  data : List Byte
  fault : Option Nat
  junk : Nat → Byte

abbrev ReaderId := Nat

/-- `struct logger_reader`. -/
structure Reader where
  id : ReaderId
  rOff : Nat

/-- `struct logger_log`. Readers are numbered as they are opened. -/
structure Log where
  buffer : Nat → Byte
  readers : List Reader
  wOff : Nat
  head : Nat
  size : Nat
  nextReader : ReaderId

/-- What a call returns. -/
inductive Result where
  | ret (n : Nat)
  | read (bytes : List Byte)
  | enomem
  | eagain
  | einval
  | efault
  | ebadf
  deriving DecidableEq

namespace Log

/-- A log as it is defined; the ring may hold anything. -/
def init (size : Nat) (buffer : Nat → Byte) : Log where
  buffer := buffer
  readers := []
  wOff := 0
  head := 0
  size := size
  nextReader := 0

variable (log : Log)

/-- `logger_offset`. -/
def loggerOffset (n : Nat) : Nat := n &&& (log.size - 1)

/-- `get_entry_len`; the length field may be split by the end of the ring. -/
def getEntryLen (off : Nat) : Nat :=
  let hi := if log.size - off = 1 then log.buffer 0 else log.buffer (off + 1)
  headerSize + ((log.buffer off).toNat + 256 * hi.toNat)

/-! ## Reading -/

/-- `do_read_log_to_user`; `fault` says that user space cannot be written. -/
def doReadLogToUser (reader : Reader) (count : Nat) (fault : Bool) : Reader × Result :=
  let len := min count (log.size - reader.rOff)
  if fault then (reader, .efault)
  else
    let bytes := Ring.slice log.buffer reader.rOff len ++
      (if count ≠ len then Ring.slice log.buffer 0 (count - len) else [])
    ({ reader with rOff := log.loggerOffset (reader.rOff + count) }, .read bytes)

/-- `logger_read` without waiting. -/
def loggerRead (reader : Reader) (count : Nat) (fault : Bool) : Reader × Result :=
  if log.wOff = reader.rOff then (reader, .eagain)
  else
    let ret := log.getEntryLen reader.rOff
    if count < ret then (reader, .einval) else log.doReadLogToUser reader ret fault

/-! ## Writing -/

/-- The loop of `get_next_entry`; each turn counts at least the size of a header, so that
`len` turns are enough. -/
def getNextEntryLoop (log : Log) (len : Nat) : Nat → Nat → Nat → Nat
  | 0, off, _ => off
  | fuel + 1, off, count =>
    let nr := log.getEntryLen off
    let off := log.loggerOffset (off + nr)
    let count := count + nr
    if count < len then log.getNextEntryLoop len fuel off count else off

/-- `get_next_entry`. -/
def getNextEntry (off len : Nat) : Nat := log.getNextEntryLoop len (len + 1) off 0

/-- `clock_interval`. -/
def clockInterval (a b c : Nat) : Bool :=
  if b < a then a < c || b ≥ c else a < c && b ≥ c

/-- What `fix_up_readers` does to each offset. -/
def fixUp (len off : Nat) : Nat :=
  if clockInterval log.wOff (log.loggerOffset (log.wOff + len)) off then log.getNextEntry off len
  else off

/-- `fix_up_readers`. -/
def fixUpReaders (len : Nat) : Log :=
  { log with
    head := log.fixUp len log.head
    readers := log.readers.map fun reader => { reader with rOff := log.fixUp len reader.rOff } }

/-- `do_write_log`. -/
def doWriteLog (buf : List Byte) : Log :=
  let count := buf.length
  let len := min count (log.size - log.wOff)
  let buffer := Ring.put log.buffer log.wOff (buf.take len)
  let buffer := if count ≠ len then Ring.put buffer 0 (buf.drop len) else buffer
  { log with buffer := buffer, wOff := log.loggerOffset (log.wOff + count) }

end Log

/-- `copy_from_user` of `count` bytes of a segment: what is in their place afterwards, and
whether all went well. -/
def Segment.copy (seg : Segment) (start count : Nat) : List Byte × Bool :=
  if seg.fault.any (· < start + count) then ((List.range count).map seg.junk, false)
  else ((seg.data.drop start).take count, true)

namespace Log

variable (log : Log)

/-- `do_write_log_from_user`; no value stands for `-EFAULT`. -/
def doWriteLogFromUser (seg : Segment) (count : Nat) : Log × Option Nat :=
  let len := min count (log.size - log.wOff)
  let copy := seg.copy 0 len
  let buffer := Ring.put log.buffer log.wOff copy.1
  if len ≠ 0 ∧ copy.2 = false then ({ log with buffer := buffer }, none)
  else
    let rest := seg.copy len (count - len)
    let buffer' := if count ≠ len then Ring.put buffer 0 rest.1 else buffer
    if count ≠ len ∧ rest.2 = false then ({ log with buffer := buffer' }, none)
    else
      ({ log with buffer := buffer', wOff := log.loggerOffset (log.wOff + count) }, some count)

/-- The loop of `logger_aio_write` over the segments. -/
def writeSegments (log : Log) (headerLen : Nat) : List Segment → Nat → Log × Option Nat
  | [], ret => (log, some ret)
  | seg :: segs, ret =>
    let len := min seg.data.length (headerLen - ret)
    match log.doWriteLogFromUser seg len with
    | (log, none) => (log, none)
    | (log, some nr) => log.writeSegments headerLen segs (ret + nr)

/-- The length of the payload that `logger_aio_write` keeps. -/
def payloadLen (iov : List Segment) : Nat :=
  min (iov.map fun seg => seg.data.length).sum entryMaxPayload

/-- `logger_aio_write` from where it has the lock; `orig` was read before. -/
def loggerAioWrite (orig : Nat) (header : Header) (iov : List Segment) : Log × Result :=
  let len := payloadLen iov
  if len = 0 then (log, .ret 0)
  else
    let log := log.fixUpReaders (headerSize + len)
    let log := log.doWriteLog (header.bytes len)
    match log.writeSegments len iov 0 with
    | (log, none) => ({ log with wOff := orig }, .efault)
    | (log, some ret) => (log, .ret ret)

/-! ## Files -/

/-- `logger_open` for reading. -/
def loggerOpen (mem : Bool) : Log × Result :=
  if mem then
    ({ log with
        readers := log.readers ++ [⟨log.nextReader, log.head⟩]
        nextReader := log.nextReader + 1 }, .ret 0)
  else (log, .enomem)

/-- `logger_release` of a reader. -/
def loggerRelease (id : ReaderId) : Log × Result :=
  ({ log with readers := log.readers.filter fun reader => reader.id ≠ id }, .ret 0)

/-- `LOGGER_FLUSH_LOG`; `write` is whether the file is open for writing. -/
def flush (write : Bool) : Log × Result :=
  if write then
    ({ log with
        readers := log.readers.map fun reader => { reader with rOff := log.wOff }
        head := log.wOff }, .ret 0)
  else (log, .ebadf)

/-- `LOGGER_GET_LOG_LEN`. -/
def getLogLen (reader : Reader) : Nat :=
  if log.wOff ≥ reader.rOff then log.wOff - reader.rOff else log.size - reader.rOff + log.wOff

/-- `LOGGER_GET_NEXT_ENTRY_LEN`. -/
def getNextEntryLen (reader : Reader) : Nat :=
  if log.wOff ≠ reader.rOff then log.getEntryLen reader.rOff else 0

/-- The reader behind a file. -/
def reader (log : Log) (id : ReaderId) : Option Reader :=
  log.readers.find? fun reader => reader.id = id

/-- A reader is put back. -/
def setReader (reader : Reader) : Log :=
  { log with
    readers := log.readers.map fun other => if other.id = reader.id then reader else other }

end Log

inductive Op where
  | openLog (mem : Bool)
  | close (id : ReaderId)
  | write (header : Header) (iov : List Segment)
  | read (id : ReaderId) (count : Nat) (fault : Bool)
  | flush (write : Bool)
  | logLen (id : ReaderId)
  | nextEntryLen (id : ReaderId)

/-- One call at a time: a write reads the offset right before it takes the lock. -/
def Log.step (log : Log) : Op → Option (Log × Result)
  | .openLog mem => some (log.loggerOpen mem)
  | .close id => some (log.loggerRelease id)
  | .write header iov => some (log.loggerAioWrite log.wOff header iov)
  | .read id count fault =>
    (log.reader id).map fun reader =>
      let (reader, result) := log.loggerRead reader count fault
      (log.setReader reader, result)
  | .flush write => some (log.flush write)
  | .logLen id => (log.reader id).map fun reader => (log, .ret (log.getLogLen reader))
  | .nextEntryLen id => (log.reader id).map fun reader => (log, .ret (log.getNextEntryLen reader))

end AndroidKernel.Logger
