import RCore.Lib.Ring

/-! `pipe.rs`: a ring buffer between a read end and a write end, and any number of
tasks that read and write it. A call of `read` or `write` loops; every round of the loop
runs under the lock of the buffer, and other tasks may run between two rounds. -/

namespace RCore.Os

open RCore.Lib

abbrev RING_BUFFER_SIZE : ℕ := 256

inductive RingBufferStatus where
  | full
  | empty
  | normal
deriving DecidableEq

/-- The bytes of the buffer lie in `arr` from `head` up to `tail`. When the two meet,
`status` says whether it is full or empty. -/
structure PipeRingBuffer where
  arr : ℕ → UInt8
  head : ℕ
  tail : ℕ
  status : RingBufferStatus
  /-- Whether `set_write_end` has been called. -/
  writeEnd : Bool
  head_lt : head < RING_BUFFER_SIZE
  tail_lt : tail < RING_BUFFER_SIZE
  status_normal : status = .normal ↔ head ≠ tail

namespace PipeRingBuffer

def new : PipeRingBuffer where
  arr := fun _ => 0
  head := 0
  tail := 0
  status := .empty
  writeEnd := false
  head_lt := by decide
  tail_lt := by decide
  status_normal := by decide

def setWriteEnd (r : PipeRingBuffer) : PipeRingBuffer := { r with writeEnd := true }

def writeByte (r : PipeRingBuffer) (byte : UInt8) : PipeRingBuffer where
  arr := Function.update r.arr r.tail byte
  head := r.head
  tail := (r.tail + 1) % RING_BUFFER_SIZE
  status := if (r.tail + 1) % RING_BUFFER_SIZE = r.head then .full else .normal
  writeEnd := r.writeEnd
  head_lt := r.head_lt
  tail_lt := Nat.mod_lt _ (by decide)
  status_normal := by
    split_ifs with h
    · simp [h]
    · exact iff_of_true rfl (Ne.symm h)

/-- The byte at the head, and the buffer without it. -/
def readByte (r : PipeRingBuffer) : UInt8 × PipeRingBuffer :=
  (r.arr r.head,
    { arr := r.arr
      head := (r.head + 1) % RING_BUFFER_SIZE
      tail := r.tail
      status := if (r.head + 1) % RING_BUFFER_SIZE = r.tail then .empty else .normal
      writeEnd := r.writeEnd
      head_lt := Nat.mod_lt _ (by decide)
      tail_lt := r.tail_lt
      status_normal := by split_ifs with h <;> simp [h] })

def availableRead (r : PipeRingBuffer) : ℕ :=
  if r.status = .empty then 0
  else if r.tail > r.head then r.tail - r.head
  else r.tail + RING_BUFFER_SIZE - r.head

def availableWrite (r : PipeRingBuffer) : ℕ :=
  if r.status = .full then 0 else RING_BUFFER_SIZE - r.availableRead

/-- `strongCount` is that of the write end. Without a write end the call panics. -/
def allWriteEndsClosed (r : PipeRingBuffer) (strongCount : ℕ) : Option Bool :=
  if r.writeEnd then some (strongCount == 0) else none

/-- The bytes that are in the buffer, in the order in which they come out. -/
def contents (r : PipeRingBuffer) : List UInt8 :=
  ring RING_BUFFER_SIZE r.arr r.head r.availableRead

end PipeRingBuffer

/-- A call of `read` with a buffer of `len` bytes, of which `filled` have been read. -/
structure ReadCall where
  len : ℕ
  filled : List UInt8
  result : Option ℕ
deriving DecidableEq

/-- A call of `write` with the bytes `buf`, of which `rest` are still to be written. -/
structure WriteCall where
  buf : List UInt8
  rest : List UInt8
  writeSize : ℕ
  result : Option ℕ
deriving DecidableEq

/-- `for _ in 0..loop_read`: the call, the buffer, and the bytes that have been taken out. -/
def readBytes : ℕ → ReadCall → PipeRingBuffer → ReadCall × PipeRingBuffer × List UInt8
  | 0, c, r => (c, r, [])
  | n + 1, c, r =>
    if c.filled.length < c.len then
      let (byte, r) := r.readByte
      let (c, r, bytes) := readBytes n { c with filled := c.filled ++ [byte] } r
      (c, r, byte :: bytes)
    else ({ c with result := some c.filled.length }, r, [])

/-- One round of the loop of `read`. -/
def readRound (strongCount : ℕ) (c : ReadCall) (r : PipeRingBuffer) :
    Option (ReadCall × PipeRingBuffer × List UInt8) :=
  let loopRead := r.availableRead
  if loopRead = 0 then do
    let closed ← r.allWriteEndsClosed strongCount
    if closed then pure ({ c with result := some c.filled.length }, r, [])
    -- the task yields, and the loop goes on
    else pure (c, r, [])
  else some (readBytes loopRead c r)

/-- `for _ in 0..loop_write`: the call, the buffer, and the bytes that have been put in. -/
def writeBytes : ℕ → WriteCall → PipeRingBuffer → WriteCall × PipeRingBuffer × List UInt8
  | 0, c, r => (c, r, [])
  | n + 1, c, r =>
    match c.rest with
    | byte :: rest =>
      let (c, r, bytes) :=
        writeBytes n { c with rest := rest, writeSize := c.writeSize + 1 } (r.writeByte byte)
      (c, r, byte :: bytes)
    | [] => ({ c with result := some c.writeSize }, r, [])

/-- One round of the loop of `write`. -/
def writeRound (c : WriteCall) (r : PipeRingBuffer) : WriteCall × PipeRingBuffer × List UInt8 :=
  let loopWrite := r.availableWrite
  -- the task yields, and the loop goes on
  if loopWrite = 0 then (c, r, [])
  else writeBytes loopWrite c r

/-- A pipe, the calls that have been made on it, and the bytes that have gone in and
come out so far, each with the number of the call that moved it. -/
structure PipeState where
  ring : PipeRingBuffer
  /-- The references to the write end that descriptor tables hold. -/
  writeEnds : ℕ
  reads : List ReadCall
  writes : List WriteCall
  written : List (ℕ × UInt8)
  taken : List (ℕ × UInt8)

namespace PipeState

/-- `make_pipe` -/
def makePipe : PipeState := ⟨PipeRingBuffer.new.setWriteEnd, 1, [], [], [], []⟩

/-- `Arc::strong_count` of the write end: a call of `write` holds it until it returns. -/
def strongCount (s : PipeState) : ℕ :=
  s.writeEnds + s.writes.countP fun c => c.result.isNone

inductive Event where
  | startRead (len : ℕ)
  | startWrite (buf : List UInt8)
  | read (i : ℕ)
  | write (i : ℕ)
  | cloneWriteEnd
  | dropWriteEnd

/-- What an event does, if it can happen. Events `read` and `write` are one round of a
call that has not returned. -/
def step (s : PipeState) : Event → Option PipeState
  | .startRead len => some { s with reads := s.reads ++ [⟨len, [], none⟩] }
  | .startWrite buf =>
    if s.writeEnds = 0 then none else some { s with writes := s.writes ++ [⟨buf, buf, 0, none⟩] }
  | .read i => do
    let c ← s.reads[i]?
    if c.result.isSome then none
    else do
      let (c, ring, bytes) ← readRound s.strongCount c s.ring
      pure { s with ring, reads := s.reads.set i c, taken := s.taken ++ bytes.map (i, ·) }
  | .write i => do
    let c ← s.writes[i]?
    if c.result.isSome then none
    else
      let (c, ring, bytes) := writeRound c s.ring
      pure { s with ring, writes := s.writes.set i c, written := s.written ++ bytes.map (i, ·) }
  | .cloneWriteEnd =>
    if s.writeEnds = 0 then none else some { s with writeEnds := s.writeEnds + 1 }
  | .dropWriteEnd =>
    if s.writeEnds = 0 then none else some { s with writeEnds := s.writeEnds - 1 }

/-- The bytes that call `i` has moved. -/
def movedBy (i : ℕ) (log : List (ℕ × UInt8)) : List UInt8 :=
  (log.filter fun e => e.1 == i).map Prod.snd

end PipeState

/-- The states that events lead to. -/
inductive PipeRun : PipeState → Prop
  | init : PipeRun .makePipe
  | step {s s' : PipeState} {e : PipeState.Event} (h : PipeRun s) (hs : s.step e = some s') :
      PipeRun s'

end RCore.Os
