import Nicenet.Library.Bytes

/-!
# Messages

`Message` owns one buffer whose first four bytes hold its size and whose next
two hold the message id. Serialization writes at `writePoint` and decoding reads
at `readPoint`. While a session receives a message in pieces it also lets `buff`
point at the `writePoint` field itself, as a four-byte scratch area for the
size; that case has a constructor of its own.

The buffers are lists of bytes. Every access outside of a buffer and every use
of a null pointer is a `Fault`, since the program has no defined behaviour
behind it.
-/

namespace Nicenet

open Library

/-- `MSG_SIZE` of `Message.h`. -/
def msgSize : Nat := 32 * 1024

/-- `NETWORK_BUF_SIZE` of `Type.h`. -/
def networkBufSize : Nat := 1024 * 16

/-- The two kinds of sessions. -/
inductive Transport where
  | tcp
  | kcp
  deriving DecidableEq, Repr

/-- What one read of a socket returns. -/
def IsChunk (chunk : List UInt8) : Prop :=
  1 ≤ chunk.length ∧ chunk.length ≤ networkBufSize

instance : DecidablePred IsChunk := fun _ => inferInstanceAs (Decidable (_ ∧ _))

/-- What ends the defined behaviour of the program. -/
inductive Fault where
  | nullDeref
  | outOfRange
  deriving DecidableEq, Repr

/-- Blocks of memory as `new unsigned char[size]` returns them: of the size asked
for and with unspecified contents. -/
structure Heap where
  contents : Nat → List UInt8
  length_contents : ∀ size, (contents size).length = size

attribute [simp] Heap.length_contents

/-- A heap whose fresh blocks are filled with one byte. -/
def Heap.filled (byte : UInt8) : Heap where
  contents size := List.replicate size byte
  length_contents _ := List.length_replicate

/-- Where `unsigned long` has eight bytes, and where it has four. -/
inductive DataModel where
  | lp64
  | llp64
  | ilp32
  deriving DecidableEq, Repr

def DataModel.unsignedLong : DataModel → Nat
  | .lp64 => 8
  | .llp64 => 4
  | .ilp32 => 4

theorem DataModel.four_le_unsignedLong (model : DataModel) : 4 ≤ model.unsignedLong := by
  cases model <;> decide

/-- The `ui32` at the front of a block of memory. -/
def readWord (memory : List UInt8) : UInt32 :=
  UInt32.ofNat (Bytes.toNat (memory.take 4))

/-- The bytes of a `ui32`. -/
def wordBytes (word : UInt32) : List UInt8 :=
  Bytes.ofNat 4 word.toNat

@[simp] theorem length_wordBytes (word : UInt32) : (wordBytes word).length = 4 := by
  simp [wordBytes]

theorem toNat_readWord (memory : List UInt8) :
    (readWord memory).toNat = Bytes.toNat (memory.take 4) := by
  have bound := Bytes.toNat_lt (memory.take 4)
  have short : (memory.take 4).length ≤ 4 := List.length_take_le 4 memory
  have widest : 256 ^ (memory.take 4).length ≤ 256 ^ 4 :=
    Nat.pow_le_pow_right (by omega) short
  exact UInt32.toNat_ofNat_of_lt' (by
    simp only [UInt32.size]
    omega)

@[simp] theorem readWord_wordBytes (word : UInt32) (rest : List UInt8) :
    readWord (wordBytes word ++ rest) = word := by
  apply UInt32.toNat_inj.mp
  rw [toNat_readWord, ← length_wordBytes word, List.take_left, wordBytes,
    Bytes.toNat_ofNat_of_lt]
  exact UInt32.toNat_lt word

theorem readWord_append {front : List UInt8} (back : List UInt8)
    (long : 4 ≤ front.length) : readWord (front ++ back) = readWord front := by
  rw [readWord, readWord, List.take_append_of_le_length long]

theorem readWord_take {memory : List UInt8} {size : Nat} (long : 4 ≤ size) :
    readWord (memory.take size) = readWord memory := by
  rw [readWord, readWord, List.take_take, Nat.min_eq_left long]

/-- A block of at least four bytes starts with the bytes of its word. -/
theorem wordBytes_readWord {memory : List UInt8} (long : 4 ≤ memory.length) :
    wordBytes (readWord memory) = memory.take 4 := by
  rw [wordBytes, toNat_readWord]
  apply Bytes.ofNat_toNat_of_length
  simp only [List.length_take]
  omega

/-- A position that moves on within the range of a `ui32`. -/
theorem toNat_advance {point : UInt32} {count : Nat} (room : point.toNat + count < 2 ^ 32) :
    (point + UInt32.ofNat count).toNat = point.toNat + count := by
  rw [UInt32.toNat_add, UInt32.toNat_ofNat']
  omega

/-- A frame as it is sent: it starts with its own length. -/
def IsFrame (frame : List UInt8) : Prop :=
  6 ≤ frame.length ∧ frame.length ≤ msgSize ∧
    (readWord frame).toNat = frame.length

instance : DecidablePred IsFrame := fun _ => inferInstanceAs (Decidable (_ ∧ _ ∧ _))

/-- Where `m_buff` points: nowhere, at the `writePoint` field of its own message,
or at a block of memory. -/
inductive Buff where
  | null
  | writePoint
  | heap (memory : List UInt8)
  deriving DecidableEq, Repr

structure Message where
  buff : Buff
  writePoint : UInt32
  readPoint : UInt32
  deriving DecidableEq, Repr

namespace Message

/-- `Message()`, and what `clear` leaves behind. -/
def empty : Message := ⟨.null, 6, 6⟩

/-- The bytes a message owns. -/
def bytes (message : Message) : List UInt8 :=
  match message.buff with
  | .heap memory => memory
  | _ => []

/-- `getSize` reads an `unsigned long` and converts it to `ui32`: the low four
bytes, which are the first four on the little-endian machines `start` insists
on. What it loads to find them is in `loadSize`. -/
def getSize (message : Message) : UInt32 :=
  match message.buff with
  | .null => 0
  | .writePoint => 0
  | .heap memory => readWord memory

@[simp] theorem getSize_heap (memory : List UInt8) (writePoint readPoint : UInt32) :
    getSize ⟨.heap memory, writePoint, readPoint⟩ = readWord memory := rfl

def getMsgID (message : Message) : UInt16 :=
  match message.buff with
  | .null => 0
  | .writePoint => 0
  | .heap memory => UInt16.ofNat (Bytes.toNat ((memory.drop 4).take 2))

/-- `clear` frees the buffer, unless it is the scratch area. -/
def clear (_message : Message) : Message := empty

/-- `swap` exchanges the buffers and rewinds both messages. -/
def swap (message other : Message) : Message × Message :=
  (⟨other.buff, 6, 6⟩, ⟨message.buff, 6, 6⟩)

/-- `memcpy` from outside into the block a message owns. -/
def copyIn (message : Message) (offset : Nat) (data : List UInt8) :
    Except Fault Message :=
  match message.buff with
  | .heap memory =>
      if offset + data.length ≤ memory.length then
        .ok { message with buff := .heap (Bytes.overwrite memory offset data) }
      else
        .error .outOfRange
  | _ => .error .nullDeref

/-- `buildBuff` allocates and then stores the size, four bytes wide. -/
def buildBuff (heap : Heap) (message : Message) (size : Nat) :
    Except Fault Message :=
  copyIn { message.clear with buff := .heap (heap.contents size) } 0
    (wordBytes (UInt32.ofNat size))

/-- `Message(buff, size_)`: nothing is kept of fewer than six bytes. -/
def ofBuffer (heap : Heap) (data : List UInt8) : Except Fault Message :=
  if data.length < 6 then
    .ok empty
  else
    match buildBuff heap empty data.length with
    | .error fault => .error fault
    | .ok message => message.copyIn 0 data

/-- `ID` stores the message id, in a fresh six-byte buffer if there is none. -/
def ID (heap : Heap) (message : Message) (msgID : UInt16) :
    Except Fault Message :=
  match message.buff with
  | .null =>
      match message.buildBuff heap 6 with
      | .error fault => .error fault
      | .ok message => message.copyIn 4 (Bytes.ofNat 2 msgID.toNat)
  | _ => message.copyIn 4 (Bytes.ofNat 2 msgID.toNat)

/-- `write_data` appends at the write point. Without a buffer it does nothing. -/
def writeData (message : Message) (data : List UInt8) : Except Fault Message :=
  if message.getSize < 1 then
    .ok message
  else
    match message.copyIn message.writePoint.toNat data with
    | .error fault => .error fault
    | .ok message =>
        .ok { message with
          writePoint := message.writePoint + UInt32.ofNat data.length }

/-- What `read_data` returns: a null pointer, or the block of bytes from the
pointer it returns to the end of the buffer. -/
abbrev Pointer := Option (List UInt8)

/-- `read_data` moves the read point over `size` bytes if the message has that
many left, and otherwise returns a null pointer. -/
def readData (message : Message) (size : Nat) : Pointer × Message :=
  if message.readPoint.toNat + size > message.getSize.toNat then
    (none, message)
  else
    (some (message.bytes.drop message.readPoint.toNat),
      { message with readPoint := message.readPoint + UInt32.ofNat size })

/-- Use of the `size` bytes behind a pointer. -/
def Pointer.load (pointer : Pointer) (size : Nat) : Except Fault (List UInt8) :=
  match pointer with
  | none => .error .nullDeref
  | some block =>
      if size ≤ block.length then .ok (block.take size) else .error .outOfRange

/-- `getSize` with all the bytes that it loads. -/
def loadSize (model : DataModel) (message : Message) : Except Fault UInt32 :=
  match message.buff with
  | .null => .ok 0
  | .writePoint => .ok 0
  | .heap memory =>
      (Pointer.load (some memory) model.unsignedLong).map fun bytes =>
        UInt32.ofNat (Bytes.toNat bytes)

/-- `getMsgID` with the two bytes that it loads. -/
def loadMsgID (message : Message) : Except Fault UInt16 :=
  match message.buff with
  | .null => .ok 0
  | .writePoint => .ok 0
  | .heap memory =>
      (Pointer.load (some (memory.drop 4)) 2).map fun bytes =>
        UInt16.ofNat (Bytes.toNat bytes)

/-- What `doSend` copies out of a message, or hands to the socket: `getSize()` bytes
from the front of its block. -/
def loadBytes (model : DataModel) (message : Message) : Except Fault (List UInt8) := do
  let size ← message.loadSize model
  match message.buff with
  | .null => return []
  | .writePoint => return []
  | .heap memory => Pointer.load (some memory) size.toNat

section Loads

variable {model : DataModel} {memory : List UInt8} {writePoint readPoint : UInt32}

/-- The bytes of the `unsigned long` behind the first four are cut off. -/
theorem loadSize_heap (inside : model.unsignedLong ≤ memory.length) :
    loadSize model ⟨.heap memory, writePoint, readPoint⟩ = .ok (readWord memory) := by
  have wide := model.four_le_unsignedLong
  have split : memory.take model.unsignedLong =
      memory.take 4 ++ (memory.drop 4).take (model.unsignedLong - 4) := by
    rw [← List.take_add, Nat.add_sub_cancel' wide]
  have front : (memory.take 4).length = 4 := List.length_take_of_le (by omega)
  simp only [loadSize, Pointer.load, if_pos inside, Except.map]
  rw [split, Bytes.toNat_append, front, readWord]
  congr 1
  rw [← UInt32.toNat_inj, UInt32.toNat_ofNat', UInt32.toNat_ofNat']
  omega

theorem loadSize_heap_short (short : memory.length < model.unsignedLong) :
    loadSize model ⟨.heap memory, writePoint, readPoint⟩ = .error .outOfRange := by
  simp only [loadSize, Pointer.load, if_neg (Nat.not_le.mpr short), Except.map]

theorem loadMsgID_heap (inside : 6 ≤ memory.length) :
    loadMsgID ⟨.heap memory, writePoint, readPoint⟩ =
      .ok (getMsgID ⟨.heap memory, writePoint, readPoint⟩) := by
  have enough : 2 ≤ (memory.drop 4).length := by
    rw [List.length_drop]
    omega
  simp only [loadMsgID, getMsgID, Pointer.load, if_pos enough, Except.map]

/-- A block of the size that it announces is sent as a whole. -/
theorem loadBytes_heap (inside : model.unsignedLong ≤ memory.length)
    (whole : memory.length = (readWord memory).toNat) :
    loadBytes model ⟨.heap memory, writePoint, readPoint⟩ = .ok memory := by
  rw [loadBytes, loadSize_heap inside]
  simp only [bind, Except.bind, Pointer.load, ← whole, Nat.le_refl, ↓reduceIte,
    List.take_length]

end Loads

theorem copyIn_heap {memory data : List UInt8} {offset : Nat}
    {writePoint readPoint : UInt32}
    (inside : offset + data.length ≤ memory.length) :
    copyIn ⟨.heap memory, writePoint, readPoint⟩ offset data =
      .ok ⟨.heap (Bytes.overwrite memory offset data), writePoint, readPoint⟩ := by
  simp only [copyIn, if_pos inside]

/-- The block `buildBuff` leaves for a size of at least four. -/
def builtMemory (heap : Heap) (size : Nat) : List UInt8 :=
  Bytes.overwrite (heap.contents size) 0 (wordBytes (UInt32.ofNat size))

@[simp] theorem length_builtMemory (heap : Heap) {size : Nat} (room : 4 ≤ size) :
    (builtMemory heap size).length = size := by
  rw [builtMemory, Bytes.length_overwrite] <;> simp [room]

theorem readWord_builtMemory (heap : Heap) (size : Nat) :
    readWord (builtMemory heap size) = UInt32.ofNat size := by
  simp [builtMemory, Bytes.overwrite]

theorem buildBuff_eq (heap : Heap) (message : Message) {size : Nat}
    (room : 4 ≤ size) :
    message.buildBuff heap size = .ok ⟨.heap (builtMemory heap size), 6, 6⟩ := by
  rw [buildBuff, clear, empty, copyIn_heap (by simp [room]), builtMemory]

/-- A message of fewer than six bytes is dropped by the constructor. -/
theorem ofBuffer_short (heap : Heap) {data : List UInt8}
    (short : data.length < 6) : ofBuffer heap data = .ok empty := by
  rw [ofBuffer, if_pos short]

/-- A message built from at least six bytes owns exactly these bytes. -/
theorem ofBuffer_long (heap : Heap) {data : List UInt8}
    (long : 6 ≤ data.length) :
    ofBuffer heap data = .ok ⟨.heap data, 6, 6⟩ := by
  have length := length_builtMemory heap (show 4 ≤ data.length by omega)
  have whole : Bytes.overwrite (builtMemory heap data.length) 0 data = data := by
    rw [Bytes.overwrite, List.drop_eq_nil_of_le (by omega)]
    simp
  simp only [ofBuffer, if_neg (show ¬data.length < 6 by omega)]
  rw [buildBuff_eq heap empty (by omega)]
  simp only
  rw [copyIn_heap (by omega), whole]

end Message

end Nicenet
