import Nicenet.Session.ParseMsg

/-!
# What one activation of `parseMsg` does

The receiver is described over the stream alone: the bytes of the stream that
belong to no posted frame yet are pending, and the next frame is read off the
pending bytes followed by the chunk. `Holds` connects the three shapes of
`m_PreMsg` with the pending bytes, and `parseMsgBody_step` says, for each shape,
everything an activation can do.
-/

namespace Nicenet

open Library

/-- Frames start with their own length, four bytes wide, and are at most
`MSG_SIZE` bytes long. -/
def frames : Framing UInt8 where
  header := 4
  limit := msgSize
  size stream := (readWord stream).toNat
  header_pos := by omega
  size_append front back long := by rw [readWord_append back long]

@[simp] theorem frames_header : frames.header = 4 := rfl
@[simp] theorem frames_limit : frames.limit = msgSize := rfl
@[simp] theorem frames_size (stream : List UInt8) :
    frames.size stream = (readWord stream).toNat := rfl

/-- The message posted for a frame: the constructor drops a frame that is
shorter than a header. -/
def dispatched (frame : List UInt8) : Message :=
  if frame.length < 6 then Message.empty else ⟨.heap frame, 6, 6⟩

theorem ofBuffer_dispatched (heap : Heap) (frame : List UInt8) :
    Message.ofBuffer heap frame = .ok (dispatched frame) := by
  by_cases short : frame.length < 6
  · rw [dispatched, if_pos short, Message.ofBuffer_short heap short]
  · rw [dispatched, if_neg short, Message.ofBuffer_long heap (by omega)]

/-- The part of the size that waits in the scratch area. -/
def Message.scratchBytes (message : Message) : List UInt8 :=
  (wordBytes message.writePoint).take message.readPoint.toNat

/-- The shapes of `m_PreMsg` and the bytes of the stream that are pending. -/
inductive Holds : Message → List UInt8 → Prop where
  | null {message : Message} : message.buff = .null → Holds message []
  | scratch {message : Message} :
      message.buff = .writePoint → 1 ≤ message.readPoint.toNat →
      message.readPoint.toNat ≤ 3 → Holds message message.scratchBytes
  | body {message : Message} {memory : List UInt8} :
      message.buff = .heap memory → message.getSize.toNat = memory.length →
      4 ≤ message.writePoint.toNat →
      message.writePoint.toNat < memory.length → memory.length ≤ msgSize →
      Holds message (memory.take message.writePoint.toNat)

/-- What a call that returned false may leave behind: nothing, or a buffer for
a frame above the limit. -/
inductive Dropped : Message → Prop where
  | null {message : Message} : message.buff = .null → Dropped message
  | oversize {message : Message} {memory : List UInt8} :
      message.buff = .heap memory → msgSize < message.getSize.toNat →
      Dropped message

/-- The completed part of a split size announces less than the four bytes it
takes itself. -/
def ShortHeader (message : Message) (chunk : List UInt8) : Prop :=
  message.buff = .writePoint ∧ 4 ≤ message.readPoint.toNat + chunk.length ∧
    (readWord (message.scratchBytes ++ chunk)).toNat < 4

/-- The chunk completes a frame that an earlier chunk has begun. -/
def Completes (message : Message) (chunk : List UInt8) : Prop :=
  match message.buff with
  | .null => False
  | .writePoint =>
      4 ≤ message.readPoint.toNat + chunk.length ∧
        (readWord (message.scratchBytes ++ chunk)).toNat ≤ msgSize ∧
        (readWord (message.scratchBytes ++ chunk)).toNat ≤
          message.readPoint.toNat + chunk.length
  | .heap _ =>
      message.getSize.toNat ≤ msgSize ∧
        message.getSize.toNat ≤ message.writePoint.toNat + chunk.length

theorem Op.inRange_allocate (size : Nat) : (Op.allocate size).InRange := trivial

/-- Every operation of an activation stays in range. -/
def Activation.Safe (activation : Activation) : Prop :=
  ∀ op ∈ activation.ops, op.InRange

namespace Activation

@[simp] theorem finish_exit (preMsg : Message) (accepted : Bool) :
    (finish preMsg accepted).exit = .ret accepted := rfl
@[simp] theorem finish_preMsg (preMsg : Message) (accepted : Bool) :
    (finish preMsg accepted).preMsg = preMsg := rfl
@[simp] theorem finish_ops (preMsg : Message) (accepted : Bool) :
    (finish preMsg accepted).ops = [] := rfl
@[simp] theorem recurse_exit (preMsg : Message) (data : List UInt8) :
    (recurse preMsg data).exit = .recurse data := rfl
@[simp] theorem recurse_ops (preMsg : Message) (data : List UInt8) :
    (recurse preMsg data).ops = [] := rfl
@[simp] theorem fail_ops (preMsg : Message) (fault : Fault) :
    (fail preMsg fault).ops = [] := rfl

theorem copying_calls {next : Activation} (empty : next.calls = [])
    (op : Op) (preMsg : Message) : (copying op preMsg next).calls = [] := by
  rw [copying]
  split
  · exact empty
  · rfl

@[simp] theorem logging_preMsg (op : Op) (next : Activation) :
    (logging op next).preMsg = next.preMsg := rfl
@[simp] theorem logging_ops (op : Op) (next : Activation) :
    (logging op next).ops = op :: next.ops := rfl

theorem copying_of_inRange {op : Op} (inRange : op.InRange) (preMsg : Message)
    (next : Activation) : copying op preMsg next = next.logging op :=
  if_pos inRange

end Activation

/-- Everything one activation can do with `data` while `pending` waits. The next
frame is looked for in the pending bytes followed by the data. -/
inductive Step (pending data : List UInt8) (act : Activation) : Prop where
  /-- The frame is not complete: all of the data is kept. -/
  | wait : frames.Waits (pending ++ data) → act.posted = [] →
      act.exit = .ret true → Holds act.preMsg (pending ++ data) →
      act.Safe → Step pending data act
  /-- The frame is too long. -/
  | reject : frames.Rejects (pending ++ data) → act.posted = [] →
      act.exit = .ret false → Dropped act.preMsg → act.Safe →
      Step pending data act
  /-- A frame that lies in the data as a whole is posted. -/
  | frame : pending = [] → frames.Ready data →
      act.posted = [dispatched (data.take (frames.size data))] →
      act.preMsg.buff = .null →
      act.exit = (if frames.size data < data.length then
        .recurse (data.drop (frames.size data)) else .ret true) →
      act.Safe → Step pending data act
  /-- A frame with pending bytes is complete: the null `recvMsg` is used. -/
  | crash : pending ≠ [] → frames.Ready (pending ++ data) →
      (pending.length < 4 → 4 ≤ frames.size (pending ++ data)) →
      act.posted = [] → act.exit = .fault .nullDeref → act.Safe →
      Step pending data act
  /-- A split size announces less than its own four bytes. -/
  | overrun : pending ≠ [] → pending.length < 4 →
      frames.Ready (pending ++ data) → frames.size (pending ++ data) < 4 →
      act.posted = [] → act.exit = .fault .outOfRange → ¬act.Safe →
      Step pending data act

/-- An operation in front of an activation changes nothing but its operations. -/
theorem Step.logging {pending data : List UInt8} {act : Activation} {op : Op}
    (step : Step pending data act) (inRange : op.InRange) :
    Step pending data (act.logging op) := by
  have safe_iff : (act.logging op).Safe ↔ act.Safe := by
    simp [Activation.Safe, inRange]
  cases step with
  | wait waits posted exit holds safe =>
      exact .wait waits posted exit holds (safe_iff.mpr safe)
  | reject rejects posted exit dropped safe =>
      exact .reject rejects posted exit dropped (safe_iff.mpr safe)
  | frame fresh ready posted null exit safe =>
      exact .frame fresh ready posted null exit (safe_iff.mpr safe)
  | crash pending ready sized posted exit safe =>
      exact .crash pending ready sized posted exit (safe_iff.mpr safe)
  | overrun pending few ready tiny posted exit overran =>
      exact .overrun pending few ready tiny posted exit
        fun safe => overran (safe_iff.mp safe)

/-! ## The scratch area -/

theorem wordBytes_scratch {writePoint : UInt32} {offset : Nat} {data : List UInt8}
    (inside : offset + data.length ≤ 4) :
    wordBytes (scratch writePoint offset data) =
      Bytes.overwrite (wordBytes writePoint) offset data := by
  have length : (Bytes.overwrite (wordBytes writePoint) offset data).length = 4 := by
    rw [Bytes.length_overwrite] <;> simp [inside]
  rw [scratch, wordBytes_readWord (by omega), List.take_of_length_le (by omega)]

/-- A copy behind the bytes already in the scratch area appends to them. -/
theorem take_wordBytes_scratch (writePoint : UInt32) {offset : Nat}
    {data : List UInt8} (inside : offset + data.length ≤ 4) :
    (wordBytes (scratch writePoint offset data)).take (offset + data.length) =
      (wordBytes writePoint).take offset ++ data := by
  rw [wordBytes_scratch inside, Bytes.take_overwrite_end]
  rw [length_wordBytes]
  omega

/-- Once the scratch area is full it holds the size of the frame. -/
theorem scratch_full (writePoint : UInt32) {offset : Nat} {data : List UInt8}
    (full : offset + data.length = 4) (rest : List UInt8) :
    scratch writePoint offset data =
      readWord ((wordBytes writePoint).take offset ++ data ++ rest) := by
  have bytes := take_wordBytes_scratch writePoint
    (show offset + data.length ≤ 4 by omega)
  rw [full, List.take_of_length_le (by simp)] at bytes
  rw [← bytes, readWord_wordBytes]

theorem toNat_ofNat_chunk {size : Nat} (small : size ≤ networkBufSize) :
    (UInt32.ofNat size).toNat = size := by
  apply UInt32.toNat_ofNat_of_lt'
  simp only [networkBufSize, UInt32.size] at *
  omega

/-- A buffer that starts with the pending bytes is a shape of `m_PreMsg` when
its size is the one the pending bytes announce. -/
theorem Holds.ofMemory {memory pending back : List UInt8} {writePoint : UInt32}
    (readPoint : UInt32) (split : memory = pending ++ back)
    (announced : (readWord pending).toNat = memory.length)
    (filled : writePoint.toNat = pending.length) (header : 4 ≤ pending.length)
    (unfinished : pending.length < memory.length)
    (limit : memory.length ≤ msgSize) :
    Holds ⟨.heap memory, writePoint, readPoint⟩ pending := by
  have size : (readWord memory).toNat = memory.length := by
    rw [← announced, split, readWord_append back header]
  have holds : Holds ⟨.heap memory, writePoint, readPoint⟩ _ :=
    .body rfl size (by simpa only [filled] using header)
      (by simpa only [filled] using unfinished) limit
  simp only [filled, split, List.take_left] at holds
  rw [split]
  exact holds

/-! ## The branches of an activation -/

namespace Activation

theorem safe_finish (preMsg : Message) (accepted : Bool) :
    (finish preMsg accepted).Safe := by
  simp [Safe]

theorem safe_recurse (preMsg : Message) (data : List UInt8) :
    (recurse preMsg data).Safe := by
  simp [Safe]

theorem safe_fail (preMsg : Message) (fault : Fault) :
    (fail preMsg fault).Safe := by
  simp [Safe]

theorem Safe.logging {op : Op} {next : Activation} (safe : next.Safe)
    (inRange : op.InRange) : (logging op next).Safe := by
  intro other member
  rw [logging_ops, List.mem_cons] at member
  rcases member with rfl | member
  · exact inRange
  · exact safe other member

theorem Safe.posting {next : Activation} (safe : next.Safe) (message : Message) :
    (posting message next).Safe := safe

end Activation

open Activation

section Fresh

variable (heap : Heap) {message : Message} {data : List UInt8}

/-- Fewer than four bytes go to the scratch area. -/
theorem parseFresh_short (chunk : IsChunk data) (short : data.length < 4) :
    Step [] data (parseFresh heap message data) := by
  obtain ⟨nonempty, small⟩ := chunk
  have length := toNat_ofNat_chunk small
  have copy : (Op.memcpy 0 data.length 0 4 data.length).InRange := by
    simp only [Op.InRange]
    omega
  rw [parseFresh, if_pos short, copying_of_inRange copy]
  refine .wait (Or.inl short) rfl rfl ?_ ((safe_finish _ _).logging copy)
  have kept := take_wordBytes_scratch message.writePoint
    (show 0 + data.length ≤ 4 by omega)
  rw [Nat.zero_add, List.take_zero, List.nil_append] at kept
  have holds : Holds ⟨.writePoint, scratch message.writePoint 0 data,
      UInt32.ofNat data.length⟩ _ :=
    .scratch rfl (by rw [length]; omega) (by rw [length]; omega)
  simp only [Message.scratchBytes, length, kept] at holds
  exact holds

/-- A frame that lies in the chunk as a whole is posted. -/
theorem parseFresh_whole (null : message.buff = .null)
    (ready : frames.Ready data) :
    Step [] data (parseFresh heap message data) := by
  obtain ⟨header, limit, whole⟩ := ready
  simp only [frames_header, frames_size, frames_limit] at header limit whole
  have copy : (Op.memcpy 0 data.length 0 (readWord data).toNat
      (readWord data).toNat).InRange := by
    simp only [Op.InRange]
    omega
  rw [parseFresh, if_neg (by omega), if_neg (by omega), if_pos whole,
    ofBuffer_dispatched]
  simp only [copying_of_inRange copy]
  refine .frame rfl ⟨header, limit, whole⟩ ?_ ?_ ?_ ?_
  · split <;> split <;> rfl
  · split <;> split <;> exact null
  · by_cases more : (readWord data).toNat < data.length <;>
      simp only [frames_size, more, ↓reduceIte] <;> split <;> rfl
  · have posted : (posting (dispatched (data.take (readWord data).toNat))
        (if (readWord data).toNat < data.length then
          recurse message (data.drop (readWord data).toNat)
        else finish message true)).Safe := by
      apply Safe.posting
      split
      · exact safe_recurse _ _
      · exact safe_finish _ _
    split
    · exact posted
    · exact (posted.logging copy).logging (Op.inRange_allocate _)

/-- The front of a longer frame goes to a buffer of the announced size. -/
theorem parseFresh_partial (chunk : IsChunk data) (header : 4 ≤ data.length)
    (waits : frames.Waits data) :
    Step [] data (parseFresh heap message data) := by
  have length := toNat_ofNat_chunk chunk.2
  have inside : (readWord data).toNat ≤ msgSize ∧
      data.length < (readWord data).toNat := by
    simp only [Framing.Waits, frames_header, frames_size, frames_limit] at waits
    omega
  have copy : (Op.memcpy 0 data.length 0 (readWord data).toNat
      data.length).InRange := by
    simp only [Op.InRange]
    omega
  rw [parseFresh, if_neg (by omega), if_neg (by omega), if_neg (by omega),
    copying_of_inRange copy]
  refine .wait waits rfl rfl ?_
    (((safe_finish _ _).logging copy).logging (Op.inRange_allocate _))
  have memory : (Bytes.overwrite (heap.contents (readWord data).toNat) 0
      data).length = (readWord data).toNat := by
    rw [Bytes.length_overwrite] <;> rw [heap.length_contents]
    omega
  have split : Bytes.overwrite (heap.contents (readWord data).toNat) 0 data =
      data ++ (heap.contents (readWord data).toNat).drop data.length := by
    simp [Bytes.overwrite]
  have holds : Holds ⟨.heap (Bytes.overwrite
      (heap.contents (readWord data).toNat) 0 data),
      UInt32.ofNat data.length, message.readPoint⟩ data :=
    .ofMemory _ split memory.symm length header (by omega) (by omega)
  exact holds

theorem parseFresh_step (null : message.buff = .null) (chunk : IsChunk data) :
    Step [] data (parseFresh heap message data) := by
  by_cases short : data.length < 4
  · exact parseFresh_short heap chunk short
  · rcases frames.waits_or_rejects_or_ready data with waits | rejects | ready
    · exact parseFresh_partial heap chunk (by omega) waits
    · rw [parseFresh, if_neg short,
        if_pos (show (readWord data).toNat > msgSize from rejects.2)]
      exact .reject rejects rfl rfl (.null null) (safe_finish _ _)
    · exact parseFresh_whole heap null ready

end Fresh

section Rest

variable {memory front back data : List UInt8}
variable {writePoint cutSize : UInt32}

/-- What `parseRest` is entered with: the buffer starts with the bytes received
so far and has the size these announce. -/
structure Filling (memory front back data : List UInt8)
    (writePoint cutSize : UInt32) : Prop where
  split : memory = front ++ back
  filled : writePoint.toNat = front.length
  header : 4 ≤ front.length
  announced : (readWord front).toNat = memory.length
  limit : memory.length ≤ msgSize
  chunk : IsChunk data
  cut : cutSize.toNat ≤ data.length

namespace Filling

theorem getSize (filling : Filling memory front back data writePoint cutSize) :
    (readWord memory).toNat = memory.length := by
  rw [← filling.announced, filling.split, readWord_append back filling.header]

theorem length_le (filling : Filling memory front back data writePoint cutSize) :
    front.length ≤ memory.length := by
  rw [filling.split, List.length_append]
  omega

/-- The unsigned arithmetic on the lengths of a chunk does not wrap. -/
theorem toNat_len (filling : Filling memory front back data writePoint cutSize) :
    (UInt32.ofNat data.length - cutSize).toNat = data.length - cutSize.toNat := by
  have length := toNat_ofNat_chunk filling.chunk.2
  rw [UInt32.toNat_sub_of_le _ _ (by
    rw [UInt32.le_iff_toNat_le, length]
    exact filling.cut), length]

theorem toNat_available
    (filling : Filling memory front back data writePoint cutSize) :
    (UInt32.ofNat data.length + writePoint - cutSize).toNat =
      front.length + (data.drop cutSize.toNat).length := by
  have length := toNat_ofNat_chunk filling.chunk.2
  have small := filling.chunk.2
  have inside := filling.length_le
  have limit := filling.limit
  have cut := filling.cut
  have filled := filling.filled
  have sum : (UInt32.ofNat data.length + writePoint).toNat =
      data.length + writePoint.toNat := by
    rw [UInt32.toNat_add, length]
    simp only [networkBufSize, msgSize] at small limit
    omega
  rw [UInt32.toNat_sub_of_le _ _ (by
    rw [UInt32.le_iff_toNat_le, sum]
    omega), sum, List.length_drop]
  omega

/-- The chunk completes the frame: the copy is in range and the null `recvMsg`
is used. -/
theorem complete (filling : Filling memory front back data writePoint cutSize)
    (readPoint : UInt32)
    (complete : memory.length ≤ front.length + (data.drop cutSize.toNat).length) :
    (parseRest ⟨.heap memory, writePoint, readPoint⟩ cutSize data).posted = [] ∧
      (parseRest ⟨.heap memory, writePoint, readPoint⟩ cutSize data).exit =
        .fault .nullDeref ∧
      (parseRest ⟨.heap memory, writePoint, readPoint⟩ cutSize data).Safe := by
  have size := filling.getSize
  have inside := filling.length_le
  have filled := filling.filled
  have limit := filling.limit
  have cut := filling.cut
  have available := filling.toNat_available
  have len := filling.toNat_len
  have missing : (readWord memory - writePoint).toNat =
      memory.length - front.length := by
    rw [UInt32.toNat_sub_of_le _ _ (by
      rw [UInt32.le_iff_toNat_le]
      omega)]
    omega
  have copy : (Op.memcpy cutSize.toNat data.length writePoint.toNat memory.length
      (readWord memory - writePoint).toNat).InRange := by
    simp only [Op.InRange, missing]
    rw [List.length_drop] at complete
    omega
  have enough : UInt32.ofNat data.length + writePoint - cutSize ≥
      readWord memory := by
    rw [ge_iff_le, UInt32.le_iff_toNat_le, available, size]
    exact complete
  simp only [parseRest, Message.getSize, Message.bytes,
    if_neg (show ¬(readWord memory).toNat > msgSize by omega), if_pos enough,
    copying_of_inRange copy]
  refine ⟨rfl, rfl, ?_⟩
  apply Safe.logging
  · apply Safe.logging
    · apply Safe.logging
      · apply Safe.logging (safe_fail _ _)
        simp only [Op.InRange, UInt32.le_iff_toNat_le, len, missing]
        rw [List.length_drop] at complete
        omega
      · simp only [Op.InRange, UInt32.le_iff_toNat_le,
          toNat_ofNat_chunk filling.chunk.2]
        exact cut
    · exact copy
  · simp only [Op.InRange, UInt32.le_iff_toNat_le]
    omega

/-- The frame stays unfinished: all of the chunk is appended. -/
theorem unfinished (filling : Filling memory front back data writePoint cutSize)
    (readPoint : UInt32)
    (unfinished : front.length + (data.drop cutSize.toNat).length <
      memory.length) :
    (parseRest ⟨.heap memory, writePoint, readPoint⟩ cutSize data).posted = [] ∧
      (parseRest ⟨.heap memory, writePoint, readPoint⟩ cutSize data).exit =
        .ret true ∧
      Holds (parseRest ⟨.heap memory, writePoint, readPoint⟩ cutSize data).preMsg
        (front ++ data.drop cutSize.toNat) ∧
      (parseRest ⟨.heap memory, writePoint, readPoint⟩ cutSize data).Safe := by
  have size := filling.getSize
  have filled := filling.filled
  have limit := filling.limit
  have cut := filling.cut
  have header := filling.header
  have available := filling.toNat_available
  have len := filling.toNat_len
  have copy : (Op.memcpy cutSize.toNat data.length writePoint.toNat memory.length
      (UInt32.ofNat data.length - cutSize).toNat).InRange := by
    simp only [Op.InRange, len]
    rw [List.length_drop] at unfinished
    omega
  have wanting : ¬UInt32.ofNat data.length + writePoint - cutSize ≥
      readWord memory := by
    rw [ge_iff_le, UInt32.le_iff_toNat_le, available, size]
    omega
  simp only [parseRest, Message.getSize, Message.bytes,
    if_neg (show ¬(readWord memory).toNat > msgSize by omega), if_neg wanting,
    copying_of_inRange copy]
  refine ⟨rfl, rfl, ?_, ?_⟩
  · have length : (Bytes.overwrite memory writePoint.toNat
        (data.drop cutSize.toNat)).length = memory.length := by
      apply Bytes.length_overwrite
      omega
    have written : Bytes.overwrite memory writePoint.toNat
        (data.drop cutSize.toNat) = front ++ data.drop cutSize.toNat ++
          memory.drop (writePoint.toNat + (data.drop cutSize.toNat).length) := by
      rw [Bytes.overwrite, filled]
      congr 2
      rw [filling.split, List.take_left]
    have total : (front ++ data.drop cutSize.toNat).length =
        front.length + (data.drop cutSize.toNat).length := List.length_append
    apply Holds.ofMemory readPoint written
    · rw [readWord_append _ header, filling.announced, length]
    · rw [UInt32.toNat_add, len, total, List.length_drop]
      rw [List.length_drop] at unfinished
      simp only [msgSize] at limit
      omega
    · omega
    · omega
    · omega
  · apply Safe.logging
    · exact (safe_finish _ _).logging copy
    · simp only [Op.InRange, UInt32.le_iff_toNat_le,
        toNat_ofNat_chunk filling.chunk.2]
      exact cut

/-- The stream goes on with a frame of which some bytes are pending. -/
theorem step (filling : Filling memory front back data writePoint cutSize)
    (readPoint : UInt32) {pending : List UInt8} (nonempty : pending ≠ [])
    (stream : front ++ data.drop cutSize.toNat = pending ++ data) :
    Step pending data (parseRest ⟨.heap memory, writePoint, readPoint⟩ cutSize data) := by
  have header := filling.header
  have inside := filling.length_le
  have limit := filling.limit
  have size : (readWord (pending ++ data)).toNat = memory.length := by
    rw [← stream, readWord_append _ header, filling.announced]
  have total : (pending ++ data).length =
      front.length + (data.drop cutSize.toNat).length := by
    rw [← stream, List.length_append]
  by_cases complete : memory.length ≤ front.length + (data.drop cutSize.toNat).length
  · obtain ⟨posted, exit, safe⟩ := filling.complete readPoint complete
    have sized : pending.length < 4 → 4 ≤ frames.size (pending ++ data) := by
      intro _
      rw [frames_size, size]
      omega
    refine .crash nonempty ⟨?_, ?_, ?_⟩ sized posted exit safe <;>
      simp only [frames_header, frames_size, frames_limit, size, total] <;> omega
  · obtain ⟨posted, exit, holds, safe⟩ := filling.unfinished readPoint (by omega)
    rw [stream] at holds
    refine .wait (.inr ⟨?_, ?_⟩) posted exit holds safe <;>
      simp only [frames_size, frames_limit, size, total] <;> omega

end Filling

end Rest

section Header

variable (heap : Heap) {message : Message} {data : List UInt8}

theorem length_scratchBytes {message : Message} (few : message.readPoint.toNat ≤ 3) :
    message.scratchBytes.length = message.readPoint.toNat := by
  rw [Message.scratchBytes, List.length_take, length_wordBytes]
  omega

/-- The size is still not complete: the chunk joins the scratch area. -/
theorem parseHeader_short (chunk : IsChunk data)
    (aliased : message.buff = .writePoint) (some : 1 ≤ message.readPoint.toNat)
    (short : message.readPoint.toNat + data.length < 4) :
    Step message.scratchBytes data (parseHeader heap message data) := by
  have length := toNat_ofNat_chunk chunk.2
  have pending := length_scratchBytes (show message.readPoint.toNat ≤ 3 by omega)
  have copy : (Op.memcpy 0 data.length message.readPoint.toNat 4
      data.length).InRange := by
    simp only [Op.InRange]
    omega
  have sum : (message.readPoint + UInt32.ofNat data.length).toNat =
      message.readPoint.toNat + data.length := by
    rw [UInt32.toNat_add, length]
    omega
  have few : message.readPoint + UInt32.ofNat data.length < 4 := by
    rw [UInt32.lt_iff_toNat_lt, sum]
    exact short
  rw [parseHeader, if_pos few, copying_of_inRange copy]
  refine .wait (Or.inl ?_) rfl rfl ?_ ((safe_finish _ _).logging copy)
  · rw [List.length_append, pending]
    exact short
  · have kept := take_wordBytes_scratch message.writePoint
      (show message.readPoint.toNat + data.length ≤ 4 by omega)
    have holds : Holds ⟨.writePoint,
        scratch message.writePoint message.readPoint.toNat data,
        message.readPoint + UInt32.ofNat data.length⟩ _ :=
      .scratch rfl (by rw [sum]; omega) (by rw [sum]; omega)
    simp only [Message.scratchBytes, sum, kept] at holds
    rw [Message.scratchBytes]
    simp only [logging_preMsg, finish_preMsg, aliased]
    exact holds

/-- The block that is allocated once the size is known. -/
def sizedMemory (heap : Heap) (msgLen : UInt32) : List UInt8 :=
  Bytes.overwrite (heap.contents msgLen.toNat) 0 (wordBytes msgLen)

theorem sizedMemory_eq (heap : Heap) (msgLen : UInt32) :
    sizedMemory heap msgLen =
      wordBytes msgLen ++ (heap.contents msgLen.toNat).drop 4 := by
  simp [sizedMemory, Bytes.overwrite]

theorem length_sizedMemory {msgLen : UInt32} (room : 4 ≤ msgLen.toNat) :
    (sizedMemory heap msgLen).length = msgLen.toNat := by
  rw [sizedMemory, Bytes.length_overwrite] <;> rw [heap.length_contents]
  rw [length_wordBytes]
  omega

/-- Its size is all that has been filled in. -/
theorem filling_sizedMemory {msgLen cutSize : UInt32} (room : 4 ≤ msgLen.toNat)
    (limit : msgLen.toNat ≤ msgSize) (chunk : IsChunk data)
    (cut : cutSize.toNat ≤ data.length) :
    Filling (sizedMemory heap msgLen) (wordBytes msgLen)
      ((heap.contents msgLen.toNat).drop 4) data 4 cutSize where
  split := sizedMemory_eq heap msgLen
  filled := (length_wordBytes msgLen).symm
  header := Nat.le_of_eq (length_wordBytes msgLen).symm
  announced := by
    have word := readWord_wordBytes msgLen []
    rw [List.append_nil] at word
    rw [word, length_sizedMemory heap room]
  limit := by
    rw [length_sizedMemory heap room]
    exact limit
  chunk := chunk
  cut := cut

/-- The four bytes of the size do not fit into the block they announce. -/
theorem parseSized_tiny {msgLen cutSize : UInt32} {pending : List UInt8}
    (nonempty : pending ≠ []) (few : pending.length < 4)
    (full : 4 ≤ (pending ++ data).length)
    (announced : readWord (pending ++ data) = msgLen) (tiny : msgLen.toNat < 4) :
    Step pending data (parseSized heap message msgLen cutSize data) := by
  have outside : ¬(Op.memcpy 0 4 0 msgLen.toNat 4).InRange := by
    simp only [Op.InRange]
    omega
  have ready : frames.Ready (pending ++ data) := by
    refine ⟨full, ?_, ?_⟩ <;>
      simp only [frames_size, frames_limit, msgSize, announced] <;> omega
  rw [parseSized, copying, if_neg outside]
  refine .overrun nonempty few ready ?_ rfl rfl ?_
  · rw [frames_size, announced]
    exact tiny
  · intro safe
    exact outside (safe _ (by simp))

/-- What happens to the stream once its size is known. -/
theorem parseSized_step {msgLen cutSize : UInt32} {pending : List UInt8}
    (chunk : IsChunk data) (cut : cutSize.toNat ≤ data.length)
    (nonempty : pending ≠ []) (few : pending.length < 4)
    (stream : 4 ≤ msgLen.toNat →
      wordBytes msgLen ++ data.drop cutSize.toNat = pending ++ data)
    (full : 4 ≤ (pending ++ data).length)
    (announced : readWord (pending ++ data) = msgLen) :
    Step pending data (parseSized heap message msgLen cutSize data) := by
  by_cases tiny : msgLen.toNat < 4
  · exact parseSized_tiny heap nonempty few full announced tiny
  · have room : 4 ≤ msgLen.toNat := Nat.not_lt.mp tiny
    have fits : (Op.memcpy 0 4 0 msgLen.toNat 4).InRange := by
      simp only [Op.InRange]
      omega
    rw [parseSized, copying_of_inRange fits]
    apply Step.logging (Step.logging _ fits) (Op.inRange_allocate _)
    by_cases oversize : msgSize < msgLen.toNat
    · have dropped : msgSize <
          (Message.getSize ⟨.heap (sizedMemory heap msgLen), 4, 4⟩).toNat := by
        rw [Message.getSize_heap, sizedMemory_eq, readWord_wordBytes]
        exact oversize
      rw [← sizedMemory, parseRest, if_pos dropped]
      refine .reject ⟨full, ?_⟩ rfl rfl (.oversize rfl dropped) (safe_finish _ _)
      rw [frames_size, frames_limit, announced]
      exact oversize
    · have filling := filling_sizedMemory heap room (Nat.not_lt.mp oversize) chunk cut
      exact filling.step 4 nonempty (stream room)

/-- The chunk completes the size, which is then read off the stream. -/
theorem parseHeader_sized (chunk : IsChunk data) (few : message.readPoint.toNat ≤ 3)
    (full : 4 ≤ message.readPoint.toNat + data.length) :
    (4 - message.readPoint).toNat = 4 - message.readPoint.toNat ∧
      (Op.memcpy 0 data.length message.readPoint.toNat 4
        (4 - message.readPoint).toNat).InRange ∧
      parseHeader heap message data =
        logging (.memcpy 0 data.length message.readPoint.toNat 4
          (4 - message.readPoint).toNat)
          (parseSized heap message (readWord (message.scratchBytes ++ data))
            (4 - message.readPoint) data) := by
  have length := toNat_ofNat_chunk chunk.2
  have sum : (message.readPoint + UInt32.ofNat data.length).toNat =
      message.readPoint.toNat + data.length := by
    have small := chunk.2
    simp only [networkBufSize] at small
    rw [UInt32.toNat_add, length]
    omega
  have enough : ¬message.readPoint + UInt32.ofNat data.length < 4 := by
    rw [UInt32.lt_iff_toNat_lt, sum]
    exact Nat.not_lt.mpr full
  have cut : (4 - message.readPoint).toNat = 4 - message.readPoint.toNat :=
    UInt32.toNat_sub_of_le _ _ (by
      rw [UInt32.le_iff_toNat_le]
      exact Nat.le_trans few (by decide))
  have taken : (data.take (4 - message.readPoint).toNat).length =
      4 - message.readPoint.toNat := by
    rw [List.length_take, cut]
    omega
  have copy : (Op.memcpy 0 data.length message.readPoint.toNat 4
      (4 - message.readPoint).toNat).InRange := by
    simp only [Op.InRange, cut]
    omega
  have size : scratch message.writePoint message.readPoint.toNat
      (data.take (4 - message.readPoint).toNat) =
        readWord (message.scratchBytes ++ data) := by
    have joined := scratch_full message.writePoint
      (show message.readPoint.toNat + _ = 4 by rw [taken]; omega)
      (data.drop (4 - message.readPoint).toNat)
    rw [List.append_assoc, List.take_append_drop] at joined
    exact joined
  refine ⟨cut, copy, ?_⟩
  rw [parseHeader, if_neg enough, copying_of_inRange copy]
  simp only [size]

/-- The chunk completes the size. -/
theorem parseHeader_full (chunk : IsChunk data)
    (some : 1 ≤ message.readPoint.toNat) (few : message.readPoint.toNat ≤ 3)
    (full : 4 ≤ message.readPoint.toNat + data.length) :
    Step message.scratchBytes data (parseHeader heap message data) := by
  have pending := length_scratchBytes few
  obtain ⟨cut, copy, sized⟩ := parseHeader_sized heap chunk few full
  have total : (message.scratchBytes ++ data).length =
      message.readPoint.toNat + data.length := by
    rw [List.length_append, pending]
  have stream : wordBytes (readWord (message.scratchBytes ++ data)) ++
      data.drop (4 - message.readPoint).toNat = message.scratchBytes ++ data := by
    rw [wordBytes_readWord (by omega), List.take_append, pending,
      List.take_of_length_le (by omega), List.append_assoc, cut,
      List.take_append_drop]
  have step : Step message.scratchBytes data (parseSized heap message
      (readWord (message.scratchBytes ++ data)) (4 - message.readPoint) data) := by
    refine parseSized_step heap chunk (by omega) ?_ (by omega) (fun _ => stream)
      (by omega) rfl
    intro empty
    rw [empty, List.length_nil] at pending
    omega
  rw [sized]
  exact step.logging copy

end Header

/-- An activation with the buffer of an unfinished frame. -/
theorem parseRest_step {message : Message} {memory data : List UInt8}
    (buff : message.buff = .heap memory)
    (announced : message.getSize.toNat = memory.length)
    (header : 4 ≤ message.writePoint.toNat)
    (unfinished : message.writePoint.toNat < memory.length)
    (limit : memory.length ≤ msgSize) (chunk : IsChunk data) :
    Step (memory.take message.writePoint.toNat) data (parseRest message 0 data) := by
  obtain ⟨buffer, writePoint, readPoint⟩ := message
  simp only at buff header unfinished
  subst buff
  simp only [Message.getSize_heap] at announced
  have length : (memory.take writePoint.toNat).length = writePoint.toNat := by
    rw [List.length_take]
    omega
  have size : readWord (memory.take writePoint.toNat) = readWord memory :=
    readWord_take header
  have filling : Filling memory (memory.take writePoint.toNat)
      (memory.drop writePoint.toNat) data writePoint 0 := by
    refine ⟨(List.take_append_drop _ _).symm, length.symm, by omega, ?_, limit,
      chunk, Nat.zero_le _⟩
    rw [size]
    exact announced
  have nonempty : memory.take writePoint.toNat ≠ [] := by
    intro empty
    rw [empty, List.length_nil] at length
    omega
  exact filling.step readPoint nonempty rfl

/-- Every activation is a step of the stream. -/
theorem parseMsgBody_step (heap : Heap) {message : Message}
    {pending data : List UInt8} (holds : Holds message pending)
    (chunk : IsChunk data) : Step pending data (parseMsgBody heap message data) := by
  rw [parseMsgBody, if_neg (Nat.not_lt.mpr chunk.2)]
  cases holds with
  | null null =>
      rw [null]
      exact parseFresh_step heap null chunk
  | scratch aliased some few =>
      rw [aliased]
      by_cases short : message.readPoint.toNat + data.length < 4
      · exact parseHeader_short heap chunk aliased some short
      · exact parseHeader_full heap chunk some few (by omega)
  | body buff announced header unfinished limit =>
      simp only [buff]
      exact parseRest_step buff announced header unfinished limit chunk

/-- A rejected buffer is rejected again by every later call. -/
theorem parseMsgBody_oversize (heap : Heap) {message : Message}
    {memory data : List UInt8} (buff : message.buff = .heap memory)
    (oversize : msgSize < message.getSize.toNat) (chunk : IsChunk data) :
    parseMsgBody heap message data = finish message false := by
  rw [parseMsgBody, if_neg (Nat.not_lt.mpr chunk.2)]
  simp only [buff, parseRest]
  rw [if_pos oversize]

/-- The recursive calls of a call are recorded by `parseMsg` alone. -/
theorem parseMsgBody_calls (heap : Heap) (message : Message) (data : List UInt8) :
    (parseMsgBody heap message data).calls = [] := by
  have rest : ∀ (message : Message) (cutSize : UInt32),
      (parseRest message cutSize data).calls = [] := by
    intro message cutSize
    simp only [parseRest]
    split
    · rfl
    · split <;> exact copying_calls rfl _ _
  rw [parseMsgBody]
  split
  · rfl
  · split
    · simp only [parseFresh, ofBuffer_dispatched]
      split
      · exact copying_calls rfl _ _
      · split
        · rfl
        · split
          · split <;> split
            · rfl
            · rfl
            · exact copying_calls rfl _ _
            · exact copying_calls rfl _ _
          · exact copying_calls rfl _ _
    · simp only [parseHeader, parseSized]
      split
      · exact copying_calls rfl _ _
      · apply copying_calls
        change (copying _ _ _).calls = []
        exact copying_calls (rest _ _) _ _
    · exact rest message 0

/-! ## Whole calls -/

section Call

variable (heap : Heap) {message : Message} {pending data : List UInt8}

theorem parseMsg_of_recurse {rest : List UInt8} (fuel : Nat)
    (exit : (parseMsgBody heap message data).exit = .recurse rest) :
    parseMsg heap (fuel + 1) message data =
      (parseMsgBody heap message data).calling data.length rest.length
        (parseMsg heap fuel (parseMsgBody heap message data).preMsg rest) := by
  simp only [parseMsg, exit]

theorem parseMsg_of_ret {accepted : Bool} (fuel : Nat)
    (exit : (parseMsgBody heap message data).exit = .ret accepted) :
    parseMsg heap (fuel + 1) message data = parseMsgBody heap message data := by
  simp only [parseMsg, exit]

theorem parseMsg_of_fault {fault : Fault} (fuel : Nat)
    (exit : (parseMsgBody heap message data).exit = .fault fault) :
    parseMsg heap (fuel + 1) message data = parseMsgBody heap message data := by
  simp only [parseMsg, exit]

/-- A call with pending bytes has one activation. -/
theorem parseMsg_pending (holds : Holds message pending) (chunk : IsChunk data)
    (nonempty : pending ≠ []) (fuel : Nat) :
    parseMsg heap (fuel + 1) message data = parseMsgBody heap message data := by
  have step := parseMsgBody_step heap holds chunk
  cases step with
  | wait waits posted exit => exact parseMsg_of_ret heap fuel exit
  | reject rejects posted exit => exact parseMsg_of_ret heap fuel exit
  | frame fresh => exact absurd fresh nonempty
  | crash _ _ _ posted exit => exact parseMsg_of_fault heap fuel exit
  | overrun _ _ _ _ posted exit => exact parseMsg_of_fault heap fuel exit

/-- The rest of a chunk behind a whole frame is a chunk again. -/
theorem IsChunk.drop {size : Nat} (chunk : IsChunk data) (more : size < data.length) :
    IsChunk (data.drop size) := by
  have small := chunk.2
  constructor <;> rw [List.length_drop] <;> omega

/-- Without an unfinished frame a call strips whole frames off its chunk, as
long as none of them has size zero. -/
theorem parseMsg_fresh (fuel : Nat) (null : message.buff = .null)
    (chunk : IsChunk data) (progress : ¬frames.Stalls data)
    (enough : data.length < fuel) :
    ∃ taken rest, frames.Strips data taken rest ∧
      (parseMsg heap fuel message data).posted = taken.map dispatched ∧
      ((frames.Waits rest ∧
          (parseMsg heap fuel message data).exit = .ret true ∧
          Holds (parseMsg heap fuel message data).preMsg rest) ∨
        (frames.Rejects rest ∧
          (parseMsg heap fuel message data).exit = .ret false ∧
          Dropped (parseMsg heap fuel message data).preMsg)) := by
  induction fuel generalizing message data with
  | zero => omega
  | succ fuel ih =>
      have step := parseMsgBody_step heap (.null null) chunk
      cases step with
      | wait waits posted exit holds =>
          rw [parseMsg_of_ret heap fuel exit]
          exact ⟨[], data, .refl data, posted, .inl ⟨waits, exit, holds⟩⟩
      | reject rejects posted exit dropped =>
          rw [parseMsg_of_ret heap fuel exit]
          exact ⟨[], data, .refl data, posted, .inr ⟨rejects, exit, dropped⟩⟩
      | frame _ ready posted after exit =>
          rw [frames.stalls_iff_of_ready ready, not_or] at progress
          obtain ⟨positive, progress⟩ := progress
          by_cases more : frames.size data < data.length
          · rw [if_pos more] at exit
            have shorter : (data.drop (frames.size data)).length < fuel := by
              rw [List.length_drop]
              omega
            obtain ⟨taken, rest, strips, later, result⟩ :=
              ih after (chunk.drop more) progress shorter
            rw [parseMsg_of_recurse heap fuel exit]
            refine ⟨_, rest, .frame ready strips, ?_, result⟩
            simp only [calling, posted, later, List.map_cons, List.singleton_append]
          · rw [if_neg more] at exit
            rw [parseMsg_of_ret heap fuel exit]
            have behind : frames.Strips (data.drop (frames.size data)) [] [] := by
              rw [List.drop_eq_nil_of_le (by omega)]
              exact .refl []
            refine ⟨_, [], .frame ready behind, posted,
              .inl ⟨.inl (by simp), exit, .null after⟩⟩
      | crash nonempty => exact absurd rfl nonempty
      | overrun nonempty => exact absurd rfl nonempty

/-- With a frame of size zero ahead the call never returns. -/
theorem parseMsg_stalls (fuel : Nat) (null : message.buff = .null)
    (chunk : IsChunk data) (stalls : frames.Stalls data) :
    ∃ rest, (parseMsg heap fuel message data).exit = .recurse rest := by
  induction fuel generalizing message data with
  | zero => exact ⟨data, rfl⟩
  | succ fuel ih =>
      have step := parseMsgBody_step heap (.null null) chunk
      cases step with
      | wait waits => exact absurd stalls (frames.not_stalls_of_waits waits)
      | reject rejects => exact absurd stalls (frames.not_stalls_of_rejects rejects)
      | frame _ ready posted after exit =>
          have behind : frames.Stalls (data.drop (frames.size data)) ∧
              frames.size data < data.length := by
            rcases (frames.stalls_iff_of_ready ready).mp stalls with zero | behind
            · have header := ready.1
              rw [frames_header] at header
              rw [zero, List.drop_zero]
              exact ⟨stalls, by omega⟩
            · refine ⟨behind, ?_⟩
              obtain ⟨taken, rest, strips, header, _⟩ := behind
              have shorter := strips.length_le
              rw [List.length_drop] at shorter
              rw [frames_header] at header
              omega
          rw [if_pos behind.2] at exit
          rw [parseMsg_of_recurse heap fuel exit]
          exact ih after (chunk.drop behind.2) behind.1
      | crash nonempty => exact absurd rfl nonempty
      | overrun nonempty => exact absurd rfl nonempty

end Call

end Nicenet
