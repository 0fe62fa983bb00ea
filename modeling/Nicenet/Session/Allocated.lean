import Nicenet.Session.Settled

/-!
# The buffers that `parseMsg` allocates

Where a chunk brings the size of a frame as a whole, `parseMsg` compares it with `MSG_SIZE`
before it allocates. Where the size has come in pieces, it allocates first.
-/

namespace Nicenet

open Library Activation

/-- The completed part of a split size announces more than `MSG_SIZE`. -/
def LongHeader (message : Message) (chunk : List UInt8) : Prop :=
  message.buff = .writePoint ∧ 4 ≤ message.readPoint.toNat + chunk.length ∧
    msgSize < (readWord (message.scratchBytes ++ chunk)).toNat

instance (message : Message) (chunk : List UInt8) :
    Decidable (LongHeader message chunk) :=
  inferInstanceAs (Decidable (_ ∧ _ ∧ _))

/-! ## One activation -/

section Body

variable {message : Message} {data : List UInt8} {size : Nat}

theorem mem_copying {next : Activation} {source sourceSize target targetSize count : Nat}
    (allocated : .allocate size ∈
      (copying (.memcpy source sourceSize target targetSize count) message next).ops) :
    .allocate size ∈ next.ops := by
  rw [copying] at allocated
  split at allocated <;> simp_all

theorem parseRest_allocates (cutSize : UInt32) :
    .allocate size ∉ (parseRest message cutSize data).ops := by
  intro allocated
  simp only [parseRest] at allocated
  split at allocated
  · simp at allocated
  · split at allocated
    · simp only [logging_ops, List.mem_cons, reduceCtorEq, false_or] at allocated
      have allocated := mem_copying allocated
      simp at allocated
    · simp only [logging_ops, List.mem_cons, reduceCtorEq, false_or] at allocated
      have allocated := mem_copying allocated
      simp at allocated

theorem parseSized_allocates (heap : Heap) (msgLen cutSize : UInt32) :
    .allocate size ∈ (parseSized heap message msgLen cutSize data).ops ↔
      size = msgLen.toNat := by
  rw [parseSized, logging_ops, List.mem_cons, Op.allocate.injEq]
  refine or_iff_left fun allocated => ?_
  exact parseRest_allocates cutSize (mem_copying allocated)

/-- What is allocated for a frame in the chunk is within the limit. -/
theorem parseFresh_allocates (heap : Heap)
    (allocated : .allocate size ∈ (parseFresh heap message data).ops) : size ≤ msgSize := by
  simp only [parseFresh] at allocated
  split at allocated
  · simpa using mem_copying allocated
  · split at allocated
    · simp at allocated
    · next limit =>
      have own {source sourceSize targetSize count : Nat} {next : Activation}
          (empty : next.ops = [])
          (allocated : .allocate size ∈ (logging (.allocate (readWord data).toNat)
            (copying (.memcpy 0 source sourceSize targetSize count) message next)).ops) :
          size ≤ msgSize := by
        rw [logging_ops, List.mem_cons, Op.allocate.injEq] at allocated
        rcases allocated with rfl | allocated
        · omega
        · simpa [empty] using mem_copying allocated
      split at allocated
      · rw [ofBuffer_dispatched] at allocated
        simp only at allocated
        split at allocated
        · simp only [posting] at allocated
          split at allocated <;> simp at allocated
        · refine own ?_ allocated
          simp only [posting]
          split <;> rfl
      · exact own rfl allocated

/-- What is allocated behind pending bytes is for a frame whose size has come in pieces. -/
theorem pending_allocates_iff (heap : Heap) {pending : List UInt8}
    (holds : Holds message pending) (nonempty : pending ≠ []) (chunk : IsChunk data) :
    .allocate size ∈ (parseMsgBody heap message data).ops ↔
      message.buff = .writePoint ∧ 4 ≤ message.readPoint.toNat + data.length ∧
        size = (readWord (message.scratchBytes ++ data)).toNat := by
  rw [parseMsgBody, if_neg (Nat.not_lt.mpr chunk.2)]
  cases holds with
  | null null => exact absurd rfl nonempty
  | scratch aliased some few =>
      simp only [aliased, true_and]
      by_cases full : 4 ≤ message.readPoint.toNat + data.length
      · obtain ⟨_, copy, sized⟩ := parseHeader_sized heap chunk few full
        rw [sized, logging_ops, List.mem_cons, or_iff_right Op.noConfusion,
          parseSized_allocates, and_iff_right full]
      · have length := toNat_ofNat_chunk chunk.2
        have short : message.readPoint + UInt32.ofNat data.length < 4 := by
          rw [UInt32.lt_iff_toNat_lt, UInt32.toNat_add, length]
          exact Nat.lt_of_le_of_lt (Nat.mod_le _ _) (Nat.not_le.mp full)
        refine iff_of_false ?_ fun both => full both.1
        rw [parseHeader, if_pos short]
        intro allocated
        simpa using mem_copying allocated
  | body buff =>
      simp only [buff, reduceCtorEq, false_and, iff_false]
      exact parseRest_allocates 0

end Body

/-! ## One call -/

section Call

variable (heap : Heap) {message : Message} {pending received data : List UInt8}

/-- A session without a message never allocates more than `MSG_SIZE`. -/
theorem parseMsg_allocates_fresh (fuel : Nat) {size : Nat} (null : message.buff = .null)
    (chunk : IsChunk data)
    (allocated : .allocate size ∈ (parseMsg heap fuel message data).ops) :
    size ≤ msgSize := by
  induction fuel generalizing message data with
  | zero => simp [parseMsg] at allocated
  | succ fuel ih =>
      have once (allocated : .allocate size ∈ (parseMsgBody heap message data).ops) :
          size ≤ msgSize := by
        rw [parseMsgBody, if_neg (Nat.not_lt.mpr chunk.2)] at allocated
        simp only [null] at allocated
        exact parseFresh_allocates heap allocated
      have step := parseMsgBody_step heap (.null null) chunk
      cases step with
      | wait _ _ exit =>
          rw [parseMsg_of_ret heap fuel exit] at allocated
          exact once allocated
      | reject _ _ exit =>
          rw [parseMsg_of_ret heap fuel exit] at allocated
          exact once allocated
      | frame _ _ _ after exit =>
          by_cases more : frames.size data < data.length
          · rw [if_pos more] at exit
            rw [parseMsg_of_recurse heap fuel exit] at allocated
            rcases List.mem_append.mp allocated with own | later
            · exact once own
            · exact ih after (chunk.drop more) later
          · rw [if_neg more] at exit
            rw [parseMsg_of_ret heap fuel exit] at allocated
            exact once allocated
      | crash nonempty => exact absurd rfl nonempty
      | overrun nonempty => exact absurd rfl nonempty

/-- All that a call allocates is within the limit. -/
def Bounded (message : Message) (data : List UInt8) : Prop :=
  ∀ fuel size, .allocate size ∈ (parseMsg heap fuel message data).ops → size ≤ msgSize

/-- The next frame announces more than the limit: the call that sees its size returns
false, and has allocated nothing for it. -/
def Refuses (message : Message) (received data : List UInt8) : Prop :=
  ∀ done pending taken rest, frames.Strips received done pending → frames.Waits pending →
    frames.Strips (pending ++ data) taken rest → frames.Rejects rest →
    pending = [] ∨ taken = [] →
    (parseMsg heap (data.length + 1) message data).exit = .ret false ∧
      .allocate (frames.size rest) ∉ (parseMsg heap (data.length + 1) message data).ops

theorem Settled.bounded_iff (settled : Settled message received) (chunk : IsChunk data) :
    Bounded heap message data ↔ ¬LongHeader message data := by
  cases settled with
  | @stream taken pending strips waits holds =>
      by_cases empty : pending = []
      · subst empty
        have null := holds.buff_null
        refine iff_of_true (fun fuel size => parseMsg_allocates_fresh heap fuel null chunk) ?_
        rintro ⟨aliased, _⟩
        rw [null] at aliased
        cases aliased
      · have body : Bounded heap message data ↔
            ∀ size, .allocate size ∈ (parseMsgBody heap message data).ops →
              size ≤ msgSize := by
          constructor
          · intro bounded size
            rw [← parseMsg_pending heap holds chunk empty 0]
            exact bounded 1 size
          · rintro bounded (_ | fuel) size allocated
            · simp [parseMsg] at allocated
            · rw [parseMsg_pending heap holds chunk empty] at allocated
              exact bounded size allocated
        simp only [body, pending_allocates_iff heap holds empty chunk, LongHeader]
        constructor
        · rintro bounded ⟨aliased, full, long⟩
          exact absurd (bounded _ ⟨aliased, full, rfl⟩) (Nat.not_le.mpr long)
        · rintro short size ⟨aliased, full, rfl⟩
          exact Nat.not_lt.mp fun long => short ⟨aliased, full, long⟩
  | oversize buff oversize =>
      have once := parseMsgBody_oversize heap buff oversize chunk
      apply iff_of_true
      · rintro (_ | fuel) size allocated
        · simp [parseMsg] at allocated
        · rw [parseMsg_of_ret heap fuel (by rw [once, Activation.finish_exit]), once]
            at allocated
          simp at allocated
      · rintro ⟨aliased, _⟩
        rw [buff] at aliased
        cases aliased

/-- A call that allocates no more than the limit refuses what is above it. -/
theorem Settled.refuses (settled : Settled message received) (chunk : IsChunk data)
    (bounded : Bounded heap message data) : Refuses heap message received data := by
  intro done pending taken rest strips waits ahead rejects next
  refine ⟨?_, fun allocated =>
    absurd (bounded _ _ allocated) (Nat.not_le.mpr rejects.2)⟩
  cases settled with
  | @stream others held front unfinished holds =>
      obtain ⟨_, rfl⟩ := strips.unique front (fun ready => ready.not_waits waits)
        fun ready => ready.not_waits unfinished
      have maximal : ¬frames.Ready rest := fun ready => ready.not_rejects rejects
      by_cases empty : pending = []
      · subst empty
        rw [List.nil_append] at ahead
        obtain ⟨_, more, all, _, ⟨waits, _⟩ | ⟨_, exit, _⟩⟩ :=
          parseMsg_fresh heap (data.length + 1) holds.buff_null chunk
            (ahead.not_stalls maximal) (Nat.lt_succ_self _)
        · obtain ⟨_, rfl⟩ := all.unique ahead (fun ready => ready.not_waits waits) maximal
          exact absurd rejects waits.not_rejects
        · exact exit
      · cases next.resolve_left empty
        cases ahead
        rw [parseMsg_pending heap holds chunk empty]
        have step := parseMsgBody_step heap holds chunk
        cases step with
        | wait waits => exact absurd rejects waits.not_rejects
        | reject _ _ exit => exact exit
        | frame fresh => exact absurd fresh empty
        | crash _ ready => exact absurd ready maximal
        | overrun _ _ ready => exact absurd ready maximal
  | oversize buff oversize =>
      have once := parseMsgBody_oversize heap buff oversize chunk
      rw [parseMsg_of_ret heap data.length (by rw [once, Activation.finish_exit]), once]
      rfl

end Call

/-! ## Every call of a run -/

section Run

variable (transport : Transport) (heap : Heap)

/-- No call of a run allocates more than `MSG_SIZE`, and each that sees the size of a
longer frame refuses it before anything is allocated for it. -/
def RefusesLong (chunks : List (List UInt8)) : Prop :=
  ∀ feed ∈ feeds transport heap Message.empty [] chunks,
    (∀ done pending taken rest, frames.Strips feed.received done pending →
      frames.Waits pending → frames.Strips (pending ++ feed.chunk) taken rest →
      frames.Rejects rest → pending = [] ∨ taken = [] →
      feed.call.exit = .ret false ∧ .allocate (frames.size rest) ∉ feed.call.ops) ∧
    ∀ fuel size,
      .allocate size ∈ (transport.parseMsg heap fuel feed.before feed.chunk).ops →
        size ≤ msgSize

/-- Frames above the limit are refused on every stream in which the size of none of them
comes in pieces. -/
theorem refusesLong_iff (chunks : List (List UInt8))
    (legal : ∀ chunk ∈ chunks, IsChunk chunk) :
    RefusesLong transport heap chunks ↔
      ∀ feed ∈ feeds transport heap Message.empty [] chunks,
        ¬LongHeader feed.before feed.chunk := by
  refine forall₂_congr fun feed member => ?_
  obtain ⟨settled, chunk, call⟩ :=
    feeds_settled transport heap Settled.init legal feed member
  rw [Transport.parseMsg_eq, call, ← settled.bounded_iff heap chunk]
  constructor
  · exact fun both => both.2
  · exact fun bounded => ⟨settled.refuses heap chunk bounded, bounded⟩

/-- The size of a frame that is too long comes in one chunk. -/
theorem refusesLong_whole_size :
    RefusesLong .tcp (Heap.filled 0) [[1, 128, 0, 0, 7], [6, 0], [0]] :=
  (refusesLong_iff .tcp (Heap.filled 0) _ (by simp [IsChunk, networkBufSize])).mpr (by
    decide +kernel)

/-- The size of a frame that is too long comes in two chunks. -/
theorem not_refusesLong :
    ¬RefusesLong .tcp (Heap.filled 0) [[1], [128, 0, 0]] := by
  intro refuses
  have member : ⟨⟨.writePoint, 1, 1⟩, [1], [128, 0, 0],
      parseMsg (Heap.filled 0) 4 ⟨.writePoint, 1, 1⟩ [128, 0, 0]⟩ ∈
        feeds .tcp (Heap.filled 0) Message.empty [] [[1], [128, 0, 0]] :=
    List.mem_cons_of_mem _ List.mem_cons_self
  have allocated := (refuses _ member).2 1 32769 (by decide +kernel)
  exact absurd allocated (by decide)

end Run

end Nicenet
