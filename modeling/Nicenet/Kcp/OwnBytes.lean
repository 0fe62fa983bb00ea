import Nicenet.Kcp.Datagram

/-!
# Datagrams and what lies behind them

A handler should go by the bytes of its datagram and not by those that earlier ones have
left behind it. Two buffers that hold the same datagram give the same fields as long as
these lie inside of it; only the datagrams of type 4 are read without a test of that.
-/

namespace Nicenet.Kcp

open Library

/-- Two calls of a handler that return and have done the same. -/
def Same (first second : Except Fault Handled) : Prop :=
  ∃ handled, first = .ok handled ∧ second = .ok handled

/-- Whatever two receive buffers hold behind a datagram, the handler does the same. -/
def JudgedAlone (side : Side) (heap : Heap) (datagram : List UInt8) : Prop :=
  ∀ buffer buffer' : Buffer, datagram <+: buffer.bytes → datagram <+: buffer'.bytes →
    Same (side.handler heap buffer datagram.length)
      (side.handler heap buffer' datagram.length)

/-- The length that a datagram of type 4 announces. -/
def announced (datagram : List UInt8) : Nat :=
  (readWord (Bytes.slice datagram (1 + publicKeySize) 4)).toNat

/-- The datagram holds its length field, and as many bytes as that says: unless it is
refused, or too short for a message, or the last byte is the one that ends the string. -/
def Covers (datagram : List UInt8) : Prop :=
  1 + publicKeySize + 4 ≤ datagram.length ∧
    (announced datagram < datagram.length - 1 - publicKeySize ∨ announced datagram < 6 ∨
      1 + announced datagram ≤ datagram.length ∨
      datagram.length = networkBufSize ∧ announced datagram = networkBufSize)

instance : DecidablePred Covers := fun _ => inferInstanceAs (Decidable (_ ∧ _))

/-! ## Fields inside of a datagram -/

section Agree

variable {datagram : List UInt8} {buffer buffer' : Buffer}

theorem cStr_eq (holds : datagram <+: buffer.bytes) :
    ∃ rest, buffer.cStr = datagram ++ rest := by
  obtain ⟨rest, bytes⟩ := holds
  exact ⟨rest ++ [0], by rw [Buffer.cStr, ← bytes, List.append_assoc]⟩

theorem slice_cStr (holds : datagram <+: buffer.bytes) {offset size : Nat}
    (inside : offset + size ≤ datagram.length) :
    Bytes.slice buffer.cStr offset size = Bytes.slice datagram offset size := by
  obtain ⟨rest, cStr⟩ := cStr_eq holds
  rw [cStr, Bytes.slice_append_left rest inside]

theorem packetType_eq (holds : datagram <+: buffer.bytes) (nonempty : datagram ≠ []) :
    buffer.packetType = datagram.headD 0 := by
  obtain ⟨rest, cStr⟩ := cStr_eq holds
  cases datagram with
  | nil => exact absurd rfl nonempty
  | cons type datagram => rw [Buffer.packetType, cStr, List.cons_append, List.headD_cons,
      List.headD_cons]

theorem len_eq (holds : datagram <+: buffer.bytes)
    (inside : 1 + publicKeySize + 4 ≤ datagram.length) :
    buffer.len.toNat = announced datagram := by
  rw [Buffer.len, slice_cStr holds inside, announced]

theorem uid_eq (holds : datagram <+: buffer.bytes)
    (inside : 1 + publicKeySize ≤ datagram.length) :
    buffer.uid = Bytes.slice datagram 1 publicKeySize :=
  slice_cStr holds inside

variable (holds : datagram <+: buffer.bytes) (holds' : datagram <+: buffer'.bytes)
include holds holds'

/-- The guard of type 3 covers all that is read. -/
theorem receiveInput_same (long : ikcpOverhead ≤ datagram.length) :
    receiveInput buffer datagram.length = receiveInput buffer' datagram.length := by
  have sizes : ikcpOverhead = 89 ∧ publicKeySize = 64 := ⟨rfl, rfl⟩
  have worker : buffer.workerIndex = buffer'.workerIndex := by
    rw [Buffer.workerIndex, Buffer.workerIndex, slice_cStr holds (by omega),
      slice_cStr holds' (by omega)]
  have data_ : Bytes.slice buffer.cStr (1 + publicKeySize)
      (datagram.length - 1 - publicKeySize) = Bytes.slice buffer'.cStr (1 + publicKeySize)
      (datagram.length - 1 - publicKeySize) := by
    rw [slice_cStr holds (by omega), slice_cStr holds' (by omega)]
  simp only [receiveInput, worker, data_, uid_eq holds (by omega), uid_eq holds' (by omega)]

/-- The copy stays inside of the datagram, or it takes all of the buffer, or no message is
made of it. -/
theorem copied_same {size : Nat}
    (covered : size < 6 ∨ 1 + size ≤ datagram.length ∨
      datagram.length = networkBufSize ∧ size = networkBufSize) :
    copied (Bytes.slice buffer.cStr 1 size) = copied (Bytes.slice buffer'.cStr 1 size) := by
  have sizes : networkBufSize = 16384 := rfl
  rcases covered with few | within | ⟨full, _⟩
  · have short : ∀ buffer : Buffer, copied (Bytes.slice buffer.cStr 1 size) = .empty := by
      intro buffer
      rw [copied, Bytes.length_slice (by rw [Buffer.length_cStr]; omega), if_pos few]
    rw [short, short]
  · rw [slice_cStr holds within, slice_cStr holds' within]
  · have whole : ∀ {buffer : Buffer}, datagram <+: buffer.bytes → buffer.bytes = datagram :=
      fun {buffer} holds => (holds.eq_of_length (full.trans buffer.length_bytes.symm)).symm
    rw [Buffer.cStr, Buffer.cStr, whole holds, whole holds']

theorem receiveMessage_same (heap : Heap) (fits : datagram.length ≤ networkBufSize)
    (covers : Covers datagram) :
    Same (receiveMessage heap buffer datagram.length)
      (receiveMessage heap buffer' datagram.length) := by
  have sizes : networkBufSize = 16384 := rfl
  obtain ⟨field, covered⟩ := covers
  rw [receiveMessage_eq, receiveMessage_eq, len_eq holds field, len_eq holds' field,
    uid_eq holds (by omega), uid_eq holds' (by omega)]
  by_cases refused : announced datagram < datagram.length - 1 - publicKeySize
  · simp only [if_pos refused]
    exact ⟨_, rfl, rfl⟩
  · have covered := covered.resolve_left refused
    have inside : ¬networkBufSize < announced datagram := by omega
    simp only [if_neg refused, if_neg inside, copied_same holds holds' covered]
    exact ⟨_, rfl, rfl⟩

theorem startRead2_same (heap : Heap) (nonempty : datagram ≠ [])
    (message : datagram.headD 0 = 4 → 1 + publicKeySize < datagram.length →
      Same (receiveMessage heap buffer datagram.length)
        (receiveMessage heap buffer' datagram.length)) :
    Same (KcpSessionC.startRead2 heap buffer datagram.length)
      (KcpSessionC.startRead2 heap buffer' datagram.length) := by
  rw [KcpSessionC.startRead2, KcpSessionC.startRead2, packetType_eq holds nonempty,
    packetType_eq holds' nonempty]
  split
  · next input =>
    rw [receiveInput_same holds holds' input.2]
    exact ⟨_, rfl, rfl⟩
  · split
    · next type => exact message type.1 type.2
    · exact ⟨_, rfl, rfl⟩

theorem startReceive_same (heap : Heap) (nonempty : datagram ≠ [])
    (message : datagram.headD 0 = 4 → 1 + publicKeySize < datagram.length →
      Same (receiveMessage heap buffer datagram.length)
        (receiveMessage heap buffer' datagram.length)) :
    Same (KcpServerImpl.startReceive heap buffer datagram.length)
      (KcpServerImpl.startReceive heap buffer' datagram.length) := by
  by_cases hello : datagram.headD 0 = 1 ∧ datagram.length = 1
  · rw [KcpServerImpl.startReceive, KcpServerImpl.startReceive, packetType_eq holds nonempty,
      packetType_eq holds' nonempty, if_pos hello, if_pos hello]
    exact ⟨_, rfl, rfl⟩
  · by_cases reply : datagram.headD 0 = 2
    · rw [KcpServerImpl.startReceive, KcpServerImpl.startReceive, packetType_eq holds nonempty,
        packetType_eq holds' nonempty, if_neg hello, if_neg hello, if_pos reply, if_pos reply]
      split
      · next long =>
        rw [slice_cStr holds (by omega), slice_cStr holds' (by omega)]
        exact ⟨_, rfl, rfl⟩
      · exact ⟨_, rfl, rfl⟩
    · have type := packetType_eq holds nonempty
      have type' := packetType_eq holds' nonempty
      rw [startReceive_eq heap (by rwa [type]) (by rwa [type]),
        startReceive_eq heap (by rwa [type']) (by rwa [type'])]
      exact startRead2_same holds holds' heap nonempty message

end Agree

/-! ## Bytes behind a datagram -/

section Filled

variable {datagram : List UInt8} (fits : datagram.length ≤ networkBufSize)

/-- A buffer that holds a datagram and otherwise one byte. -/
def Buffer.filled (byte : UInt8) : Buffer where
  bytes := datagram ++ List.replicate (networkBufSize - datagram.length) byte
  length_bytes := by
    rw [List.length_append, List.length_replicate]
    omega

theorem filled_holds (byte : UInt8) : datagram <+: (Buffer.filled fits byte).bytes :=
  ⟨_, rfl⟩

theorem getElem?_filled {byte : UInt8} {index : Nat} (behind : datagram.length ≤ index)
    (inside : index < networkBufSize) :
    (Buffer.filled fits byte).cStr[index]? = some byte := by
  rw [Buffer.cStr, List.getElem?_append_left (by rw [Buffer.length_bytes]; exact inside),
    Buffer.filled, List.getElem?_append_right behind, List.getElem?_replicate,
    if_pos (by omega)]

/-- A length field that is not all there is completed to one larger than the buffer. -/
theorem len_filled (short : datagram.length < 1 + publicKeySize + 4) :
    networkBufSize < (Buffer.filled fits 255).len.toNat := by
  have sizes : networkBufSize = 16384 ∧ publicKeySize = 64 := ⟨rfl, rfl⟩
  have length : (Bytes.slice (Buffer.filled fits 255).cStr (1 + publicKeySize) 4).length = 4 :=
    Bytes.length_slice (by rw [Buffer.length_cStr]; omega)
  have last : (Bytes.slice (Buffer.filled fits 255).cStr (1 + publicKeySize) 4)[3]? =
      some 255 := by
    rw [Bytes.getElem?_slice (by omega), getElem?_filled fits (by omega) (by omega)]
  rw [Buffer.len, toNat_readWord]
  generalize Bytes.slice (Buffer.filled fits 255).cStr (1 + publicKeySize) 4 = field at *
  match field, length with
  | [first, second, third, fourth], _ =>
      cases last
      have high : UInt8.toNat 255 = 255 := rfl
      simp only [List.take_succ_cons, List.take_zero, Bytes.toNat]
      omega

/-- A copy that goes beyond the datagram takes what is there. -/
theorem copied_filled {size : Nat} (nonempty : datagram ≠ []) (six : 6 ≤ size)
    (beyond : datagram.length ≤ size) (bound : size ≤ networkBufSize)
    (inside : datagram.length < networkBufSize) :
    copied (Bytes.slice (Buffer.filled fits 0).cStr 1 size) ≠
      copied (Bytes.slice (Buffer.filled fits 1).cStr 1 size) := by
  have positive := List.length_pos_of_ne_nil nonempty
  have length : ∀ byte, (Bytes.slice (Buffer.filled fits byte).cStr 1 size).length = size :=
    fun byte => Bytes.length_slice (by rw [Buffer.length_cStr]; omega)
  have taken : ∀ byte, (Bytes.slice (Buffer.filled fits byte).cStr 1 size)[
      datagram.length - 1]? = some byte := by
    intro byte
    rw [Bytes.getElem?_slice (by omega), getElem?_filled fits (by omega) (by omega)]
  intro same
  rw [copied, copied, length, length, if_neg (by omega), if_neg (by omega)] at same
  injection same with same
  injection same with same
  have differ := taken 0
  rw [same, taken 1] at differ
  exact absurd differ (by decide)

end Filled

/-- What is behind an empty datagram has a type. -/
theorem packetType_filled (byte : UInt8) (fits : [].length ≤ networkBufSize) :
    (Buffer.filled fits byte).packetType = byte := by
  have first : (Buffer.filled fits byte).cStr[0]? = some byte :=
    getElem?_filled fits (Nat.le_refl _) (by decide)
  rw [Buffer.packetType, List.headD_eq_head?_getD, List.head?_eq_getElem?, first,
    Option.getD_some]

/-- A message whose length field or whose copy goes beyond the datagram depends on what is
there, or leaves the buffer. -/
theorem covers_of_judgedAlone {side : Side} {heap : Heap} {datagram : List UInt8}
    (fits : datagram.length ≤ networkBufSize) (judged : JudgedAlone side heap datagram)
    (type : datagram.headD 0 = 4) (long : 1 + publicKeySize < datagram.length) :
    Covers datagram := by
  have sizes : networkBufSize = 16384 ∧ publicKeySize = 64 := ⟨rfl, rfl⟩
  have nonempty : datagram ≠ [] := List.ne_nil_of_length_pos (by omega)
  have handled : ∀ byte, side.handler heap (Buffer.filled fits byte) datagram.length =
      receiveMessage heap (Buffer.filled fits byte) datagram.length := by
    intro byte
    have first := (packetType_eq (filled_holds fits byte) nonempty).trans type
    rw [handler_message heap side first, if_pos long]
  by_contra uncovered
  by_cases field : 1 + publicKeySize + 4 ≤ datagram.length
  · have length : ∀ byte, (Buffer.filled fits byte).len.toNat = announced datagram :=
      fun byte => len_eq (filled_holds fits byte) field
    have beyond : ¬announced datagram < datagram.length - 1 - publicKeySize ∧
        6 ≤ announced datagram ∧ datagram.length ≤ announced datagram ∧
        ¬(datagram.length = networkBufSize ∧ announced datagram = networkBufSize) := by
      rw [Covers] at uncovered
      omega
    obtain ⟨unrefused, six, most, _⟩ := beyond
    obtain ⟨outcome, zero, one⟩ :=
      judged _ _ (filled_holds fits 0) (filled_holds fits 1)
    rw [handled, receiveMessage_eq, length, if_neg unrefused] at zero one
    split at zero
    · cases zero
    · next inside =>
      rw [if_neg inside] at one
      have same := zero.trans one.symm
      injection same with same
      injection same with same
      injection same with _ same
      exact copied_filled fits nonempty six most (by omega) (by omega) same
  · have large := len_filled fits (by omega)
    obtain ⟨outcome, outside, _⟩ :=
      judged _ _ (filled_holds fits 255) (filled_holds fits 255)
    rw [handled, receiveMessage_eq, if_neg (by omega), if_pos large] at outside
    cases outside

/-- A datagram is judged by its own bytes exactly if, on the server, it has any, and as
one of type 4 that is longer than its uid it covers the message it announces. -/
theorem judgedAlone_iff (side : Side) (heap : Heap) {datagram : List UInt8}
    (fits : datagram.length ≤ networkBufSize) :
    JudgedAlone side heap datagram ↔
      (side = .server → datagram ≠ []) ∧
        (datagram.headD 0 = 4 → 1 + publicKeySize < datagram.length → Covers datagram) := by
  constructor
  · intro judged
    refine ⟨?_, covers_of_judgedAlone fits judged⟩
    rintro rfl rfl
    have zero : Side.server.handler heap (Buffer.filled fits 0) 0 =
        .ok ⟨.nothing, true⟩ := by
      simp [Side.handler, KcpServerImpl.startReceive, packetType_filled]
    have two : Side.server.handler heap (Buffer.filled fits 2) 0 =
        .ok ⟨.reply none, true⟩ := by
      simp [Side.handler, KcpServerImpl.startReceive, packetType_filled, publicKeySize]
    obtain ⟨outcome, first, second⟩ :=
      judged _ _ (filled_holds fits 0) (filled_holds fits 2)
    cases zero.symm.trans first
    cases two.symm.trans second
  · rintro ⟨nonempty, covers⟩ buffer buffer' holds holds'
    by_cases empty : datagram = []
    · cases side with
      | server => exact absurd empty (nonempty rfl)
      | client =>
          subst empty
          have idle : ∀ buffer,
              KcpSessionC.startRead2 heap buffer 0 = .ok ⟨.nothing, true⟩ := by
            intro buffer
            simp [KcpSessionC.startRead2, ikcpOverhead]
          exact ⟨_, idle buffer, idle buffer'⟩
    · have message : datagram.headD 0 = 4 → 1 + publicKeySize < datagram.length →
          Same (receiveMessage heap buffer datagram.length)
            (receiveMessage heap buffer' datagram.length) :=
        fun type long => receiveMessage_same holds holds' heap fits (covers type long)
      cases side with
      | server => exact startReceive_same holds holds' heap empty message
      | client => exact startRead2_same holds holds' heap empty message

/-- A hello is judged by its one byte. -/
theorem judgedAlone_hello : JudgedAlone .server (.filled 0) [1] :=
  (judgedAlone_iff .server (.filled 0) (by decide)).mpr
    ⟨fun _ => List.cons_ne_nil _ _, fun type => absurd type (by decide)⟩

/-- A message that announces 100 bytes and holds four is not. -/
theorem judgedAlone_fails :
    ¬∀ (side : Side) (heap : Heap) (datagram : List UInt8),
      datagram.length ≤ networkBufSize → JudgedAlone side heap datagram := by
  intro every
  have fits : ([4] ++ List.replicate 64 7 ++ [100, 0, 0, 0] : List UInt8).length ≤
      networkBufSize := by decide
  have judged := every .server (.filled 0) _ fits
  exact absurd (covers_of_judgedAlone fits judged (by decide) (by decide)) (by decide)

end Nicenet.Kcp
