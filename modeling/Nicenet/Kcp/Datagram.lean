import Nicenet.Kcp.Registry
import Nicenet.Send.Queue

/-!
# Datagrams

The first byte of a datagram is its type: 1 for a hello, 2 for a reply to a challenge, 3
for what goes to `ikcp_input` and 4 for a message outside of KCP. The handlers read the
other fields at fixed positions of the receive buffer, where earlier datagrams have left
their bytes.
-/

namespace Nicenet.Kcp

open Library

/-- `IKCP_OVERHEAD` of `Kcp.h`. -/
def ikcpOverhead : Nat := 89

/-- A receive buffer: a string of `NETWORK_BUF_SIZE` bytes. -/
structure Buffer where
  bytes : List UInt8
  length_bytes : bytes.length = networkBufSize
  deriving DecidableEq, Repr

/-- What `async_receive_from` reports: the part of a datagram beyond the buffer is lost. -/
def bytesRecvd (datagram : List UInt8) : Nat := min networkBufSize datagram.length

namespace Buffer

def fresh : Buffer := ⟨List.replicate networkBufSize 0, List.length_replicate⟩

def receive (buffer : Buffer) (datagram : List UInt8) : Buffer where
  bytes := Bytes.overwrite buffer.bytes 0 (datagram.take networkBufSize)
  length_bytes := by
    rw [Bytes.length_overwrite, buffer.length_bytes]
    rw [buffer.length_bytes, List.length_take]
    omega

/-- The memory behind `c_str()`: the string and the byte that ends it. -/
def cStr (buffer : Buffer) : List UInt8 := buffer.bytes ++ [0]

/-! ## The fields of a datagram -/

def packetType (buffer : Buffer) : UInt8 := buffer.cStr.headD 0

def uid (buffer : Buffer) : Uid := Bytes.slice buffer.cStr 1 publicKeySize

def workerIndex (buffer : Buffer) : UInt16 :=
  UInt16.ofNat (Bytes.toNat (Bytes.slice buffer.cStr (publicKeySize + 1) 2))

def len (buffer : Buffer) : UInt32 :=
  readWord (Bytes.slice buffer.cStr (1 + publicKeySize) 4)

end Buffer

/-- What a handler does with a datagram before it waits for the next one. A reply that is
too short still takes the session of its endpoint. -/
inductive Action where
  | hello
  | reply (data_ : Option (List UInt8))
  | input (workerIndex : Worker) (uid : Uid) (data_ : List UInt8)
  | message (uid : Uid) (recvMsg : Message)
  | nothing
  deriving DecidableEq, Repr

/-- A call of a handler that returns: what it has done, and whether it has called
`startReceive` again. -/
structure Handled where
  action : Action
  rearmed : Bool
  deriving DecidableEq, Repr

/-- The datagrams of type 3. The client has one control block and leaves the uid and the
worker aside once the latter is in range. -/
def receiveInput (buffer : Buffer) (bytesRecvd : Nat) : Action :=
  if inside : buffer.workerIndex.toNat < workThreadCount then
    .input ⟨buffer.workerIndex.toNat, inside⟩ buffer.uid
      (Bytes.slice buffer.cStr (1 + publicKeySize) (bytesRecvd - 1 - publicKeySize))
  else .nothing

/-- The datagrams of type 4. The client has no use for the uid. -/
def receiveMessage (heap : Heap) (buffer : Buffer) (bytesRecvd : Nat) :
    Except Fault Handled :=
  if buffer.len.toNat < bytesRecvd - 1 - publicKeySize then
    -- this return is in front of the next `startReceive`
    .ok ⟨.nothing, false⟩
  else if buffer.cStr.length < 1 + buffer.len.toNat then .error .outOfRange
  else
    match Message.ofBuffer heap (Bytes.slice buffer.cStr 1 buffer.len.toNat) with
    | .error fault => .error fault
    | .ok recvMsg => .ok ⟨.message buffer.uid recvMsg, true⟩

/-- The handler of `KcpSessionC::startRead2`. -/
def KcpSessionC.startRead2 (heap : Heap) (buffer : Buffer) (bytesRecvd : Nat) :
    Except Fault Handled :=
  if buffer.packetType = 3 ∧ bytesRecvd ≥ ikcpOverhead then
    .ok ⟨receiveInput buffer bytesRecvd, true⟩
  else if buffer.packetType = 4 ∧ bytesRecvd > 1 + publicKeySize then
    receiveMessage heap buffer bytesRecvd
  else .ok ⟨.nothing, true⟩

/-- The handler of `KcpServerImpl::startReceive`. -/
def KcpServerImpl.startReceive (heap : Heap) (buffer : Buffer) (bytesRecvd : Nat) :
    Except Fault Handled :=
  if buffer.packetType = 1 ∧ bytesRecvd = 1 then .ok ⟨.hello, true⟩
  else if buffer.packetType = 2 then
    let data_ :=
      if bytesRecvd ≥ publicKeySize + signSize + 1 then
        some (Bytes.slice buffer.cStr 1 (publicKeySize + signSize))
      else none
    .ok ⟨.reply data_, true⟩
  else if buffer.packetType = 3 ∧ bytesRecvd ≥ ikcpOverhead then
    .ok ⟨receiveInput buffer bytesRecvd, true⟩
  else if buffer.packetType = 4 ∧ bytesRecvd > 1 + publicKeySize then
    receiveMessage heap buffer bytesRecvd
  else .ok ⟨.nothing, true⟩

inductive Side where
  | server
  | client
  deriving DecidableEq, Repr

def Side.handler : Side → Heap → Buffer → Nat → Except Fault Handled
  | .server => KcpServerImpl.startReceive
  | .client => KcpSessionC.startRead2

/-- What `doSend` hands on: a datagram, or bytes for `ikcp_send` on the worker. -/
inductive Output where
  | datagram (data : List UInt8)
  | ikcpSend (data : List UInt8)
  deriving DecidableEq, Repr

def KcpSession.doSend (m_closed : Bool) (msg : Message) (pureUdp : Bool) : Option Output :=
  if m_closed then none
  else
    let msg_ := (Message.empty.swap msg).1
    if pureUdp then some (.datagram (4 :: msg_.sized)) else some (.ikcpSend msg_.sized)

/-! ## What the handlers do -/

namespace Buffer

@[simp] theorem length_cStr (buffer : Buffer) : buffer.cStr.length = networkBufSize + 1 := by
  rw [cStr, List.length_append, buffer.length_bytes, List.length_singleton]

theorem receive_bytes (buffer : Buffer) {datagram : List UInt8}
    (fits : datagram.length ≤ networkBufSize) :
    (buffer.receive datagram).bytes = datagram ++ buffer.bytes.drop datagram.length := by
  simp only [receive, List.take_of_length_le fits, Bytes.overwrite, List.take_zero,
    List.nil_append, Nat.zero_add]

end Buffer

/-- The message that is built from a copy of some bytes. -/
def copied (data : List UInt8) : Message :=
  if data.length < 6 then .empty else ⟨.heap data, 6, 6⟩

theorem ofBuffer_eq (heap : Heap) (data : List UInt8) :
    Message.ofBuffer heap data = .ok (copied data) := by
  rw [copied]
  split
  · next short => exact Message.ofBuffer_short heap short
  · next long => exact Message.ofBuffer_long heap (by omega)

section Handlers

variable (heap : Heap) {buffer : Buffer} {bytesRecvd : Nat}

/-- The length field decides: it is refused when it is small, and the copy leaves the
buffer when it is large. -/
theorem receiveMessage_eq : receiveMessage heap buffer bytesRecvd =
    if buffer.len.toNat < bytesRecvd - 1 - publicKeySize then .ok ⟨.nothing, false⟩
    else if networkBufSize < buffer.len.toNat then .error .outOfRange
    else .ok ⟨.message buffer.uid
      (copied (Bytes.slice buffer.cStr 1 buffer.len.toNat)), true⟩ := by
  have bound : buffer.cStr.length < 1 + buffer.len.toNat ↔
      networkBufSize < buffer.len.toNat := by
    rw [buffer.length_cStr]
    omega
  simp only [receiveMessage, ofBuffer_eq, bound]

/-- The server does as the client does with all but the datagrams of the handshake. -/
theorem startReceive_eq (hello : ¬(buffer.packetType = 1 ∧ bytesRecvd = 1))
    (reply : buffer.packetType ≠ 2) :
    KcpServerImpl.startReceive heap buffer bytesRecvd =
      KcpSessionC.startRead2 heap buffer bytesRecvd := by
  rw [KcpServerImpl.startReceive, if_neg hello, if_neg reply, KcpSessionC.startRead2]

theorem handler_message (side : Side) (type : buffer.packetType = 4) :
    side.handler heap buffer bytesRecvd =
      if 1 + publicKeySize < bytesRecvd then receiveMessage heap buffer bytesRecvd
      else .ok ⟨.nothing, true⟩ := by
  have client : KcpSessionC.startRead2 heap buffer bytesRecvd =
      if 1 + publicKeySize < bytesRecvd then receiveMessage heap buffer bytesRecvd
      else .ok ⟨.nothing, true⟩ := by
    simp [KcpSessionC.startRead2, type]
  cases side with
  | client => exact client
  | server =>
      rw [← client]
      exact startReceive_eq heap (by simp [type]) (by simp [type])

end Handlers

end Nicenet.Kcp
