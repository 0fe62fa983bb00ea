import Nicenet.Library.Framing
import Nicenet.Message

/-!
# Reassembly of received messages

`parseMsg` gets the bytes of one read and posts the messages that are complete.
What is left of an unfinished message waits in `preMsg`: up to three bytes of
its size in the scratch area over the `writePoint` field, or the bytes received
so far in a buffer of the announced size.

The function ends either by returning, or by a call of itself on the rest of the
chunk. `parseMsgBody` is one activation up to that point, and `parseMsg` follows
the recursive calls. Each activation records the memory operations it performs,
so that their ranges can be spoken about even when it never returns.
-/

namespace Nicenet

open Library

/-- A memory operation of an activation. A `memcpy` has the offset and the size
of its two blocks and the number of bytes. -/
inductive Op where
  | memcpy (source sourceSize target targetSize size : Nat)
  | sub (left right : UInt32)
  | allocate (size : Nat)
  deriving DecidableEq, Repr

/-- A copy stays inside both blocks, an unsigned subtraction does not wrap. -/
def Op.InRange : Op → Prop
  | .memcpy source sourceSize target targetSize size =>
      source + size ≤ sourceSize ∧ target + size ≤ targetSize
  | .sub left right => right ≤ left
  | .allocate _ => True

instance : DecidablePred Op.InRange := fun op =>
  match op with
  | .memcpy _ _ _ _ _ => inferInstanceAs (Decidable (_ ∧ _))
  | .sub left right => inferInstanceAs (Decidable (right ≤ left))
  | .allocate _ => isTrue trivial

/-- How an activation of `parseMsg` ends. -/
inductive Exit where
  | ret (accepted : Bool)
  | recurse (data : List UInt8)
  | fault (fault : Fault)
  deriving DecidableEq, Repr

/-- What a call leaves in `m_PreMsg`, the messages it posts to `handleMessage`,
its memory operations, its recursive calls (the `len` of the caller and the one
it passes on) and its end. -/
structure Activation where
  preMsg : Message
  posted : List Message
  ops : List Op
  calls : List (Nat × Nat)
  exit : Exit
  deriving DecidableEq, Repr

namespace Activation

def finish (preMsg : Message) (accepted : Bool) : Activation :=
  ⟨preMsg, [], [], [], .ret accepted⟩

def recurse (preMsg : Message) (data : List UInt8) : Activation :=
  ⟨preMsg, [], [], [], .recurse data⟩

def fail (preMsg : Message) (fault : Fault) : Activation :=
  ⟨preMsg, [], [], [], .fault fault⟩

/-- An operation that cannot fail, in front of the rest of the activation. -/
def logging (op : Op) (next : Activation) : Activation :=
  { next with ops := op :: next.ops }

/-- A copy in front of the rest of the activation. -/
def copying (op : Op) (preMsg : Message) (next : Activation) : Activation :=
  if op.InRange then next.logging op
  else ⟨preMsg, [], [op], [], .fault .outOfRange⟩

/-- `nicehero::post` of a received message in front of the rest. -/
def posting (message : Message) (next : Activation) : Activation :=
  { next with posted := message :: next.posted }

/-- A recursive call: everything the callee does comes after the caller. -/
def calling (caller : Activation) (len rest : Nat) (callee : Activation) :
    Activation :=
  ⟨callee.preMsg, caller.posted ++ callee.posted, caller.ops ++ callee.ops,
    caller.calls ++ (len, rest) :: callee.calls, callee.exit⟩

end Activation

/-- `MessagePtr`: a `CopyablePtr<Message>`, null when default-constructed. -/
abbrev MessagePtr := Option Message

/-- The `writePoint` field after a copy into its bytes. -/
def scratch (writePoint : UInt32) (offset : Nat) (data : List UInt8) : UInt32 :=
  readWord (Bytes.overwrite (wordBytes writePoint) offset data)

open Activation

/-- `parseMsg` without an unfinished message. -/
def parseFresh (heap : Heap) (prevMsg : Message) (data : List UInt8) :
    Activation :=
  let len := data.length
  if len < 4 then
    copying (.memcpy 0 len 0 4 len) prevMsg <|
    finish ⟨.writePoint, scratch prevMsg.writePoint 0 data, UInt32.ofNat len⟩ true
  else
    let msgLen := (readWord data).toNat
    if msgLen > msgSize then
      finish prevMsg false
    else if msgLen ≤ len then
      match Message.ofBuffer heap (data.take msgLen) with
      | .error fault => fail prevMsg fault
      | .ok recvMsg =>
          let posted := posting recvMsg <|
            if msgLen < len then recurse prevMsg (data.drop msgLen)
            else finish prevMsg true
          if msgLen < 6 then
            posted
          else
            logging (.allocate msgLen) <|
            copying (.memcpy 0 len 0 msgLen msgLen) prevMsg posted
    else
      logging (.allocate msgLen) <|
      copying (.memcpy 0 len 0 msgLen len) prevMsg <|
      finish ⟨.heap (Bytes.overwrite (heap.contents msgLen) 0 data),
        UInt32.ofNat len, prevMsg.readPoint⟩ true

/-- `parseMsg` with the buffer of an unfinished message. The first `cutSize`
bytes of the chunk have already gone into its size. -/
def parseRest (prevMsg : Message) (cutSize : UInt32) (data : List UInt8) :
    Activation :=
  let len := UInt32.ofNat data.length
  let target := prevMsg.bytes
  let msgLen := prevMsg.getSize
  if msgLen.toNat > msgSize then
    finish prevMsg false
  else if len + prevMsg.writePoint - cutSize ≥ msgLen then
    let missing := msgLen - prevMsg.writePoint
    logging (.sub msgLen prevMsg.writePoint) <|
    copying (.memcpy cutSize.toNat data.length prevMsg.writePoint.toNat
      target.length missing.toNat) prevMsg <|
    let filled := { prevMsg with
      buff := .heap (Bytes.overwrite target prevMsg.writePoint.toNat
        ((data.drop cutSize.toNat).take missing.toNat)) }
    logging (.sub len cutSize) <|
    logging (.sub (len - cutSize) missing) <|
    let rest := data.drop (cutSize.toNat + missing.toNat)
    -- `auto recvMsg = MessagePtr(); recvMsg->swap(prevMsg);`
    let recvMsg : MessagePtr := none
    match recvMsg with
    | none => fail filled .nullDeref
    | some recvMsg =>
        posting (recvMsg.swap filled).1 <|
        if rest.length > 0 then recurse (recvMsg.swap filled).2 rest
        else finish (recvMsg.swap filled).2 true
  else
    logging (.sub len cutSize) <|
    copying (.memcpy cutSize.toNat data.length prevMsg.writePoint.toNat
      target.length (len - cutSize).toNat) prevMsg <|
    finish { prevMsg with
      buff := .heap (Bytes.overwrite target prevMsg.writePoint.toNat
        (data.drop cutSize.toNat))
      writePoint := prevMsg.writePoint + (len - cutSize) } true

/-- `parseMsg` once the scratch area holds the whole size: the buffer is
allocated, starts with the size, and takes the rest of the chunk. -/
def parseSized (heap : Heap) (prevMsg : Message) (msgLen cutSize : UInt32)
    (data : List UInt8) : Activation :=
  logging (.allocate msgLen.toNat) <|
  copying (.memcpy 0 4 0 msgLen.toNat 4) prevMsg <|
  parseRest ⟨.heap (Bytes.overwrite (heap.contents msgLen.toNat) 0
    (wordBytes msgLen)), 4, 4⟩ cutSize data

/-- `parseMsg` with a part of the size in the scratch area. -/
def parseHeader (heap : Heap) (prevMsg : Message) (data : List UInt8) :
    Activation :=
  let len := UInt32.ofNat data.length
  if prevMsg.readPoint + len < 4 then
    copying (.memcpy 0 data.length prevMsg.readPoint.toNat 4 data.length) prevMsg <|
    finish { prevMsg with
      writePoint := scratch prevMsg.writePoint prevMsg.readPoint.toNat data
      readPoint := prevMsg.readPoint + len } true
  else
    let cutSize := 4 - prevMsg.readPoint
    copying (.memcpy 0 data.length prevMsg.readPoint.toNat 4 cutSize.toNat) prevMsg <|
    let msgLen := scratch prevMsg.writePoint prevMsg.readPoint.toNat
      (data.take cutSize.toNat)
    parseSized heap prevMsg msgLen cutSize data

/-- One activation of `parseMsg`, up to its return or its recursive call. -/
def parseMsgBody (heap : Heap) (prevMsg : Message) (data : List UInt8) :
    Activation :=
  if data.length > networkBufSize then
    finish prevMsg false
  else
    match prevMsg.buff with
    | .null => parseFresh heap prevMsg data
    | .writePoint => parseHeader heap prevMsg data
    | .heap _ => parseRest prevMsg 0 data

/-- `parseMsg` with at most `fuel` activations. A call that needs more is left
with its pending recursive call as its exit. -/
def parseMsg (heap : Heap) : Nat → Message → List UInt8 → Activation
  | 0, prevMsg, data => recurse prevMsg data
  | fuel + 1, prevMsg, data =>
      let caller := parseMsgBody heap prevMsg data
      match caller.exit with
      | .recurse rest =>
          caller.calling data.length rest.length
            (parseMsg heap fuel caller.preMsg rest)
      | _ => caller

/-- `TcpSession::parseMsg`. -/
def TcpSession.parseMsg := Nicenet.parseMsg

/-- `KcpSession::parseMsg`, which repeats the text of the TCP one. -/
def KcpSession.parseMsg := Nicenet.parseMsg

/-- The `parseMsg` of a kind of session. -/
def Transport.parseMsg : Transport → Heap → Nat → Message → List UInt8 → Activation
  | .tcp => TcpSession.parseMsg
  | .kcp => KcpSession.parseMsg

@[simp] theorem Transport.parseMsg_eq (transport : Transport) :
    transport.parseMsg = Nicenet.parseMsg := by
  cases transport <;> rfl

/-- One call of `parseMsg` in a run: the state it starts from, the bytes of the
stream received before it, its chunk and what it did. -/
structure Feed where
  before : Message
  received : List UInt8
  chunk : List UInt8
  call : Activation
  deriving DecidableEq, Repr

/-- The calls of a run over successive chunks. A call that returns hands its
`preMsg` to the next one; a call that returns false drops what it was given, so
the stream starts over. A call that does not return is the last one. The fuel
suffices for every call that returns at all. -/
def feeds (transport : Transport) (heap : Heap) (before : Message)
    (received : List UInt8) : List (List UInt8) → List Feed
  | [] => []
  | chunk :: chunks =>
      let call := transport.parseMsg heap (chunk.length + 1) before chunk
      ⟨before, received, chunk, call⟩ ::
        match call.exit with
        | .ret true => feeds transport heap call.preMsg (received ++ chunk) chunks
        | .ret false => feeds transport heap call.preMsg [] chunks
        | _ => []

/-- The values `m_PreMsg` takes between calls. -/
inductive Reachable (transport : Transport) (heap : Heap) : Message → Prop where
  | init : Reachable transport heap Message.empty
  | call {before : Message} {chunk : List UInt8} {accepted : Bool} :
      Reachable transport heap before → IsChunk chunk →
      (transport.parseMsg heap (chunk.length + 1) before chunk).exit =
        .ret accepted →
      Reachable transport heap
        (transport.parseMsg heap (chunk.length + 1) before chunk).preMsg

end Nicenet
