import Nicenet.Kcp.Datagram
import Nicenet.Kcp.DoRead
import Nicenet.Send.Fifo
import Nicenet.Session.Commands

/-!
# A conversation over KCP

A session of the server and the session of its client behind the handshake. Each side sends
messages through a task of its worker service, polls its control block there, and handles
what has been read on its main service. The server pings on every poll; what the other side
says of itself is handled before the table of commands is looked at.

Between the control blocks lies what one of them has accepted and the other has not
received yet.
-/

namespace Nicenet.Kcp

open Library

/-- `SYSPING_REQ`, `SYSPING_ACK` and `KCP_READY_NTF` of `Type.h`. -/
def syspingReq : UInt16 := 0xFFFA
def syspingAck : UInt16 := 0xFFFB
def kcpReadyNtf : UInt16 := 0xFFF0

/-- The message that `ID` makes of an empty one. -/
def notice (msgID : UInt16) : Message :=
  ⟨.heap (wordBytes 6 ++ Bytes.ofNat 2 msgID.toNat), 6, 6⟩

/-- A task of the main service: `handleMessage`, or `sendMessage` of a message that is no
more than an id. -/
inductive Task where
  | handle (msg : Message)
  | notify (msgID : UInt16)
  deriving DecidableEq, Repr

/-- A session. `sends` are the tasks of its worker service that call `ikcp_send`, and `main`
those of the main service. `stuck` is a call of `parseMsg` that does not return. The rest
only records the run: the messages given to `doSend` before the session was closed, those
given to `handleMessage`, and the commands started. -/
structure Peer (κ γ : Type) where
  session : KcpSession κ
  m_Ready : Bool
  m_closed : Bool
  m_waitRemove : Bool
  stuck : Bool
  sends : List Message
  main : List Task
  posted : List Message
  handled : List Message
  started : List (γ × Message)

namespace Side

def other : Side → Side
  | .server => .client
  | .client => .server

@[simp] theorem other_other (side : Side) : side.other.other = side := by
  cases side <;> rfl

theorem other_ne (side : Side) : side.other ≠ side := by
  cases side <;> exact Side.noConfusion

/-- There are two sides. -/
theorem forall_iff {property : Side → Prop} (side : Side) :
    (∀ any, property any) ↔ property side ∧ property side.other := by
  constructor
  · intro every
    exact ⟨every side, every side.other⟩
  · rintro ⟨mine, theirs⟩ any
    cases side <;> cases any <;> assumption

end Side

namespace Peer

variable {κ γ : Type}

/-- `doSend`, without `pureUdp`. -/
def doSend (p : Peer κ γ) (msg : Message) : Peer κ γ :=
  if p.m_closed then p
  else { p with
    sends := p.sends ++ [(Message.empty.swap msg).1]
    posted := p.posted ++ [msg] }

/-- `close`: the one of the server also calls `removeSelf`. -/
def close (side : Side) (p : Peer κ γ) : Peer κ γ :=
  match side with
  | .server => { p with m_closed := true, m_waitRemove := true }
  | .client => { p with m_closed := true }

/-- `removeSelf`: the one of the server leaves the rest to the main service, where the
registry closes the session; the one of the client is `close`. -/
def removeSelf (side : Side) (p : Peer κ γ) : Peer κ γ :=
  match side with
  | .server => { p with m_waitRemove := true }
  | .client => p.close .client

/-- `handleMessage`. -/
def handleMessage (m_MessageParser : Option (MessageParser γ)) (p : Peer κ γ)
    (msg : Message) : Peer κ γ :=
  if p.m_closed then p
  else if msg.getMsgID = kcpReadyNtf then { p with m_Ready := true }
  else if msg.getMsgID = syspingAck then p
  else if msg.getMsgID = syspingReq then p.doSend (notice syspingAck)
  else { p with started := p.started ++ (Nicenet.handleMessage m_MessageParser msg).toList }

/-- The main service runs the next task of the session. -/
def runMain (m_MessageParser : Option (MessageParser γ)) (p : Peer κ γ) :
    Option (Peer κ γ) :=
  match p.main with
  | [] => none
  | .handle msg :: main =>
      some (handleMessage m_MessageParser
        { p with main := main, handled := p.handled ++ [msg] } msg)
  | .notify msgID :: main => some (doSend { p with main := main } (notice msgID))

/-- `doPing`. -/
def doPing (now : UInt64) (p : Peer κ γ) : Peer κ γ :=
  if p.session.m_lastPingTime = 0 then
    { p with session := { p.session with m_lastPingTime := now } }
  else if now > p.session.m_lastPingTime then
    { p with
      session := { p.session with m_lastPingTime := now }
      main := p.main ++ [.notify syspingReq] }
  else p

/-- `doRead`; `due` is the result of `kcpUpdate`. A session of the server that is to be
removed reads no more. -/
def doRead (ikcp : Ikcp κ) (heap : Heap) (side : Side) (now : UInt64) (due : Bool)
    (p : Peer κ γ) : Peer κ γ :=
  if p.m_waitRemove then p
  else if due then
    let pass := KcpSession.doRead ikcp heap now p.session
    let p := { p with
      session := pass.session
      main := p.main ++ pass.posted.map .handle }
    match pass.ends with
    | .left => p
    | .removed => p.removeSelf side
    | _ => { p with stuck := true }
  else p

/-- A round of `startRoutine`, or of `startRead` of a client. -/
def poll (ikcp : Ikcp κ) (heap : Heap) (side : Side) (now : UInt64) (due : Bool)
    (p : Peer κ γ) : Peer κ γ :=
  match side with
  | .server => doRead ikcp heap .server now due (p.doPing now)
  | .client => doRead ikcp heap .client now due p

end Peer

/-- `wire side` are the messages that the control block of a side has accepted and the one
of the other side has not received yet; `clock side` is what the clock of a side shows, and
`begun side` what it has shown at the start. -/
structure Conversation (κ γ : Type) where
  peer : Side → Peer κ γ
  wire : Side → List (List UInt8)
  clock : Side → UInt64
  begun : Side → UInt64

namespace Conversation

variable {κ γ : Type}

/-- The sessions behind the handshake, the clocks set: `init3` has posted the task that
sends `KCP_READY_NTF`. -/
def fresh (kcp : Side → κ) (clock : Side → UInt64) : Conversation κ γ where
  peer
    | .server => ⟨⟨kcp .server, .empty, 0, 0⟩, true, false, false, false, [],
        [.notify kcpReadyNtf], [], [], []⟩
    | .client => ⟨⟨kcp .client, .empty, 0, 0⟩, false, false, false, false, [], [], [], [], []⟩
  wire _ := []
  clock := clock
  begun := clock

def setPeer (c : Conversation κ γ) (side : Side) (p : Peer κ γ) : Conversation κ γ :=
  { c with peer := Function.update c.peer side p }

/-- What can happen on a side: a message is sent; the next `ikcp_send` accepts its message
or not; messages are received, or the state of the control block changes otherwise; a poll;
the next task of the main service; `close`; the clock goes on. -/
inductive Action where
  | post (msg : Message)
  | send (accepted : Bool)
  | receive (frames : List (List UInt8))
  | poll (due : Bool)
  | main
  | close
  | tick
  deriving DecidableEq, Repr

variable (ikcp : Ikcp κ) (heap : Heap) (m_MessageParser : Option (MessageParser γ))

/-- Both sides take their steps in any order. -/
def system : Transition (Conversation κ γ) (Side × Action) where
  initial c := ∃ kcp clock, (∀ side, ikcp.received (kcp side) = []) ∧ (∀ side, clock side ≠ 0) ∧
    c = fresh kcp clock
  step c event next :=
    let (side, action) := event
    let p := c.peer side
    match action with
    | .post msg => msg.Owned ∧ next = c.setPeer side (p.doSend msg)
    | .send accepted => ∃ msg_ sends, p.sends = msg_ :: sends ∧
        next = { c with
          peer := Function.update c.peer side { p with sends := sends }
          wire := Function.update c.wire side
            (if accepted then c.wire side ++ [msg_.sized] else c.wire side) }
    | .receive frames => ∃ kcp rest, c.wire side.other = frames ++ rest ∧
        ikcp.received kcp = ikcp.received p.session.m_kcp ++ frames ∧
        next = { c with
          peer := Function.update c.peer side
            { p with session := { p.session with m_kcp := kcp } }
          wire := Function.update c.wire side.other rest }
    | .poll due => p.stuck = false ∧
        next = c.setPeer side (p.poll ikcp heap side (c.clock side) due)
    | .main => ∃ p', p.runMain m_MessageParser = some p' ∧ next = c.setPeer side p'
    | .close => next = c.setPeer side (p.close side)
    | .tick => (c.clock side).toNat + 1 < 2 ^ 64 ∧
        next = { c with clock := Function.update c.clock side (c.clock side + 1) }

/-- `ikcp_send` accepts every message. -/
def Accepts (_ : Conversation κ γ) (event : Side × Action) : Prop :=
  event.2 ≠ .send false

end Conversation

end Nicenet.Kcp
