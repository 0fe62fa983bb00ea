import Nicenet.Kcp.Carried
import Nicenet.Session.Values

/-!
# Values over a conversation

A KCP session keeps three ids for itself, so the types of a program must have others. Then
the commands of a class read the values that the other side has sent, as over TCP.
-/

namespace Nicenet.Kcp

open Library

/-- The ids that `KcpSession::handleMessage` does not look up. -/
def systemIds : List UInt16 := [kcpReadyNtf, syspingAck, syspingReq]

/-- The messages left to the commands. -/
def ordinary (list : List Message) : List Message :=
  list.filter fun msg => msg.getMsgID ∉ systemIds

/-- The buffers of them. -/
def ordinaryFrames (frames : List (List UInt8)) : List (List UInt8) :=
  frames.filter fun frame => Message.getMsgID ⟨.heap frame, 6, 6⟩ ∉ systemIds

theorem ordinary_cons (msg : Message) (list : List Message) :
    ordinary (msg :: list) =
      if msg.getMsgID ∈ systemIds then ordinary list else msg :: ordinary list := by
  rw [ordinary, List.filter_cons]
  by_cases system : msg.getMsgID ∈ systemIds
  · simp [system, ordinary]
  · simp [system, ordinary]

theorem ordinaryFrames_cons (frame : List UInt8) (frames : List (List UInt8)) :
    ordinaryFrames (frame :: frames) =
      if Message.getMsgID ⟨.heap frame, 6, 6⟩ ∈ systemIds then ordinaryFrames frames
      else frame :: ordinaryFrames frames := by
  rw [ordinaryFrames, List.filter_cons]
  by_cases system : Message.getMsgID ⟨.heap frame, 6, 6⟩ ∈ systemIds
  · simp [system, ordinaryFrames]
  · simp [system, ordinaryFrames]

theorem loads_ordinary {list : List Message} (owned : ∀ msg ∈ list, msg.Owned) :
    loads (ordinary list) = ordinaryFrames (loads list) := by
  induction list with
  | nil => rfl
  | cons msg list ih =>
      have mine := owned msg List.mem_cons_self
      have rest := ih fun other member => owned other (List.mem_cons_of_mem _ member)
      obtain ⟨buff, writePoint, readPoint⟩ := msg
      cases buff with
      | null =>
          have zero : Message.getMsgID ⟨.null, writePoint, readPoint⟩ = 0 := rfl
          rw [ordinary_cons, zero, if_neg (by decide)]
          exact rest
      | writePoint => exact mine.elim
      | heap memory =>
          have whole : loads (⟨.heap memory, writePoint, readPoint⟩ :: list) =
              memory :: loads list := rfl
          have same : Message.getMsgID ⟨.heap memory, writePoint, readPoint⟩ =
              Message.getMsgID ⟨.heap memory, 6, 6⟩ := rfl
          rw [whole, ordinary_cons, ordinaryFrames_cons, same]
          split
          · exact rest
          · exact congrArg (memory :: ·) rest

/-- The commands of a session are those for the messages left to them. -/
theorem commands_eq {γ : Type} (m_MessageParser : Option (MessageParser γ))
    (frames : List (List UInt8)) :
    Conversation.commands m_MessageParser frames =
      Channel.commands m_MessageParser (ordinaryFrames frames) := by
  rw [Conversation.commands, Channel.commands, ordinaryFrames, List.filterMap_filter]
  apply List.filterMap_congr
  intro frame _
  have lookup : Peer.command m_MessageParser ⟨.heap frame, 6, 6⟩ =
      if Message.getMsgID ⟨.heap frame, 6, 6⟩ ∈ systemIds then none
      else handleMessage m_MessageParser ⟨.heap frame, 6, 6⟩ := rfl
  rw [lookup]
  by_cases system : Message.getMsgID ⟨.heap frame, 6, 6⟩ ∈ systemIds
  · rw [if_pos system, if_neg (by simpa using system)]
  · rw [if_neg system, if_pos (by simpa using system)]

section Values

variable {κ ν ι : Type} [DecidableEq ν] [DecidableEq ι] {protocol : Protocol ν}
variable {ikcp : Ikcp κ} {heap : Heap} {c : Conversation κ ν}

open Conversation (system Accepts)

/-- In every order of the steps of both sides in which `ikcp_send` accepts every message, the
commands that a side has started have read the first of the values that the other side has
sent and that have a command: each once, in order and unchanged, whatever pings are sent in
between. In a session that is not closed, these are all of them once nothing is under way. -/
theorem values_carried (delivers : ikcp.Delivers) (info : ι) {kinds : List ν}
    (once : kinds.Nodup)
    (reachable : ((system ikcp heap
      (some (getMessagerParse (protocol.entries info kinds) info))).guarded Accepts).Reachable c)
    (side : Side) {values : List ((kind : ν) × protocol.Value kind)}
    (sent : List.Forall₂ protocol.Message values (ordinary (c.peer side).posted))
    (plain : ∀ value ∈ values, protocol.Plain value) :
    (∃ front, front <+: values ∧ (c.peer side.other).started.map protocol.decode =
      (front.filter fun value => value.1 ∈ kinds).map .ok) ∧
    ((c.peer side.other).m_closed = false → (c.peer side.other).main = [] →
      ikcp.received (c.peer side.other).session.m_kcp = [] → c.wire side = [] →
      (c.peer side).sends = [] → (c.peer side.other).started.map protocol.decode =
        (values.filter fun value => value.1 ∈ kinds).map .ok) := by
  have owned := (Conversation.sound_of_reachable delivers reachable side).owned
  have starts := Protocol.starts_values info once sent plain
  have loaded := loads_ordinary owned
  obtain ⟨front, carries⟩ := Conversation.carries_of_reachable delivers reachable side
  have begun : ordinaryFrames front <+: loads (ordinary (c.peer side).posted) := by
    rw [loaded]
    exact carries.begun.filter _
  rw [carries.started, commands_eq]
  constructor
  · exact decode_prefix starts begun
  · intro opened main received wire sends
    rw [carries.all opened main received wire sends, ← loaded]
    exact decode_all starts

end Values

section OneValue

open Protocol (code codeValue codeFrame codeMessage codePlain)

/-- The client has read the value that the server has sent. -/
theorem values_carried_code : ∃ c,
    ((Conversation.system KcpSession.queued (Heap.filled 0)
      (some (getMessagerParse (code.entries () [()]) ()))).guarded
        Conversation.Accepts).Reachable c ∧
      (c.peer .client).started.map code.decode = [.ok codeValue] := by
  obtain ⟨c, reachable, posted, sends, wire, opened, main, received⟩ :=
    @Conversation.one_reachable _ codeFrame 19 6
      (some (getMessagerParse (code.entries () [()]) ())) ⟨by decide, by decide, by decide⟩ rfl
      (by decide)
  have sent : List.Forall₂ code.Message [codeValue] (ordinary (c.peer .server).posted) := by
    rw [posted]
    exact .cons codeMessage .nil
  have plain : ∀ value ∈ [codeValue], code.Plain value :=
    List.forall_mem_singleton.mpr codePlain
  exact ⟨c, reachable, (values_carried KcpSession.queued_delivers () (List.nodup_singleton ())
    reachable .server sent plain).2 opened main received wire sends⟩

end OneValue

end Nicenet.Kcp
