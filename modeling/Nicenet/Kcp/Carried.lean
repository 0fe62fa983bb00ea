import Nicenet.Kcp.Conversation

/-!
# What a conversation carries

KCP hands over whole messages, in order. A poll takes messages up to the first one that is
empty or does not fit the buffer, so each side handles, one by one and in order, messages that
the other side has sent.
-/

namespace Nicenet.Kcp

open Library

/-- Nothing, or bytes that start with their own length. -/
def Framed (frame : List UInt8) : Prop :=
  frame = [] ∨ 6 ≤ frame.length ∧ (readWord frame).toNat = frame.length

theorem Framed.isFrame {frame : List UInt8} (framed : Framed frame) (chunk : IsChunk frame) :
    IsFrame frame := by
  rcases framed with rfl | ⟨six, word⟩
  · cases chunk.1
  · exact ⟨six, Nat.le_trans chunk.2 (by decide), word⟩

theorem framed_sized {msg : Message} (owned : msg.Owned) : Framed msg.sized := by
  rw [sized_eq owned]
  obtain ⟨buff, writePoint, readPoint⟩ := msg
  cases buff with
  | null => exact .inl rfl
  | writePoint => exact owned.elim
  | heap memory =>
      simp only [loads, List.filterMap_cons, List.filterMap_nil, List.flatten_singleton]
      exact .inr ⟨owned.2.1, owned.1⟩

/-- The messages that `handleMessage` gets of what has been taken off the queue. -/
def arrived (taken : List (List UInt8)) : List Message :=
  (taken.filter fun frame => frame ≠ []).map dispatched

theorem arrived_append (front back : List (List UInt8)) :
    arrived (front ++ back) = arrived front ++ arrived back := by
  simp only [arrived, List.filter_append, List.map_append]

/-! ## One pass of `doRead` -/

namespace KcpSession

variable {κ : Type} {ikcp : Ikcp κ} {s : KcpSession κ} (heap : Heap) (now : UInt64)

/-- The pass has taken the first messages of the queue and posted them, but for an empty one.
The times are those of the session as long as nothing is read, and a session is removed for
the time alone. -/
structure Takes (ikcp : Ikcp κ) (now : UInt64) (s : KcpSession κ)
    (queue : List (List UInt8)) (pass : Pass κ) : Prop where
  taken : ∃ taken, queue = taken ++ ikcp.received pass.session.m_kcp ∧
    pass.posted = arrived taken
  null : pass.session.m_PreMsg.buff = .null
  times : (pass.posted = [] ∧ pass.session.m_lastPingTime = s.m_lastPingTime ∧
      pass.session.m_lastPongTime = s.m_lastPongTime) ∨
    (pass.posted ≠ [] ∧ pass.session.m_lastPingTime = now ∧
      pass.session.m_lastPongTime = now)
  ends : pass.ends = if now > pass.session.m_lastPongTime + 5 then .removed else .left

/-- The loop is left or the session removed when nothing more can be read. -/
theorem readLoop_ends (fuel : Nat) (stop : (ikcp.recv s.m_kcp networkBufSize).1 ≤ 0) :
    readLoop ikcp heap now (fuel + 1) s =
      ⟨{ s with m_kcp := (ikcp.recv s.m_kcp networkBufSize).2.2 }, [],
        if now > s.m_lastPongTime + 5 then .removed else .left⟩ := by
  simp only [readLoop, if_pos stop]
  split
  · rfl
  · rfl

/-- A whole message is posted, and the loop goes on with the times set. -/
theorem readLoop_frame (fuel : Nat) {frame : List UInt8} {m_kcp : κ}
    (recv : ikcp.recv s.m_kcp networkBufSize = (Int.ofNat frame.length, frame, m_kcp))
    (null : s.m_PreMsg.buff = .null) (framed : IsFrame frame) (chunk : IsChunk frame) :
    ∃ m_PreMsg : Message, m_PreMsg.buff = .null ∧
      readLoop ikcp heap now (fuel + 1) s =
        { readLoop ikcp heap now fuel ⟨m_kcp, m_PreMsg, now, now⟩ with
          posted := dispatched frame ::
            (readLoop ikcp heap now fuel ⟨m_kcp, m_PreMsg, now, now⟩).posted } := by
  have framed : ∀ other ∈ [frame], IsFrame other := by simpa using framed
  obtain ⟨exit, posted, after⟩ := parseMsg_group heap null framed (by simpa using chunk)
  rw [List.flatten_singleton] at exit posted after
  have positive : ¬Int.ofNat frame.length ≤ 0 :=
    Int.not_le.mpr (Int.natCast_pos.mpr chunk.1)
  refine ⟨_, after, ?_⟩
  simp only [readLoop, recv, if_neg positive, Nicenet.KcpSession.parseMsg, exit, posted,
    List.map_cons, List.map_nil, List.singleton_append]

/-- The queue behind a result that is not positive: only an empty message is gone. -/
theorem received_stop (delivers : ikcp.Delivers) {kcp : κ} {frame : List UInt8}
    {queue : List (List UInt8)} (received : ikcp.received kcp = frame :: queue)
    (chunk : ¬IsChunk frame) :
    ∃ taken, frame :: queue =
        taken ++ ikcp.received (ikcp.recv kcp networkBufSize).2.2 ∧ arrived taken = [] := by
  by_cases long : networkBufSize < frame.length
  · have same : (ikcp.recv kcp networkBufSize).1 < 0 ∧ _ := delivers.fails (by
      intro front rest first
      cases received.symm.trans first
      exact long)
    exact ⟨[], by rw [same.2, received, List.nil_append], rfl⟩
  · have empty : frame = [] := by
      apply List.eq_nil_of_length_eq_zero
      simp only [IsChunk] at chunk
      omega
    obtain ⟨m_kcp, popped, rest⟩ := delivers.fits received (Nat.le_of_not_lt long)
    refine ⟨[frame], by rw [popped, rest, List.singleton_append], ?_⟩
    rw [empty]
    rfl

theorem readLoop_takes (delivers : ikcp.Delivers) {queue : List (List UInt8)}
    (null : s.m_PreMsg.buff = .null) (received : ikcp.received s.m_kcp = queue)
    (framed : ∀ frame ∈ queue, Framed frame) :
    Takes ikcp now s queue (readLoop ikcp heap now (queue.length + 1) s) := by
  induction queue generalizing s with
  | nil =>
      obtain ⟨negative, same⟩ : (ikcp.recv s.m_kcp networkBufSize).1 < 0 ∧ _ :=
        delivers.fails (by
          intro front rest first
          cases received.symm.trans first)
      rw [List.length_nil, readLoop_ends heap now 0 (Int.le_of_lt negative)]
      refine ⟨⟨[], ?_, rfl⟩, null, .inl ⟨rfl, rfl, rfl⟩, rfl⟩
      rw [same, received, List.nil_append]
  | cons frame queue ih =>
      rw [List.length_cons]
      by_cases chunk : IsChunk frame
      · obtain ⟨m_kcp, popped, rest⟩ := delivers.fits received chunk.2
        obtain ⟨m_PreMsg, after, loop⟩ := readLoop_frame heap now (queue.length + 1) popped null
          ((framed frame List.mem_cons_self).isFrame chunk) chunk
        obtain ⟨⟨taken, split, later⟩, null, times, ends⟩ := @ih ⟨m_kcp, m_PreMsg, now, now⟩
          after rest fun other member => framed other (List.mem_cons_of_mem _ member)
        have filled : frame ≠ [] := by
          rintro rfl
          cases chunk.1
        rw [loop]
        refine ⟨⟨frame :: taken, ?_, ?_⟩, null, .inr ⟨List.cons_ne_nil _ _, ?_⟩, ends⟩
        · rw [List.cons_append, ← split]
        · rw [later, arrived, arrived, List.filter_cons_of_pos (by simpa using filled),
            List.map_cons]
        · rcases times with ⟨-, times⟩ | ⟨-, times⟩
          · exact times
          · exact times
      · obtain ⟨taken, split, nothing⟩ := received_stop delivers received chunk
        rw [readLoop_ends heap now (queue.length + 1) (recv_stops delivers received chunk)]
        exact ⟨⟨taken, split, nothing.symm⟩, null, .inl ⟨rfl, rfl, rfl⟩, rfl⟩

/-- The session that the loop of `doRead` starts with. -/
def heard (now : UInt64) (s : KcpSession κ) : KcpSession κ :=
  if s.m_lastPongTime = 0 then { s with m_lastPongTime := now } else s

theorem doRead_takes (delivers : ikcp.Delivers) (null : s.m_PreMsg.buff = .null)
    (framed : ∀ frame ∈ ikcp.received s.m_kcp, Framed frame) :
    Takes ikcp now (s.heard now) (ikcp.received s.m_kcp) (doRead ikcp heap now s) := by
  have same : (s.heard now).m_kcp = s.m_kcp ∧ (s.heard now).m_PreMsg = s.m_PreMsg := by
    rw [heard]
    split
    · exact ⟨rfl, rfl⟩
    · exact ⟨rfl, rfl⟩
  rw [doRead, ← heard]
  apply readLoop_takes heap now delivers
  · rw [same.2]
    exact null
  · rw [same.1]
  · exact framed

end KcpSession

/-! ## What a step does to a side -/

/-- The message of a task that handles one. -/
def Task.msg : Task → Option Message
  | .handle msg => some msg
  | .notify _ => none

theorem notice_owned (msgID : UInt16) : (notice msgID).Owned := by
  have size : (wordBytes 6 ++ Bytes.ofNat 2 msgID.toNat).length = 6 := by
    rw [List.length_append, length_wordBytes, Bytes.length_ofNat]
  refine ⟨?_, ?_, ?_⟩
  · rw [readWord_wordBytes, size]
    rfl
  · rw [size]
  · rw [size]
    decide

namespace Peer

variable {κ γ : Type}

/-- The messages that have been handled or are to be handled. -/
def inbox (p : Peer κ γ) : List Message := p.handled ++ p.main.filterMap Task.msg

/-- A step that sends at most some messages, and reads none. -/
structure Quiet (p next : Peer κ γ) : Prop where
  sends : ∃ new : List Message, next.posted = p.posted ++ new ∧
    next.sends.map Message.sized = p.sends.map Message.sized ++ new.map Message.sized ∧
    ∀ msg ∈ new, msg.Owned
  kcp : next.session.m_kcp = p.session.m_kcp
  preMsg : next.session.m_PreMsg = p.session.m_PreMsg
  inbox : next.inbox = p.inbox
  stuck : next.stuck = p.stuck

/-- A step that sends nothing. -/
theorem Quiet.silent {p next : Peer κ γ} (posted : next.posted = p.posted)
    (sends : next.sends = p.sends) (kcp : next.session.m_kcp = p.session.m_kcp)
    (preMsg : next.session.m_PreMsg = p.session.m_PreMsg) (inbox : next.inbox = p.inbox)
    (stuck : next.stuck = p.stuck) : p.Quiet next :=
  ⟨⟨[], by rw [posted, List.append_nil], by rw [sends]; simp, by simp⟩, kcp, preMsg, inbox,
    stuck⟩

theorem Quiet.refl (p : Peer κ γ) : p.Quiet p := .silent rfl rfl rfl rfl rfl rfl

theorem Quiet.trans {first second third : Peer κ γ} (before : first.Quiet second)
    (after : second.Quiet third) : first.Quiet third := by
  obtain ⟨new, posted, sends, owned⟩ := before.sends
  obtain ⟨newer, posted', sends', owned'⟩ := after.sends
  refine ⟨⟨new ++ newer, ?_, ?_, ?_⟩, ?_, ?_, ?_, ?_⟩
  · rw [posted', posted, List.append_assoc]
  · rw [sends', sends, List.map_append, List.append_assoc]
  · exact List.forall_mem_append.mpr ⟨owned, owned'⟩
  · rw [after.kcp, before.kcp]
  · rw [after.preMsg, before.preMsg]
  · rw [after.inbox, before.inbox]
  · rw [after.stuck, before.stuck]

theorem doSend_quiet (p : Peer κ γ) {msg : Message} (owned : msg.Owned) :
    p.Quiet (p.doSend msg) := by
  rw [doSend]
  split
  · exact .refl p
  · refine ⟨⟨[msg], rfl, ?_, by simpa using owned⟩, rfl, rfl, rfl, rfl⟩
    simp only [List.map_append, List.map_cons, List.map_nil]
    rfl

theorem close_quiet (p : Peer κ γ) (side : Side) : p.Quiet (p.close side) := by
  cases side with
  | server => exact .silent rfl rfl rfl rfl rfl rfl
  | client => exact .silent rfl rfl rfl rfl rfl rfl

theorem handleMessage_quiet (m_MessageParser : Option (MessageParser γ)) (p : Peer κ γ)
    (msg : Message) : p.Quiet (p.handleMessage m_MessageParser msg) := by
  rw [handleMessage]
  split
  · exact .refl p
  · split
    · exact .silent rfl rfl rfl rfl rfl rfl
    · split
      · exact .refl p
      · split
        · exact p.doSend_quiet (notice_owned _)
        · exact .silent rfl rfl rfl rfl rfl rfl

theorem runMain_quiet {m_MessageParser : Option (MessageParser γ)} {p next : Peer κ γ}
    (ran : p.runMain m_MessageParser = some next) : p.Quiet next := by
  rw [runMain] at ran
  split at ran
  · cases ran
  · next msg main queue =>
    cases ran
    have taken : p.Quiet { p with main := main, handled := p.handled ++ [msg] } := by
      refine .silent rfl rfl rfl rfl ?_ rfl
      simp [inbox, queue, Task.msg]
    exact taken.trans (handleMessage_quiet m_MessageParser _ msg)
  · next msgID main queue =>
    cases ran
    have taken : p.Quiet { p with main := main } := by
      refine .silent rfl rfl rfl rfl ?_ rfl
      simp only [inbox, queue]
      rfl
    exact taken.trans (doSend_quiet _ (notice_owned msgID))

theorem doPing_quiet (p : Peer κ γ) (now : UInt64) : p.Quiet (p.doPing now) := by
  rw [doPing]
  split
  · exact .silent rfl rfl rfl rfl rfl rfl
  · split
    · refine .silent rfl rfl rfl rfl ?_ rfl
      simp [inbox, Task.msg]
    · exact .refl p

/-- A step that reads messages, and sends none. -/
structure Reads (ikcp : Ikcp κ) (p next : Peer κ γ) : Prop where
  posted : next.posted = p.posted
  sends : next.sends = p.sends
  taken : ∃ taken, ikcp.received p.session.m_kcp = taken ++ ikcp.received next.session.m_kcp ∧
    next.inbox = p.inbox ++ arrived taken
  null : next.session.m_PreMsg.buff = .null
  stuck : next.stuck = p.stuck

theorem Quiet.reads {ikcp : Ikcp κ} {first second third : Peer κ γ} (before : first.Quiet second)
    (posted : second.posted = first.posted) (sends : second.sends = first.sends)
    (after : second.Reads ikcp third) : first.Reads ikcp third := by
  obtain ⟨taken, split, inbox⟩ := after.taken
  refine ⟨by rw [after.posted, posted], by rw [after.sends, sends], ⟨taken, ?_, ?_⟩, after.null,
    by rw [after.stuck, before.stuck]⟩
  · rw [← before.kcp, split]
  · rw [inbox, before.inbox]

theorem filterMap_handle (list : List Message) :
    (list.map Task.handle).filterMap Task.msg = list := by
  rw [List.filterMap_map]
  exact List.filterMap_some

theorem doRead_reads {ikcp : Ikcp κ} (heap : Heap) (delivers : ikcp.Delivers) (side : Side)
    (now : UInt64) (due : Bool) {p : Peer κ γ} (null : p.session.m_PreMsg.buff = .null)
    (framed : ∀ frame ∈ ikcp.received p.session.m_kcp, Framed frame) :
    p.Reads ikcp (p.doRead ikcp heap side now due) := by
  have still : p.Reads ikcp p :=
    ⟨rfl, rfl, ⟨[], rfl, by simp [arrived]⟩, null, rfl⟩
  rw [doRead]
  split
  · exact still
  · split
    · obtain ⟨⟨taken, split, posted⟩, null, -, ends⟩ :=
        KcpSession.doRead_takes heap now delivers null framed
      generalize KcpSession.doRead ikcp heap now p.session = pass at split posted null ends
      have read : p.Reads ikcp { p with
          session := pass.session
          main := p.main ++ pass.posted.map .handle } := by
        refine ⟨rfl, rfl, ⟨taken, split, ?_⟩, null, rfl⟩
        simp only [inbox, List.filterMap_append, filterMap_handle, posted, List.append_assoc]
      simp only [ends]
      by_cases late : now > pass.session.m_lastPongTime + 5
      · simp only [late, ↓reduceIte]
        cases side with
        | server => exact ⟨read.posted, read.sends, read.taken, read.null, read.stuck⟩
        | client => exact ⟨read.posted, read.sends, read.taken, read.null, read.stuck⟩
      · simp only [late, ↓reduceIte]
        exact read
    · exact still

theorem poll_reads {ikcp : Ikcp κ} (heap : Heap) (delivers : ikcp.Delivers) (side : Side)
    (now : UInt64) (due : Bool) {p : Peer κ γ} (null : p.session.m_PreMsg.buff = .null)
    (framed : ∀ frame ∈ ikcp.received p.session.m_kcp, Framed frame) :
    p.Reads ikcp (p.poll ikcp heap side now due) := by
  cases side with
  | server =>
      have ping := p.doPing_quiet now
      have kept : (p.doPing now).posted = p.posted ∧ (p.doPing now).sends = p.sends := by
        rw [doPing]
        split
        · exact ⟨rfl, rfl⟩
        · split
          · exact ⟨rfl, rfl⟩
          · exact ⟨rfl, rfl⟩
      refine ping.reads kept.1 kept.2 (doRead_reads heap delivers .server now due ?_ ?_)
      · rw [ping.preMsg]
        exact null
      · rw [ping.kcp]
        exact framed
  | client => exact doRead_reads heap delivers .client now due null framed

end Peer

/-! ## The commands of a side -/

namespace Peer

variable {κ γ : Type} {m_MessageParser : Option (MessageParser γ)} {p next : Peer κ γ}

/-- The command that a message starts in a session that is not closed. -/
def command (m_MessageParser : Option (MessageParser γ)) (msg : Message) :
    Option (γ × Message) :=
  if msg.getMsgID ∈ [kcpReadyNtf, syspingAck, syspingReq] then none
  else Nicenet.handleMessage m_MessageParser msg

/-- The commands started are those of the first messages handled, and of all of them as long
as the session is not closed. -/
def Started (m_MessageParser : Option (MessageParser γ)) (p : Peer κ γ) : Prop :=
  ∃ first rest, p.handled = first ++ rest ∧
    p.started = first.filterMap (command m_MessageParser) ∧ (p.m_closed = false → rest = [])

/-- A step that handles nothing. -/
structure Idle (p next : Peer κ γ) : Prop where
  handled : next.handled = p.handled
  started : next.started = p.started
  closed : next.m_closed = false → p.m_closed = false

theorem Idle.refl (p : Peer κ γ) : p.Idle p := ⟨rfl, rfl, id⟩

theorem Started.idle (started : p.Started m_MessageParser) (idle : p.Idle next) :
    next.Started m_MessageParser := by
  obtain ⟨first, rest, split, commands, all⟩ := started
  refine ⟨first, rest, ?_, ?_, fun opened => all (idle.closed opened)⟩
  · rw [idle.handled, split]
  · rw [idle.started, commands]

theorem doSend_idle (p : Peer κ γ) (msg : Message) : p.Idle (p.doSend msg) := by
  rw [doSend]
  split
  · exact .refl p
  · exact ⟨rfl, rfl, id⟩

theorem close_idle (p : Peer κ γ) (side : Side) : p.Idle (p.close side) := by
  cases side with
  | server => exact ⟨rfl, rfl, Bool.noConfusion⟩
  | client => exact ⟨rfl, rfl, Bool.noConfusion⟩

theorem doPing_idle (p : Peer κ γ) (now : UInt64) : p.Idle (p.doPing now) := by
  rw [doPing]
  split
  · exact ⟨rfl, rfl, id⟩
  · split
    · exact ⟨rfl, rfl, id⟩
    · exact .refl p

theorem doRead_idle (ikcp : Ikcp κ) (heap : Heap) (side : Side) (now : UInt64) (due : Bool)
    (p : Peer κ γ) : p.Idle (p.doRead ikcp heap side now due) := by
  rw [doRead]
  split
  · exact .refl p
  · split
    · cases KcpSession.doRead ikcp heap now p.session with
      | mk session posted ends =>
          cases ends with
          | left => exact ⟨rfl, rfl, id⟩
          | removed =>
              cases side with
              | server => exact ⟨rfl, rfl, id⟩
              | client => exact ⟨rfl, rfl, Bool.noConfusion⟩
          | stuck => exact ⟨rfl, rfl, id⟩
          | running => exact ⟨rfl, rfl, id⟩
    · exact .refl p

theorem poll_idle (ikcp : Ikcp κ) (heap : Heap) (side : Side) (now : UInt64) (due : Bool)
    (p : Peer κ γ) : p.Idle (p.poll ikcp heap side now due) := by
  cases side with
  | server =>
      have ping := p.doPing_idle now
      have read := doRead_idle ikcp heap .server now due (p.doPing now)
      exact ⟨read.handled.trans ping.handled, read.started.trans ping.started,
        fun opened => ping.closed (read.closed opened)⟩
  | client => exact doRead_idle ikcp heap .client now due p

/-- A message starts its command, unless the session is closed. -/
theorem handleMessage_cases (m_MessageParser : Option (MessageParser γ)) (p : Peer κ γ)
    (msg : Message) :
    (p.handleMessage m_MessageParser msg).handled = p.handled ∧
      (p.handleMessage m_MessageParser msg).m_closed = p.m_closed ∧
      (p.handleMessage m_MessageParser msg).started =
        if p.m_closed then p.started
        else p.started ++ (command m_MessageParser msg).toList := by
  have silent (system : msg.getMsgID ∈ [kcpReadyNtf, syspingAck, syspingReq]) :
      p.started = p.started ++ (command m_MessageParser msg).toList := by
    rw [command, if_pos system, Option.toList_none, List.append_nil]
  rw [handleMessage]
  split
  · next closed => exact ⟨rfl, rfl, rfl⟩
  · next opened =>
    split
    · next ready => exact ⟨rfl, rfl, silent (by simp [ready])⟩
    · next ready =>
      split
      · next ack => exact ⟨rfl, rfl, silent (by simp [ack])⟩
      · next ack =>
        split
        · next req =>
          have idle := p.doSend_idle (notice syspingAck)
          refine ⟨idle.handled, ?_, ?_⟩
          · simp only [doSend, opened]
            rfl
          · rw [idle.started]
            exact silent (by simp [req])
        · next req =>
          have other : msg.getMsgID ∉ [kcpReadyNtf, syspingAck, syspingReq] := by
            simp [ready, ack, req]
          refine ⟨rfl, rfl, ?_⟩
          rw [command, if_neg other]

theorem runMain_started (started : p.Started m_MessageParser)
    (ran : p.runMain m_MessageParser = some next) : next.Started m_MessageParser := by
  rw [runMain] at ran
  split at ran
  · cases ran
  · next msg main queue =>
    cases ran
    obtain ⟨handled, closed, commands⟩ := handleMessage_cases m_MessageParser
      { p with main := main, handled := p.handled ++ [msg] } msg
    obtain ⟨first, rest, split, before, all⟩ := started
    rw [Started, handled, closed, commands]
    cases state : p.m_closed with
    | true =>
        refine ⟨first, rest ++ [msg], ?_, before, Bool.noConfusion⟩
        simp only [split, List.append_assoc]
    | false =>
        have nothing := all state
        subst nothing
        refine ⟨first ++ [msg], [], ?_, ?_, fun _ => rfl⟩
        · simp only [split, List.append_nil]
        · simp only [Bool.false_eq_true, ↓reduceIte, before, List.filterMap_append]
          rfl
  · next msgID main queue =>
    cases ran
    have idle := doSend_idle { p with main := main } (notice msgID)
    exact started.idle ⟨idle.handled, idle.started, idle.closed⟩

end Peer

/-! ## One direction -/

section Direction

variable {κ γ : Type} {ikcp : Ikcp κ} {sender receiver p : Peer κ γ} {wire : List (List UInt8)}

/-- Everything that a side has sent is with the other side, in its queue, on the wire or in
a task, in this order. -/
structure Flows (ikcp : Ikcp κ) (sender receiver : Peer κ γ) (wire : List (List UInt8)) :
    Prop where
  owned : ∀ msg ∈ sender.posted, msg.Owned
  flow : ∃ taken, sender.posted.map Message.sized =
      taken ++ ikcp.received receiver.session.m_kcp ++ wire ++ sender.sends.map Message.sized ∧
    receiver.inbox = arrived taken
  null : receiver.session.m_PreMsg.buff = .null
  stuck : receiver.stuck = false

theorem Flows.framed (flows : Flows ikcp sender receiver wire) :
    ∀ frame ∈ ikcp.received receiver.session.m_kcp, Framed frame := by
  obtain ⟨taken, posted, -⟩ := flows.flow
  intro frame member
  have sent : frame ∈ sender.posted.map Message.sized := by
    rw [posted]
    simp [member]
  obtain ⟨msg, inside, rfl⟩ := List.mem_map.mp sent
  exact framed_sized (flows.owned msg inside)

theorem Flows.quiet_sender (flows : Flows ikcp sender receiver wire) (quiet : sender.Quiet p) :
    Flows ikcp p receiver wire := by
  obtain ⟨taken, posted, inbox⟩ := flows.flow
  obtain ⟨new, grown, sends, owned⟩ := quiet.sends
  refine ⟨?_, ⟨taken, ?_, inbox⟩, flows.null, flows.stuck⟩
  · rw [grown]
    exact List.forall_mem_append.mpr ⟨flows.owned, owned⟩
  · simp only [grown, sends, List.map_append, posted, List.append_assoc]

theorem Flows.quiet_receiver (flows : Flows ikcp sender receiver wire)
    (quiet : receiver.Quiet p) : Flows ikcp sender p wire := by
  refine ⟨flows.owned, ?_, ?_, ?_⟩
  · rw [quiet.kcp, quiet.inbox]
    exact flows.flow
  · rw [quiet.preMsg]
    exact flows.null
  · rw [quiet.stuck]
    exact flows.stuck

/-- What the sender itself receives and reads is no matter. -/
theorem Flows.same_sender (flows : Flows ikcp sender receiver wire)
    (posted : p.posted = sender.posted) (sends : p.sends = sender.sends) :
    Flows ikcp p receiver wire := by
  refine ⟨?_, ?_, flows.null, flows.stuck⟩
  · rw [posted]
    exact flows.owned
  · rw [posted, sends]
    exact flows.flow

theorem Flows.reads (flows : Flows ikcp sender receiver wire) (reads : receiver.Reads ikcp p) :
    Flows ikcp sender p wire := by
  obtain ⟨taken, posted, inbox⟩ := flows.flow
  obtain ⟨more, split, read⟩ := reads.taken
  refine ⟨flows.owned, ⟨taken ++ more, ?_, ?_⟩, reads.null, ?_⟩
  · rw [posted, split]
    simp only [List.append_assoc]
  · rw [read, inbox, arrived_append]
  · rw [reads.stuck]
    exact flows.stuck

/-- `ikcp_send` accepts the next message. -/
theorem Flows.send (flows : Flows ikcp sender receiver wire) {msg_ : Message}
    {sends : List Message} (next : sender.sends = msg_ :: sends) :
    Flows ikcp { sender with sends := sends } receiver (wire ++ [msg_.sized]) := by
  obtain ⟨taken, posted, inbox⟩ := flows.flow
  refine ⟨flows.owned, ⟨taken, ?_, inbox⟩, flows.null, flows.stuck⟩
  rw [posted, next]
  simp only [List.map_cons, List.append_assoc, List.singleton_append]

/-- A task that sends is no matter for what the side receives. -/
theorem Flows.send_receiver (flows : Flows ikcp sender receiver wire) (sends : List Message) :
    Flows ikcp sender { receiver with sends := sends } wire :=
  ⟨flows.owned, flows.flow, flows.null, flows.stuck⟩

theorem Flows.receive {frames rest : List (List UInt8)} {kcp : κ}
    (flows : Flows ikcp sender receiver (frames ++ rest))
    (received : ikcp.received kcp = ikcp.received receiver.session.m_kcp ++ frames) :
    Flows ikcp sender
      { receiver with session := { receiver.session with m_kcp := kcp } } rest := by
  obtain ⟨taken, posted, inbox⟩ := flows.flow
  refine ⟨flows.owned, ⟨taken, ?_, inbox⟩, flows.null, flows.stuck⟩
  rw [posted]
  simp only [received, List.append_assoc]

end Direction

/-! ## Every run -/

namespace Conversation

variable {κ γ : Type} {ikcp : Ikcp κ} {heap : Heap}
variable {m_MessageParser : Option (MessageParser γ)} {c next : Conversation κ γ}

/-- Both directions. -/
def Sound (ikcp : Ikcp κ) (c : Conversation κ γ) : Prop :=
  ∀ side, Flows ikcp (c.peer side) (c.peer side.other) (c.wire side)

theorem sound_fresh {kcp : Side → κ} (empty : ∀ side, ikcp.received (kcp side) = [])
    (clock : Side → UInt64) : Sound ikcp (fresh kcp clock : Conversation κ γ) := by
  intro side
  cases side with
  | server =>
      refine ⟨fun _ member => absurd member List.not_mem_nil, ⟨[], ?_, rfl⟩, rfl, rfl⟩
      simp [fresh, Side.other, empty]
  | client =>
      refine ⟨fun _ member => absurd member List.not_mem_nil, ⟨[], ?_, rfl⟩, rfl, rfl⟩
      simp [fresh, Side.other, empty]

/-- A step of a side that both directions bear, with what becomes of the wires. -/
theorem sound_update {side : Side} {p : Peer κ γ} {wire : Side → List (List UInt8)}
    {clock begun : Side → UInt64}
    (sending : Flows ikcp p (c.peer side.other) (wire side))
    (receiving : Flows ikcp (c.peer side.other) p (wire side.other)) :
    Sound ikcp ⟨Function.update c.peer side p, wire, clock, begun⟩ := by
  refine (Side.forall_iff side).mpr ⟨?_, ?_⟩
  · dsimp only
    rw [Function.update_self, Function.update_of_ne side.other_ne]
    exact sending
  · dsimp only
    rw [Side.other_other, Function.update_self, Function.update_of_ne side.other_ne]
    exact receiving

theorem Sound.step {event : Side × Action} (delivers : ikcp.Delivers) (sound : Sound ikcp c)
    (step : (system ikcp heap m_MessageParser).step c event next) (accepts : Accepts c event) :
    Sound ikcp next := by
  obtain ⟨side, action⟩ := event
  have sending := sound side
  have receiving := sound side.other
  rw [Side.other_other] at receiving
  have quiet {p : Peer κ γ} (quiet : (c.peer side).Quiet p) :
      Sound ikcp (c.setPeer side p) :=
    sound_update (sending.quiet_sender quiet) (receiving.quiet_receiver quiet)
  cases action with
  | post msg =>
      obtain ⟨owned, rfl⟩ := step
      exact quiet (Peer.doSend_quiet _ owned)
  | send accepted =>
      obtain ⟨msg_, sends, queue, rfl⟩ := step
      cases accepted with
      | false => exact absurd rfl accepts
      | true =>
          apply sound_update
          · rw [Function.update_self]
            exact sending.send queue
          · rw [Function.update_of_ne side.other_ne]
            exact receiving.send_receiver sends
  | receive frames =>
      obtain ⟨kcp, rest, wire, received, rfl⟩ := step
      rw [wire] at receiving
      apply sound_update
      · rw [Function.update_of_ne side.other_ne.symm]
        exact sending.same_sender rfl rfl
      · rw [Function.update_self]
        exact receiving.receive received
  | poll due =>
      obtain ⟨-, rfl⟩ := step
      have reads := Peer.poll_reads heap delivers side (c.clock side) due receiving.null
        receiving.framed
      exact sound_update (sending.same_sender reads.posted reads.sends) (receiving.reads reads)
  | main =>
      obtain ⟨p, ran, rfl⟩ := step
      exact quiet (Peer.runMain_quiet ran)
  | close =>
      cases step
      exact quiet (Peer.close_quiet _ side)
  | tick =>
      obtain ⟨-, rfl⟩ := step
      exact sound

theorem started_of_reachable (reachable : (system ikcp heap m_MessageParser).Reachable c) :
    ∀ side, (c.peer side).Started m_MessageParser := by
  apply reachable.invariant
  · rintro c ⟨kcp, clock, -, -, rfl⟩ side
    cases side with
    | server => exact ⟨[], [], rfl, rfl, fun _ => rfl⟩
    | client => exact ⟨[], [], rfl, rfl, fun _ => rfl⟩
  · rintro c event next started step
    obtain ⟨acting, action⟩ := event
    have update {p : Peer κ γ} (later : p.Started m_MessageParser) :
        ∀ side, (Function.update c.peer acting p side).Started m_MessageParser := by
      refine (Side.forall_iff acting).mpr ⟨?_, ?_⟩
      · rw [Function.update_self]
        exact later
      · rw [Function.update_of_ne acting.other_ne]
        exact started acting.other
    cases action with
    | post msg =>
        obtain ⟨-, rfl⟩ := step
        exact update ((started acting).idle (Peer.doSend_idle _ msg))
    | send accepted =>
        obtain ⟨msg_, sends, -, rfl⟩ := step
        exact update ((started acting).idle ⟨rfl, rfl, id⟩)
    | receive frames =>
        obtain ⟨kcp, rest, -, -, rfl⟩ := step
        exact update ((started acting).idle ⟨rfl, rfl, id⟩)
    | poll due =>
        obtain ⟨-, rfl⟩ := step
        exact update ((started acting).idle
          (Peer.poll_idle ikcp heap acting (c.clock acting) due _))
    | main =>
        obtain ⟨p, ran, rfl⟩ := step
        exact update (Peer.runMain_started (started acting) ran)
    | close =>
        cases step
        exact update ((started acting).idle (Peer.close_idle _ acting))
    | tick =>
        obtain ⟨-, rfl⟩ := step
        exact started

theorem sound_of_reachable (delivers : ikcp.Delivers)
    (reachable : ((system ikcp heap m_MessageParser).guarded Accepts).Reachable c) :
    Sound ikcp c := by
  apply reachable.invariant
  · rintro c ⟨kcp, clock, empty, -, rfl⟩
    exact sound_fresh empty clock
  · rintro c event next sound ⟨step, accepts⟩
    exact sound.step delivers step accepts

/-- The messages that are not empty are the buffers. -/
theorem filter_sized {list : List Message} (owned : ∀ msg ∈ list, msg.Owned) :
    (list.map Message.sized).filter (fun frame => frame ≠ []) = loads list := by
  induction list with
  | nil => rfl
  | cons msg list ih =>
      have mine := owned msg List.mem_cons_self
      have rest := ih fun other member => owned other (List.mem_cons_of_mem _ member)
      have split : loads (msg :: list) = loads [msg] ++ loads list := loads_append [msg] list
      rw [List.map_cons, split, ← rest]
      rcases framed_sized mine with empty | ⟨six, -⟩
      · have none : loads [msg] = [] := by
          have flat := (sized_eq mine).symm.trans empty
          obtain ⟨buff, writePoint, readPoint⟩ := msg
          cases buff with
          | null => rfl
          | writePoint => exact mine.elim
          | heap memory =>
              have long := mine.2.1
              simp only [loads, List.filterMap_cons, List.filterMap_nil,
                List.flatten_singleton] at flat
              rw [flat] at long
              cases long
        rw [List.filter_cons_of_neg (by simp [empty]), none, List.nil_append]
      · have filled : msg.sized ≠ [] := by
          intro empty
          rw [empty] at six
          cases six
        rw [List.filter_cons_of_pos (by simpa using filled), sized_eq mine]
        obtain ⟨buff, writePoint, readPoint⟩ := msg
        cases buff with
        | null => exact absurd rfl filled
        | writePoint => exact mine.elim
        | heap memory => simp [loads]

/-- The commands for the messages with some buffers. -/
def commands (m_MessageParser : Option (MessageParser γ)) (front : List (List UInt8)) :
    List (γ × Message) :=
  front.filterMap fun frame => Peer.command m_MessageParser ⟨.heap frame, 6, 6⟩

/-- What a side gets to handle are all of the first messages that the other one has sent. -/
theorem inbox_prefix {sender receiver : Peer κ γ} {wire : List (List UInt8)}
    (flows : Flows ikcp sender receiver wire) :
    ∃ front, front <+: loads sender.posted ∧
      receiver.inbox = front.map (fun frame => ⟨.heap frame, 6, 6⟩) ∧
      (ikcp.received receiver.session.m_kcp = [] → wire = [] → sender.sends = [] →
        front = loads sender.posted) := by
  obtain ⟨taken, posted, inbox⟩ := flows.flow
  have all := filter_sized flows.owned
  rw [posted, List.append_assoc, List.append_assoc, List.filter_append] at all
  have front : taken.filter (fun frame => frame ≠ []) <+: loads sender.posted := ⟨_, all⟩
  refine ⟨_, front, ?_, ?_⟩
  · rw [inbox, arrived]
    apply List.map_congr_left
    intro frame member
    have six := (loads_framed flows.owned frame (front.subset member)).1
    rw [dispatched, if_neg (Nat.not_lt.mpr six)]
  · intro received wire sends
    rw [← all, received, wire, sends]
    simp

/-- The receiver has started the commands for the first of the buffers sent, and unless it is
closed, for all of them once nothing is under way. -/
structure Carries (ikcp : Ikcp κ) (m_MessageParser : Option (MessageParser γ))
    (sender receiver : Peer κ γ) (wire : List (List UInt8)) (front : List (List UInt8)) :
    Prop where
  begun : front <+: loads sender.posted
  started : receiver.started = commands m_MessageParser front
  all : receiver.m_closed = false → receiver.main = [] →
    ikcp.received receiver.session.m_kcp = [] → wire = [] → sender.sends = [] →
    front = loads sender.posted

theorem carries_of_reachable (delivers : ikcp.Delivers)
    (reachable : ((system ikcp heap m_MessageParser).guarded Accepts).Reachable c)
    (side : Side) : ∃ front,
      Carries ikcp m_MessageParser (c.peer side) (c.peer side.other) (c.wire side) front := by
  obtain ⟨first, rest, split, started, all⟩ :=
    started_of_reachable reachable.unguarded side.other
  obtain ⟨front, begun, inbox, complete⟩ :=
    inbox_prefix (sound_of_reachable delivers reachable side)
  have part : first <+: front.map (fun frame => (⟨.heap frame, 6, 6⟩ : Message)) := by
    rw [← inbox, Peer.inbox, split, List.append_assoc]
    exact List.prefix_append _ _
  obtain ⟨done, before, same⟩ := List.prefix_map_iff.mp part
  refine ⟨done, before.trans begun, ?_, ?_⟩
  · rw [started, same, List.filterMap_map]
    rfl
  · intro opened main received wire sends
    have nothing := all opened
    rw [nothing, List.append_nil] at split
    rw [Peer.inbox, main, split, same, List.filterMap_nil, List.append_nil] at inbox
    have length := congrArg List.length inbox
    rw [List.length_map, List.length_map] at length
    rw [before.eq_of_length length]
    exact complete received wire sends

/-- Whatever the order of the steps of both sides, as long as `ikcp_send` accepts every
message: `parseMsg` always returns, and the commands that a side has started are those for
the first messages that the other side has sent, each once, in order and with the bytes
sent. A session that is not closed has started those for all of them once nothing is under
way. -/
theorem conversation_carries (delivers : ikcp.Delivers)
    (reachable : ((system ikcp heap m_MessageParser).guarded Accepts).Reachable c)
    (side : Side) :
    (c.peer side.other).stuck = false ∧
    ∃ front, front <+: loads (c.peer side).posted ∧
      (c.peer side.other).started = commands m_MessageParser front ∧
      ((c.peer side.other).m_closed = false → (c.peer side.other).main = [] →
        ikcp.received (c.peer side.other).session.m_kcp = [] → c.wire side = [] →
        (c.peer side).sends = [] → front = loads (c.peer side).posted) := by
  obtain ⟨front, carries⟩ := carries_of_reachable delivers reachable side
  exact ⟨(sound_of_reachable delivers reachable side).stuck, front, carries.begun,
    carries.started, carries.all⟩

section OneMessage

open Sender (firstMsg)

/-- The sessions behind the handshake, at one second. -/
def start : Conversation (List (List UInt8)) γ := fresh (fun _ => []) fun _ => 1

/-- The server has sent a message, and the client has handled it. -/
theorem one_reachable {memory : List UInt8} {writePoint readPoint : UInt32}
    (m_MessageParser : Option (MessageParser γ))
    (owned : (Message.mk (.heap memory) writePoint readPoint).Owned)
    (reads : KcpSession.doRead KcpSession.queued (Heap.filled 0) 1
      ⟨[memory], .empty, 0, 0⟩ = ⟨⟨[], .empty, 1, 1⟩, [⟨.heap memory, 6, 6⟩], .left⟩)
    (ordinary : Message.getMsgID ⟨.heap memory, 6, 6⟩ ∉ [kcpReadyNtf, syspingAck, syspingReq]) :
    ∃ c, ((system KcpSession.queued (Heap.filled 0) m_MessageParser).guarded
        Accepts).Reachable c ∧
      (c.peer .server).posted = [⟨.heap memory, writePoint, readPoint⟩] ∧
      (c.peer .server).sends = [] ∧ c.wire .server = [] ∧
      (c.peer .client).m_closed = false ∧ (c.peer .client).main = [] ∧
      KcpSession.queued.received (c.peer .client).session.m_kcp = [] := by
  let msg : Message := ⟨.heap memory, writePoint, readPoint⟩
  have size : Message.sized ⟨.heap memory, 6, 6⟩ = memory :=
    List.take_of_length_le (Nat.le_of_eq owned.1.symm)
  let client (session : KcpSession (List (List UInt8))) (main : List Task)
      (handled : List Message) (started : List (γ × Message)) : Peer (List (List UInt8)) γ :=
    ⟨session, false, false, false, false, [], main, [], handled, started⟩
  have poll : Peer.poll KcpSession.queued (Heap.filled 0) .client 1 true
      (client ⟨[memory], .empty, 0, 0⟩ [] [] []) =
        client ⟨[], .empty, 1, 1⟩ [.handle ⟨.heap memory, 6, 6⟩] [] [] := by
    simp [Peer.poll, Peer.doRead, client, reads]
  have main : Peer.runMain m_MessageParser
      (client ⟨[], .empty, 1, 1⟩ [.handle ⟨.heap memory, 6, 6⟩] [] []) =
        some (client ⟨[], .empty, 1, 1⟩ [] [⟨.heap memory, 6, 6⟩]
          (handleMessage m_MessageParser ⟨.heap memory, 6, 6⟩).toList) := by
    simp only [List.mem_cons, List.not_mem_nil, or_false, not_or] at ordinary
    simp [Peer.runMain, Peer.handleMessage, client, ordinary]
  have begun : ((system KcpSession.queued (Heap.filled 0) m_MessageParser).guarded
      Accepts).Reachable start :=
    .initial ⟨fun _ => [], fun _ => 1, fun _ => rfl, fun _ => (by decide : (1 : UInt64) ≠ 0), rfl⟩
  have posted := begun.step (show (Transition.guarded _ _).step start
    (.server, .post msg) _ from ⟨⟨owned, rfl⟩, Action.noConfusion⟩)
  have sent := posted.step (show (Transition.guarded _ _).step _ (.server, .send true) _ from
    ⟨⟨⟨.heap memory, 6, 6⟩, [], rfl, rfl⟩, by simp [Accepts]⟩)
  rw [size] at sent
  have received := sent.step (show (Transition.guarded _ _).step _
    (.client, .receive [memory]) _ from
    ⟨⟨[memory], [], rfl, rfl, rfl⟩, Action.noConfusion⟩)
  have polled := received.step (show (Transition.guarded _ _).step _ (.client, .poll true) _ from
    ⟨⟨rfl, congrArg (setPeer _ .client) poll.symm⟩, Action.noConfusion⟩)
  have handled := polled.step (show (Transition.guarded _ _).step _ (.client, .main) _ from
    ⟨⟨_, main, rfl⟩, Action.noConfusion⟩)
  exact ⟨_, handled, rfl, rfl, rfl, rfl, rfl, rfl⟩

/-- Every message starts the same command. -/
def oneCommand : Option (MessageParser Unit) := some fun _ => some ()

theorem conversation_carries_one : ∃ c,
    ((system KcpSession.queued (Heap.filled 0) oneCommand).guarded Accepts).Reachable c ∧
      (c.peer .client).started = commands oneCommand [[6, 0, 0, 0, 1, 0]] := by
  obtain ⟨c, reachable, posted, sends, wire, opened, main, received⟩ :=
    @one_reachable _ [6, 0, 0, 0, 1, 0] 6 6 oneCommand ⟨by decide, by decide, by decide⟩ rfl
      (by decide)
  obtain ⟨-, front, -, started, all⟩ :=
    conversation_carries KcpSession.queued_delivers reachable .server
  rw [all opened main received wire sends, posted] at started
  exact ⟨c, reachable, started⟩

end OneMessage

end Conversation

end Nicenet.Kcp
