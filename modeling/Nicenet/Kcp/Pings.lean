import Nicenet.Kcp.Carried

/-!
# Pings

The server asks the client for a sign of life at most once in a second, and only the client
answers, once for each question.
-/

namespace Nicenet.Kcp

open Library

/-- The number of messages with an id. -/
def ids (msgID : UInt16) (list : List Message) : Nat :=
  list.countP fun msg => msg.getMsgID = msgID

theorem ids_append (msgID : UInt16) (front back : List Message) :
    ids msgID (front ++ back) = ids msgID front + ids msgID back := List.countP_append

theorem ids_singleton (msgID : UInt16) (msg : Message) :
    ids msgID [msg] = if msg.getMsgID = msgID then 1 else 0 := by
  simp [ids, List.countP_cons]

theorem getMsgID_notice (msgID : UInt16) : (notice msgID).getMsgID = msgID := by
  have size : (wordBytes 6).length = 4 := length_wordBytes 6
  simp only [Message.getMsgID, notice]
  rw [List.drop_left' size, List.take_of_length_le (by rw [Bytes.length_ofNat]),
    Bytes.toNat_ofNat_of_lt (UInt16.toNat_lt msgID), UInt16.ofNat_toNat]

/-- A message without a buffer has the id 0. -/
theorem ids_loads {msgID : UInt16} (other : msgID ≠ 0) {list : List Message}
    (owned : ∀ msg ∈ list, msg.Owned) :
    ids msgID ((loads list).map fun frame => ⟨.heap frame, 6, 6⟩) = ids msgID list := by
  induction list with
  | nil => rfl
  | cons msg list ih =>
      have mine := owned msg List.mem_cons_self
      have rest := ih fun other member => owned other (List.mem_cons_of_mem _ member)
      have split : loads (msg :: list) = loads [msg] ++ loads list := loads_append [msg] list
      have whole : msg :: list = [msg] ++ list := rfl
      rw [split, List.map_append, ids_append, rest, whole, ids_append]
      congr 1
      obtain ⟨buff, writePoint, readPoint⟩ := msg
      cases buff with
      | null =>
          rw [ids_singleton, if_neg]
          · rfl
          · exact Ne.symm other
      | writePoint => exact mine.elim
      | heap memory => rfl

/-- A side handles no more messages with an id than the other side has sent. -/
theorem ids_inbox_le {κ γ : Type} {ikcp : Ikcp κ} {sender receiver : Peer κ γ}
    {wire : List (List UInt8)} (flows : Flows ikcp sender receiver wire) {msgID : UInt16}
    (other : msgID ≠ 0) : ids msgID receiver.inbox ≤ ids msgID sender.posted := by
  obtain ⟨front, begun, inbox, -⟩ := Conversation.inbox_prefix flows
  rw [inbox, ← ids_loads other flows.owned]
  exact (begun.map _).sublist.countP_le

/-- The id that a task sends. -/
def Task.msgID : Task → Option UInt16
  | .notify msgID => some msgID
  | .handle _ => none

theorem filterMap_handle_msgID (list : List Message) :
    (list.map Task.handle).filterMap Task.msgID = [] := by
  rw [List.filterMap_map]
  exact List.filterMap_none ..

namespace Peer

variable {κ γ : Type} {m_MessageParser : Option (MessageParser γ)} {p next : Peer κ γ}

def notices (p : Peer κ γ) : List UInt16 := p.main.filterMap Task.msgID

/-- A step that sends no message, handles none and puts no id into a task. -/
structure Still (p next : Peer κ γ) : Prop where
  posted : next.posted = p.posted
  handled : next.handled = p.handled
  notices : next.notices = p.notices
  closed : next.m_closed = false → p.m_closed = false

theorem close_still (p : Peer κ γ) (side : Side) : p.Still (p.close side) := by
  cases side with
  | server => exact ⟨rfl, rfl, rfl, Bool.noConfusion⟩
  | client => exact ⟨rfl, rfl, rfl, Bool.noConfusion⟩

theorem doRead_still (ikcp : Ikcp κ) (heap : Heap) (side : Side) (now : UInt64) (due : Bool)
    (p : Peer κ γ) : p.Still (p.doRead ikcp heap side now due) := by
  have idle := p.doRead_idle ikcp heap side now due
  have same : (p.doRead ikcp heap side now due).posted = p.posted ∧
      (p.doRead ikcp heap side now due).notices = p.notices := by
    rw [doRead]
    split
    · exact ⟨rfl, rfl⟩
    · split
      · have quiet (posted : List Message) :
            (p.main ++ posted.map Task.handle).filterMap Task.msgID = p.notices := by
          rw [List.filterMap_append, filterMap_handle_msgID, List.append_nil, notices]
        cases KcpSession.doRead ikcp heap now p.session with
        | mk session posted ends =>
            cases ends with
            | removed =>
                cases side with
                | server => exact ⟨rfl, quiet posted⟩
                | client => exact ⟨rfl, quiet posted⟩
            | left => exact ⟨rfl, quiet posted⟩
            | stuck => exact ⟨rfl, quiet posted⟩
            | running => exact ⟨rfl, quiet posted⟩
      · exact ⟨rfl, rfl⟩
  exact ⟨same.1, idle.handled, same.2, idle.closed⟩

/-- `doPing` changes the time of the last ping and the tasks alone. -/
theorem doPing_frame (p : Peer κ γ) (now : UInt64) :
    p.doPing now = { p with
      session := { p.session with
        m_lastPingTime := (p.doPing now).session.m_lastPingTime }
      main := (p.doPing now).main } := by
  rw [doPing]
  repeat' split
  all_goals rfl

/-- A ping is posted by a poll later than the last one, and the time is kept. -/
theorem doPing_cases (p : Peer κ γ) (now : UInt64) :
    ((p.doPing now).notices = p.notices ∧
        (p.doPing now).session.m_lastPingTime = now ∧ p.session.m_lastPingTime = 0) ∨
      ((p.doPing now).notices = p.notices ++ [syspingReq] ∧
        (p.doPing now).session.m_lastPingTime = now ∧ p.session.m_lastPingTime ≠ 0 ∧
        p.session.m_lastPingTime < now) ∨
      (p.doPing now = p ∧ p.session.m_lastPingTime ≠ 0 ∧
        now ≤ p.session.m_lastPingTime) := by
  rw [doPing]
  split
  · next unset => exact .inl ⟨rfl, rfl, unset⟩
  · next set =>
    split
    · next later =>
      refine .inr (.inl ⟨?_, rfl, set, later⟩)
      simp only [notices, List.filterMap_append]
      rfl
    · next early => exact .inr (.inr ⟨rfl, set, UInt64.not_lt.mp early⟩)

/-! ## Answers -/

/-- Every answer is one to a question, and every question has one in a session that is not
closed. -/
structure Replies (p : Peer κ γ) : Prop where
  notices : syspingAck ∉ p.notices
  most : ids syspingAck p.posted ≤ ids syspingReq p.handled
  all : p.m_closed = false → ids syspingAck p.posted = ids syspingReq p.handled

theorem Replies.still (replies : p.Replies) (still : p.Still next) : next.Replies := by
  refine ⟨?_, ?_, fun opened => ?_⟩
  · rw [still.notices]
    exact replies.notices
  · rw [still.posted, still.handled]
    exact replies.most
  · rw [still.posted, still.handled]
    exact replies.all (still.closed opened)

theorem Replies.doPing (replies : p.Replies) (now : UInt64) : (p.doPing now).Replies := by
  have frame := p.doPing_frame now
  refine ⟨?_, ?_, fun opened => ?_⟩
  · rcases p.doPing_cases now with ⟨notices, -⟩ | ⟨notices, -⟩ | ⟨same, -⟩
    · rw [notices]
      exact replies.notices
    · rw [notices, List.mem_append, List.mem_singleton, not_or]
      exact ⟨replies.notices, by decide⟩
    · rw [same]
      exact replies.notices
  · rw [congrArg Peer.posted frame, congrArg Peer.handled frame]
    exact replies.most
  · rw [congrArg Peer.m_closed frame] at opened
    rw [congrArg Peer.posted frame, congrArg Peer.handled frame]
    exact replies.all opened

theorem doSend_posted (p : Peer κ γ) (msg : Message) (msgID : UInt16) :
    ids msgID (p.doSend msg).posted = ids msgID p.posted +
      if p.m_closed = false ∧ msg.getMsgID = msgID then 1 else 0 := by
  rw [doSend]
  cases closed : p.m_closed with
  | true => simp
  | false => simp [ids_append, ids_singleton]

theorem doSend_notices (p : Peer κ γ) (msg : Message) : (p.doSend msg).notices = p.notices := by
  rw [doSend]
  split
  · rfl
  · rfl

theorem Replies.doSend (replies : p.Replies) {msg : Message}
    (other : msg.getMsgID ≠ syspingAck) : (p.doSend msg).Replies := by
  have idle := p.doSend_idle msg
  refine ⟨?_, ?_, fun opened => ?_⟩
  · rw [doSend_notices]
    exact replies.notices
  · rw [doSend_posted, if_neg fun both => other both.2, idle.handled]
    exact replies.most
  · rw [doSend_posted, if_neg fun both => other both.2, idle.handled]
    exact replies.all (idle.closed opened)

/-- What a message brings about in the messages sent. -/
theorem handleMessage_posted (m_MessageParser : Option (MessageParser γ)) (p : Peer κ γ)
    (msg : Message) (msgID : UInt16) :
    ids msgID (p.handleMessage m_MessageParser msg).posted = ids msgID p.posted +
      if p.m_closed = false ∧ msg.getMsgID = syspingReq ∧ msgID = syspingAck then 1 else 0 := by
  rw [handleMessage]
  cases closed : p.m_closed with
  | true => simp
  | false =>
      simp only [Bool.false_eq_true, ↓reduceIte, true_and]
      split
      · next ready => simp [ready, kcpReadyNtf, syspingReq]
      · split
        · next ack => simp [ack, syspingAck, syspingReq]
        · split
          · next req =>
            rw [doSend_posted, getMsgID_notice]
            simp [closed, req, eq_comm]
          · next req => simp [req]

/-- A task of the main service handles a message or sends an id. -/
theorem runMain_cases (ran : p.runMain m_MessageParser = some next) :
    next.m_closed = p.m_closed ∧ next.session = p.session ∧
      next.m_waitRemove = p.m_waitRemove ∧
      ((∃ msg, next.handled = p.handled ++ [msg] ∧ next.notices = p.notices ∧
          ∀ msgID, ids msgID next.posted = ids msgID p.posted +
            if p.m_closed = false ∧ msg.getMsgID = syspingReq ∧ msgID = syspingAck then 1
            else 0) ∨
        ∃ sent, p.notices = sent :: next.notices ∧ next.handled = p.handled ∧
          ∀ msgID, ids msgID next.posted = ids msgID p.posted +
            if p.m_closed = false ∧ sent = msgID then 1 else 0) := by
  rw [runMain] at ran
  split at ran
  · cases ran
  · next msg main queue =>
    cases ran
    have same : (handleMessage m_MessageParser
        { p with main := main, handled := p.handled ++ [msg] } msg).main = main ∧
      (handleMessage m_MessageParser
        { p with main := main, handled := p.handled ++ [msg] } msg).session = p.session ∧
      (handleMessage m_MessageParser
        { p with main := main, handled := p.handled ++ [msg] } msg).m_waitRemove =
          p.m_waitRemove := by
      rw [handleMessage, doSend]
      repeat' split
      all_goals exact ⟨rfl, rfl, rfl⟩
    obtain ⟨handled, closed, -⟩ := handleMessage_cases m_MessageParser
      { p with main := main, handled := p.handled ++ [msg] } msg
    refine ⟨closed, same.2.1, same.2.2, .inl ⟨msg, handled, ?_, fun msgID =>
      handleMessage_posted ..⟩⟩
    rw [notices, notices, same.1, queue]
    rfl
  · next sent main queue =>
    cases ran
    have idle := doSend_idle { p with main := main } (notice sent)
    have same : (doSend { p with main := main } (notice sent)).m_closed = p.m_closed ∧
        (doSend { p with main := main } (notice sent)).session = p.session ∧
        (doSend { p with main := main } (notice sent)).m_waitRemove = p.m_waitRemove := by
      rw [doSend]
      split
      · exact ⟨rfl, rfl, rfl⟩
      · exact ⟨rfl, rfl, rfl⟩
    refine ⟨same.1, same.2.1, same.2.2, .inr ⟨sent, ?_, idle.handled, fun msgID => ?_⟩⟩
    · rw [doSend_notices, notices, queue]
      rfl
    · rw [doSend_posted, getMsgID_notice]

theorem Replies.runMain (replies : p.Replies) (ran : p.runMain m_MessageParser = some next) :
    next.Replies := by
  obtain ⟨closed, -, -, ⟨msg, handled, notices, posted⟩ | ⟨sent, notices, handled, posted⟩⟩ :=
    runMain_cases ran
  · refine ⟨?_, ?_, ?_⟩
    · rw [notices]
      exact replies.notices
    · rw [posted, handled, ids_append, ids_singleton]
      have most := replies.most
      split
      · next both =>
        rw [if_pos both.2.1]
        omega
      · omega
    · intro opened
      rw [closed] at opened
      have all := replies.all opened
      rw [posted, handled, ids_append, ids_singleton, all]
      simp only [opened, true_and, and_true]
  · have other : sent ≠ syspingAck := by
      rintro rfl
      exact replies.notices (by rw [notices]; exact List.mem_cons_self)
    refine ⟨fun member => replies.notices (by rw [notices]; exact List.mem_cons_of_mem _ member),
      ?_, ?_⟩
    · rw [posted, handled, if_neg fun both => other both.2]
      exact replies.most
    · intro opened
      rw [closed] at opened
      rw [posted, handled, if_neg fun both => other both.2]
      exact replies.all opened

/-! ## Questions -/

/-- The questions sent and those in tasks. -/
def asked (p : Peer κ γ) : Nat := ids syspingReq p.posted + p.notices.count syspingReq

theorem Still.asked (still : p.Still next) : next.asked = p.asked := by
  rw [Peer.asked, Peer.asked, still.posted, still.notices]

/-- A task brings up no question, and drops none unless the session is closed. -/
theorem runMain_asked (ran : p.runMain m_MessageParser = some next) :
    next.asked ≤ p.asked ∧ (p.m_closed = false → next.asked = p.asked) := by
  obtain ⟨-, -, -, ⟨msg, -, notices, posted⟩ | ⟨sent, notices, -, posted⟩⟩ := runMain_cases ran
  · have other : syspingReq ≠ syspingAck := by decide
    have same : next.asked = p.asked := by
      rw [asked, asked, notices, posted, if_neg fun both => other both.2.2]
      rfl
    exact ⟨Nat.le_of_eq same, fun _ => same⟩
  · rw [asked, asked, notices, posted, List.count_cons]
    simp only [beq_iff_eq]
    constructor
    · split
      · next both =>
        rw [if_pos both.2]
        omega
      · omega
    · intro opened
      simp only [opened, true_and]
      omega

/-- A client asks nothing. -/
structure Meek (p : Peer κ γ) : Prop where
  posted : ids syspingReq p.posted = 0
  notices : p.notices = []

/-- A second has one question at most. -/
def Spaced (begun : UInt64) (p : Peer κ γ) : Prop :=
  (p.session.m_lastPingTime = 0 ∧ p.asked = 0) ∨
    p.asked + begun.toNat ≤ p.session.m_lastPingTime.toNat

theorem Spaced.doPing {begun now : UInt64} (spaced : p.Spaced begun)
    (later : begun.toNat ≤ now.toNat) : (p.doPing now).Spaced begun := by
  have posted := congrArg Peer.posted (p.doPing_frame now)
  dsimp only at posted
  rcases p.doPing_cases now with ⟨notices, time, unset⟩ | ⟨notices, time, set, late⟩ | ⟨same, -⟩
  · refine .inr ?_
    have none : p.asked = 0 := by
      rcases spaced with ⟨-, none⟩ | some
      · exact none
      · rw [unset] at some
        have zero : (0 : UInt64).toNat = 0 := rfl
        omega
    have same : (p.doPing now).asked = p.asked := by rw [asked, asked, posted, notices]
    rw [same, none, time]
    omega
  · have more : (p.doPing now).asked = p.asked + 1 := by
      rw [asked, asked, posted, notices, List.count_append, List.count_singleton_self]
      omega
    rw [UInt64.lt_iff_toNat_lt] at late
    refine .inr ?_
    rw [more, time]
    rcases spaced with ⟨unset, -⟩ | some
    · exact absurd unset set
    · omega
  · rw [same]
    exact spaced

/-- Reading only puts the time of the last ping off. -/
theorem Spaced.later {begun now : UInt64} (spaced : p.Spaced begun)
    (past : p.session.m_lastPingTime.toNat ≤ now.toNat) (later : begun.toNat ≤ now.toNat)
    (asked : next.asked = p.asked)
    (time : next.session.m_lastPingTime = p.session.m_lastPingTime ∨
      next.session.m_lastPingTime = now) : next.Spaced begun := by
  rw [Spaced, asked]
  rcases time with kept | set
  · rw [kept]
    exact spaced
  · rw [set]
    refine .inr ?_
    rcases spaced with ⟨-, none⟩ | some
    · omega
    · omega

/-- A poll reads nothing, or it is a pass, and removes the session for the time alone. -/
theorem doRead_cases {ikcp : Ikcp κ} (heap : Heap) (delivers : ikcp.Delivers) (side : Side)
    (now : UInt64) (due : Bool) (null : p.session.m_PreMsg.buff = .null)
    (framed : ∀ frame ∈ ikcp.received p.session.m_kcp, Framed frame) :
    p.doRead ikcp heap side now due = p ∨
      ∃ pass, KcpSession.Takes ikcp now (p.session.heard now)
          (ikcp.received p.session.m_kcp) pass ∧
        (p.doRead ikcp heap side now due).session = pass.session ∧
        (p.doRead ikcp heap side now due).inbox = p.inbox ++ pass.posted ∧
        (¬now > pass.session.m_lastPongTime + 5 →
          (p.doRead ikcp heap side now due).m_closed = p.m_closed ∧
            (p.doRead ikcp heap side now due).m_waitRemove = p.m_waitRemove) := by
  rw [doRead]
  split
  · exact .inl rfl
  · split
    · have takes := KcpSession.doRead_takes heap now delivers null framed
      refine .inr ⟨_, takes, ?_⟩
      have ends := takes.ends
      generalize KcpSession.doRead ikcp heap now p.session = pass at ends
      have inbox : p.handled ++ (p.main ++ pass.posted.map Task.handle).filterMap Task.msg =
          p.inbox ++ pass.posted := by
        rw [Peer.inbox, List.filterMap_append, filterMap_handle, List.append_assoc]
      dsimp only
      rw [ends]
      by_cases late : now > pass.session.m_lastPongTime + 5
      · rw [if_pos late]
        cases side with
        | server => exact ⟨rfl, inbox, fun early => absurd late early⟩
        | client => exact ⟨rfl, inbox, fun early => absurd late early⟩
      · rw [if_neg late]
        exact ⟨rfl, inbox, fun _ => ⟨rfl, rfl⟩⟩
    · exact .inl rfl

/-- The time of the last ping is kept, or it is now. -/
theorem doRead_pingTime {ikcp : Ikcp κ} (heap : Heap) (delivers : ikcp.Delivers) (side : Side)
    (now : UInt64) (due : Bool) (null : p.session.m_PreMsg.buff = .null)
    (framed : ∀ frame ∈ ikcp.received p.session.m_kcp, Framed frame) :
    (p.doRead ikcp heap side now due).session.m_lastPingTime = p.session.m_lastPingTime ∨
      (p.doRead ikcp heap side now due).session.m_lastPingTime = now := by
  rcases doRead_cases heap delivers side now due null framed with same | ⟨pass, takes, session, -⟩
  · rw [same]
    exact .inl rfl
  · rw [session]
    rcases takes.times with ⟨-, kept, -⟩ | ⟨-, set, -⟩
    · rw [kept, KcpSession.heard]
      left
      split
      · rfl
      · rfl
    · exact .inr set

/-- A step asks once, and only in a second later than the last ping, which is then now. -/
def Paces (clock : UInt64) (p next : Peer κ γ) : Prop :=
  (next.asked ≤ p.asked ∧
      p.session.m_lastPingTime.toNat ≤ next.session.m_lastPingTime.toNat) ∨
    (next.asked = p.asked + 1 ∧ p.session.m_lastPingTime.toNat < clock.toNat ∧
      next.session.m_lastPingTime = clock)

theorem Paces.of_same {clock : UInt64} (asked : next.asked ≤ p.asked)
    (time : next.session.m_lastPingTime = p.session.m_lastPingTime) : p.Paces clock next :=
  .inl ⟨asked, by rw [time]⟩

theorem doSend_paces (clock : UInt64) (p : Peer κ γ) {msg : Message}
    (req : msg.getMsgID ≠ syspingReq) : p.Paces clock (p.doSend msg) := by
  apply Paces.of_same
  · rw [asked, asked, doSend_notices, doSend_posted, if_neg fun both => req both.2]
    exact Nat.le_refl _
  · rw [doSend]
    split
    · rfl
    · rfl

/-- A poll of the server asks by `doPing` alone. -/
theorem poll_paces {ikcp : Ikcp κ} (heap : Heap) (delivers : ikcp.Delivers) {clock : UInt64}
    (due : Bool) (past : p.session.m_lastPingTime.toNat ≤ clock.toNat)
    (null : p.session.m_PreMsg.buff = .null)
    (framed : ∀ frame ∈ ikcp.received p.session.m_kcp, Framed frame) :
    p.Paces clock (p.poll ikcp heap .server clock due) := by
  have frame := p.doPing_frame clock
  have session := congrArg Peer.session frame
  have posted := congrArg Peer.posted frame
  dsimp only at posted
  have still := doRead_still ikcp heap .server clock due (p.doPing clock)
  have asked_eq : (p.poll ikcp heap .server clock due).asked = (p.doPing clock).asked :=
    still.asked
  have time := doRead_pingTime heap delivers .server clock due
    (show (p.doPing clock).session.m_PreMsg.buff = .null by rw [session]; exact null)
    (show ∀ frame ∈ ikcp.received (p.doPing clock).session.m_kcp, Framed frame by
      rw [session]; exact framed)
  change (p.poll ikcp heap .server clock due).session.m_lastPingTime = _ ∨
    (p.poll ikcp heap .server clock due).session.m_lastPingTime = _ at time
  rcases p.doPing_cases clock with ⟨notices, set, -⟩ | ⟨notices, set, -, late⟩ | ⟨same, -⟩
  · have fewer : (p.doPing clock).asked = p.asked := by rw [asked, asked, posted, notices]
    rw [set, or_self] at time
    exact .inl ⟨by rw [asked_eq, fewer], by rw [time]; exact past⟩
  · have more : (p.doPing clock).asked = p.asked + 1 := by
      rw [asked, asked, posted, notices, List.count_append, List.count_singleton_self]
      rfl
    rw [set, or_self] at time
    exact .inr ⟨by rw [asked_eq, more], UInt64.lt_iff_toNat_lt.mp late, time⟩
  · rw [same] at time asked_eq
    refine .inl ⟨Nat.le_of_eq asked_eq, ?_⟩
    rcases time with kept | now
    · rw [kept]
    · rw [now]
      exact past

/-- Answers answer, and the server asks at most once in a second, the client never. -/
structure Tame (side : Side) (begun clock : UInt64) (p : Peer κ γ) : Prop where
  replies : p.Replies
  server : side = .server → p.Spaced begun ∧ p.session.m_lastPingTime.toNat ≤ clock.toNat
  client : side = .client → p.Meek

section Tame

variable {side : Side} {begun clock : UInt64}

theorem Tame.still (tame : p.Tame side begun clock) (still : p.Still next)
    (time : next.session.m_lastPingTime = p.session.m_lastPingTime) :
    next.Tame side begun clock := by
  refine ⟨tame.replies.still still, fun server => ?_, fun client => ?_⟩
  · rw [Spaced, still.asked, time]
    exact tame.server server
  · obtain ⟨posted, notices⟩ := tame.client client
    refine ⟨?_, ?_⟩
    · rw [still.posted, posted]
    · rw [still.notices, notices]

theorem Tame.tick (tame : p.Tame side begun clock) {now : UInt64}
    (onward : clock.toNat ≤ now.toNat) : p.Tame side begun now := by
  refine ⟨tame.replies, fun server => ?_, tame.client⟩
  obtain ⟨spaced, past⟩ := tame.server server
  exact ⟨spaced, Nat.le_trans past onward⟩

theorem Tame.doSend (tame : p.Tame side begun clock) {msg : Message}
    (req : msg.getMsgID ≠ syspingReq) (ack : msg.getMsgID ≠ syspingAck) :
    (p.doSend msg).Tame side begun clock := by
  have posted : ids syspingReq (p.doSend msg).posted = ids syspingReq p.posted := by
    rw [doSend_posted, if_neg fun both => req both.2]
    rfl
  have session : (p.doSend msg).session = p.session := by
    rw [Peer.doSend]
    split
    · rfl
    · rfl
  refine ⟨tame.replies.doSend ack, fun server => ?_, fun client => ?_⟩
  · rw [Spaced, asked, posted, doSend_notices, session]
    exact tame.server server
  · obtain ⟨none, notices⟩ := tame.client client
    refine ⟨?_, ?_⟩
    · rw [posted, none]
    · rw [doSend_notices, notices]

theorem Tame.runMain (tame : p.Tame side begun clock)
    (ran : p.runMain m_MessageParser = some next) : next.Tame side begun clock := by
  have fewer := (runMain_asked ran).1
  obtain ⟨-, session, -, cases⟩ := runMain_cases ran
  refine ⟨tame.replies.runMain ran, fun server => ?_, fun client => ?_⟩
  · obtain ⟨spaced, past⟩ := tame.server server
    rw [Spaced, session]
    refine ⟨?_, past⟩
    rcases spaced with ⟨unset, none⟩ | some
    · exact .inl ⟨unset, by omega⟩
    · exact .inr (by omega)
  · obtain ⟨posted, notices⟩ := tame.client client
    have none : next.asked = 0 := by
      rw [asked, asked, posted, notices] at fewer
      exact Nat.le_zero.mp fewer
    rcases cases with ⟨msg, -, same, -⟩ | ⟨sent, same, -⟩
    · rw [notices] at same
      rw [asked, same] at none
      exact ⟨none, same⟩
    · rw [notices] at same
      cases same

theorem Tame.poll {ikcp : Ikcp κ} (heap : Heap) (delivers : ikcp.Delivers)
    (tame : p.Tame side begun clock) (due : Bool) (later : begun.toNat ≤ clock.toNat)
    (null : p.session.m_PreMsg.buff = .null)
    (framed : ∀ frame ∈ ikcp.received p.session.m_kcp, Framed frame) :
    (p.poll ikcp heap side clock due).Tame side begun clock := by
  cases side with
  | server =>
      obtain ⟨spaced, past⟩ := tame.server rfl
      have frame := p.doPing_frame clock
      have session := congrArg Peer.session frame
      have still := doRead_still ikcp heap .server clock due (p.doPing clock)
      have pinged := spaced.doPing later
      have time := doRead_pingTime heap delivers .server clock due
        (show (p.doPing clock).session.m_PreMsg.buff = .null by rw [session]; exact null)
        (show ∀ frame ∈ ikcp.received (p.doPing clock).session.m_kcp, Framed frame by
          rw [session]; exact framed)
      have kept : (p.doPing clock).session.m_lastPingTime.toNat ≤ clock.toNat := by
        rcases p.doPing_cases clock with ⟨-, now, -⟩ | ⟨-, now, -⟩ | ⟨same, -⟩
        · rw [now]
        · rw [now]
        · rw [same]
          exact past
      refine ⟨(tame.replies.doPing clock).still still, fun _ => ⟨?_, ?_⟩, Side.noConfusion⟩
      · exact pinged.later kept later still.asked time
      · rcases time with same | now
        · rw [Peer.poll, same]
          exact kept
        · rw [Peer.poll, now]
  | client =>
      have still := doRead_still ikcp heap .client clock due p
      obtain ⟨posted, notices⟩ := tame.client rfl
      refine ⟨tame.replies.still still, Side.noConfusion, fun _ => ⟨?_, ?_⟩⟩
      · rw [Peer.poll, still.posted, posted]
      · rw [Peer.poll, still.notices, notices]

end Tame

end Peer

/-! ## No storm of pings -/

namespace Conversation

variable {κ γ : Type} {ikcp : Ikcp κ} {heap : Heap}
variable {m_MessageParser : Option (MessageParser γ)} {c next : Conversation κ γ}

/-- `ikcp_send` accepts every message, and the ids of the pings are left to the sessions. -/
def Polite (c : Conversation κ γ) (event : Side × Action) : Prop :=
  Accepts c event ∧ ∀ msg, event.2 = .post msg →
    msg.getMsgID ≠ syspingReq ∧ msg.getMsgID ≠ syspingAck

theorem toNat_succ {clock : UInt64} (small : clock.toNat + 1 < 2 ^ 64) :
    (clock + 1).toNat = clock.toNat + 1 := by
  rw [UInt64.toNat_add]
  exact Nat.mod_eq_of_lt small

/-- The sides are tame, and no clock goes back. -/
structure Counted (ikcp : Ikcp κ) (c : Conversation κ γ) : Prop where
  sound : Sound ikcp c
  tame : ∀ side, (c.peer side).Tame side (c.begun side) (c.clock side)
  later : ∀ side, (c.begun side).toNat ≤ (c.clock side).toNat

theorem counted_fresh {kcp : Side → κ} (empty : ∀ side, ikcp.received (kcp side) = [])
    (clock : Side → UInt64) : Counted ikcp (fresh kcp clock : Conversation κ γ) where
  sound := sound_fresh empty clock
  tame side := by
    cases side with
    | server =>
        refine ⟨⟨?_, Nat.le_refl _, fun _ => rfl⟩, fun _ => ⟨.inl ⟨rfl, rfl⟩, Nat.zero_le _⟩,
          Side.noConfusion⟩
        show syspingAck ∉ [kcpReadyNtf]
        decide
    | client =>
        exact ⟨⟨List.not_mem_nil, Nat.le_refl _, fun _ => rfl⟩, Side.noConfusion,
          fun _ => ⟨rfl, rfl⟩⟩
  later _ := Nat.le_refl _

theorem Counted.step {event : Side × Action} (delivers : ikcp.Delivers)
    (counted : Counted ikcp c) (step : (system ikcp heap m_MessageParser).step c event next)
    (polite : Polite c event) : Counted ikcp next := by
  have sound := counted.sound.step delivers step polite.1
  obtain ⟨side, action⟩ := event
  have mine := counted.tame side
  have later := counted.later side
  have update {p : Peer κ γ} (tame : p.Tame side (c.begun side) (c.clock side)) :
      ∀ other, (Function.update c.peer side p other).Tame other (c.begun other)
        (c.clock other) := by
    refine (Side.forall_iff side).mpr ⟨?_, ?_⟩
    · rw [Function.update_self]
      exact tame
    · rw [Function.update_of_ne side.other_ne]
      exact counted.tame side.other
  cases action with
  | post msg =>
      obtain ⟨-, rfl⟩ := step
      obtain ⟨req, ack⟩ := polite.2 msg rfl
      exact ⟨sound, update (mine.doSend req ack), counted.later⟩
  | send accepted =>
      obtain ⟨msg_, sends, -, rfl⟩ := step
      exact ⟨sound, update (mine.still ⟨rfl, rfl, rfl, id⟩ rfl), counted.later⟩
  | receive frames =>
      obtain ⟨kcp, rest, -, -, rfl⟩ := step
      exact ⟨sound, update (mine.still ⟨rfl, rfl, rfl, id⟩ rfl), counted.later⟩
  | poll due =>
      obtain ⟨-, rfl⟩ := step
      have receiving := counted.sound side.other
      rw [Side.other_other] at receiving
      exact ⟨sound, update (mine.poll heap delivers due later receiving.null receiving.framed),
        counted.later⟩
  | main =>
      obtain ⟨p, ran, rfl⟩ := step
      exact ⟨sound, update (mine.runMain ran), counted.later⟩
  | close =>
      cases step
      refine ⟨sound, update (mine.still (Peer.close_still _ side) ?_), counted.later⟩
      cases side with
      | server => rfl
      | client => rfl
  | tick =>
      obtain ⟨small, rfl⟩ := step
      have onward : ∀ other, (c.clock other).toNat ≤
          (Function.update c.clock side (c.clock side + 1) other).toNat := by
        refine (Side.forall_iff side).mpr ⟨?_, ?_⟩
        · rw [Function.update_self, toNat_succ small]
          exact Nat.le_succ _
        · rw [Function.update_of_ne side.other_ne]
      exact ⟨sound, fun other => (counted.tame other).tick (onward other),
        fun other => Nat.le_trans (counted.later other) (onward other)⟩

theorem counted_of_reachable (delivers : ikcp.Delivers)
    (reachable : ((system ikcp heap m_MessageParser).guarded Polite).Reachable c) :
    Counted ikcp c := by
  apply reachable.invariant
  · rintro c ⟨kcp, clock, empty, -, rfl⟩
    exact counted_fresh empty clock
  · rintro c event next counted ⟨step, polite⟩
    exact counted.step delivers step polite

/-- What a step does to the questions of the server. -/
theorem Counted.paces {event : Side × Action} (delivers : ikcp.Delivers)
    (counted : Counted ikcp c) (step : (system ikcp heap m_MessageParser).step c event next)
    (polite : Polite c event) :
    (c.peer .server).Paces (c.clock .server) (next.peer .server) := by
  have past := ((counted.tame .server).server rfl).2
  have receiving := counted.sound .client
  obtain ⟨side, action⟩ := event
  have update {p : Peer κ γ} (paces : side = .server →
      (c.peer .server).Paces (c.clock .server) p) :
      (c.peer .server).Paces (c.clock .server) (Function.update c.peer side p .server) := by
    cases side with
    | server =>
        rw [Function.update_self]
        exact paces rfl
    | client =>
        rw [Function.update_of_ne Side.noConfusion]
        exact .of_same (Nat.le_refl _) rfl
  cases action with
  | post msg =>
      obtain ⟨-, rfl⟩ := step
      obtain ⟨req, -⟩ := polite.2 msg rfl
      exact update fun mine => by rw [mine]; exact Peer.doSend_paces _ _ req
  | send accepted =>
      obtain ⟨msg_, sends, -, rfl⟩ := step
      exact update fun mine => by rw [mine]; exact .of_same (Nat.le_refl _) rfl
  | receive frames =>
      obtain ⟨kcp, rest, -, -, rfl⟩ := step
      exact update fun mine => by rw [mine]; exact .of_same (Nat.le_refl _) rfl
  | poll due =>
      obtain ⟨-, rfl⟩ := step
      refine update fun mine => ?_
      rw [mine]
      exact Peer.poll_paces heap delivers due past receiving.null receiving.framed
  | main =>
      obtain ⟨p, ran, rfl⟩ := step
      refine update fun mine => ?_
      rw [mine] at ran
      exact .of_same (Peer.runMain_asked ran).1 (by rw [(Peer.runMain_cases ran).2.1])
  | close =>
      cases step
      refine update fun mine => ?_
      rw [mine]
      exact .of_same (Nat.le_of_eq (Peer.close_still _ .server).asked) rfl
  | tick =>
      obtain ⟨-, rfl⟩ := step
      exact .of_same (Nat.le_refl _) rfl

/-- A step with which the server asks. -/
def Asking (c next : Conversation κ γ) : Prop :=
  (c.peer .server).asked < (next.peer .server).asked

theorem Counted.asked_succ {event : Side × Action} (delivers : ikcp.Delivers)
    (counted : Counted ikcp c) (step : (system ikcp heap m_MessageParser).step c event next)
    (polite : Polite c event) (asking : Asking c next) :
    (next.peer .server).asked = (c.peer .server).asked + 1 := by
  rcases counted.paces delivers step polite with ⟨fewer, -⟩ | ⟨more, -⟩
  · exact absurd asking (Nat.not_lt.mpr fewer)
  · exact more

/-- Behind a question, the server asks again in a later second alone. -/
theorem Counted.spaced {event again : Side × Action} {later last : Conversation κ γ}
    (delivers : ikcp.Delivers) (counted : Counted ikcp c)
    (step : ((system ikcp heap m_MessageParser).guarded Polite).step c event next)
    (asking : Asking c next)
    (behind : (((system ikcp heap m_MessageParser).guarded Polite).after next).Reachable later)
    (repeated : ((system ikcp heap m_MessageParser).guarded Polite).step later again last)
    (asks : Asking later last) : c.clock .server < later.clock .server := by
  have set : Counted ikcp later ∧ (c.clock .server).toNat ≤
      (later.peer .server).session.m_lastPingTime.toNat := by
    apply behind.invariant
    · rintro _ rfl
      refine ⟨counted.step delivers step.1 step.2, ?_⟩
      rcases counted.paces delivers step.1 step.2 with ⟨fewer, -⟩ | ⟨-, -, now⟩
      · exact absurd asking (Nat.not_lt.mpr fewer)
      · rw [now]
    · rintro state _ other ⟨counted, set⟩ taken
      refine ⟨counted.step delivers taken.1 taken.2, ?_⟩
      have past := ((counted.tame .server).server rfl).2
      rcases counted.paces delivers taken.1 taken.2 with ⟨-, kept⟩ | ⟨-, -, now⟩
      · exact Nat.le_trans set kept
      · rw [now]
        exact Nat.le_trans set past
  obtain ⟨counted, set⟩ := set
  rcases counted.paces delivers repeated.1 repeated.2 with ⟨fewer, -⟩ | ⟨-, late, -⟩
  · exact absurd asks (Nat.not_lt.mpr fewer)
  · exact UInt64.lt_iff_toNat_lt.mpr (Nat.lt_of_le_of_lt set late)

/-- A side answers no more than the other one has asked. -/
theorem Counted.acks_le (counted : Counted ikcp c) (side : Side) :
    ids syspingAck (c.peer side.other).posted ≤ ids syspingReq (c.peer side).posted := by
  have handled : ids syspingReq (c.peer side.other).handled ≤
      ids syspingReq (c.peer side.other).inbox := by
    rw [Peer.inbox, ids_append]
    exact Nat.le_add_right _ _
  calc ids syspingAck (c.peer side.other).posted
      ≤ ids syspingReq (c.peer side.other).handled := (counted.tame side.other).replies.most
    _ ≤ ids syspingReq (c.peer side.other).inbox := handled
    _ ≤ ids syspingReq (c.peer side).posted := ids_inbox_le (counted.sound side) (by decide)

/-- Questions are answered once nothing is under way. -/
theorem Counted.acks_eq (counted : Counted ikcp c) (side : Side)
    (opened : (c.peer side.other).m_closed = false) (main : (c.peer side.other).main = [])
    (received : ikcp.received (c.peer side.other).session.m_kcp = [])
    (wire : c.wire side = []) (sends : (c.peer side).sends = []) :
    ids syspingAck (c.peer side.other).posted = ids syspingReq (c.peer side).posted := by
  have flows := counted.sound side
  obtain ⟨front, -, inbox, complete⟩ := inbox_prefix flows
  rw [Peer.inbox, main, List.filterMap_nil, List.append_nil, complete received wire sends] at inbox
  rw [(counted.tame side.other).replies.all opened, inbox, ids_loads (by decide) flows.owned]

/-- The server asks with one ping at most in each second of its clock, and no more often than
seconds have gone by; the client answers each question at most once, and none is left without
an answer in the end. Nobody else asks or answers, whatever the order of the steps, as long as
`ikcp_send` accepts every message and the messages sent otherwise have other ids. -/
theorem pings_bounded (delivers : ikcp.Delivers)
    (reachable : ((system ikcp heap m_MessageParser).guarded Polite).Reachable c) :
    (∀ event next, ((system ikcp heap m_MessageParser).guarded Polite).step c event next →
      Asking c next → (next.peer .server).asked = (c.peer .server).asked + 1 ∧
        ∀ later, (((system ikcp heap m_MessageParser).guarded Polite).after next).Reachable
          later → ∀ again last, ((system ikcp heap m_MessageParser).guarded Polite).step later
            again last → Asking later last → c.clock .server < later.clock .server) ∧
    ids syspingReq (c.peer .server).posted + (c.begun .server).toNat ≤
        (c.clock .server).toNat ∧
      ids syspingAck (c.peer .client).posted ≤ ids syspingReq (c.peer .server).posted ∧
      ((c.peer .client).m_closed = false → (c.peer .client).main = [] →
        ikcp.received (c.peer .client).session.m_kcp = [] → c.wire .server = [] →
        (c.peer .server).sends = [] →
        ids syspingAck (c.peer .client).posted = ids syspingReq (c.peer .server).posted) ∧
      ids syspingReq (c.peer .client).posted = 0 ∧
      ids syspingAck (c.peer .server).posted = 0 := by
  have counted := counted_of_reachable delivers reachable
  obtain ⟨spaced, past⟩ := (counted.tame .server).server rfl
  have later := counted.later .server
  have meek := ((counted.tame .client).client rfl).posted
  have questions : ids syspingReq (c.peer .server).posted ≤ (c.peer .server).asked :=
    Nat.le_add_right _ _
  refine ⟨?_, ?_, counted.acks_le .server, counted.acks_eq .server, meek, ?_⟩
  · intro event next step asking
    refine ⟨counted.asked_succ delivers step.1 step.2 asking, ?_⟩
    exact fun later behind again last repeated asks =>
      counted.spaced delivers step asking behind repeated asks
  · rcases spaced with ⟨-, none⟩ | some
    · omega
    · omega
  · exact Nat.le_zero.mp (meek ▸ counted.acks_le .client)

section OneSecond

abbrev Polled := (system KcpSession.queued (Heap.filled 0) oneCommand).guarded Polite

theorem polite {event : Side × Action} (accepted : event.2 ≠ .send false)
    (other : ∀ msg, event.2 ≠ .post msg) : Polite c event :=
  ⟨accepted, fun msg post => absurd post (other msg)⟩

/-- The server has asked in its second second, and the client has answered. -/
theorem pings_bounded_one : ∃ c, Polled.Reachable c ∧
    ids syspingReq (c.peer .server).posted + 1 ≤ 2 ∧
      ids syspingAck (c.peer .client).posted = 1 := by
  have begun : Polled.Reachable start :=
    .initial ⟨fun _ => [], fun _ => 1, fun _ => rfl, fun _ => (by decide : (1 : UInt64) ≠ 0), rfl⟩
  have first := begun.step (show Polled.step start (.server, .poll true) _ from
    ⟨⟨rfl, rfl⟩, polite Action.noConfusion fun _ => Action.noConfusion⟩)
  have second := first.step (show Polled.step _ (.server, .tick) _ from
    ⟨⟨by decide, rfl⟩, polite Action.noConfusion fun _ => Action.noConfusion⟩)
  have polled := second.step (show Polled.step _ (.server, .poll true) _ from
    ⟨⟨rfl, rfl⟩, polite Action.noConfusion fun _ => Action.noConfusion⟩)
  have ready := polled.step (show Polled.step _ (.server, .main) _ from
    ⟨⟨_, rfl, rfl⟩, polite Action.noConfusion fun _ => Action.noConfusion⟩)
  have asked := ready.step (show Polled.step _ (.server, .main) _ from
    ⟨⟨_, rfl, rfl⟩, polite Action.noConfusion fun _ => Action.noConfusion⟩)
  have sent := asked.step (show Polled.step _ (.server, .send true) _ from
    ⟨⟨notice kcpReadyNtf, [notice syspingReq], rfl, rfl⟩,
      polite (by simp) fun _ => Action.noConfusion⟩)
  have sent := sent.step (show Polled.step _ (.server, .send true) _ from
    ⟨⟨notice syspingReq, [], rfl, rfl⟩, polite (by simp) fun _ => Action.noConfusion⟩)
  have received := sent.step (show Polled.step _
      (.client, .receive [(notice kcpReadyNtf).sized, (notice syspingReq).sized]) _ from
    ⟨⟨[(notice kcpReadyNtf).sized, (notice syspingReq).sized], [], rfl, rfl, rfl⟩,
      polite Action.noConfusion fun _ => Action.noConfusion⟩)
  have read := received.step (show Polled.step _ (.client, .poll true) _ from
    ⟨⟨rfl, rfl⟩, polite Action.noConfusion fun _ => Action.noConfusion⟩)
  have handled := read.step (show Polled.step _ (.client, .main) _ from
    ⟨⟨_, rfl, rfl⟩, polite Action.noConfusion fun _ => Action.noConfusion⟩)
  have answered := handled.step (show Polled.step _ (.client, .main) _ from
    ⟨⟨_, rfl, rfl⟩, polite Action.noConfusion fun _ => Action.noConfusion⟩)
  exact ⟨_, answered, (pings_bounded KcpSession.queued_delivers answered).2.1, rfl⟩

end OneSecond

end Conversation

end Nicenet.Kcp
