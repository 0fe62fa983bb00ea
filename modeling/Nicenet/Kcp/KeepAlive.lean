import Nicenet.Kcp.Pings

/-!
# Keeping a session alive

A session is removed by a poll more than five seconds after the last message read. The
server asks once in every second, so as long as the answers keep up, each side reads in time
what the other one sends, and neither takes the other one for gone, however quiet the
conversation is.
-/

namespace Nicenet.Kcp

open Library

/-- The time at which a session is removed does not wrap. -/
theorem not_late {now last : UInt64} (past : last.toNat ≤ now.toNat)
    (small : now.toNat + 5 < 2 ^ 64) (soon : now.toNat ≤ last.toNat + 5) : ¬now > last + 5 := by
  have sum : (last + 5).toNat = last.toNat + 5 := by
    rw [UInt64.toNat_add]
    exact Nat.mod_eq_of_lt (by show last.toNat + 5 < 2 ^ 64; omega)
  rw [gt_iff_lt, UInt64.lt_iff_toNat_lt, sum]
  omega

namespace Peer

variable {κ γ : Type} {m_MessageParser : Option (MessageParser γ)} {p next : Peer κ γ}

/-- The questions of a session that is polled in every second: one for each second but the
first, and none yet for the second that has just begun. -/
def Asks (begun clock : UInt64) (p : Peer κ γ) : Prop :=
  (p.session.m_lastPingTime = 0 ∧ p.asked = 0 ∧ clock = begun) ∨
    (p.asked + begun.toNat = p.session.m_lastPingTime.toNat ∧
      p.session.m_lastPingTime.toNat ≤ clock.toNat ∧
      clock.toNat ≤ p.session.m_lastPingTime.toNat + 1)

theorem Asks.doPing {begun clock : UInt64} (asks : p.Asks begun clock) (set : begun ≠ 0) :
    (p.doPing clock).Asks begun clock ∧ (p.doPing clock).session.m_lastPingTime = clock := by
  have posted := congrArg Peer.posted (p.doPing_frame clock)
  dsimp only at posted
  have positive : 0 < begun.toNat := Nat.pos_of_ne_zero fun zero => set (UInt64.toNat_inj.mp zero)
  rcases p.doPing_cases clock with ⟨notices, time, unset⟩ | ⟨notices, time, pinged, late⟩ |
    ⟨same, pinged, early⟩
  · have same : (p.doPing clock).asked = p.asked := by rw [asked, asked, posted, notices]
    refine ⟨.inr ?_, time⟩
    rw [same, time]
    rcases asks with ⟨-, none, first⟩ | ⟨count, -⟩
    · rw [none, first]
      omega
    · rw [unset] at count
      have zero : (0 : UInt64).toNat = 0 := rfl
      omega
  · have more : (p.doPing clock).asked = p.asked + 1 := by
      rw [asked, asked, posted, notices, List.count_append, List.count_singleton_self]
      omega
    rw [UInt64.lt_iff_toNat_lt] at late
    refine ⟨.inr ?_, time⟩
    rw [more, time]
    rcases asks with ⟨unset, -⟩ | ⟨count, -, soon⟩
    · exact absurd unset pinged
    · omega
  · rw [UInt64.le_iff_toNat_le] at early
    rw [same]
    refine ⟨asks, ?_⟩
    rcases asks with ⟨unset, -⟩ | ⟨-, past, -⟩
    · exact absurd unset pinged
    · exact UInt64.toNat_inj.mp (Nat.le_antisymm past early)

theorem Asks.asked_le {begun clock : UInt64} (asks : p.Asks begun clock) :
    p.asked + begun.toNat ≤ clock.toNat := by
  rcases asks with ⟨-, none, first⟩ | ⟨count, past, -⟩
  · rw [none, first, Nat.zero_add]
  · omega

/-- Reading asks nothing. -/
theorem Asks.doRead {ikcp : Ikcp κ} (heap : Heap) (delivers : ikcp.Delivers) (side : Side)
    {begun clock : UInt64} (due : Bool) (asks : p.Asks begun clock)
    (now : p.session.m_lastPingTime = clock) (null : p.session.m_PreMsg.buff = .null)
    (framed : ∀ frame ∈ ikcp.received p.session.m_kcp, Framed frame) :
    (p.doRead ikcp heap side clock due).Asks begun clock := by
  have time : (p.doRead ikcp heap side clock due).session.m_lastPingTime =
      p.session.m_lastPingTime := by
    rcases doRead_pingTime heap delivers side clock due null framed with same | same
    · exact same
    · exact same.trans now.symm
  rw [Asks, (doRead_still ikcp heap side clock due p).asked, time]
  exact asks

theorem ids_inbox_doRead {ikcp : Ikcp κ} (heap : Heap) (delivers : ikcp.Delivers) (side : Side)
    (clock : UInt64) (due : Bool) (null : p.session.m_PreMsg.buff = .null)
    (framed : ∀ frame ∈ ikcp.received p.session.m_kcp, Framed frame) (msgID : UInt16) :
    ids msgID p.inbox ≤ ids msgID (p.doRead ikcp heap side clock due).inbox := by
  obtain ⟨taken, -, inbox⟩ := (doRead_reads heap delivers side clock due null framed).taken
  rw [inbox, ids_append]
  exact Nat.le_add_right _ _

/-- A session that is kept. The messages with an id, one for each second since the start,
have come in, and at most `slack` seconds before the time at which a message was read. -/
structure Kept (msgID : UInt16) (slack : Nat) (begun clock : UInt64) (p : Peer κ γ) : Prop where
  opened : p.m_closed = false
  stays : p.m_waitRemove = false
  heard : (p.session.m_lastPongTime = 0 ∧ ids msgID p.inbox = 0) ∨
    begun.toNat + ids msgID p.inbox ≤ p.session.m_lastPongTime.toNat + slack
  past : p.session.m_lastPongTime.toNat ≤ clock.toNat

section Kept

variable {msgID : UInt16} {slack : Nat} {begun clock : UInt64}

/-- A step that reads nothing, and closes nothing. -/
theorem Kept.same (kept : p.Kept msgID slack begun clock) {now : UInt64}
    (onward : clock.toNat ≤ now.toNat) (closed : next.m_closed = p.m_closed)
    (removed : next.m_waitRemove = p.m_waitRemove)
    (time : next.session.m_lastPongTime = p.session.m_lastPongTime)
    (inbox : next.inbox = p.inbox) : next.Kept msgID slack begun now := by
  refine ⟨?_, ?_, ?_, ?_⟩
  · rw [closed, kept.opened]
  · rw [removed, kept.stays]
  · rw [time, inbox]
    exact kept.heard
  · rw [time]
    exact Nat.le_trans kept.past onward

/-- A poll that comes in time. -/
theorem Kept.doRead {ikcp : Ikcp κ} (heap : Heap) (delivers : ikcp.Delivers) {side : Side}
    {due : Bool} (kept : p.Kept msgID slack begun clock)
    (null : p.session.m_PreMsg.buff = .null)
    (framed : ∀ frame ∈ ikcp.received p.session.m_kcp, Framed frame)
    (small : clock.toNat + 5 < 2 ^ 64)
    (soon : clock.toNat + slack ≤ begun.toNat + ids msgID p.inbox + 5)
    (after : begun.toNat + ids msgID (p.doRead ikcp heap side clock due).inbox ≤
      clock.toNat + slack) : (p.doRead ikcp heap side clock due).Kept msgID slack begun clock := by
  rcases doRead_cases heap delivers side clock due null framed with
    same | ⟨pass, takes, session, inbox, stays⟩
  · rw [same]
    exact kept
  · have time : pass.session.m_lastPongTime = clock ∨
        pass.session.m_lastPongTime = p.session.m_lastPongTime ∧
          p.session.m_lastPongTime ≠ 0 ∧ pass.posted = [] := by
      rcases takes.times with ⟨nothing, -, same⟩ | ⟨-, -, now⟩
      · rw [same, KcpSession.heard]
        split
        · exact .inl rfl
        · next set => exact .inr ⟨rfl, set, nothing⟩
      · exact .inl now
    have read : begun.toNat + ids msgID (p.inbox ++ pass.posted) ≤
          pass.session.m_lastPongTime.toNat + slack ∧
        pass.session.m_lastPongTime.toNat ≤ clock.toNat ∧
        clock.toNat ≤ pass.session.m_lastPongTime.toNat + 5 := by
      rcases time with now | ⟨same, set, nothing⟩
      · rw [now, ← inbox]
        exact ⟨after, Nat.le_refl _, Nat.le_add_right _ _⟩
      · rw [same, nothing, List.append_nil]
        rcases kept.heard with ⟨unset, -⟩ | heard
        · exact absurd unset set
        · exact ⟨heard, kept.past, by omega⟩
    obtain ⟨heard, past, timely⟩ := read
    obtain ⟨closed, removed⟩ := stays (not_late past small timely)
    refine ⟨?_, ?_, .inr ?_, ?_⟩
    · rw [closed, kept.opened]
    · rw [removed, kept.stays]
    · rw [inbox, session]
      exact heard
    · rw [session]
      exact past

end Kept

/-- A step that is no poll. -/
structure Alike (p next : Peer κ γ) : Prop where
  closed : next.m_closed = p.m_closed
  removed : next.m_waitRemove = p.m_waitRemove
  pingTime : next.session.m_lastPingTime = p.session.m_lastPingTime
  pongTime : next.session.m_lastPongTime = p.session.m_lastPongTime
  asked : next.asked = p.asked
  inbox : next.inbox = p.inbox

theorem Alike.kept {msgID : UInt16} {slack : Nat} {begun clock : UInt64} (alike : p.Alike next)
    (kept : p.Kept msgID slack begun clock) : next.Kept msgID slack begun clock :=
  kept.same (Nat.le_refl _) alike.closed alike.removed alike.pongTime alike.inbox

theorem Alike.asks {begun clock : UInt64} (alike : p.Alike next)
    (asks : p.Asks begun clock) : next.Asks begun clock := by
  rw [Asks, alike.pingTime, alike.asked]
  exact asks

theorem doSend_alike (p : Peer κ γ) {msg : Message} (owned : msg.Owned)
    (req : msg.getMsgID ≠ syspingReq) : p.Alike (p.doSend msg) := by
  have asked : (p.doSend msg).asked = p.asked := by
    rw [Peer.asked, Peer.asked, doSend_posted, doSend_notices, if_neg fun both => req both.2]
    rfl
  have inbox := (p.doSend_quiet owned).inbox
  rw [doSend] at asked inbox ⊢
  split at asked
  · next closed =>
    rw [if_pos closed]
    exact ⟨rfl, rfl, rfl, rfl, rfl, rfl⟩
  · next opened =>
    rw [if_neg opened] at inbox ⊢
    exact ⟨rfl, rfl, rfl, rfl, asked, inbox⟩

theorem runMain_alike (opened : p.m_closed = false)
    (ran : p.runMain m_MessageParser = some next) : p.Alike next := by
  obtain ⟨closed, session, removed, -⟩ := runMain_cases ran
  refine ⟨closed, removed, ?_, ?_, (runMain_asked ran).2 opened, (runMain_quiet ran).inbox⟩
  · rw [session]
  · rw [session]

end Peer

/-! ## Both sides -/

namespace Conversation

variable {κ γ : Type} {ikcp : Ikcp κ} {heap : Heap}
variable {m_MessageParser : Option (MessageParser γ)} {c next : Conversation κ γ}

/-- The seconds that a clock has gone on. -/
def elapsed (c : Conversation κ γ) (side : Side) : Nat :=
  (c.clock side).toNat - (c.begun side).toNat

/-- A second of the server is over when it has been polled, and at most two questions are
without an answer that it has read. Neither clock goes on before the other one has. -/
def InTime (c : Conversation κ γ) (side : Side) : Prop :=
  c.elapsed side ≤ c.elapsed side.other ∧
    (side = .server → (c.peer .server).session.m_lastPingTime = c.clock .server ∧
      (c.peer .server).asked ≤ ids syspingAck (c.peer .server).inbox + 2)

/-- Nobody closes the session, the clocks go on in time and are not at their ends. -/
def Brisk (c : Conversation κ γ) (event : Side × Action) : Prop :=
  Polite c event ∧ event.2 ≠ .close ∧ (c.clock event.1).toNat + 5 < 2 ^ 64 ∧
    (event.2 = .tick → InTime c event.1)

/-- Both sides are in time. -/
structure Alive (ikcp : Ikcp κ) (c : Conversation κ γ) : Prop where
  counted : Counted ikcp c
  set : c.begun .server ≠ 0
  together : ∀ side, c.elapsed side ≤ c.elapsed side.other + 1
  asks : (c.peer .server).Asks (c.begun .server) (c.clock .server)
  answered : c.elapsed .server ≤ ids syspingAck (c.peer .server).inbox + 3
  server : (c.peer .server).Kept syspingAck 0 (c.begun .server) (c.clock .server)
  client : (c.peer .client).Kept syspingReq 1 (c.begun .client) (c.clock .client)

/-- The answers read are to questions read, and these have been asked. -/
theorem Counted.inbox_le (counted : Counted ikcp c) :
    ids syspingAck (c.peer .server).inbox ≤ ids syspingReq (c.peer .client).inbox ∧
      ids syspingReq (c.peer .client).inbox ≤ (c.peer .server).asked := by
  have handled : ids syspingReq (c.peer .client).handled ≤
      ids syspingReq (c.peer .client).inbox := by
    rw [Peer.inbox, ids_append]
    exact Nat.le_add_right _ _
  have answered := (counted.tame .client).replies.most
  have received : ids syspingAck (c.peer .server).inbox ≤ ids syspingAck (c.peer .client).posted :=
    ids_inbox_le (counted.sound .client) (by decide)
  have read : ids syspingReq (c.peer .client).inbox ≤ ids syspingReq (c.peer .server).posted :=
    ids_inbox_le (counted.sound .server) (by decide)
  exact ⟨by omega, Nat.le_trans read (Nat.le_add_right _ _)⟩

theorem Counted.elapsed_eq (counted : Counted ikcp c) (side : Side) :
    (c.begun side).toNat + c.elapsed side = (c.clock side).toNat :=
  Nat.add_sub_of_le (counted.later side)

/-- A step of a side that is no poll. -/
theorem Alive.alike (alive : Alive ikcp c) {side : Side} {p : Peer κ γ}
    {wire : Side → List (List UInt8)}
    (counted : Counted ikcp ⟨Function.update c.peer side p, wire, c.clock, c.begun⟩)
    (alike : (c.peer side).Alike p) :
    Alive ikcp ⟨Function.update c.peer side p, wire, c.clock, c.begun⟩ := by
  obtain ⟨-, set, together, asks, answered, server, client⟩ := alive
  cases side with
  | server =>
      refine ⟨counted, set, together, ?_, ?_, ?_, client⟩
      · exact alike.asks asks
      · show c.elapsed .server ≤ ids syspingAck p.inbox + 3
        rw [alike.inbox]
        exact answered
      · exact alike.kept server
  | client => exact ⟨counted, set, together, asks, answered, server, alike.kept client⟩

theorem Alive.server_poll (delivers : ikcp.Delivers) (alive : Alive ikcp c) {due : Bool}
    (small : (c.clock .server).toNat + 5 < 2 ^ 64)
    (counted : Counted ikcp
      (c.setPeer .server ((c.peer .server).poll ikcp heap .server (c.clock .server) due))) :
    Alive ikcp
      (c.setPeer .server ((c.peer .server).poll ikcp heap .server (c.clock .server) due)) := by
  have receiving := alive.counted.sound .client
  have quiet := (c.peer .server).doPing_quiet (c.clock .server)
  have frame := (c.peer .server).doPing_frame (c.clock .server)
  have seconds := alive.counted.elapsed_eq .server
  have answered := alive.answered
  obtain ⟨pinged, now⟩ := alive.asks.doPing alive.set
  have kept : ((c.peer .server).doPing (c.clock .server)).Kept syspingAck 0
      (c.begun .server) (c.clock .server) := by
    apply alive.server.same (Nat.le_refl _) _ _ _ quiet.inbox
    · rw [frame]
    · rw [frame]
    · rw [frame]
  have null : ((c.peer .server).doPing (c.clock .server)).session.m_PreMsg.buff = .null := by
    rw [quiet.preMsg]
    exact receiving.null
  have framed : ∀ frame ∈ ikcp.received
      ((c.peer .server).doPing (c.clock .server)).session.m_kcp, Framed frame := by
    rw [quiet.kcp]
    exact receiving.framed
  have asks := pinged.doRead heap delivers .server due now null framed
  have bound := asks.asked_le
  obtain ⟨acks, reqs⟩ := counted.inbox_le
  have read := Nat.le_trans acks reqs
  change ids syspingAck (((c.peer .server).doPing (c.clock .server)).doRead ikcp heap .server
    (c.clock .server) due).inbox ≤ (((c.peer .server).doPing (c.clock .server)).doRead ikcp heap
      .server (c.clock .server) due).asked at read
  rw [← quiet.inbox] at answered
  have more := Peer.ids_inbox_doRead heap delivers .server (c.clock .server) due null framed
    syspingAck
  refine ⟨counted, alive.set, alive.together, asks, Nat.le_trans answered ?_, ?_, alive.client⟩
  · exact Nat.add_le_add_right more 3
  · refine kept.doRead heap delivers null framed small ?_ ?_
    · omega
    · omega

theorem Alive.client_poll (delivers : ikcp.Delivers) (alive : Alive ikcp c) {due : Bool}
    (small : (c.clock .client).toNat + 5 < 2 ^ 64)
    (counted : Counted ikcp
      (c.setPeer .client ((c.peer .client).poll ikcp heap .client (c.clock .client) due))) :
    Alive ikcp
      (c.setPeer .client ((c.peer .client).poll ikcp heap .client (c.clock .client) due)) := by
  have receiving := alive.counted.sound .server
  have begun := alive.counted.elapsed_eq .server
  have seconds := alive.counted.elapsed_eq .client
  have together := alive.together .client
  have behind := alive.together .server
  have answered := alive.answered
  have bound := alive.asks.asked_le
  have before := alive.counted.inbox_le.1
  have after : ids syspingReq ((c.peer .client).doRead ikcp heap .client
      (c.clock .client) due).inbox ≤ (c.peer .server).asked := counted.inbox_le.2
  simp only [Side.other] at together behind
  refine ⟨counted, alive.set, alive.together, alive.asks, answered, alive.server, ?_⟩
  refine alive.client.doRead heap delivers receiving.null receiving.framed small ?_ ?_
  · omega
  · omega

/-- A clock has gone on. -/
abbrev ticked (c : Conversation κ γ) (side : Side) : Conversation κ γ :=
  { c with clock := Function.update c.clock side (c.clock side + 1) }

theorem Counted.elapsed_ticked (counted : Counted ikcp c) {side : Side}
    (small : (c.clock side).toNat + 1 < 2 ^ 64) :
    (c.ticked side).elapsed side = c.elapsed side + 1 ∧
      (c.ticked side).elapsed side.other = c.elapsed side.other := by
  simp only [elapsed, Function.update_self, Function.update_of_ne side.other_ne, and_true]
  rw [toNat_succ small]
  exact Nat.succ_sub (counted.later side)

theorem Alive.tick (alive : Alive ikcp c) {side : Side}
    (small : (c.clock side).toNat + 1 < 2 ^ 64) (inTime : c.InTime side)
    (counted : Counted ikcp (c.ticked side)) : Alive ikcp (c.ticked side) := by
  have succ := toNat_succ small
  have begun := alive.counted.elapsed_eq side
  have onward : (c.clock side).toNat ≤ (c.clock side + 1).toNat := by
    rw [succ]
    exact Nat.le_succ _
  obtain ⟨more, same⟩ := alive.counted.elapsed_ticked small
  obtain ⟨turn, polled⟩ := inTime
  have before := alive.together side.other
  rw [Side.other_other] at before
  have together : ∀ any, (c.ticked side).elapsed any ≤ (c.ticked side).elapsed any.other + 1 := by
    refine (Side.forall_iff side).mpr ⟨?_, ?_⟩
    · rw [more, same]
      exact Nat.succ_le_succ turn
    · rw [Side.other_other, more, same]
      exact Nat.le_succ_of_le before
  cases side with
  | server =>
      obtain ⟨now, answered⟩ := polled rfl
      have positive : (c.begun .server).toNat ≠ 0 :=
        fun zero => alive.set (UInt64.toNat_inj.mp zero)
      have asked : (c.peer .server).asked + (c.begun .server).toNat = (c.clock .server).toNat := by
        rcases alive.asks with ⟨unset, -, first⟩ | ⟨count, -⟩
        · rw [← first, ← now, unset] at positive
          exact absurd rfl positive
        · rw [count, now]
      refine ⟨counted, alive.set, together, .inr ?_, ?_, ?_, alive.client⟩
      · rw [now]
        refine ⟨asked, onward, ?_⟩
        show (c.clock .server + 1).toNat ≤ (c.clock .server).toNat + 1
        rw [succ]
      · rw [more]
        show c.elapsed .server + 1 ≤ ids syspingAck (c.peer .server).inbox + 3
        omega
      · exact alive.server.same onward rfl rfl rfl rfl
  | client =>
      refine ⟨counted, alive.set, together, alive.asks, ?_, alive.server, ?_⟩
      · exact Nat.le_trans (Nat.le_of_eq same) alive.answered
      · exact alive.client.same onward rfl rfl rfl rfl

theorem Alive.step {event : Side × Action} (delivers : ikcp.Delivers) (alive : Alive ikcp c)
    (step : (system ikcp heap m_MessageParser).step c event next) (brisk : Brisk c event) :
    Alive ikcp next := by
  obtain ⟨polite, opened, small, inTime⟩ := brisk
  have counted := alive.counted.step delivers step polite
  obtain ⟨side, action⟩ := event
  cases action with
  | post msg =>
      obtain ⟨owned, rfl⟩ := step
      exact alive.alike counted (Peer.doSend_alike _ owned (polite.2 msg rfl).1)
  | send accepted =>
      obtain ⟨msg_, sends, -, rfl⟩ := step
      exact alive.alike counted ⟨rfl, rfl, rfl, rfl, rfl, rfl⟩
  | receive frames =>
      obtain ⟨kcp, rest, -, -, rfl⟩ := step
      exact alive.alike counted ⟨rfl, rfl, rfl, rfl, rfl, rfl⟩
  | poll due =>
      obtain ⟨-, rfl⟩ := step
      cases side with
      | server => exact alive.server_poll delivers small counted
      | client => exact alive.client_poll delivers small counted
  | main =>
      obtain ⟨p, ran, rfl⟩ := step
      apply alive.alike counted
      cases side with
      | server => exact Peer.runMain_alike alive.server.opened ran
      | client => exact Peer.runMain_alike alive.client.opened ran
  | close => exact absurd rfl opened
  | tick =>
      obtain ⟨fits, rfl⟩ := step
      exact alive.tick fits (inTime rfl) counted

theorem alive_fresh {kcp : Side → κ} (empty : ∀ side, ikcp.received (kcp side) = [])
    {clock : Side → UInt64} (set : ∀ side, clock side ≠ 0) :
    Alive ikcp (fresh kcp clock : Conversation κ γ) where
  counted := counted_fresh empty clock
  set := set .server
  together side := by
    rw [elapsed, elapsed, fresh, Nat.sub_self, Nat.sub_self]
    exact Nat.zero_le _
  asks := .inl ⟨rfl, rfl, rfl⟩
  answered := by
    rw [elapsed, fresh, Nat.sub_self]
    exact Nat.zero_le _
  server := ⟨rfl, rfl, .inl ⟨rfl, rfl⟩, Nat.zero_le _⟩
  client := ⟨rfl, rfl, .inl ⟨rfl, rfl⟩, Nat.zero_le _⟩

theorem alive_of_reachable (delivers : ikcp.Delivers)
    (reachable : ((system ikcp heap m_MessageParser).guarded Brisk).Reachable c) :
    Alive ikcp c := by
  apply reachable.invariant
  · rintro c ⟨kcp, clock, empty, set, rfl⟩
    exact alive_fresh empty set
  · rintro c event next alive ⟨step, brisk⟩
    exact alive.step delivers step brisk

/-- As long as the server is polled in every second and at most two of its questions have no
answer that it has read when a second is over, and the clocks are at most a second apart,
no session is removed or closed, whatever the order of the steps and however long neither
side sends anything else. -/
theorem conversation_kept (delivers : ikcp.Delivers)
    (reachable : ((system ikcp heap m_MessageParser).guarded Brisk).Reachable c) (side : Side) :
    (c.peer side).m_closed = false ∧ (c.peer side).m_waitRemove = false ∧
      (c.peer side).stuck = false := by
  have alive := alive_of_reachable delivers reachable
  cases side with
  | server =>
      exact ⟨alive.server.opened, alive.server.stays, (alive.counted.sound .client).stuck⟩
  | client =>
      exact ⟨alive.client.opened, alive.client.stays, (alive.counted.sound .server).stuck⟩

section TwoSeconds

abbrev InSeconds := (system KcpSession.queued (Heap.filled 0) oneCommand).guarded Brisk

/-- The first second is over on both sides, and the server is polled again. -/
theorem conversation_kept_two : ∃ c, InSeconds.Reachable c ∧
    (∀ side, c.clock side = 2) ∧ (c.peer .server).m_waitRemove = false := by
  have begun : InSeconds.Reachable start :=
    .initial ⟨fun _ => [], fun _ => 1, fun _ => rfl, fun _ => (by decide : (1 : UInt64) ≠ 0), rfl⟩
  have first := begun.step (show InSeconds.step start (.server, .poll true) _ from
    ⟨⟨rfl, rfl⟩, polite Action.noConfusion fun _ => Action.noConfusion, Action.noConfusion,
      by decide, Action.noConfusion⟩)
  have second := first.step (show InSeconds.step _ (.server, .tick) _ from
    ⟨⟨by decide, rfl⟩, polite Action.noConfusion fun _ => Action.noConfusion, Action.noConfusion,
      by decide, fun _ => ⟨by decide, fun _ => ⟨rfl, by decide⟩⟩⟩)
  have both := second.step (show InSeconds.step _ (.client, .tick) _ from
    ⟨⟨by decide, rfl⟩, polite Action.noConfusion fun _ => Action.noConfusion, Action.noConfusion,
      by decide, fun _ => ⟨by decide, Side.noConfusion⟩⟩)
  have polled := both.step (show InSeconds.step _ (.server, .poll true) _ from
    ⟨⟨rfl, rfl⟩, polite Action.noConfusion fun _ => Action.noConfusion, Action.noConfusion,
      by decide, Action.noConfusion⟩)
  refine ⟨_, polled, ?_, (conversation_kept KcpSession.queued_delivers polled .server).2.1⟩
  rintro (_ | _)
  · rfl
  · rfl

end TwoSeconds

end Conversation

end Nicenet.Kcp
