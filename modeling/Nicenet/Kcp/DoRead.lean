import Nicenet.Send.Emitted

/-!
# Reading messages from KCP

`doRead` takes the messages that KCP has received, one after the other, through a buffer of
`NETWORK_BUF_SIZE` bytes, and stops at the first result that is not positive. Besides an
empty queue, that may be a message that does not fit the buffer, and an empty message.
-/

namespace Nicenet.Kcp

open Library

/-- The part of `ikcp` that a session reads with: the messages received, and `ikcp_recv`
with the size of the buffer, which gives a result, the bytes stored and the control block
after it. -/
structure Ikcp (κ : Type) where
  received : κ → List (List UInt8)
  recv : κ → Nat → Int × List UInt8 × κ

/-- `ikcp_recv` returns the next whole message when it fits, and otherwise a negative
number; then the queue is what it was. -/
structure Ikcp.Delivers {κ : Type} (ikcp : Ikcp κ) : Prop where
  fits : ∀ {kcp front rest len}, ikcp.received kcp = front :: rest → front.length ≤ len →
    ∃ next, ikcp.recv kcp len = (Int.ofNat front.length, front, next) ∧
      ikcp.received next = rest
  fails : ∀ {kcp len}, (∀ front rest, ikcp.received kcp = front :: rest → len < front.length) →
    (ikcp.recv kcp len).1 < 0 ∧ ikcp.received (ikcp.recv kcp len).2.2 = ikcp.received kcp

/-- A session as far as `doRead` uses it. -/
structure KcpSession (κ : Type) where
  m_kcp : κ
  m_PreMsg : Message
  m_lastPingTime : UInt64
  m_lastPongTime : UInt64
  deriving DecidableEq, Repr

/-- How `doRead` ends: the loop is left, or the session is removed; or it does not, for a
call of `parseMsg` that does not return, or for the messages being more than the loop has
been followed for. -/
inductive Ends where
  | left
  | removed
  | stuck
  | running
  deriving DecidableEq, Repr

structure Pass (κ : Type) where
  session : KcpSession κ
  posted : List Message
  ends : Ends
  deriving DecidableEq, Repr

namespace KcpSession

variable {κ : Type} (ikcp : Ikcp κ) (heap : Heap) (now : UInt64)

/-- The loop of `doRead`. -/
def readLoop : Nat → KcpSession κ → Pass κ
  | 0, s => ⟨s, [], .running⟩
  | fuel + 1, s =>
      let (len, data_, m_kcp) := ikcp.recv s.m_kcp networkBufSize
      let s := { s with m_kcp := m_kcp }
      if len ≤ 0 then
        if now > s.m_lastPongTime + 5 then ⟨s, [], .removed⟩ else ⟨s, [], .left⟩
      else
        let call := Nicenet.KcpSession.parseMsg heap (data_.length + 1) s.m_PreMsg data_
        let s := { s with m_PreMsg := call.preMsg }
        match call.exit with
        | .ret true =>
            let pass := readLoop fuel { s with m_lastPingTime := now, m_lastPongTime := now }
            { pass with posted := call.posted ++ pass.posted }
        | .ret false => ⟨s, call.posted, .removed⟩
        | _ => ⟨s, call.posted, .stuck⟩

/-- `doRead`, when `kcpUpdate` has run. -/
def doRead (s : KcpSession κ) : Pass κ :=
  readLoop ikcp heap now ((ikcp.received s.m_kcp).length + 1)
    (if s.m_lastPongTime = 0 then { s with m_lastPongTime := now } else s)

/-- The pass has posted the messages of the queue in order, the queue is empty, and
`doRead` has returned. -/
structure Drains (ikcp : Ikcp κ) (queue : List (List UInt8)) (pass : Pass κ) : Prop where
  posted : pass.posted.map Message.buff = queue.map Buff.heap
  received : ikcp.received pass.session.m_kcp = []
  returns : pass.ends = .left ∨ pass.ends = .removed

/-! ## One pass -/

section Pass

variable {ikcp} {s : KcpSession κ} (fuel : Nat)

/-- The loop is left with what has not been read. -/
theorem readLoop_stop {len : Int} {data_ : List UInt8} {m_kcp : κ}
    (recv : ikcp.recv s.m_kcp networkBufSize = (len, data_, m_kcp)) (stop : len ≤ 0) :
    (readLoop ikcp heap now (fuel + 1) s).posted = [] ∧
      (readLoop ikcp heap now (fuel + 1) s).session = { s with m_kcp := m_kcp } ∧
      ((readLoop ikcp heap now (fuel + 1) s).ends = .left ∨
        (readLoop ikcp heap now (fuel + 1) s).ends = .removed) := by
  simp only [readLoop, recv, if_pos stop]
  split
  · exact ⟨rfl, rfl, .inr rfl⟩
  · exact ⟨rfl, rfl, .inl rfl⟩

/-- A whole message that fits is posted, and the loop goes on. -/
theorem readLoop_whole {frame : List UInt8} {m_kcp : κ}
    (recv : ikcp.recv s.m_kcp networkBufSize = (Int.ofNat frame.length, frame, m_kcp))
    (null : s.m_PreMsg.buff = .null) (framed : IsFrame frame) (chunk : IsChunk frame) :
    ∃ next : KcpSession κ, next.m_kcp = m_kcp ∧ next.m_PreMsg.buff = .null ∧
      (readLoop ikcp heap now (fuel + 1) s).posted =
        dispatched frame :: (readLoop ikcp heap now fuel next).posted ∧
      (readLoop ikcp heap now (fuel + 1) s).session =
        (readLoop ikcp heap now fuel next).session ∧
      (readLoop ikcp heap now (fuel + 1) s).ends =
        (readLoop ikcp heap now fuel next).ends := by
  have framed : ∀ other ∈ [frame], IsFrame other := by simpa using framed
  obtain ⟨exit, posted, after⟩ := parseMsg_group heap null framed (by simpa using chunk)
  rw [List.flatten_singleton] at exit posted after
  have positive : ¬Int.ofNat frame.length ≤ 0 :=
    Int.not_le.mpr (Int.natCast_pos.mpr chunk.1)
  refine ⟨⟨m_kcp, _, now, now⟩, rfl, after, ?_⟩
  simp only [readLoop, recv, if_neg positive, Nicenet.KcpSession.parseMsg, exit, posted,
    List.map_cons, List.map_nil, List.singleton_append, true_and]

/-- A message that is no chunk stops the loop: it does not fit, or it is empty. -/
theorem recv_stops {kcp : κ} {frame : List UInt8} {queue : List (List UInt8)}
    (delivers : ikcp.Delivers) (received : ikcp.received kcp = frame :: queue)
    (chunk : ¬IsChunk frame) : (ikcp.recv kcp networkBufSize).1 ≤ 0 := by
  by_cases long : networkBufSize < frame.length
  · refine Int.le_of_lt (delivers.fails ?_).1
    intro front rest first
    rw [received] at first
    cases first
    exact long
  · have empty : frame.length = 0 := by
      simp only [IsChunk] at chunk
      omega
    obtain ⟨m_kcp, recv, -⟩ := delivers.fits received (Nat.le_of_not_lt long)
    rw [recv, empty]
    exact Int.le_refl 0

/-- A pass over emitted messages leaves nothing in `m_PreMsg`, and it drains the queue
exactly if each of them has a byte and fits the buffer. -/
theorem readLoop_drains_iff (delivers : ikcp.Delivers) {queue : List (List UInt8)}
    (null : s.m_PreMsg.buff = .null) (received : ikcp.received s.m_kcp = queue)
    (emitted : ∀ frame ∈ queue, Emitted frame) :
    (readLoop ikcp heap now (queue.length + 1) s).session.m_PreMsg.buff = .null ∧
      (Drains ikcp queue (readLoop ikcp heap now (queue.length + 1) s) ↔
        ∀ frame ∈ queue, IsChunk frame) := by
  induction queue generalizing s with
  | nil =>
      obtain ⟨negative, same⟩ : (ikcp.recv s.m_kcp networkBufSize).1 < 0 ∧ _ :=
        delivers.fails (by
          rw [received]
          nofun)
      have stopped : ikcp.recv s.m_kcp networkBufSize = (_, _, _) := rfl
      obtain ⟨posted, session, ends⟩ :=
        readLoop_stop heap now 0 stopped (Int.le_of_lt negative)
      refine ⟨?_, iff_of_true ⟨?_, ?_, ends⟩ (by simp)⟩
      · rw [List.length_nil, session]
        exact null
      · rw [List.length_nil, posted]
        rfl
      · rw [List.length_nil, session, same, received]
  | cons frame queue ih =>
      rw [List.forall_mem_cons]
      by_cases chunk : IsChunk frame
      · obtain ⟨m_kcp, recv, rest⟩ := delivers.fits received chunk.2
        obtain ⟨next, kcp, after, posted, session, ends⟩ :=
          readLoop_whole heap now (queue.length + 1) recv null
            ((emitted frame List.mem_cons_self).isFrame chunk) chunk
        obtain ⟨nothing, later⟩ := ih after (by rw [kcp, rest]) fun frame member =>
          emitted frame (List.mem_cons_of_mem _ member)
        have whole : (dispatched frame).buff = .heap frame :=
          ((emitted frame List.mem_cons_self).isFrame chunk).dispatched
        rw [← later, and_iff_right chunk, List.length_cons, session]
        refine ⟨nothing, ?_⟩
        constructor
        · rintro ⟨all, empty, returns⟩
          rw [posted, List.map_cons, List.map_cons, whole] at all
          rw [session] at empty
          rw [ends] at returns
          exact ⟨(List.cons.inj all).2, empty, returns⟩
        · rintro ⟨all, empty, returns⟩
          refine ⟨?_, ?_, ?_⟩
          · rw [posted, List.map_cons, List.map_cons, whole, all]
          · rw [session]
            exact empty
          · rw [ends]
            exact returns
      · have stopped := recv_stops delivers received chunk
        have recv : ikcp.recv s.m_kcp networkBufSize = (_, _, _) := rfl
        obtain ⟨posted, session, -⟩ :=
          readLoop_stop heap now (queue.length + 1) recv stopped
        rw [List.length_cons, session]
        refine ⟨null, iff_of_false ?_ fun fits => chunk fits.1⟩
        rintro ⟨all, -, -⟩
        rw [posted] at all
        cases all

end Pass

/-- What `sendMessage` emits is delivered by its limits alone. TCP does not refuse a frame
between two others exactly if it is not above `MSG_SIZE`; over KCP a pass drains a queue
exactly if each message in it has a byte and is not above `NETWORK_BUF_SIZE`, and in either
case it leaves nothing in `m_PreMsg`. -/
theorem delivered_iff (ikcp : Ikcp κ) (heap : Heap) (delivers : ikcp.Delivers) :
    (∀ (frame : List UInt8) (before : Message) (received : List UInt8)
        (chunks : List (List UInt8)), Emitted frame → before.buff = .null →
        (∀ chunk ∈ chunks, IsChunk chunk) → chunks.flatten = frame →
        ((∀ feed ∈ feeds .tcp heap before received chunks, feed.call.exit ≠ .ret false) ↔
          frame.length ≤ msgSize)) ∧
      ∀ (s : KcpSession κ) (now : UInt64), s.m_PreMsg.buff = .null →
        (∀ frame ∈ ikcp.received s.m_kcp, Emitted frame) →
        (doRead ikcp heap now s).session.m_PreMsg.buff = .null ∧
          (Drains ikcp (ikcp.received s.m_kcp) (doRead ikcp heap now s) ↔
            ∀ frame ∈ ikcp.received s.m_kcp, IsChunk frame) := by
  constructor
  · intro frame before received chunks emitted null legal split
    have refused : (∃ feed ∈ feeds .tcp heap before received chunks, _) ↔ _ :=
      emitted.refused_iff heap null .tcp legal split
    constructor
    · intro never
      by_contra above
      obtain ⟨feed, member, exit⟩ := refused.mpr (Nat.lt_of_not_le above)
      exact never feed member exit
    · intro below feed member exit
      exact Nat.not_lt.mpr below (refused.mp ⟨feed, member, exit⟩)
  · intro s now null emitted
    rw [doRead]
    split
    · exact readLoop_drains_iff heap now delivers null rfl emitted
    · exact readLoop_drains_iff heap now delivers null rfl emitted

/-- A control block that is no more than its queue. -/
def queued : Ikcp (List (List UInt8)) where
  received := id
  recv
    | [], _ => (-1, [], [])
    | front :: rest, len =>
        if front.length ≤ len then (Int.ofNat front.length, front, rest)
        else (-3, [], front :: rest)

theorem queued_delivers : queued.Delivers where
  fits := by
    rintro _ front rest len rfl fits
    exact ⟨rest, if_pos fits, rfl⟩
  fails := by
    intro kcp len long
    cases kcp with
    | nil => exact ⟨show (-1 : Int) < 0 by decide, rfl⟩
    | cons front rest =>
        have kept : queued.recv (front :: rest) len = (-3, [], front :: rest) :=
          if_neg (Nat.not_le.mpr (long front rest rfl))
        rw [kept]
        exact ⟨show (-3 : Int) < 0 by decide, rfl⟩

/-- A message of a size, with nothing but zeros behind that. -/
def sized (size : UInt32) : Message :=
  ⟨.heap (wordBytes size ++ List.replicate (size.toNat - 4) 0), 6, 6⟩

theorem sized_whole {size : UInt32} (header : 6 ≤ size.toNat) : (sized size).Whole := by
  refine ⟨?_, ?_⟩
  · rw [readWord_wordBytes]
    exact header
  · rw [readWord_wordBytes, List.length_append, length_wordBytes, List.length_replicate]
    omega

theorem length_sized {size : UInt32} (header : 6 ≤ size.toNat) :
    (sized size).sized.length = size.toNat := by
  rw [Message.sized, List.length_take, sized, Message.bytes, Message.getSize_heap,
    readWord_wordBytes, List.length_append, length_wordBytes, List.length_replicate]
  omega

/-- Two small messages come through. -/
theorem delivered_small :
    Drains queued [(sized 6).sized, (sized 8).sized]
      (doRead queued (.filled 0) 7 ⟨[(sized 6).sized, (sized 8).sized], .empty, 0, 0⟩) := by
  have emitted : ∀ frame ∈ [(sized 6).sized, (sized 8).sized], Emitted frame := by
    simp only [List.forall_mem_cons]
    exact ⟨.message (sized_whole (by decide)), .message (sized_whole (by decide)), nofun⟩
  have delivered := (delivered_iff queued (.filled 0) queued_delivers).2
    ⟨[(sized 6).sized, (sized 8).sized], .empty, 0, 0⟩ 7 rfl emitted
  refine delivered.2.mpr ?_
  simp only [queued, id_eq, List.forall_mem_cons, IsChunk]
  rw [length_sized (by decide), length_sized (by decide)]
  exact ⟨by decide, by decide, nofun⟩

/-- A message of one byte more than the buffer, which is half of `MSG_SIZE`, stays in the
queue. -/
theorem delivered_fails :
    ¬∀ (ikcp : Ikcp (List (List UInt8))) (heap : Heap) (s : KcpSession (List (List UInt8)))
      (now : UInt64), ikcp.Delivers → s.m_PreMsg.buff = .null →
      (∀ frame ∈ ikcp.received s.m_kcp, Emitted frame) →
      Drains ikcp (ikcp.received s.m_kcp) (doRead ikcp heap now s) := by
  intro every
  have emitted : ∀ frame ∈ [(sized 16385).sized], Emitted frame := by
    intro frame member
    rw [List.mem_singleton.mp member]
    exact .message (sized_whole (by decide))
  have drains := every queued (.filled 0) ⟨[(sized 16385).sized], .empty, 0, 1⟩ 1
    queued_delivers rfl emitted
  have received : queued.received [(sized 16385).sized] = [(sized 16385).sized] := rfl
  have fits := (readLoop_drains_iff (.filled 0) 1 queued_delivers rfl received emitted).2.mp drains
  have short := (fits _ List.mem_cons_self).2
  rw [length_sized (by decide)] at short
  exact absurd short (by decide)

end KcpSession

end Nicenet.Kcp
