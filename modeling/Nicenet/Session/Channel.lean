import Nicenet.Send.Fifo
import Nicenet.Session.Commands
import Nicenet.Session.Reassembly

/-!
# One direction of a TCP connection

The sending session posts messages, runs its tasks and completes its writes; the
stream between the sockets keeps the order of the bytes; the receiving session
reads them in any pieces and posts what `parseMsg` finds to the main service,
which starts the commands. All of these steps may come in any order.

A single message stays in `m_SendList` until its write has completed. A batch is
in an array on the stack of `doSend`, so what the write finds there is known only
if the call has taken all of it.
-/

namespace Nicenet

open Library

/-- The reading side of a session: `doRead` waits for the next chunk, has called
`removeSelf` and stopped, has used a null pointer, or never comes back from
`parseMsg`. -/
inductive Reading where
  | waiting
  | removed
  | crashed
  | looping
  deriving DecidableEq, Repr

/-- What `doRead` does behind a call of `parseMsg`. -/
def Exit.reading : Exit → Reading
  | .ret true => .waiting
  | .ret false => .removed
  | .recurse _ => .looping
  | .fault _ => .crashed

/-- `wire` are the bytes between the sockets, `main` the tasks that call
`handleMessage`, and `started` the commands started so far with their messages. -/
structure Channel (κ : Type) where
  sender : Sender
  wire : List UInt8
  preMsg : Message
  reading : Reading
  main : List Message
  started : List (κ × Message)

namespace Channel

variable {κ : Type}

/-- Two sessions behind the handshake. -/
def fresh : Channel κ := ⟨.fresh, [], .empty, .waiting, [], []⟩

/-- The bytes that the socket takes for a write of the sender. -/
def Taken (write : Write) (buffer taken : List UInt8) : Prop :=
  match write with
  | .single => taken = buffer
  | .batch => taken.length = buffer.length

/-- A step of the sender, and the bytes that go out in it. -/
def Sends (s next : Sender) (taken : List UInt8) : Prop :=
  (next.handed = s.handed ∧ taken = []) ∨
    ∃ write buffer, next.handed = s.handed ++ [buffer] ∧
      next.writes.getLast? = some write ∧ Taken write buffer taken

/-- The handler of a write that has ended with an error calls `removeSelf`. -/
def abandon (s : Sender) (index : Nat) : Option Sender :=
  match s.writes[index]? with
  | none => none
  | some _ => some { s with writes := s.writes.eraseIdx index }

/-- One round of `doRead`. -/
def read (heap : Heap) (c : Channel κ) (chunk : List UInt8) : Channel κ :=
  let call := parseMsg heap (chunk.length + 1) c.preMsg chunk
  { c with
    wire := c.wire.drop chunk.length
    preMsg := call.preMsg
    reading := call.exit.reading
    main := c.main ++ call.posted }

/-- The main service runs its next task. -/
def handle (m_MessageParser : Option (MessageParser κ)) (c : Channel κ) : Option (Channel κ) :=
  match c.main with
  | [] => none
  | msg :: main =>
      some { c with
        main := main
        started := c.started ++ (handleMessage m_MessageParser msg).toList }

inductive Event where
  | send (event : Sender.Event) (taken : List UInt8)
  | fail (index : Nat)
  | read (chunk : List UInt8)
  | lose
  | handle
  deriving DecidableEq, Repr

variable (heap : Heap) (m_MessageParser : Option (MessageParser κ))

/-- Every order of the steps of both sessions. A wait or a read may end with an error at
any time. -/
def system : Transition (Channel κ) Event where
  initial c := c = fresh
  step c event next :=
    match event with
    | .send event taken => ∃ sender, Sender.system.step c.sender event sender ∧
        Sends c.sender sender taken ∧
        next = { c with sender := sender, wire := c.wire ++ taken }
    | .fail index => ∃ sender, abandon c.sender index = some sender ∧
        next = { c with sender := sender }
    | .read chunk => c.reading = .waiting ∧ IsChunk chunk ∧ chunk <+: c.wire ∧
        next = c.read heap chunk
    | .lose => c.reading = .waiting ∧ next = { c with reading := .removed }
    | .handle => c.reading ≠ .crashed ∧ c.handle m_MessageParser = some next

/-- Every batch is taken before `doSend` returns. -/
def Intact (c : Channel κ) (event : Event) : Prop :=
  match event with
  | .send event taken => ∀ sender, Sender.system.step c.sender event sender →
      sender.handed.flatten = c.sender.handed.flatten ++ taken
  | _ => True

/-- The commands that are started for frames. -/
def commands (frames : List (List UInt8)) : List (κ × Message) :=
  frames.filterMap fun frame => handleMessage m_MessageParser ⟨.heap frame, 6, 6⟩

end Channel

/-! ## The sender, with and without an error -/

namespace Sender

/-- The writes so far took the first posted buffers, whole and in order. -/
def Handed (s : Sender) : Prop :=
  ∃ groups : List (List (List UInt8)), s.handed = groups.map List.flatten ∧
    groups.flatten <+: loads s.posted

/-- After an error the session stays as if a write were outstanding. -/
structure Stopped (s : Sender) : Prop where
  idle : s.writes = []
  busy : s.isSending = true
  handed : s.Handed

theorem Ordered.handed {s : Sender} (ordered : s.Ordered) : s.Handed := by
  obtain ⟨groups, handed, account⟩ := ordered.accounted
  refine ⟨groups, handed, ?_⟩
  rw [← account, List.append_assoc]
  exact List.prefix_append _ _

theorem Handed.post {s : Sender} (handed : s.Handed) (msg : Message) : (s.post msg).Handed := by
  obtain ⟨groups, same, front⟩ := handed
  refine ⟨groups, same, front.trans ?_⟩
  simp only [Sender.post, loads_append]
  exact List.prefix_append _ _

theorem Stopped.step {s next : Sender} {event : Event} (stopped : s.Stopped)
    (step : system.step s event next) : next.Stopped := by
  cases event with
  | post msg =>
      obtain ⟨-, rfl⟩ := step
      exact ⟨stopped.idle, stopped.busy, stopped.handed.post msg⟩
  | run =>
      simp only [system, Sender.run] at step
      generalize s.tasks = tasks at step
      cases tasks with
      | nil => cases step
      | cons msg_ tasks =>
          simp only [stopped.busy, ↓reduceIte, Option.some.injEq] at step
          subst step
          exact ⟨stopped.idle, rfl, stopped.handed⟩
  | complete index => simp [system, Sender.complete, stopped.idle] at step

theorem Ordered.step {s next : Sender} {event : Event} (ordered : s.Ordered)
    (step : system.step s event next) : next.Ordered := by
  cases event with
  | post msg =>
      obtain ⟨owned, rfl⟩ := step
      exact post_ordered ordered owned
  | run => exact run_ordered ordered step
  | complete index => exact complete_ordered ordered step

/-- A session has an error behind it, or none. -/
def Running (s : Sender) : Prop := s.Ordered ∨ s.Stopped

theorem Running.handed {s : Sender} (running : s.Running) : s.Handed :=
  running.elim Ordered.handed Stopped.handed

theorem Running.step {s next : Sender} {event : Event} (running : s.Running)
    (step : system.step s event next) : next.Running :=
  running.imp (fun ordered => ordered.step step) fun stopped => stopped.step step

theorem Running.abandon {s next : Sender} {index : Nat} (running : s.Running)
    (failed : Channel.abandon s index = some next) : next.Running := by
  rw [Channel.abandon] at failed
  have outstanding : s.writes ≠ [] := by
    intro idle
    simp [idle] at failed
  have handed := running.handed
  rcases running with ordered | stopped
  · have alone : s.writes.length = 1 ∧ s.isSending = true := by
      rcases ordered.flight with ⟨idle, _⟩ | ⟨batch, busy⟩ | ⟨single, busy, _⟩
      · exact absurd idle outstanding
      · exact ⟨by rw [batch]; rfl, busy⟩
      · exact ⟨by rw [single]; rfl, busy⟩
    cases found : s.writes[index]? with
    | none => simp [found] at failed
    | some write =>
        have inside := (List.getElem?_eq_some_iff.mp found).1
        simp only [found, Option.some.injEq] at failed
        subst failed
        have empty : s.writes.eraseIdx index = [] := by
          apply List.eq_nil_of_length_eq_zero
          rw [List.length_eraseIdx_of_lt inside, alone.1]
        exact .inr ⟨empty, alone.2, handed⟩
  · exact absurd stopped.idle outstanding

/-- Only owned messages are posted, and nothing else changes what has been posted. -/
theorem step_posted {s next : Sender} {event : Event} (step : system.step s event next)
    (owned : ∀ msg ∈ s.posted, msg.Owned) : ∀ msg ∈ next.posted, msg.Owned := by
  have doSend_posted (s : Sender) : s.doSend.posted = s.posted := by
    rw [doSend]
    repeat' split
    all_goals rfl
  have finish_posted (s : Sender) : s.finish.posted = s.posted := by
    rw [finish]
    split
    · exact doSend_posted s
    · rfl
  cases event with
  | post msg =>
      obtain ⟨mine, rfl⟩ := step
      exact List.forall_mem_append.mpr ⟨owned, List.forall_mem_singleton.mpr mine⟩
  | run =>
      simp only [system, Sender.run] at step
      split at step
      · cases step
      · simp only [Option.some.injEq] at step
        subst step
        split
        · exact owned
        · rw [doSend_posted]
          exact owned
  | complete index =>
      simp only [system, Sender.complete] at step
      split at step
      · cases step
      · simp only [Option.some.injEq] at step
        subst step
        rw [finish_posted]
        exact owned
      · simp only [Option.some.injEq] at step
        subst step
        rw [finish_posted]
        exact owned

end Sender

theorem loads_whole {list : List Message} (owned : ∀ msg ∈ list, msg.Owned) :
    ∀ frame ∈ loads list, frames.header ≤ frame.length ∧
      frames.size frame = frame.length := fun frame member =>
  (loads_framed owned frame member).imp_left (Nat.le_trans (by decide))

/-- The bytes handed to writes are the buffers of posted messages. -/
theorem Sender.Running.whole {s : Sender} (running : s.Running)
    (owned : ∀ msg ∈ s.posted, msg.Owned) :
    ∃ whole, whole <+: loads s.posted ∧ whole.flatten = s.handed.flatten ∧
      ∀ frame ∈ whole, frames.header ≤ frame.length ∧ frames.size frame = frame.length := by
  obtain ⟨groups, handed, front⟩ := running.handed
  refine ⟨groups.flatten, front, ?_, fun frame member =>
    loads_whole owned frame (front.subset member)⟩
  rw [handed, List.flatten_flatten]

/-! ## The receiver -/

section Parsing

variable (heap : Heap) {message : Message} {pending data : List UInt8}

/-- A call on a stream that stalls nowhere posts the frames that the chunk completes, up to
the first one that is too long or has been begun before. -/
theorem parseMsg_flow (holds : Holds message pending) (chunk : IsChunk data)
    (moving : pending = [] → ¬frames.Stalls data) :
    ∃ later rest, frames.Strips (pending ++ data) later rest ∧
      (parseMsg heap (data.length + 1) message data).posted = later.map dispatched ∧
      (((parseMsg heap (data.length + 1) message data).exit.reading = .waiting ∧
          frames.Waits rest ∧
          Holds (parseMsg heap (data.length + 1) message data).preMsg rest) ∨
        (parseMsg heap (data.length + 1) message data).exit.reading = .removed ∨
        (parseMsg heap (data.length + 1) message data).exit.reading = .crashed) := by
  by_cases empty : pending = []
  · subst empty
    obtain ⟨later, rest, strips, posted, ⟨waits, exit, held⟩ | ⟨_, exit, _⟩⟩ :=
      parseMsg_fresh heap (data.length + 1) holds.buff_null chunk (moving rfl)
        (Nat.lt_succ_self _)
    · exact ⟨later, rest, strips, posted, .inl ⟨by rw [exit]; rfl, waits, held⟩⟩
    · exact ⟨later, rest, strips, posted, .inr (.inl (by rw [exit]; rfl))⟩
  · rw [parseMsg_pending heap holds chunk empty]
    have step := parseMsgBody_step heap holds chunk
    cases step with
    | wait waits posted exit held =>
        exact ⟨[], _, .refl _, posted, .inl ⟨by rw [exit]; rfl, waits, held⟩⟩
    | reject _ posted exit =>
        exact ⟨[], _, .refl _, posted, .inr (.inl (by rw [exit]; rfl))⟩
    | frame fresh => exact absurd fresh empty
    | crash _ _ _ posted exit =>
        exact ⟨[], _, .refl _, posted, .inr (.inr (by rw [exit]; rfl))⟩
    | overrun _ _ _ _ posted exit =>
        exact ⟨[], _, .refl _, posted, .inr (.inr (by rw [exit]; rfl))⟩

end Parsing

namespace Channel

variable {κ : Type} {heap : Heap} {m_MessageParser : Option (MessageParser κ)}

/-- What the receiver has read are frames, all of them started or in tasks, and the bytes it
holds; what it has not read is on the wire. -/
structure Flows (m_MessageParser : Option (MessageParser κ)) (c : Channel κ) : Prop where
  running : c.sender.Running
  owned : ∀ msg ∈ c.sender.posted, msg.Owned
  flow : ∃ received taken rest, received ++ c.wire = c.sender.handed.flatten ∧
    frames.Strips received taken rest ∧
    c.started ++ c.main.filterMap (handleMessage m_MessageParser) =
      (taken.map dispatched).filterMap (handleMessage m_MessageParser) ∧
    (c.reading = .waiting → frames.Waits rest ∧ Holds c.preMsg rest)
  moving : c.reading ≠ .looping

theorem Flows.read {c : Channel κ} (flows : Flows m_MessageParser c)
    (waiting : c.reading = .waiting) {chunk : List UInt8} (legal : IsChunk chunk)
    (front : chunk <+: c.wire) : Flows m_MessageParser (c.read heap chunk) := by
  obtain ⟨received, taken, rest, stream, strips, started, held⟩ := flows.flow
  obtain ⟨waits, holds⟩ := held waiting
  obtain ⟨behind, wire⟩ := front
  obtain ⟨whole, _, bytes, sizes⟩ := flows.running.whole flows.owned
  rw [← stream, ← wire, ← List.append_assoc] at bytes
  have moving : rest = [] → ¬frames.Stalls chunk := by
    intro empty
    subst empty
    have next := strips.append chunk (.refl _)
    exact next.moving sizes bytes
  obtain ⟨later, left, next, posted, outcome⟩ := parseMsg_flow heap holds legal moving
  have drop : (c.read heap chunk).wire = behind := by
    rw [Channel.read, ← wire]
    exact List.drop_left
  refine ⟨flows.running, flows.owned, ⟨received ++ chunk, taken ++ later, left, ?_,
    strips.append chunk next, ?_, ?_⟩, ?_⟩
  · rw [drop, List.append_assoc, wire]
    exact stream
  · simp only [Channel.read, posted, List.filterMap_append, List.map_append, ← started,
      List.append_assoc]
  · intro still
    rcases outcome with ⟨_, waits, held⟩ | stopped | stopped
    · exact ⟨waits, held⟩
    · cases stopped.symm.trans still
    · cases stopped.symm.trans still
  · intro looping
    rcases outcome with ⟨going, _⟩ | stopped | stopped
    · cases going.symm.trans looping
    · cases stopped.symm.trans looping
    · cases stopped.symm.trans looping

theorem Flows.handle {c next : Channel κ} (flows : Flows m_MessageParser c)
    (handled : c.handle m_MessageParser = some next) : Flows m_MessageParser next := by
  rw [Channel.handle] at handled
  obtain ⟨received, taken, rest, stream, strips, started, held⟩ := flows.flow
  cases queue : c.main with
  | nil => simp [queue] at handled
  | cons msg main =>
      simp only [queue, Option.some.injEq] at handled
      subst handled
      refine ⟨flows.running, flows.owned, ⟨received, taken, rest, stream, strips, ?_, held⟩,
        flows.moving⟩
      rw [← started, queue, List.filterMap_cons, List.append_assoc]
      congr 1
      cases handleMessage m_MessageParser msg <;> rfl

/-- The messages of whole frames keep all of their buffers. -/
theorem filterMap_dispatched {taken : List (List UInt8)}
    (long : ∀ frame ∈ taken, 6 ≤ frame.length) :
    (taken.map dispatched).filterMap (handleMessage m_MessageParser) =
      commands m_MessageParser taken := by
  rw [List.filterMap_map, commands]
  apply List.filterMap_congr
  intro frame member
  rw [Function.comp_apply, dispatched, if_neg (Nat.not_lt.mpr (long frame member))]

/-- What a receiver has read of the bytes handed to writes are the frames of the first messages.
When the sender is idle and nothing is on the wire, they are those of all of them. -/
theorem reads_first {s : Sender} (running : s.Running) (owned : ∀ msg ∈ s.posted, msg.Owned)
    {received wire rest : List UInt8} {taken : List (List UInt8)}
    (stream : received ++ wire = s.handed.flatten) (strips : frames.Strips received taken rest) :
    taken <+: loads s.posted ∧
      (taken.map dispatched).filterMap (handleMessage m_MessageParser) =
        commands m_MessageParser taken ∧
      (frames.Waits rest → wire = [] → s.isSending = false → s.tasks = [] →
        taken = loads s.posted) := by
  obtain ⟨whole, front, bytes, sizes⟩ := running.whole owned
  obtain ⟨others, split, left⟩ := strips.splits sizes (bytes.trans stream.symm)
  have begun : taken <+: loads s.posted :=
    (show taken <+: whole from ⟨others, split.symm⟩).trans front
  refine ⟨begun, filterMap_dispatched fun frame member =>
    (loads_framed owned frame (begun.subset member)).1, ?_⟩
  intro waits drained idle quiet
  have ordered : s.Ordered := by
    rcases running with ordered | stopped
    · exact ordered
    · cases stopped.busy.symm.trans idle
  have sent : s.handed.flatten = (loads s.posted).flatten := by
    obtain ⟨groups, handed, account⟩ := ordered.accounted
    rcases ordered.flight with ⟨writes, -, list⟩ | ⟨-, busy⟩ | ⟨-, busy, -⟩
    · have waiting : s.unsent = [] := by simp [Sender.unsent, writes, list]
      rw [waiting, quiet] at account
      rw [handed, ← List.flatten_flatten, ← account]
      simp [loads]
    · cases busy.symm.trans idle
    · cases busy.symm.trans idle
  have sizes := loads_whole owned
  obtain ⟨others, split, left⟩ := strips.splits sizes (by rw [← sent, ← stream])
  rw [drained, List.append_nil] at left
  have done : others = [] := by
    apply @Framing.Waits.nil_of_whole _ frames
    · rw [← left]
      exact waits
    · intro frame member
      exact sizes frame (by rw [split]; exact List.mem_append_right _ member)
  rw [split, done, List.append_nil]

/-- What has come through is all of the first messages. When the sender is idle and nothing is
on the wire, it is everything. -/
theorem Flows.delivers {c : Channel κ} (flows : Flows m_MessageParser c) :
    (∃ front, front <+: loads c.sender.posted ∧
      c.started ++ c.main.filterMap (handleMessage m_MessageParser) =
        commands m_MessageParser front) ∧
    (c.reading = .waiting → c.wire = [] → c.sender.isSending = false → c.sender.tasks = [] →
      c.started ++ c.main.filterMap (handleMessage m_MessageParser) =
        commands m_MessageParser (loads c.sender.posted)) := by
  obtain ⟨received, taken, rest, stream, strips, started, held⟩ := flows.flow
  obtain ⟨begun, all, whole⟩ := reads_first flows.running flows.owned stream strips
  rw [started, all]
  refine ⟨⟨taken, begun, rfl⟩, fun waiting drained idle quiet => ?_⟩
  rw [whole (held waiting).1 drained idle quiet]

section OneMessage

open Sender (firstMsg)

end OneMessage

end Channel

end Nicenet
