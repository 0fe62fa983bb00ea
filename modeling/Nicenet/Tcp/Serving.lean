import Nicenet.Handshake.Agreement
import Nicenet.Handshake.Segments
import Nicenet.Session.Channel
import Nicenet.Tcp.Latest

/-!
# A TCP server with its connections

The handshakes, the registry and the streams of one server. Anyone connects, sends any
bytes at any time, and presents any reply; the handlers of the workers and the tasks of
the main service come in any order. A message that is started belongs to a connection
whose first bytes have been a key and a signature of its challenge by that key.
-/

namespace Nicenet.Tcp

open Library

/-- The tasks of the main service: those of the registry, and `handleMessage`. -/
inductive Task where
  | registry (task : MainTask Nat)
  | message (session : Nat) (msg : Message)
  deriving DecidableEq, Repr

/-- One connection. `arrived` only records what the other side has sent, and `wire` is
what has not been read of it. -/
structure Stream where
  arrived : List UInt8
  wire : List UInt8
  preMsg : Message
  reading : Reading
  deriving DecidableEq, Repr

def Stream.fresh : Stream := ⟨[], [], .empty, .waiting⟩

/-- A server. Sessions go by their place in `openings`; what the registry posts goes to
`main`, which has the tasks of all sessions in order. -/
structure Serving (κ : Type) where
  openings : Openings
  registry : TcpServer Nat
  streams : Nat → Stream
  main : List Task
  started : List (Nat × κ × Message)

/-- The command that a task is going to start for a session. -/
def Task.command {κ : Type} (m_MessageParser : Option (MessageParser κ)) (session : Nat) :
    Task → Option (κ × Message)
  | .registry _ => none
  | .message other msg => if other = session then handleMessage m_MessageParser msg else none

namespace Serving

variable {κ : Type}

def fresh (now : UInt64) (memory : Nat → UInt64) : Serving κ :=
  ⟨⟨now, []⟩, .fresh memory, fun _ => .fresh, [], []⟩

/-- What a step of the registry has posted waits behind the other tasks. -/
def withRegistry (s : Serving κ) (registry : TcpServer Nat) : Serving κ :=
  { s with
    registry := { registry with main := [] }
    main := s.main ++ registry.main.map .registry }

def withStream (s : Serving κ) (session : Nat) (stream : Stream) : Serving κ :=
  { s with streams := Function.update s.streams session stream }

/-- `parseMsg` posts messages of a session. -/
def post (s : Serving κ) (session : Nat) (posted : List Message) : Serving κ :=
  { s with main := s.main ++ posted.map (.message session) }

/-- The other side of a connection sends some bytes. -/
def arrive (s : Serving κ) (session : Nat) (bytes : List UInt8) : Serving κ :=
  s.withStream session { s.streams session with
    arrived := (s.streams session).arrived ++ bytes
    wire := (s.streams session).wire ++ bytes }

/-- `doRead` calls `removeSelf` and does not wait again. -/
def removeSelf (s : Serving κ) (session : Nat) : Serving κ :=
  (s.withStream session { s.streams session with reading := .removed }).withRegistry
    (s.registry.removeSelf session)

section Steps

variable {crypto : Crypto} (server : Server crypto) (heap : Heap)
variable (m_MessageParser : Option (MessageParser κ))

/-- The handler of `init2`: one `read_some`, and a session for the main service if the
reply is accepted. -/
def init2 (s : Serving κ) (session size : Nat) (serialID : UInt64) : Option (Serving κ) := do
  let stream := s.streams session
  let openings ← s.openings.step .tcp server (.present session (stream.wire.take size))
  let opened ← openings.sessions[session]?
  let read := { s with openings := openings }.withStream session
    { stream with wire := stream.wire.drop size }
  match opened.uid with
  | none => some read
  | some uid => some (read.withRegistry (s.registry.init2 session uid serialID))

/-- One round of `doRead`. `fuel` is how far `parseMsg` gets, if it does not come back. -/
def read (s : Serving κ) (session : Nat) (chunk : List UInt8) (fuel : Nat) : Serving κ :=
  let stream := s.streams session
  let call := TcpSession.parseMsg heap fuel stream.preMsg chunk
  let posted := (s.withStream session { stream with
    wire := stream.wire.drop chunk.length
    preMsg := call.preMsg
    reading := call.exit.reading }).post session call.posted
  if call.exit = .ret false then posted.withRegistry (posted.registry.removeSelf session)
  else posted

/-- The main service runs its next task. -/
def runMain (s : Serving κ) : Option (Serving κ) :=
  match s.main with
  | [] => none
  | .registry task :: main => some { s with
      registry := (s.registry.take task []).runMain task
      main := main }
  | .message session msg :: main => some { s with
      main := main
      started := s.started ++
        ((handleMessage m_MessageParser msg).map (Prod.mk session)).toList }

/-- The clock, a connection that is accepted, bytes, the handlers of `init2` and of
`doRead`, with and without an error, a write that fails, a session that is closed (by the
timer of `init2` or its user), and the main service. -/
inductive Event where
  | tick (now : UInt64)
  | accept (nonce : Nat)
  | arrive (session : Nat) (bytes : List UInt8)
  | init2 (session size : Nat) (serialID : UInt64)
  | read (session : Nat) (chunk : List UInt8) (fuel : Nat)
  | lose (session : Nat)
  | unsent (session : Nat)
  | close (session : Nat)
  | main
  deriving DecidableEq, Repr

/-- `doRead` waits for the socket of a session. -/
def Waiting (s : Serving κ) (session : Nat) : Prop :=
  s.registry.reading session = true ∧ (s.streams session).reading = .waiting

/-- Every order of the steps, up to the use of a null pointer. Nothing is read from a
socket that has been closed. -/
def system (now : UInt64) (memory : Nat → UInt64) : Transition (Serving κ) Event where
  initial s := s = fresh now memory
  step s event next := (∀ session, (s.streams session).reading ≠ .crashed) ∧
    match event with
    | .tick now => next = { s with openings := { s.openings with now := now } }
    | .accept nonce => next = { s with openings := s.openings.opened .tcp server 0 nonce }
    | .arrive session bytes => next = s.arrive session bytes
    | .init2 session size serialID => s.registry.closed session = false ∧
        1 ≤ size ∧ size ≤ replySize ∧ size ≤ (s.streams session).wire.length ∧
        s.init2 server session size serialID = some next
    | .read session chunk fuel => s.Waiting session ∧ s.registry.closed session = false ∧
        IsChunk chunk ∧ chunk <+: (s.streams session).wire ∧ chunk.length < fuel ∧
        next = s.read heap session chunk fuel
    | .lose session => s.Waiting session ∧ next = s.removeSelf session
    | .unsent session => s.registry.reading session = true ∧
        next = s.withRegistry (s.registry.removeSelf session)
    | .close session => next = { s with registry := s.registry.close session }
    | .main => s.runMain m_MessageParser = some next

/-- The commands of a session: those started, and those of its tasks. -/
def commands (s : Serving κ) (session : Nat) : List (κ × Message) :=
  (s.started.filter fun entry => entry.1 = session).map Prod.snd ++
    s.main.filterMap (Task.command m_MessageParser session)

/-- The first bytes of a connection are a key, not the server's, and a signature of the
session's challenge by it. -/
def Admitted (s : Serving κ) (session : Nat) (uid : Uid) : Prop :=
  let arrived := (s.streams session).arrived
  ∃ opened, s.openings.sessions[session]? = some opened ∧ replySize ≤ arrived.length ∧
    arrived.take publicKeySize = uid ∧ server.publicKey ≠ uid ∧
    crypto.verify uid (challengeHash .tcp server opened.time 0)
      (Bytes.slice arrived publicKeySize signSize) = true

end Steps

/-! ## What a call of `parseMsg` posts -/

/-- Whatever the bytes are, a call posts the messages of the frames at the front of what is
pending and the chunk, and if it comes back to wait it has kept the rest. -/
theorem parseMsg_strips (heap : Heap) (fuel : Nat) {message : Message}
    {pending data : List UInt8} (holds : Holds message pending) (chunk : IsChunk data) :
    ∃ taken rest, frames.Strips (pending ++ data) taken rest ∧
      (TcpSession.parseMsg heap fuel message data).posted = taken.map dispatched ∧
      ((TcpSession.parseMsg heap fuel message data).exit.reading = .waiting →
        frames.Waits rest ∧
          Holds (TcpSession.parseMsg heap fuel message data).preMsg rest) := by
  rw [TcpSession.parseMsg]
  induction fuel generalizing message pending data with
  | zero => exact ⟨[], _, .refl _, rfl, Reading.noConfusion⟩
  | succ fuel ih =>
      have step := parseMsgBody_step heap holds chunk
      cases step with
      | wait waits posted exit held =>
          rw [parseMsg_of_ret heap fuel exit]
          exact ⟨[], _, .refl _, posted, fun _ => ⟨waits, held⟩⟩
      | reject rejects posted exit =>
          rw [parseMsg_of_ret heap fuel exit]
          refine ⟨[], _, .refl _, posted, ?_⟩
          rw [exit]
          exact Reading.noConfusion
      | frame fresh ready posted null exit =>
          subst fresh
          rw [List.nil_append]
          by_cases more : frames.size data < data.length
          · rw [if_pos more] at exit
            obtain ⟨later, rest, strips, others, waiting⟩ :=
              ih (.null null) (chunk.drop more)
            rw [parseMsg_of_recurse heap fuel exit]
            refine ⟨_, rest, .frame ready strips, ?_, waiting⟩
            simp only [Activation.calling, posted, others, List.map_cons, List.singleton_append]
          · rw [if_neg more] at exit
            rw [parseMsg_of_ret heap fuel exit]
            refine ⟨_, _, .frame ready (.refl _), posted, fun _ => ?_⟩
            rw [List.drop_eq_nil_of_le (Nat.le_of_not_lt more)]
            exact ⟨waits_nil, .null null⟩
      | crash _ _ _ posted exit =>
          rw [parseMsg_of_fault heap fuel exit]
          refine ⟨[], _, .refl _, posted, ?_⟩
          rw [exit]
          exact Reading.noConfusion
      | overrun _ _ _ _ posted exit =>
          rw [parseMsg_of_fault heap fuel exit]
          refine ⟨[], _, .refl _, posted, ?_⟩
          rw [exit]
          exact Reading.noConfusion

/-! ## One connection -/

section Connection

variable {crypto : Crypto} {server : Server crypto}
variable {m_MessageParser : Option (MessageParser κ)}

/-- A connection behind its handshake: what has been read are the reply, the frames whose
commands are known, and what `parseMsg` keeps. -/
def Served (server : Server crypto) (m_MessageParser : Option (MessageParser κ))
    (opened : Option Opened) (uid : Uid) (stream : Stream)
    (commands : List (κ × Message)) : Prop :=
  ∃ session packet received taken rest, opened = some session ∧ session.presented = true ∧
    packet.length = replySize ∧ accept .tcp server session.hash packet = some uid ∧
    packet ++ received ++ stream.wire = stream.arrived ∧ frames.Strips received taken rest ∧
    commands = (taken.map dispatched).filterMap (handleMessage m_MessageParser) ∧
    (stream.reading = .waiting → frames.Waits rest ∧ Holds stream.preMsg rest)

/-- A connection at any time. Nothing is read before the reply, no message before `doRead`. -/
structure Line (server : Server crypto) (m_MessageParser : Option (MessageParser κ))
    (opened : Option Opened) (completed reading : Bool) (uid : Uid) (stream : Stream)
    (commands : List (κ × Message)) : Prop where
  untouched : (∀ session, opened = some session → session.presented = false) →
    stream.wire = stream.arrived
  readable : reading = true → completed = true
  silent : reading = false →
    stream.preMsg = .empty ∧ stream.reading = .waiting ∧ commands = []
  served : completed = true → Served server m_MessageParser opened uid stream commands

variable {opened : Option Opened} {completed reading : Bool} {uid : Uid} {stream : Stream}
variable {commands : List (κ × Message)}

theorem line_fresh :
    Line server m_MessageParser none false false uid .fresh [] where
  untouched _ := rfl
  readable := Bool.noConfusion
  silent _ := ⟨rfl, rfl, rfl⟩
  served := Bool.noConfusion

theorem Line.accepted {session : Opened}
    (line : Line server m_MessageParser none completed reading uid stream commands) :
    Line server m_MessageParser (some session) completed reading uid stream commands where
  untouched _ := line.untouched (by simp)
  readable := line.readable
  silent := line.silent
  served whole := by
    obtain ⟨_, _, _, _, _, none, _⟩ := line.served whole
    cases none

theorem Line.arrive
    (line : Line server m_MessageParser opened completed reading uid stream commands)
    (bytes : List UInt8) :
    Line server m_MessageParser opened completed reading uid
      { stream with arrived := stream.arrived ++ bytes, wire := stream.wire ++ bytes }
      commands where
  untouched fresh := congrArg (· ++ bytes) (line.untouched fresh)
  readable := line.readable
  silent := line.silent
  served whole := by
    obtain ⟨session, packet, received, taken, rest, found, presented, size, accepted, stream,
      strips, known, waiting⟩ := line.served whole
    refine ⟨session, packet, received, taken, rest, found, presented, size, accepted, ?_,
      strips, known, waiting⟩
    rw [← stream, List.append_assoc _ _ bytes]

/-- A session whose reply has not been read is not complete. -/
theorem Line.incomplete {session : Opened}
    (line : Line server m_MessageParser (some session) completed reading uid stream commands)
    (fresh : session.presented = false) : completed = false ∧ reading = false := by
  have new : completed = false := by
    cases whole : completed with
    | false => rfl
    | true =>
        obtain ⟨_, _, _, _, _, found, presented, _⟩ := line.served whole
        cases found
        cases fresh.symm.trans presented
  refine ⟨new, ?_⟩
  cases reads : reading with
  | false => rfl
  | true => cases new.symm.trans (line.readable reads)

/-- The reply is the first that is read. If it is accepted, it is the whole reply. -/
theorem Line.init2 {session : Opened}
    (line : Line server m_MessageParser (some session) completed reading uid stream commands)
    (fresh : session.presented = false) {size : Nat} (most : size ≤ replySize)
    (front : size ≤ stream.wire.length) :
    let accepted := accept .tcp server session.hash (stream.wire.take size)
    let read := { stream with wire := stream.wire.drop size }
    let after := some { session with presented := true, uid := accepted }
    Line server m_MessageParser after completed reading uid read commands ∧
      ∀ other, accepted = some other →
        Line server m_MessageParser after true reading other read commands := by
  obtain ⟨new, quiet⟩ := line.incomplete fresh
  obtain ⟨empty, waiting, bare⟩ := line.silent quiet
  have touched : ∀ {P : Prop} {uid : Option (List UInt8)},
      (∀ last, some { session with presented := true, uid := uid } = some last →
        last.presented = false) → P := by
    intro P uid every
    cases every _ rfl
  refine ⟨⟨touched, line.readable, line.silent, ?_⟩,
    fun other accepted => ⟨touched, fun _ => rfl, line.silent, fun _ => ?_⟩⟩
  · intro whole
    cases new.symm.trans whole
  · have length : (stream.wire.take size).length = replySize := by
      have enough : ¬(stream.wire.take size).length < replySize := by
        intro short
        have refused : TcpSessionS.init2 server session.hash _ = none := init2_short short
        cases refused.symm.trans accepted
      rw [List.length_take] at enough ⊢
      omega
    refine ⟨_, stream.wire.take size, [], [], [], rfl, rfl, length, accepted, ?_, .refl _, bare,
      fun _ => ⟨waits_nil, ?_⟩⟩
    · rw [List.append_nil, List.take_append_drop]
      apply line.untouched
      rintro last ⟨⟩
      exact fresh
    · rw [empty]
      exact .null rfl

theorem Line.read
    (line : Line server m_MessageParser opened completed true uid stream commands)
    (waiting : stream.reading = .waiting) {chunk : List UInt8} (legal : IsChunk chunk)
    (front : chunk <+: stream.wire) (heap : Heap) (fuel : Nat) :
    let call := TcpSession.parseMsg heap fuel stream.preMsg chunk
    Line server m_MessageParser opened completed true uid
      { stream with
        wire := stream.wire.drop chunk.length
        preMsg := call.preMsg
        reading := call.exit.reading }
      (commands ++ call.posted.filterMap (handleMessage m_MessageParser)) := by
  obtain ⟨session, packet, received, taken, rest, found, presented, size, accepted, bytes,
    strips, known, held⟩ := line.served (line.readable rfl)
  obtain ⟨later, left, next, posted, waits⟩ :=
    parseMsg_strips heap fuel (held waiting).2 legal
  refine ⟨fun fresh => ?_, line.readable, Bool.noConfusion, fun _ => ?_⟩
  · cases (fresh session found).symm.trans presented
  · refine ⟨session, packet, received ++ chunk, taken ++ later, left, found, presented, size,
      accepted, ?_, strips.append chunk next, ?_, waits⟩
    · obtain ⟨behind, wire⟩ := front
      rw [← bytes, ← wire]
      simp only [List.drop_left, List.append_assoc]
    · rw [known, posted, List.map_append, List.filterMap_append]

/-- `doRead` has come to its end. -/
theorem Line.removed
    (line : Line server m_MessageParser opened completed true uid stream commands) :
    Line server m_MessageParser opened completed true uid
      { stream with reading := .removed } commands where
  untouched := line.untouched
  readable := line.readable
  silent := Bool.noConfusion
  served whole := by
    obtain ⟨session, packet, received, taken, rest, found, presented, size, accepted, bytes,
      strips, known, -⟩ := line.served whole
    exact ⟨session, packet, received, taken, rest, found, presented, size, accepted, bytes,
      strips, known, Reading.noConfusion⟩

end Connection

/-! ## What the steps do -/

section Effects

variable {m_MessageParser : Option (MessageParser κ)} {s next : Serving κ}

theorem commands_withRegistry (registry : TcpServer Nat) (i : Nat) :
    (s.withRegistry registry).commands m_MessageParser i = s.commands m_MessageParser i := by
  have none : (registry.main.map Task.registry).filterMap (Task.command m_MessageParser i) =
      [] := by
    rw [List.filterMap_map]
    exact List.filterMap_eq_nil_iff.mpr fun _ _ => rfl
  rw [commands, withRegistry, List.filterMap_append, none, List.append_nil, commands]

theorem commands_post (session i : Nat) (posted : List Message) :
    (s.post session posted).commands m_MessageParser i =
      s.commands m_MessageParser i ++
        if session = i then posted.filterMap (handleMessage m_MessageParser) else [] := by
  have mine : (posted.map (Task.message session)).filterMap (Task.command m_MessageParser i) =
      if session = i then posted.filterMap (handleMessage m_MessageParser) else [] := by
    rw [List.filterMap_map]
    split
    · next same => exact List.filterMap_congr fun msg _ => if_pos same
    · next other => exact List.filterMap_eq_nil_iff.mpr fun msg _ => if_neg other
  rw [commands, post, List.filterMap_append, mine, commands, List.append_assoc]

/-- A task of the registry does its work there, a message starts its command. -/
theorem runMain_cases (ran : s.runMain m_MessageParser = some next) :
    (∃ task main, s.main = .registry task :: main ∧ next = { s with
      registry := (s.registry.take task []).runMain task
      main := main }) ∨
    ∃ session msg main, s.main = .message session msg :: main ∧ next = { s with
      main := main
      started := s.started ++
        ((handleMessage m_MessageParser msg).map (Prod.mk session)).toList } := by
  rw [runMain] at ran
  cases waiting : s.main with
  | nil => simp [waiting] at ran
  | cons task main =>
      cases task with
      | registry task =>
          simp only [waiting, Option.some.injEq] at ran
          exact .inl ⟨task, main, rfl, ran.symm⟩
      | message session msg =>
          simp only [waiting, Option.some.injEq] at ran
          exact .inr ⟨session, msg, main, rfl, ran.symm⟩

/-- A command that is started leaves the tasks. -/
theorem commands_runMain (ran : s.runMain m_MessageParser = some next) (i : Nat) :
    next.commands m_MessageParser i = s.commands m_MessageParser i := by
  rcases runMain_cases ran with ⟨task, main, waiting, rfl⟩ | ⟨session, msg, main, waiting, rfl⟩
  · rw [commands, commands, waiting]
    rfl
  · rw [commands, commands, waiting, List.filter_append, List.map_append, List.filterMap_cons,
      Task.command]
    by_cases mine : session = i
    · cases handleMessage m_MessageParser msg <;> simp [mine]
    · cases handleMessage m_MessageParser msg <;> simp [mine]

/-- What a task does to the registry. -/
theorem registry_runMain (registry : TcpServer Nat) (task : MainTask Nat) :
    let next := (registry.take task []).runMain task
    next.main = [] ∧ next.ran = registry.ran ++ [task] ∧
      next.completed = registry.completed ∧ next.m_uid = registry.m_uid ∧
      (∀ i, next.reading i = true ↔ registry.reading i = true ∨ task = .add i) ∧
      ∀ uid i, next.m_sessions uid = some i →
        registry.m_sessions uid = some i ∨ (task = .add i ∧ registry.m_uid i = uid) := by
  cases task with
  | add session =>
      rw [TcpServer.runMain, TcpServer.addSession_eq]
      refine ⟨rfl, rfl, rfl, rfl, fun i => ?_, fun uid i found => ?_⟩
      · simp only [TcpServer.doRead, TcpServer.take, Function.update_apply, MainTask.add.injEq]
        by_cases same : i = session
        · simp [same]
        · simp [same, Ne.symm same]
      · simp only [TcpServer.doRead, TcpServer.take, Function.update_apply] at found
        split at found
        · next home =>
          cases found
          exact .inr ⟨rfl, home.symm⟩
        · exact .inl found
  | remove session =>
      rw [TcpServer.runMain, TcpServer.take_removeSelfImpl]
      have same : ∀ i, registry.reading i = true ↔
          registry.reading i = true ∨ MainTask.remove session = .add i := by
        intro i
        simp
      rw [TcpServer.removeSelfImpl, TcpServer.removeSession]
      split
      · exact ⟨rfl, rfl, rfl, rfl, same, fun _ _ => .inl⟩
      · split
        · refine ⟨rfl, rfl, rfl, rfl, same, fun uid i found => .inl ?_⟩
          simp only [TcpServer.take, TcpServer.close, Function.update_apply] at found
          split at found
          · cases found
          · exact found
        · exact ⟨rfl, rfl, rfl, rfl, same, fun _ _ => .inl⟩

end Effects

/-! ## Every run -/

section Runs

variable {crypto : Crypto} (server : Server crypto)
variable (m_MessageParser : Option (MessageParser κ))

/-- The state of one connection. -/
abbrev Lined (s : Serving κ) (i : Nat) : Prop :=
  Line server m_MessageParser s.openings.sessions[i]? (s.registry.completed i)
    (s.registry.reading i) (s.registry.m_uid i) (s.streams i) (s.commands m_MessageParser i)

/-- What holds of the registry, of the handshakes and of each connection. -/
structure Tended (s : Serving κ) : Prop where
  quiet : s.registry.main = []
  tasks : ∀ task, .registry task ∈ s.main → s.registry.completed task.session = true
  wrote : ∀ session ∈ s.openings.sessions, Openings.Wrote .tcp server session
  reading : ∀ i, s.registry.reading i = true ↔ .add i ∈ s.registry.ran
  found : ∀ uid i, s.registry.m_sessions uid = some i →
    s.registry.m_uid i = uid ∧ s.registry.reading i = true
  lines : ∀ i, Lined server m_MessageParser s i

variable {server m_MessageParser} {s next : Serving κ}

theorem tended_fresh (now : UInt64) (memory : Nat → UInt64) :
    Tended server m_MessageParser (fresh now memory) where
  quiet := rfl
  tasks _ member := absurd member List.not_mem_nil
  wrote _ member := absurd member List.not_mem_nil
  reading _ := iff_of_false Bool.noConfusion List.not_mem_nil
  found _ _ found := by cases found
  lines _ := line_fresh

/-- Tasks that are posted change no connection. -/
theorem Tended.posts (tended : Tended server m_MessageParser s) {registry : TcpServer Nat}
    {task : MainTask Nat} (posted : registry = s.registry.post task)
    (completed : s.registry.completed task.session = true) :
    Tended server m_MessageParser (s.withRegistry registry) := by
  subst posted
  refine ⟨rfl, fun other member => ?_, tended.wrote, tended.reading, tended.found,
    fun i => ?_⟩
  · rcases List.mem_append.mp member with before | new
    · exact tended.tasks other before
    · simp only [TcpServer.post, tended.quiet, List.nil_append, List.map_cons, List.map_nil,
        List.mem_singleton, Task.registry.injEq] at new
      rw [new]
      exact completed
  · rw [Lined, commands_withRegistry]
    exact tended.lines i

/-- A stream that is put in the place of another. -/
theorem Tended.streamed (tended : Tended server m_MessageParser s) {session : Nat}
    {stream : Stream}
    (line : Line server m_MessageParser s.openings.sessions[session]?
      (s.registry.completed session) (s.registry.reading session) (s.registry.m_uid session)
      stream (s.commands m_MessageParser session)) :
    Tended server m_MessageParser (s.withStream session stream) := by
  refine ⟨tended.quiet, tended.tasks, tended.wrote, tended.reading, tended.found, fun i => ?_⟩
  change Line _ _ _ _ _ _ (Function.update s.streams session stream i)
    (s.commands m_MessageParser i)
  by_cases same : i = session
  · rw [same, Function.update_self]
    exact line
  · rw [Function.update_of_ne same]
    exact tended.lines i

theorem Tended.removeSelf (tended : Tended server m_MessageParser s) {session : Nat}
    (reads : s.registry.reading session = true) :
    Tended server m_MessageParser (s.removeSelf session) := by
  have line := tended.lines session
  rw [Lined, reads] at line
  have streamed := tended.streamed (by rw [reads]; exact line.removed)
  exact streamed.posts rfl (line.readable rfl)

/-- A session that is opened is the next one. -/
theorem Tended.accept (tended : Tended server m_MessageParser s) (nonce : Nat) :
    Tended server m_MessageParser
      { s with openings := s.openings.opened .tcp server 0 nonce } := by
  refine ⟨tended.quiet, tended.tasks, Openings.opened_wrote tended.wrote, tended.reading,
    tended.found, fun i => ?_⟩
  have line := tended.lines i
  rw [Lined] at line ⊢
  change Line _ _ (s.openings.opened .tcp server 0 nonce).sessions[i]? _ _ _ _
    (s.commands m_MessageParser i)
  rw [Openings.opened]
  cases challenge .tcp server s.openings.now 0 nonce with
  | none => exact line
  | some sent =>
      rcases Nat.lt_trichotomy i s.openings.sessions.length with before | last | behind
      · rw [List.getElem?_append_left before]
        exact line
      · rw [last, List.getElem?_concat_length]
        rw [last, List.getElem?_eq_none (Nat.le_refl _)] at line
        exact line.accepted
      · rw [List.getElem?_eq_none (by simp only [List.length_append, List.length_singleton]; omega)]
        rw [List.getElem?_eq_none (Nat.le_of_lt behind)] at line
        exact line

/-- The reply of a session, read for the first time. -/
theorem init2_cases {session size : Nat} {serialID : UInt64}
    (taken : s.init2 server session size serialID = some next) :
    ∃ old, s.openings.sessions[session]? = some old ∧ old.presented = false ∧
      let stream := s.streams session
      let accepted := Nicenet.accept .tcp server old.hash (stream.wire.take size)
      let read := { s with openings := ⟨s.openings.now, s.openings.sessions.set session
          { old with presented := true, uid := accepted }⟩ }.withStream session
        { stream with wire := stream.wire.drop size }
      (accepted = none ∧ next = read) ∨
        ∃ uid, accepted = some uid ∧
          next = read.withRegistry (s.registry.init2 session uid serialID) := by
  simp only [init2, Openings.step] at taken
  cases found : s.openings.sessions[session]? with
  | none => simp [found] at taken
  | some old =>
      have inside := (List.getElem?_eq_some_iff.mp found).1
      cases presented : old.presented with
      | true => simp [found, presented] at taken
      | false =>
          refine ⟨old, rfl, presented, ?_⟩
          simp only [found, presented, Bool.false_eq_true, if_false, Option.bind_eq_bind,
            Option.bind_some, List.getElem?_set_self inside] at taken
          dsimp only
          cases accepted : Nicenet.accept .tcp server old.hash
              ((s.streams session).wire.take size) with
          | none =>
              rw [accepted] at taken
              exact .inl ⟨rfl, (Option.some.inj taken).symm⟩
          | some uid =>
              rw [accepted] at taken
              exact .inr ⟨uid, rfl, (Option.some.inj taken).symm⟩

/-- The reply of a session has been read. -/
theorem Tended.replied (tended : Tended server m_MessageParser s) {session : Nat}
    {old new : Opened} {stream : Stream} (found : s.openings.sessions[session]? = some old)
    (line : Line server m_MessageParser (some new) (s.registry.completed session)
      (s.registry.reading session) (s.registry.m_uid session) stream
      (s.commands m_MessageParser session))
    (wrote : Openings.Wrote .tcp server new) :
    Tended server m_MessageParser ({ s with openings := ⟨s.openings.now,
      s.openings.sessions.set session new⟩ }.withStream session stream) := by
  have inside := (List.getElem?_eq_some_iff.mp found).1
  refine ⟨tended.quiet, tended.tasks, fun other member => ?_, tended.reading, tended.found,
    fun i => ?_⟩
  · rcases List.mem_or_eq_of_mem_set member with before | changed
    · exact tended.wrote other before
    · rw [changed]
      exact wrote
  · change Line _ _ (s.openings.sessions.set session new)[i]? (s.registry.completed i)
      (s.registry.reading i) (s.registry.m_uid i) (Function.update s.streams session stream i)
      (s.commands m_MessageParser i)
    by_cases same : i = session
    · rw [same, List.getElem?_set_self inside, Function.update_self]
      exact line
    · rw [List.getElem?_set_ne (Ne.symm same), Function.update_of_ne same]
      exact tended.lines i

/-- A session that is complete waits for the main service. -/
theorem Tended.completes (tended : Tended server m_MessageParser s) {session : Nat}
    {uid : Uid} (serialID : UInt64) (new : s.registry.completed session = false)
    (line : Line server m_MessageParser s.openings.sessions[session]? true
      (s.registry.reading session) uid (s.streams session) (s.commands m_MessageParser session)) :
    Tended server m_MessageParser (s.withRegistry (s.registry.init2 session uid serialID)) := by
  have differ {i : Nat} (whole : s.registry.completed i = true) : i ≠ session := by
    rintro rfl
    cases new.symm.trans whole
  refine ⟨rfl, fun task member => ?_, tended.wrote, tended.reading, fun other i added => ?_,
    fun i => ?_⟩
  · change Function.update s.registry.completed session true task.session = true
    rcases List.mem_append.mp member with before | posted
    · rw [Function.update_of_ne (differ (tended.tasks task before))]
      exact tended.tasks task before
    · have posted : task = .add session := by
        simpa [TcpServer.init2, TcpServer.post, tended.quiet] using posted
      rw [posted]
      exact Function.update_self ..
  · obtain ⟨home, reads⟩ := tended.found other i added
    refine ⟨?_, reads⟩
    exact (Function.update_of_ne (differ ((tended.lines i).readable reads)) ..).trans home
  · rw [Lined, commands_withRegistry]
    change Line _ _ s.openings.sessions[i]? (Function.update s.registry.completed _ _ i)
      (s.registry.reading i) (Function.update s.registry.m_uid _ _ i) (s.streams i)
      (s.commands m_MessageParser i)
    by_cases same : i = session
    · rw [same, Function.update_self, Function.update_self]
      exact line
    · rw [Function.update_of_ne same, Function.update_of_ne same]
      exact tended.lines i

theorem Tended.init2 (tended : Tended server m_MessageParser s) {session size : Nat}
    {serialID : UInt64} (most : size ≤ replySize)
    (front : size ≤ (s.streams session).wire.length)
    (taken : s.init2 server session size serialID = some next) :
    Tended server m_MessageParser next := by
  obtain ⟨old, found, fresh, cases⟩ := init2_cases taken
  have inside := (List.getElem?_eq_some_iff.mp found).1
  have line := tended.lines session
  rw [Lined, found] at line
  obtain ⟨read, complete⟩ := line.init2 fresh most front
  have wrote : Openings.Wrote .tcp server old :=
    tended.wrote old (List.mem_of_getElem? found)
  have replied := tended.replied found read wrote
  rcases cases with ⟨-, rfl⟩ | ⟨uid, accepted, rfl⟩
  · exact replied
  · apply replied.completes serialID (line.incomplete fresh).1
    change Line _ _ (s.openings.sessions.set session _)[session]? _ _ _
      (Function.update s.streams session _ session) (s.commands m_MessageParser session)
    rw [List.getElem?_set_self inside, Function.update_self]
    exact complete uid accepted

theorem Tended.read (tended : Tended server m_MessageParser s) {heap : Heap} {session : Nat}
    {chunk : List UInt8} {fuel : Nat} (waiting : s.Waiting session) (legal : IsChunk chunk)
    (front : chunk <+: (s.streams session).wire) :
    Tended server m_MessageParser (s.read heap session chunk fuel) := by
  obtain ⟨reads, waiting⟩ := waiting
  have line := tended.lines session
  rw [Lined, reads] at line
  have whole := line.readable rfl
  have posted : Tended server m_MessageParser ((s.withStream session { s.streams session with
      wire := (s.streams session).wire.drop chunk.length
      preMsg := (TcpSession.parseMsg heap fuel (s.streams session).preMsg chunk).preMsg
      reading := (TcpSession.parseMsg heap fuel (s.streams session).preMsg chunk).exit.reading
      }).post session (TcpSession.parseMsg heap fuel (s.streams session).preMsg
        chunk).posted) := by
    refine ⟨tended.quiet, fun task member => ?_, tended.wrote, tended.reading, tended.found,
      fun i => ?_⟩
    · rcases List.mem_append.mp member with before | message
      · exact tended.tasks task before
      · simp at message
    · rw [Lined, commands_post]
      change Line _ _ _ _ (s.registry.reading i) _ (Function.update s.streams _ _ i)
        (s.commands m_MessageParser i ++ _)
      by_cases same : i = session
      · subst same
        rw [if_pos rfl, Function.update_self, reads]
        exact line.read waiting legal front heap fuel
      · rw [if_neg (Ne.symm same), List.append_nil, Function.update_of_ne same]
        exact tended.lines i
  rw [Serving.read]
  split
  · exact posted.posts rfl whole
  · exact posted

theorem Tended.runMain (tended : Tended server m_MessageParser s)
    (ran : s.runMain m_MessageParser = some next) : Tended server m_MessageParser next := by
  have same := commands_runMain ran
  rcases runMain_cases ran with ⟨task, main, waiting, rfl⟩ | ⟨session, msg, main, waiting, rfl⟩
  · obtain ⟨quiet, did, completed, uids, reading, sessions⟩ :=
      registry_runMain s.registry task
    have whole := tended.tasks task (by rw [waiting]; exact List.mem_cons_self)
    refine ⟨quiet, fun other member => ?_, tended.wrote, fun i => ?_, fun uid i found => ?_,
      fun i => ?_⟩
    · dsimp only
      rw [completed]
      exact tended.tasks other (by rw [waiting]; exact List.mem_cons_of_mem _ member)
    · dsimp only
      rw [reading i, did, tended.reading i, List.mem_append, List.mem_singleton, eq_comm]
    · dsimp only at found ⊢
      rw [uids, reading i]
      rcases sessions uid i found with before | ⟨added, home⟩
      · obtain ⟨home, reads⟩ := tended.found uid i before
        exact ⟨home, .inl reads⟩
      · exact ⟨home, .inr added⟩
    · have line := tended.lines i
      rw [Lined, same i]
      rw [Lined] at line
      dsimp only
      rw [completed, uids]
      cases reads : s.registry.reading i with
      | true =>
          rw [(reading i).mpr (.inl reads)]
          rw [reads] at line
          exact line
      | false =>
          rw [reads] at line
          cases now : ((s.registry.take task []).runMain task).reading i with
          | false => exact line
          | true =>
              rcases (reading i).mp now with before | added
              · cases reads.symm.trans before
              · subst added
                exact ⟨line.untouched, fun _ => whole, Bool.noConfusion, line.served⟩
  · refine ⟨tended.quiet, fun task member => ?_, tended.wrote, tended.reading, tended.found,
      fun i => ?_⟩
    · exact tended.tasks task (by rw [waiting]; exact List.mem_cons_of_mem _ member)
    · rw [Lined, same i]
      exact tended.lines i

theorem tended_of_reachable {heap : Heap} {now : UInt64} {memory : Nat → UInt64}
    (reachable : (system server heap m_MessageParser now memory).Reachable s) :
    Tended server m_MessageParser s := by
  apply reachable.invariant
  · rintro s rfl
    exact tended_fresh now memory
  · rintro s event next tended ⟨-, step⟩
    cases event with
    | tick now =>
        cases step
        exact ⟨tended.quiet, tended.tasks, tended.wrote, tended.reading, tended.found,
          tended.lines⟩
    | accept nonce =>
        cases step
        exact tended.accept nonce
    | arrive session bytes =>
        cases step
        exact tended.streamed ((tended.lines session).arrive bytes)
    | init2 session size serialID =>
        obtain ⟨-, -, most, front, taken⟩ := step
        exact tended.init2 most front taken
    | read session chunk fuel =>
        obtain ⟨waiting, -, legal, front, -, rfl⟩ := step
        exact tended.read waiting legal front
    | lose session =>
        obtain ⟨⟨reads, -⟩, rfl⟩ := step
        exact tended.removeSelf reads
    | unsent session =>
        obtain ⟨reads, rfl⟩ := step
        exact tended.posts rfl ((tended.lines session).readable reads)
    | close session =>
        cases step
        exact ⟨tended.quiet, tended.tasks, tended.wrote, tended.reading, tended.found,
          tended.lines⟩
    | main => exact tended.runMain step

/-! ## The registry of the server -/

/-- The tasks of the registry among all tasks. -/
def Task.registry? : Task → Option (MainTask Nat)
  | .registry task => some task
  | .message _ _ => none

/-- The registry with the tasks that wait for it. -/
def registered (s : Serving κ) : TcpServer Nat :=
  { s.registry with main := s.main.filterMap Task.registry? }

theorem registered_withRegistry (registry : TcpServer Nat) :
    (s.withRegistry registry).registered =
      { registry with main := s.main.filterMap Task.registry? ++ registry.main } := by
  have all : (registry.main.map Task.registry).filterMap Task.registry? = registry.main := by
    rw [List.filterMap_map]
    exact List.filterMap_some
  rw [registered, withRegistry, List.filterMap_append, all]

theorem registered_removeSelf (quiet : s.registry.main = []) (session : Nat) :
    (s.withRegistry (s.registry.removeSelf session)).registered =
      s.registered.removeSelf session := by
  rw [registered_withRegistry]
  simp only [TcpServer.removeSelf, TcpServer.post, registered, quiet, List.nil_append]

theorem registered_post (session : Nat) (posted : List Message) :
    (s.post session posted).registered = s.registered := by
  have none : (posted.map (Task.message session)).filterMap Task.registry? = [] := by
    rw [List.filterMap_map]
    exact List.filterMap_eq_nil_iff.mpr fun _ _ => rfl
  rw [registered, post, List.filterMap_append, none, List.append_nil, registered]

theorem registered_runMain {task : MainTask Nat} {tasks : List (MainTask Nat)}
    (registry : TcpServer Nat) (main : List (MainTask Nat)) :
    ({ registry with main := main }.take task tasks).runMain task =
      { (registry.take task []).runMain task with main := tasks } := by
  cases task with
  | add session =>
      rw [TcpServer.runMain, TcpServer.runMain, TcpServer.addSession_eq, TcpServer.addSession_eq]
      rfl
  | remove session =>
      rw [TcpServer.runMain, TcpServer.runMain, TcpServer.take_removeSelfImpl,
        TcpServer.take_removeSelfImpl]
      simp only [TcpServer.removeSelfImpl, TcpServer.removeSession]
      split
      · rfl
      · split <;> rfl

/-- What the server does with its registry is a run of the registry alone. -/
theorem registered_of_reachable {heap : Heap} {now : UInt64} {memory : Nat → UInt64}
    (reachable : (system server heap m_MessageParser now memory).Reachable s) :
    (TcpServer.system memory).Reachable s.registered := by
  induction reachable with
  | initial first =>
      cases first
      exact .initial rfl
  | @step s next event before taken ih =>
      have tended := tended_of_reachable before
      have failed {session : Nat} (reads : s.registry.reading session = true) :
          (TcpServer.system memory).Reachable (s.registered.removeSelf session) := by
        refine .step ih (show s.registered.step (.failed session) = some _ from ?_)
        exact if_pos reads
      obtain ⟨-, step⟩ := taken
      cases event with
      | tick now =>
          cases step
          exact ih
      | accept nonce =>
          cases step
          exact ih
      | arrive session bytes =>
          cases step
          exact ih
      | init2 session size serialID =>
          obtain ⟨-, -, most, front, taken⟩ := step
          obtain ⟨old, found, fresh, ⟨-, rfl⟩ | ⟨uid, -, rfl⟩⟩ := init2_cases taken
          · exact ih
          · have line := tended.lines session
            rw [Lined, found] at line
            have new : ¬s.registered.completed session = true :=
              Bool.eq_false_iff.mp (line.incomplete fresh).1
            refine .step ih
              (show s.registered.step (.complete session uid serialID) = some _ from ?_)
            rw [TcpServer.step, if_neg new, registered_withRegistry]
            simp only [TcpServer.init2, TcpServer.post, registered, tended.quiet, withStream,
              List.nil_append]
      | read session chunk fuel =>
          obtain ⟨⟨reads, -⟩, -, -, -, -, rfl⟩ := step
          rw [Serving.read]
          split
          · rw [registered_removeSelf, registered_post]
            · exact failed reads
            · exact tended.quiet
          · rw [registered_post]
            exact ih
      | lose session =>
          obtain ⟨⟨reads, -⟩, rfl⟩ := step
          have removed : (s.removeSelf session).registered =
              s.registered.removeSelf session := registered_removeSelf tended.quiet session
          rw [removed]
          exact failed reads
      | unsent session =>
          obtain ⟨reads, rfl⟩ := step
          rw [registered_removeSelf tended.quiet]
          exact failed reads
      | close session =>
          cases step
          exact .step ih (show s.registered.step (.close session) = some _ from rfl)
      | main =>
          rcases runMain_cases step with ⟨task, main, waiting, rfl⟩ | ⟨_, _, main, waiting, rfl⟩
          · have queue : s.registered.main = task :: main.filterMap Task.registry? := by
              rw [registered, waiting]
              rfl
            refine .step ih (show s.registered.step .main = some _ from ?_)
            rw [TcpServer.step_main queue, registered, registered_runMain]
            rfl
          · have same : s.registered.main = main.filterMap Task.registry? := by
              rw [registered, waiting]
              rfl
            rw [registered] at ih ⊢
            dsimp only
            rw [waiting] at ih
            exact ih

/-- The uid that is accepted is the key in the packet. -/
theorem accept_key {transport : Transport} {hash_ packet uid : List UInt8}
    (accepted : Nicenet.accept transport server hash_ packet = some uid) :
    (packet.drop transport.tag.length).take publicKeySize = uid := by
  rw [Nicenet.accept] at accepted
  split at accepted
  · cases accepted
  · split at accepted
    · cases accepted
    · dsimp only at accepted
      split at accepted
      · exact Option.some.inj accepted
      · cases accepted

theorem Tended.admitted (tended : Tended server m_MessageParser s) {i : Nat} {uid : Uid}
    {stream : Stream} {commands : List (κ × Message)} (streamed : s.streams i = stream)
    (served : Served server m_MessageParser s.openings.sessions[i]? uid stream commands) :
    s.Admitted server i uid := by
  obtain ⟨session, packet, received, _, _, found, -, size, accepted, bytes, -⟩ := served
  obtain ⟨other, verified⟩ := Party.accept_cases accepted
  have key := accept_key accepted
  have hash := (tended.wrote session (List.mem_of_getElem? found)).1
  rw [Transport.tag, List.length_nil, List.drop_zero] at key verified
  rw [List.append_assoc] at bytes
  rw [hash] at verified
  rw [Admitted, streamed, ← bytes]
  refine ⟨session, found, ?_, ?_, other, ?_⟩
  · rw [List.length_append, size]
    exact Nat.le_add_right _ _
  · rw [List.take_append_of_le_length (by rw [size]; decide)]
    exact key
  · rw [Bytes.slice_append_left _ (by rw [size]; decide)]
    exact verified

/-- Whoever connects and whatever is sent, in every order of the steps: a session that has
been added has the uid that stands in front of the bytes of its connection, with a signature
of its challenge by that key. Its commands are those of the frames that follow the reply,
each once and in order; a session that has not been added has none. The sessions found are
those added last. -/
theorem added_served {heap : Heap} {now : UInt64} {memory : Nat → UInt64}
    (reachable : (system server heap m_MessageParser now memory).Reachable s) :
    (∀ i, .add i ∉ s.registry.ran → s.commands m_MessageParser i = []) ∧
    (∀ i, .add i ∈ s.registry.ran →
      s.Admitted server i (s.registry.m_uid i) ∧
      ∃ received taken rest,
        received ++ (s.streams i).wire = (s.streams i).arrived.drop replySize ∧
        frames.Strips received taken rest ∧
        s.commands m_MessageParser i =
          (taken.map dispatched).filterMap (handleMessage m_MessageParser) ∧
        ((s.streams i).reading = .waiting → frames.Waits rest)) ∧
    (∀ uid i, s.registry.m_sessions uid = some i →
      .add i ∈ s.registry.ran ∧ s.registry.m_uid i = uid) ∧
    (s.registry.Distinct → ∀ uid i, s.registry.m_sessions uid = some i ↔
      TcpServer.Latest s.registry.m_uid s.registry.ran uid i) := by
  have tended := tended_of_reachable reachable
  refine ⟨fun i before => ?_, fun i added => ?_, fun uid i found => ?_, fun distinct => ?_⟩
  · have line := tended.lines i
    rw [← tended.reading i, Bool.not_eq_true] at before
    exact (line.silent before).2.2
  · have line := tended.lines i
    have served := line.served (line.readable ((tended.reading i).mpr added))
    refine ⟨tended.admitted rfl served, ?_⟩
    obtain ⟨session, packet, received, taken, rest, -, -, size, -, bytes, strips, known,
      waiting⟩ := served
    refine ⟨received, taken, rest, ?_, strips, known, fun waits => (waiting waits).1⟩
    rw [← bytes, List.append_assoc, ← size, List.drop_left]
  · obtain ⟨home, reads⟩ := tended.found uid i found
    exact ⟨(tended.reading i).mp reads, home⟩
  · exact (TcpServer.reachable_kept (registered_of_reachable reachable) distinct).latest

end Runs

section Sample

open Openings (sampleServer sampleClient)

/-- A server with one connection. -/
def single (opened : Opened) (registry : TcpServer Nat) (stream : Stream) (main : List Task)
    (started : List (Nat × κ × Message)) : Serving κ :=
  ⟨⟨20, [opened]⟩, registry, Function.update (fun _ => .fresh) 0 stream, main, started⟩

variable {opened : Opened} {registry : TcpServer Nat} {stream : Stream} {main : List Task}
variable {started : List (Nat × κ × Message)}

theorem single_alive (alive : stream.reading ≠ .crashed) (i : Nat) :
    ((single opened registry stream main started).streams i).reading ≠ .crashed := by
  simp only [single, Function.update_apply]
  split
  · exact alive
  · exact Reading.noConfusion

theorem single_withStream (other : Stream) :
    (single opened registry stream main started).withStream 0 other =
      single opened registry other main started := by
  simp only [withStream, single, Function.update_idem]

theorem single_streams :
    (single opened registry stream main started).streams 0 = stream := rfl

/-- The first reply is read in one piece and accepted. -/
theorem single_init2 {crypto : Crypto} {server : Server crypto} {serialID : UInt64} {uid : Uid}
    (fresh : opened.presented = false)
    (accepted : Nicenet.accept .tcp server opened.hash stream.wire = some uid)
    (size : stream.wire.length = replySize) :
    (single opened registry stream main started).init2 server 0 replySize serialID =
      some ((single { opened with presented := true, uid := some uid } registry
        { stream with wire := [] } main started).withRegistry
          (registry.init2 0 uid serialID)) := by
  have whole : stream.wire.take replySize = stream.wire :=
    List.take_of_length_le (Nat.le_of_eq size)
  have none : stream.wire.drop replySize = [] :=
    List.drop_eq_nil_of_le (Nat.le_of_eq size)
  rw [init2, single_streams, whole, none]
  simp [single, Openings.step, fresh, accepted, withStream]

/-- A client connects and replies, is admitted, and its message starts a command. -/
theorem single_steps {crypto : Crypto} {server : Server crypto}
    (memory : Nat → UInt64) {nonce : Nat} {sent packet uid : List UInt8}
    (challenged : challenge .tcp server 20 0 nonce = some sent)
    (accepted : Nicenet.accept .tcp server (challengeHash .tcp server 20 0) packet = some uid)
    (size : packet.length = replySize) :
    let system := system server (Heap.filled 0) (some fun _ => some ()) 20 memory
    ∃ registry : TcpServer Nat, .add 0 ∈ registry.ran ∧ registry.m_uid 0 = uid ∧
      ∃ connected arrived replied added written read,
        system.step (fresh 20 memory) (.accept nonce) connected ∧
        system.step connected (.arrive 0 packet) arrived ∧
        system.step arrived (.init2 0 replySize 10000) replied ∧
        system.step replied .main added ∧
        system.step added (.arrive 0 [6, 0, 0, 0, 1, 0]) written ∧
        system.step written (.read 0 [6, 0, 0, 0, 1, 0] 7) read ∧
        system.step read .main
          (single ⟨20, 0, challengeHash .tcp server 20 0, sent, true, some uid⟩ registry
            ⟨packet ++ [6, 0, 0, 0, 1, 0], [], .empty, .waiting⟩ []
            [(0, (), ⟨.heap [6, 0, 0, 0, 1, 0], 6, 6⟩)]) := by
  let opened : Opened := ⟨20, 0, challengeHash .tcp server 20 0, sent, false, none⟩
  let known : Opened := ⟨20, 0, challengeHash .tcp server 20 0, sent, true, some uid⟩
  let registry := ((TcpServer.fresh memory).init2 0 uid 10000)
  let added := (({ registry with main := [] }).take (.add 0) []).runMain (.add 0)
  refine ⟨added, List.mem_cons_self, rfl,
    single opened (.fresh memory) .fresh [] [],
    single opened (.fresh memory) ⟨packet, packet, .empty, .waiting⟩ [] [],
    single known { registry with main := [] } ⟨packet, [], .empty, .waiting⟩
      [.registry (.add 0)] [],
    single known added ⟨packet, [], .empty, .waiting⟩ [] [],
    single known added ⟨packet ++ [6, 0, 0, 0, 1, 0], [6, 0, 0, 0, 1, 0], .empty, .waiting⟩ [] [],
    single known added ⟨packet ++ [6, 0, 0, 0, 1, 0], [], .empty, .waiting⟩
      [.message 0 ⟨.heap [6, 0, 0, 0, 1, 0], 6, 6⟩] [], ?_, ?_, ?_, ?_, ?_, ?_, ?_⟩
  · refine ⟨fun _ => Reading.noConfusion, ?_⟩
    simp [Openings.opened, challenged, fresh, single, opened]
  · exact ⟨single_alive Reading.noConfusion, (single_withStream _).symm⟩
  · refine ⟨single_alive Reading.noConfusion, rfl, by decide, Nat.le_refl _,
      Nat.le_of_eq size.symm, ?_⟩
    rw [single_init2 rfl accepted size]
    rfl
  · exact ⟨single_alive Reading.noConfusion, rfl⟩
  · exact ⟨single_alive Reading.noConfusion, (single_withStream _).symm⟩
  · refine ⟨single_alive Reading.noConfusion, ⟨rfl, rfl⟩, rfl, by decide, List.prefix_refl _,
      by decide, ?_⟩
    have returned : ¬(TcpSession.parseMsg (Heap.filled 0) 7 .empty [6, 0, 0, 0, 1, 0]).exit =
        .ret false := by decide
    rw [Serving.read, single_streams, if_neg returned, single_withStream]
    rfl
  · exact ⟨single_alive Reading.noConfusion, rfl⟩

/-- The handshake of the sample parties. -/
theorem sample_handshake : challenge .tcp sampleServer 20 0 0 = some Party.sampleSent ∧
    Nicenet.accept .tcp sampleServer (challengeHash .tcp sampleServer 20 0)
      Party.samplePacket = some sampleClient.publicKey ∧
    Party.samplePacket.length = replySize := by
  decide +kernel

theorem added_served_one : ∃ s : Serving Unit,
    s.commands (some fun _ => some ()) 0 = [((), ⟨.heap [6, 0, 0, 0, 1, 0], 6, 6⟩)] ∧
      s.Admitted sampleServer 0 sampleClient.publicKey := by
  obtain ⟨challenged, accepted, size⟩ := sample_handshake
  obtain ⟨registry, added, uid, _, _, _, _, _, _, connects, arrives, replies, adds, writes, reads,
    starts⟩ := single_steps (fun _ => 0) challenged accepted size
  have first := (((Transition.Reachable.initial rfl).step connects).step arrives).step replies
  have reachable := (((first.step adds).step writes).step reads).step starts
  have served := ((added_served reachable).2.1 0 added).1
  rw [show (single _ registry _ _ _).registry.m_uid 0 = _ from uid] at served
  exact ⟨_, rfl, served⟩

end Sample

end Serving

end Nicenet.Tcp
