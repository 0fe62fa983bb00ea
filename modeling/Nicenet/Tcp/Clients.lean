import Nicenet.Tcp.Serving

/-!
# A TCP server and its clients

Some of the connections are those of clients that answer the challenge and then send messages;
on the others anything may come in. The server and all of the clients take their steps in any
order. What others do is no matter for a client: its commands are those of its messages.
-/

namespace Nicenet.Tcp

open Library

/-- A server, and the sending sides of its clients. `replied` are the clients that have
written their reply. -/
structure Network (κ : Type) where
  serving : Serving κ
  replied : Nat → Bool
  senders : Nat → Sender

namespace Network

variable {κ : Type}

def fresh (now : UInt64) (memory : Nat → UInt64) : Network κ :=
  ⟨.fresh now memory, fun _ => false, fun _ => .fresh⟩

/-- A step of the server, a reply to whatever has been received, a step of a client's sending
side with the bytes that go out in it, or a write that ends with an error. -/
inductive Event where
  | serve (event : Serving.Event)
  | reply (session : Nat) (now : UInt64) (received : List UInt8) (nonce : Nat)
  | send (session : Nat) (event : Sender.Event) (taken : List UInt8)
  | fail (session index : Nat)
  deriving DecidableEq, Repr

variable {crypto : Crypto} (server : Server crypto) (clients : Nat → Option (Server crypto))
variable (heap : Heap) (m_MessageParser : Option (MessageParser κ))
variable (now : UInt64) (memory : Nat → UInt64)

/-- The steps of a server. -/
abbrev serves : Transition (Serving κ) Serving.Event :=
  Serving.system server heap m_MessageParser now memory

/-- `clients` has the keys of the clients, by their connections. A client writes its reply once
and sends nothing before; what comes in on its connection is from the client alone. -/
def system : Transition (Network κ) Event where
  initial s := s = fresh now memory
  step s event next :=
    match event with
    | .serve event => ∃ serving,
        (serves server heap m_MessageParser now memory).step s.serving event serving ∧
        (∀ session bytes, event = .arrive session bytes → clients session = none) ∧
        next = { s with serving := serving }
    | .reply session now' received nonce => ∃ client packet serving,
        clients session = some client ∧ s.replied session = false ∧
        TcpSessionC.init client now' received nonce = some packet ∧
        (serves server heap m_MessageParser now memory).step s.serving
          (.arrive session packet) serving ∧
        next = { s with
          serving := serving
          replied := Function.update s.replied session true }
    | .send session event taken => ∃ sender serving, s.replied session = true ∧
        Sender.system.step (s.senders session) event sender ∧
        Channel.Sends (s.senders session) sender taken ∧
        (serves server heap m_MessageParser now memory).step s.serving
          (.arrive session taken) serving ∧
        next = { s with
          serving := serving
          senders := Function.update s.senders session sender }
    | .fail session index => ∃ sender, Channel.abandon (s.senders session) index = some sender ∧
        next = { s with senders := Function.update s.senders session sender }

/-- Every batch of a client is taken before `doSend` returns. -/
def Intact (s : Network κ) : Event → Prop
  | .send session event taken => ∀ sender, Sender.system.step (s.senders session) event sender →
      sender.handed.flatten = (s.senders session).handed.flatten ++ taken
  | _ => True

/-! ## What a connection is sent -/

section Steps

variable {server heap m_MessageParser now memory} {s next : Serving κ}

/-- Nothing else changes what has been sent. -/
theorem step_arrived {event : Serving.Event} {i : Nat}
    (other : ∀ bytes, event ≠ .arrive i bytes)
    (taken : (serves server heap m_MessageParser now memory).step s event next) :
    (next.streams i).arrived = (s.streams i).arrived := by
  have streamed {session : Nat} {stream : Stream}
      (same : stream.arrived = (s.streams session).arrived) :
      (Function.update s.streams session stream i).arrived = (s.streams i).arrived := by
    rw [Function.update_apply]
    split
    · next home => rw [same, home]
    · rfl
  obtain ⟨-, step⟩ := taken
  cases event with
  | tick now | accept nonce | close session =>
      cases step
      rfl
  | arrive session bytes =>
      have differ : i ≠ session := by
        rintro rfl
        exact other bytes rfl
      cases step
      exact congrArg Stream.arrived (Function.update_of_ne differ _ _)
  | init2 session size serialID =>
      obtain ⟨-, -, -, -, taken⟩ := step
      obtain ⟨old, -, -, ⟨-, rfl⟩ | ⟨uid, -, rfl⟩⟩ := Serving.init2_cases taken
      · exact streamed rfl
      · exact streamed rfl
  | read session chunk fuel =>
      obtain ⟨-, -, -, -, -, rfl⟩ := step
      rw [Serving.read]
      split
      · exact streamed rfl
      · exact streamed rfl
  | lose session =>
      obtain ⟨-, rfl⟩ := step
      exact streamed rfl
  | unsent session =>
      obtain ⟨-, rfl⟩ := step
      rfl
  | main =>
      rcases Serving.runMain_cases step with ⟨_, _, -, rfl⟩ | ⟨_, _, _, -, rfl⟩
      · rfl
      · rfl

theorem step_arrive {session : Nat} {bytes : List UInt8}
    (taken : (serves server heap m_MessageParser now memory).step s (.arrive session bytes) next) :
    (next.streams session).arrived = (s.streams session).arrived ++ bytes := by
  obtain ⟨-, rfl⟩ := taken
  show (Function.update s.streams session _ session).arrived = _
  rw [Function.update_self]

end Steps

/-- The reply of a client is its key and a signature. -/
theorem init_packet (genuine : crypto.Genuine) {client : Server crypto} {now : UInt64}
    {received packet : List UInt8} {nonce : Nat}
    (replied : TcpSessionC.init client now received nonce = some packet) :
    packet.length = replySize ∧ packet.take publicKeySize = client.publicKey := by
  simp only [TcpSessionC.init, reply] at replied
  split at replied
  · cases replied
  · split at replied
    · cases replied
    · obtain ⟨signature, signed, rfl⟩ := Option.map_eq_some_iff.mp replied
      have key := client.length_publicKey genuine
      rw [Transport.tag, List.nil_append]
      refine ⟨?_, ?_⟩
      · rw [List.length_append, key, genuine.length_sign signed]
        rfl
      · rw [← key, List.take_left]

/-! ## A client of the server -/

section Runs

variable {server clients heap m_MessageParser now memory} {s next : Network κ}

/-- The bytes of a client's connection are its reply, once it has replied, and those of its
writes. -/
structure Joined (client : Server crypto) (replied : Bool) (sender : Sender)
    (arrived : List UInt8) : Prop where
  running : sender.Running
  owned : ∀ msg ∈ sender.posted, msg.Owned
  before : replied = false → arrived = [] ∧ sender.handed = []
  behind : replied = true → ∃ packet, packet.length = replySize ∧
    packet.take publicKeySize = client.publicKey ∧ arrived = packet ++ sender.handed.flatten

theorem joined_fresh {client : Server crypto} : Joined client false .fresh [] where
  running := .inl (Sender.ordered_of_reachable (.initial rfl))
  owned _ member := absurd member List.not_mem_nil
  before _ := ⟨rfl, rfl⟩
  behind := Bool.noConfusion

theorem Joined.reply {client : Server crypto} {sender : Sender} {arrived packet : List UInt8}
    (joined : Joined client false sender arrived) (size : packet.length = replySize)
    (key : packet.take publicKeySize = client.publicKey) :
    Joined client true sender (arrived ++ packet) where
  running := joined.running
  owned := joined.owned
  before := Bool.noConfusion
  behind _ := by
    obtain ⟨empty, fresh⟩ := joined.before rfl
    refine ⟨packet, size, key, ?_⟩
    rw [empty, fresh, List.flatten_nil, List.nil_append, List.append_nil]

theorem Joined.send {client : Server crypto} {sender after : Sender}
    {arrived taken : List UInt8} {event : Sender.Event}
    (joined : Joined client true sender arrived) (step : Sender.system.step sender event after)
    (intact : after.handed.flatten = sender.handed.flatten ++ taken) :
    Joined client true after (arrived ++ taken) where
  running := joined.running.step step
  owned := Sender.step_posted step joined.owned
  before := Bool.noConfusion
  behind _ := by
    obtain ⟨packet, size, key, bytes⟩ := joined.behind rfl
    refine ⟨packet, size, key, ?_⟩
    rw [bytes, intact, List.append_assoc]

theorem Joined.fail {client : Server crypto} {replied : Bool} {sender after : Sender}
    {arrived : List UInt8} {index : Nat} (joined : Joined client replied sender arrived)
    (failed : Channel.abandon sender index = some after) :
    Joined client replied after arrived := by
  have running := joined.running.abandon failed
  rw [Channel.abandon] at failed
  split at failed
  · cases failed
  · cases failed
    exact ⟨running, joined.owned, joined.before, joined.behind⟩

/-- Every client is joined to its connection. -/
def Connected (clients : Nat → Option (Server crypto)) (s : Network κ) : Prop :=
  ∀ i client, clients i = some client →
    Joined client (s.replied i) (s.senders i) (s.serving.streams i).arrived

/-- A client's step with bytes for its own connection. -/
theorem Connected.arrive {serving : Serving κ} {session : Nat} {bytes : List UInt8}
    {replied : Bool} {sender : Sender} (connected : Connected clients s)
    (taken : (serves server heap m_MessageParser now memory).step s.serving
      (.arrive session bytes) serving)
    (joins : ∀ client, clients session = some client →
      Joined client (s.replied session) (s.senders session) (s.serving.streams session).arrived →
      Joined client replied sender ((s.serving.streams session).arrived ++ bytes)) :
    Connected clients
      ⟨serving, Function.update s.replied session replied,
        Function.update s.senders session sender⟩ := by
  intro i client honest
  dsimp only
  by_cases same : i = session
  · subst same
    rw [step_arrive taken, Function.update_self, Function.update_self]
    exact joins client honest (connected i client honest)
  · have other : ∀ given, Serving.Event.arrive session bytes ≠ .arrive i given := by
      rintro given equal
      cases equal
      exact same rfl
    rw [step_arrived other taken, Function.update_of_ne same, Function.update_of_ne same]
    exact connected i client honest

theorem reachable_parts (genuine : crypto.Genuine)
    (reachable : ((system server clients heap m_MessageParser now memory).guarded
      Intact).Reachable s) :
    (serves server heap m_MessageParser now memory).Reachable s.serving ∧
      Connected clients s := by
  apply reachable.invariant
  · rintro s rfl
    exact ⟨.initial rfl, fun _ _ _ => joined_fresh⟩
  · rintro s event next ⟨before, connected⟩ ⟨step, intact⟩
    cases event with
    | serve event =>
        obtain ⟨serving, taken, others, rfl⟩ := step
        refine ⟨.step before taken, fun i client honest => ?_⟩
        have silent : ∀ bytes, event ≠ .arrive i bytes := by
          intro bytes given
          cases (others i bytes given).symm.trans honest
        dsimp only
        rw [step_arrived silent taken]
        exact connected i client honest
    | reply session now' received nonce =>
        obtain ⟨client, packet, serving, own, fresh, replied, taken, rfl⟩ := step
        obtain ⟨size, key⟩ := init_packet genuine replied
        refine ⟨.step before taken, ?_⟩
        rw [← Function.update_eq_self session s.senders]
        refine connected.arrive taken fun other same joined => ?_
        cases own.symm.trans same
        rw [fresh] at joined
        exact joined.reply size key
    | send session event taken =>
        obtain ⟨sender, serving, replied, step, -, arrived, rfl⟩ := step
        refine ⟨.step before arrived, ?_⟩
        rw [← Function.update_eq_self session s.replied]
        refine connected.arrive arrived fun client _ joined => ?_
        rw [replied] at joined ⊢
        exact joined.send step (intact sender step)
    | fail session index =>
        obtain ⟨sender, failed, rfl⟩ := step
        refine ⟨before, fun i client honest => ?_⟩
        have joined := connected i client honest
        dsimp only
        by_cases same : i = session
        · subst same
          rw [Function.update_self]
          exact joined.fail failed
        · rw [Function.update_of_ne same]
          exact joined

/-- Whatever others connect, send and close, in every order of the steps of the server and of
all clients in which each batch is taken at once: the commands of a client's session are those
of its first messages, each once, in order and with the bytes posted. If the session has been
added, it has the client's key as its uid; when it still waits, everything on the wire has been
read and the client is idle, no message of the client has been lost. -/
theorem clients_served (genuine : crypto.Genuine)
    (reachable : ((system server clients heap m_MessageParser now memory).guarded
      Intact).Reachable s) {i : Nat} {client : Server crypto} (honest : clients i = some client) :
    (∃ front, front <+: loads (s.senders i).posted ∧
      s.serving.commands m_MessageParser i = Channel.commands m_MessageParser front) ∧
    (.add i ∈ s.serving.registry.ran →
      s.serving.registry.m_uid i = client.publicKey ∧
      ((s.serving.streams i).reading = .waiting → (s.serving.streams i).wire = [] →
        (s.senders i).isSending = false → (s.senders i).tasks = [] →
        s.serving.commands m_MessageParser i =
          Channel.commands m_MessageParser (loads (s.senders i).posted))) := by
  obtain ⟨served, connected⟩ := reachable_parts genuine reachable
  have tended := Serving.tended_of_reachable served
  have joined := connected i client honest
  have line := tended.lines i
  by_cases added : .add i ∈ s.serving.registry.ran
  · have reads := (tended.reading i).mpr added
    have admitted := tended.admitted rfl (line.served (line.readable reads))
    obtain ⟨_, packet, received, taken, rest, -, -, size, -, bytes, strips, known, waiting⟩ :=
      line.served (line.readable reads)
    have replied : s.replied i = true := by
      cases fresh : s.replied i with
      | true => rfl
      | false =>
          rw [(joined.before fresh).1, List.append_assoc] at bytes
          rw [(List.append_eq_nil_iff.mp bytes).1] at size
          cases size
    obtain ⟨mine, same, key, arrived⟩ := joined.behind replied
    have uid : s.serving.registry.m_uid i = client.publicKey := by
      obtain ⟨_, -, -, front, -⟩ := admitted
      rw [← front, arrived, List.take_append_of_le_length (by rw [same]; decide), key]
    rw [arrived, List.append_assoc] at bytes
    have stream := (List.append_inj bytes (size.trans same.symm)).2
    obtain ⟨begun, all, whole⟩ := Channel.reads_first joined.running joined.owned stream strips
    rw [known, all]
    refine ⟨⟨taken, begun, rfl⟩, fun _ => ⟨uid, fun waits drained idle quiet => ?_⟩⟩
    rw [whole (waiting waits).1 drained idle quiet]
  · have unread : ¬s.serving.registry.reading i = true := mt (tended.reading i).mp added
    have none := (line.silent (Bool.not_eq_true _ ▸ unread)).2.2
    exact ⟨⟨[], List.nil_prefix, none⟩, fun new => absurd new added⟩

end Runs

section Sample

open Openings (sampleServer sampleClient)
open Sender (firstMsg)

theorem arrive_nil {s : Serving κ} (session : Nat) : s.arrive session [] = s := by
  simp only [Serving.arrive, Serving.withStream, List.append_nil, Function.update_eq_self]

/-- The only client is on the first connection. -/
def sampleClients : Nat → Option (Server Openings.sample)
  | 0 => some sampleClient
  | _ => none

/-- The client has replied and sent one message. -/
theorem clients_served_one : ∃ s : Network Unit,
    s.serving.registry.m_uid 0 = sampleClient.publicKey ∧
      s.serving.commands (some fun _ => some ()) 0 =
        Channel.commands (some fun _ => some ()) [[6, 0, 0, 0, 1, 0]] := by
  obtain ⟨challenged, accepted, size⟩ := Serving.sample_handshake
  obtain ⟨registry, added, -, _, _, _, _, written, _, connects, arrives, replies, adds, writes,
    reads, starts⟩ := Serving.single_steps (fun _ => 0) challenged accepted size
  let system := (system sampleServer sampleClients (Heap.filled 0) (some fun _ => some ()) 20
    fun _ => 0).guarded Intact
  have quiet {s : Serving Unit} (alive : ∀ i, (s.streams i).reading ≠ .crashed) :
      (serves sampleServer (Heap.filled 0) (some fun _ => some ()) 20 fun _ => 0).step s
        (.arrive 0 []) s := ⟨alive, (arrive_nil 0).symm⟩
  have connected : system.Reachable ⟨_, fun _ => false, fun _ => .fresh⟩ :=
    .step (.initial rfl) (show system.step _ (.serve (.accept 0)) _ from
      ⟨⟨_, connects, by rintro _ _ ⟨⟩, rfl⟩, trivial⟩)
  have replied := connected.step (show system.step _ (.reply 0 20 Party.sampleSent 0) _ from
    ⟨⟨sampleClient, Party.samplePacket, _, rfl, rfl, by decide +kernel, arrives, rfl⟩, trivial⟩)
  have served := replied.step (show system.step _ (.serve (.init2 0 replySize 10000)) _ from
    ⟨⟨_, replies, by rintro _ _ ⟨⟩, rfl⟩, trivial⟩)
  have joined := served.step (show system.step _ (.serve .main) _ from
    ⟨⟨_, adds, by rintro _ _ ⟨⟩, rfl⟩, trivial⟩)
  have posted := joined.step (show system.step _ (.send 0 (.post firstMsg) []) _ from
    ⟨⟨_, _, rfl, ⟨⟨by decide, by decide, by decide⟩, rfl⟩, .inl ⟨rfl, rfl⟩, quiet writes.1, rfl⟩,
      by rintro _ ⟨_, rfl⟩; rfl⟩)
  have sent := posted.step (show system.step _ (.send 0 .run [6, 0, 0, 0, 1, 0]) _ from
    ⟨⟨_, _, rfl, rfl, .inr ⟨.single, _, rfl, rfl, rfl⟩, writes, rfl⟩,
      by rintro _ ran; cases ran; rfl⟩)
  have read := sent.step (show system.step _ (.serve (.read 0 [6, 0, 0, 0, 1, 0] 7)) _ from
    ⟨⟨_, reads, by rintro _ _ ⟨⟩, rfl⟩, trivial⟩)
  have started := read.step (show system.step _ (.serve .main) _ from
    ⟨⟨_, starts, by rintro _ _ ⟨⟩, rfl⟩, trivial⟩)
  have done := started.step (show system.step _ (.send 0 (.complete 0) []) _ from
    ⟨⟨_, _, rfl, rfl, .inl ⟨rfl, rfl⟩, quiet (Serving.single_alive Reading.noConfusion), rfl⟩,
      by rintro _ ended; cases ended; rfl⟩)
  obtain ⟨uid, all⟩ := (clients_served Openings.sample_genuine done
    (show sampleClients 0 = some sampleClient from rfl)).2 added
  exact ⟨_, uid, all rfl rfl rfl rfl⟩

end Sample

end Network

end Nicenet.Tcp
