import Nicenet.Kcp.Isolation
import Nicenet.Kcp.OwnBytes
import Nicenet.Kcp.Receivers

/-!
# What control blocks send each other

A control block puts its datagrams out through `udpOutput`, with the uid of its session in
front. The network loses, doubles and reorders them, and whatever else a client sends comes
in between. Datagrams of one client reach the control blocks of its own sessions only, byte
for byte.
-/

namespace Nicenet.Kcp

open Library

/-- What `ikcp` puts out for a conversation: its number first, a header at least, and no more
than its `mtu`. -/
structure Segment (m_conv : UInt32) (buf : List UInt8) : Prop where
  conv : wordBytes m_conv <+: buf
  header : 24 ≤ buf.length
  mtu : buf.length ≤ 1400

/-- `udpOutput`: nothing is sent before the uid is known. -/
def udpOutput (uid : Uid) (buf : List UInt8) : Option (List UInt8) :=
  if uid.length < publicKeySize then none
  else some (3 :: (uid.take publicKeySize ++ buf))

/-- `m_conv`: `init` of the server takes the worker, and a client takes it from there. -/
def Identity.m_conv (identity : Identity) : UInt32 := UInt32.ofNat identity.worker.val

/-! ## A datagram on its way -/

section Datagram

variable {uid : Uid} {buf datagram : List UInt8} {worker : Worker}

theorem workerIndex_conv (worker : Worker) :
    (UInt16.ofNat (Bytes.toNat ((wordBytes (UInt32.ofNat worker.val)).take 2))).toNat =
      worker.val := by
  revert worker
  decide +kernel

/-- A handler finds in a datagram what `udpOutput` has put in. -/
theorem receiveInput_udpOutput (buffer : Buffer)
    (segment : Segment (UInt32.ofNat worker.val) buf)
    (sent : udpOutput uid buf = some datagram) :
    receiveInput (buffer.receive datagram) (bytesRecvd datagram) =
      .input worker (uid.take publicKeySize) buf := by
  obtain ⟨⟨rest, split⟩, header, mtu⟩ := segment
  have size : publicKeySize = 64 ∧ networkBufSize = 16384 := ⟨rfl, rfl⟩
  rw [udpOutput] at sent
  split at sent
  · cases sent
  · next known =>
    cases sent
    have length : (uid.take publicKeySize).length = publicKeySize :=
      List.length_take_of_le (Nat.le_of_not_lt known)
    generalize uid.take publicKeySize = uid at length ⊢
    have whole : (3 :: (uid ++ buf)).length = buf.length + 65 := by
      rw [List.length_cons, List.length_append, length]
      omega
    have holds : 3 :: (uid ++ buf) <+: (buffer.receive (3 :: (uid ++ buf))).bytes :=
      ⟨_, (buffer.receive_bytes (by omega)).symm⟩
    have received : bytesRecvd (3 :: (uid ++ buf)) = buf.length + 65 := by
      rw [bytesRecvd, whole]
      omega
    have fields : (buffer.receive (3 :: (uid ++ buf))).uid = uid := by
      rw [uid_eq holds (by omega)]
      exact @Bytes.slice_append [3] _ _ _ buf rfl length
    have data_ : Bytes.slice (buffer.receive (3 :: (uid ++ buf))).cStr (1 + publicKeySize)
        (buf.length + 65 - 1 - publicKeySize) = buf := by
      rw [slice_cStr holds (by omega)]
      have before : ([3] ++ uid).length = 1 + publicKeySize := by
        rw [List.length_append, length, List.length_singleton]
      have field := Bytes.slice_append [] before (show buf.length =
        buf.length + 65 - 1 - publicKeySize by omega)
      rwa [List.append_nil] at field
    have index : (buffer.receive (3 :: (uid ++ buf))).workerIndex.toNat = worker.val := by
      have before : ([3] ++ uid).length = publicKeySize + 1 := by
        rw [List.length_append, length, List.length_singleton]
        omega
      have two : ((wordBytes (UInt32.ofNat worker.val)).take 2).length = 2 := by
        rw [List.length_take, length_wordBytes]
        rfl
      have field := Bytes.slice_append ((wordBytes (UInt32.ofNat worker.val)).drop 2 ++ rest)
        before two
      rw [List.append_assoc, ← List.append_assoc (List.take 2 _), List.take_append_drop, split,
        List.append_assoc] at field
      rw [Buffer.workerIndex, slice_cStr holds (by omega)]
      exact (congrArg (fun bytes => (UInt16.ofNat (Bytes.toNat bytes)).toNat) field).trans
        (workerIndex_conv worker)
    rw [receiveInput, received, dif_pos (by rw [index]; exact worker.isLt), fields, data_]
    congr

/-- Both handlers make KCP input of it. -/
theorem handler_udpOutput (side : Side) (heap : Heap) (buffer : Buffer)
    (segment : Segment (UInt32.ofNat worker.val) buf)
    (sent : udpOutput uid buf = some datagram) :
    side.handler heap (buffer.receive datagram) (bytesRecvd datagram) =
      .ok ⟨.input worker (uid.take publicKeySize) buf, true⟩ := by
  have input := receiveInput_udpOutput buffer segment sent
  have size : publicKeySize = 64 ∧ networkBufSize = 16384 ∧ ikcpOverhead = 89 := ⟨rfl, rfl, rfl⟩
  have bounds := segment.header
  have mtu := segment.mtu
  rw [udpOutput] at sent
  split at sent
  · cases sent
  · next known =>
    cases sent
    have length : (uid.take publicKeySize).length = publicKeySize :=
      List.length_take_of_le (Nat.le_of_not_lt known)
    have whole : (3 :: (uid.take publicKeySize ++ buf)).length = buf.length + 65 := by
      rw [List.length_cons, List.length_append, length]
      omega
    have type : (buffer.receive (3 :: (uid.take publicKeySize ++ buf))).packetType = 3 :=
      packetType_eq ⟨_, (buffer.receive_bytes (by omega)).symm⟩ (List.cons_ne_nil _ _)
    have long : ikcpOverhead ≤ bytesRecvd (3 :: (uid.take publicKeySize ++ buf)) := by
      rw [bytesRecvd, whole]
      omega
    have client : KcpSessionC.startRead2 heap
        (buffer.receive (3 :: (uid.take publicKeySize ++ buf)))
        (bytesRecvd (3 :: (uid.take publicKeySize ++ buf))) =
        .ok ⟨.input worker (uid.take publicKeySize) buf, true⟩ := by
      rw [KcpSessionC.startRead2, if_pos ⟨type, long⟩, input]
    cases side with
    | client => exact client
    | server =>
        have hello : ¬((buffer.receive (3 :: (uid.take publicKeySize ++ buf))).packetType = 1 ∧
            bytesRecvd (3 :: (uid.take publicKeySize ++ buf)) = 1) := by
          rw [type]
          rintro ⟨other, -⟩
          exact absurd other (by decide)
        have reply : (buffer.receive (3 :: (uid.take publicKeySize ++ buf))).packetType ≠ 2 := by
          rw [type]
          decide
        exact (startReceive_eq heap hello reply).trans client

theorem receiveMessage_input {heap : Heap} {buffer : Buffer} {bytesRecvd : Nat}
    {handled : Handled} {workerIndex : Worker} {data_ : List UInt8}
    (handles : receiveMessage heap buffer bytesRecvd = .ok handled) :
    handled.action ≠ .input workerIndex uid data_ := by
  rw [receiveMessage_eq] at handles
  split at handles
  · cases handles
    exact Action.noConfusion
  · split at handles
    · cases handles
    · cases handles
      exact Action.noConfusion

/-- KCP input is made of datagrams of type 3 alone, and not of short ones. -/
theorem handler_type {side : Side} {heap : Heap} {buffer : Buffer} {bytesRecvd : Nat}
    {handled : Handled} {workerIndex : Worker} {data_ : List UInt8}
    (handles : side.handler heap buffer bytesRecvd = .ok handled)
    (input : handled.action = .input workerIndex uid data_) :
    buffer.packetType = 3 ∧ ikcpOverhead ≤ bytesRecvd := by
  have client (handles : KcpSessionC.startRead2 heap buffer bytesRecvd = .ok handled) :
      buffer.packetType = 3 ∧ ikcpOverhead ≤ bytesRecvd := by
    rw [KcpSessionC.startRead2] at handles
    split at handles
    · next type => exact type
    · split at handles
      · exact absurd input (receiveMessage_input handles)
      · cases handles
        cases input
  cases side with
  | client => exact client handles
  | server =>
      by_cases hello : buffer.packetType = 1 ∧ bytesRecvd = 1
      · rw [Side.handler, KcpServerImpl.startReceive, if_pos hello] at handles
        cases handles
        cases input
      · by_cases reply : buffer.packetType = 2
        · rw [Side.handler, KcpServerImpl.startReceive, if_neg hello, if_pos reply] at handles
          cases handles
          cases input
        · rw [Side.handler, startReceive_eq heap hello reply] at handles
          exact client handles

theorem packetType_receive (buffer : Buffer) (nonempty : datagram ≠ []) :
    (buffer.receive datagram).packetType = datagram.headD 0 := by
  cases datagram with
  | nil => exact absurd rfl nonempty
  | cons type datagram => rfl

theorem handler_input {side : Side} {heap : Heap} {buffer : Buffer} {handled : Handled}
    {workerIndex : Worker} {data_ : List UInt8}
    (handles : side.handler heap (buffer.receive datagram) (bytesRecvd datagram) = .ok handled)
    (input : handled.action = .input workerIndex uid data_) : datagram.headD 0 = 3 := by
  obtain ⟨type, long⟩ := handler_type handles input
  rw [← packetType_receive buffer, type]
  rintro rfl
  exact absurd long (by decide)

end Datagram

/-! ## Clients and a server -/

/-- A server, the clients of its sessions and the network between them. `posted` is what its
handlers have posted, `given` what its sessions have been given of it and `inputs` what
`ikcp_input` of the clients has been given; `up` and `down` are the datagrams sent to the
server and to an endpoint, and `output` and `outputC` what the control blocks have put
out. -/
structure Traffic (ι κ : Type) where
  server : KcpServer ι
  m_uid : ι → Uid
  receivers : Receivers
  posted : List Action
  given : ι → Given
  buffers : κ → Buffer
  inputs : κ → List (List UInt8)
  up : List (List UInt8)
  down : List (Endpoint × List UInt8)
  output : ι → List (List UInt8)
  outputC : κ → List (List UInt8)

namespace Traffic

variable {ι κ : Type}

def fresh : Traffic ι κ where
  server := .fresh
  m_uid _ := []
  receivers := .start .server
  posted := []
  given _ := .fresh
  buffers _ := .fresh
  inputs _ := []
  up := []
  down := []
  output _ := []
  outputC _ := []

/-- What happens on the server, to its sessions or to clients: a control block puts out a
datagram, another one is sent, or one that has been sent arrives; a task that a handler has
posted runs. -/
inductive Event (ι κ : Type) where
  | server (event : KcpServer.Event ι)
  | output (session : ι) (buf : List UInt8)
  | send (session : ι) (datagram : List UInt8)
  | outputC (client : κ) (buf : List UInt8)
  | sendC (datagram : List UInt8)
  | arrive (index : Nat) (datagram : List UInt8)
  | run (index : Nat) (milliSeconds : UInt64)
  | arriveC (client : κ) (datagram : List UInt8)
  deriving DecidableEq, Repr

/-- What a handler posts. -/
def actions : Except Fault Handled → List Action
  | .ok handled => [handled.action]
  | .error _ => []

/-- The bytes for `ikcp_input`. -/
def inputOf : Action → Option (List UInt8)
  | .input _ _ data_ => some data_
  | _ => none

variable (table : ι → Identity) (clients : κ → Identity) (heap : Heap)

/-- A reply that is accepted sets the uid of its session. -/
def learn [DecidableEq ι] (t : Traffic ι κ) : KcpServer.Event ι → ι → Uid
  | .reply endpoint true =>
      match t.server.preSessions endpoint with
      | none => t.m_uid
      | some session => Function.update t.m_uid session (table session).uid
  | _ => t.m_uid

/-- The network delivers what has been sent, as often and in what order it likes. -/
def system [DecidableEq ι] [DecidableEq κ] : Transition (Traffic ι κ) (Event ι κ) where
  initial t := t = fresh
  step t event next :=
    match event with
    | .server event => ∃ server, t.server.step table event = some server ∧
        next = { t with server := server, m_uid := t.learn table event }
    | .output session buf => next = { t with
        output := Function.update t.output session (t.output session ++ [buf])
        down := t.down ++ ((udpOutput (t.m_uid session) buf).map fun datagram =>
          ((table session).endpoint, datagram)).toList }
    | .send session datagram => next = { t with
        down := t.down ++ [((table session).endpoint, datagram)] }
    | .outputC client buf => next = { t with
        outputC := Function.update t.outputC client (t.outputC client ++ [buf])
        up := t.up ++ (udpOutput (clients client).uid buf).toList }
    | .sendC datagram => next = { t with up := t.up ++ [datagram] }
    | .arrive index datagram => datagram ∈ t.up ∧ ∃ buffer receivers,
        t.receivers[index]? = some buffer ∧
        Receivers.step .server heap t.receivers (index, datagram) = some receivers ∧
        next = { t with
          receivers := receivers
          posted := t.posted ++ actions
            (Side.server.handler heap (buffer.receive datagram) (bytesRecvd datagram)) }
    | .run index milliSeconds => ∃ action, t.posted[index]? = some action ∧
        next = { t with
          posted := t.posted.eraseIdx index
          given := t.server.deliver milliSeconds t.given action }
    | .arriveC client datagram => ((clients client).endpoint, datagram) ∈ t.down ∧
        next = { t with
          buffers := Function.update t.buffers client ((t.buffers client).receive datagram)
          inputs := Function.update t.inputs client (t.inputs client ++
            (actions (Side.client.handler heap ((t.buffers client).receive datagram)
              (bytesRecvd datagram))).filterMap inputOf) }

/-- Control blocks put out segments of their conversation, and nothing else that is sent
starts like them. -/
def Typed (_ : Traffic ι κ) : Event ι κ → Prop
  | .output session buf => Segment (table session).m_conv buf
  | .outputC client buf => Segment (clients client).m_conv buf
  | .send _ datagram | .sendC datagram => datagram.headD 0 ≠ 3
  | _ => True

/-! ## Every run -/

variable {table clients heap} {t next : Traffic ι κ}

/-- Bytes that the control block of a client with some uid and worker has put out. -/
def FromClient (clients : κ → Identity) (t : Traffic ι κ) (worker : Worker) (uid : Uid)
    (data_ : List UInt8) : Prop :=
  ∃ client, (clients client).worker = worker ∧ (clients client).uid = uid ∧
    data_ ∈ t.outputC client

/-- Bytes that the control block of a session of some endpoint has put out. -/
def FromSession (table : ι → Identity) (t : Traffic ι κ) (endpoint : Endpoint)
    (data_ : List UInt8) : Prop :=
  ∃ session, (table session).endpoint = endpoint ∧ data_ ∈ t.output session

/-- Everything under way can be traced back to a control block. -/
structure Traced [DecidableEq ι] (table : ι → Identity) (clients : κ → Identity)
    (t : Traffic ι κ) : Prop where
  server : (KcpServer.system table).Reachable t.server
  up : ∀ datagram ∈ t.up, datagram.headD 0 = 3 → ∃ client buf,
    Segment (clients client).m_conv buf ∧ buf ∈ t.outputC client ∧
      udpOutput (clients client).uid buf = some datagram
  posted : ∀ workerIndex uid data_, .input workerIndex uid data_ ∈ t.posted →
    FromClient clients t workerIndex uid data_
  given : ∀ session, ∀ data_ ∈ (t.given session).inputs,
    FromClient clients t (table session).worker (table session).uid data_
  down : ∀ entry ∈ t.down, entry.2.headD 0 = 3 → ∃ session uid buf,
    (table session).endpoint = entry.1 ∧ Segment (table session).m_conv buf ∧
      buf ∈ t.output session ∧ udpOutput uid buf = some entry.2
  inputs : ∀ client, ∀ data_ ∈ t.inputs client,
    FromSession table t (clients client).endpoint data_

theorem FromClient.mono {worker : Worker} {uid : Uid} {data_ : List UInt8}
    (origin : FromClient clients t worker uid data_)
    (more : ∀ client, t.outputC client ⊆ next.outputC client) :
    FromClient clients next worker uid data_ := by
  obtain ⟨client, home, name, member⟩ := origin
  exact ⟨client, home, name, more client member⟩

theorem FromSession.mono {endpoint : Endpoint} {data_ : List UInt8}
    (origin : FromSession table t endpoint data_)
    (more : ∀ session, t.output session ⊆ next.output session) :
    FromSession table next endpoint data_ := by
  obtain ⟨session, place, member⟩ := origin
  exact ⟨session, place, more session member⟩

/-- A record of outputs grows. -/
theorem subset_update {α : Type} [DecidableEq α] (outputs : α → List (List UInt8)) (one other : α)
    (buf : List UInt8) :
    outputs other ⊆ Function.update outputs one (outputs one ++ [buf]) other := by
  by_cases same : other = one
  · subst same
    rw [Function.update_self]
    exact List.subset_append_left _ _
  · rw [Function.update_of_ne same]
    exact List.Subset.refl _

theorem mem_actions {result : Except Fault Handled} {action : Action} :
    action ∈ actions result ↔ ∃ handled, result = .ok handled ∧ handled.action = action := by
  cases result with
  | error fault => simp [actions]
  | ok handled => simp [actions, eq_comm]

section Step

variable [DecidableEq ι] {buffer : Buffer} {datagram uid data_ : List UInt8}
variable {workerIndex : Worker}

/-- The server makes KCP input only of what a client has put out. -/
theorem Traced.arrive (traced : Traced table clients t)
    (sized : ∀ client, (clients client).uid.length = publicKeySize) (sent : datagram ∈ t.up)
    (posted : .input workerIndex uid data_ ∈ actions
      (Side.server.handler heap (buffer.receive datagram) (bytesRecvd datagram))) :
    FromClient clients t workerIndex uid data_ := by
  obtain ⟨handled, handles, input⟩ := mem_actions.mp posted
  have type := handler_input handles input
  obtain ⟨client, buf, segment, put, output⟩ := traced.up datagram sent type
  have result := handler_udpOutput .server heap buffer segment output
  cases result.symm.trans handles
  cases input
  exact ⟨client, rfl, (List.take_of_length_le (Nat.le_of_eq (sized client))).symm, put⟩

/-- A client gets only what a session of its endpoint has put out. -/
theorem Traced.arriveC (traced : Traced table clients t) {endpoint : Endpoint}
    (sent : (endpoint, datagram) ∈ t.down)
    (member : data_ ∈ (actions (Side.client.handler heap (buffer.receive datagram)
      (bytesRecvd datagram))).filterMap inputOf) : FromSession table t endpoint data_ := by
  obtain ⟨action, posted, input⟩ := List.mem_filterMap.mp member
  obtain ⟨handled, handles, same⟩ := mem_actions.mp posted
  subst same
  cases handled with
  | mk action rearmed =>
      cases action with
      | input workerIndex uid data_ =>
          cases input
          obtain ⟨session, uid, buf, place, segment, put, output⟩ :=
            traced.down _ sent (handler_input handles rfl)
          have result := handler_udpOutput .client heap buffer segment output
          cases result.symm.trans handles
          exact ⟨session, place, put⟩
      | hello => cases input
      | reply data_ => cases input
      | message uid recvMsg => cases input
      | nothing => cases input

/-- A task gives KCP input to the session that runs with its uid on its worker. -/
theorem Traced.run (traced : Traced table clients t) {action : Action} (milliSeconds : UInt64)
    (posted : action ∈ t.posted) (session : ι)
    (member : data_ ∈ (t.server.deliver milliSeconds t.given action session).inputs) :
    FromClient clients t (table session).worker (table session).uid data_ := by
  cases action with
  | input workerIndex uid bytes =>
      rw [KcpServer.deliver] at member
      cases found : t.server.runningSessions workerIndex uid with
      | none =>
          rw [found] at member
          exact traced.given session data_ member
      | some running =>
          rw [found] at member
          dsimp only at member
          by_cases same : session = running
          · subst same
            rw [Function.update_self, Given.input] at member
            rcases List.mem_append.mp member with before | new
            · exact traced.given session data_ before
            · cases List.mem_singleton.mp new
              obtain ⟨home, name⟩ := (KcpServer.reachable_housed traced.server).running found
              rw [home, name]
              exact traced.posted workerIndex uid data_ posted
          · rw [Function.update_of_ne same] at member
            exact traced.given session data_ member
  | message uid recvMsg =>
      rw [KcpServer.deliver] at member
      cases found : t.server.sessions uid with
      | none =>
          rw [found] at member
          exact traced.given session data_ member
      | some registered =>
          rw [found] at member
          dsimp only at member
          by_cases same : session = registered
          · subst same
            rw [Function.update_self] at member
            exact traced.given session data_ member
          · rw [Function.update_of_ne same] at member
            exact traced.given session data_ member
  | hello => exact traced.given session data_ member
  | reply bytes => exact traced.given session data_ member
  | nothing => exact traced.given session data_ member

/-- A control block of a session has put out a segment. -/
theorem Traced.output (traced : Traced table clients t) {session : ι} {buf : List UInt8}
    (segment : Segment (table session).m_conv buf) :
    Traced table clients { t with
      output := Function.update t.output session (t.output session ++ [buf])
      down := t.down ++ ((udpOutput (t.m_uid session) buf).map fun datagram =>
        ((table session).endpoint, datagram)).toList } := by
  have more := fun other => subset_update t.output session other buf
  refine ⟨traced.server, traced.up, traced.posted, traced.given, ?_, fun client data_ member =>
    (traced.inputs client data_ member).mono more⟩
  refine List.forall_mem_append.mpr ⟨fun entry member type => ?_, fun entry member type => ?_⟩
  · obtain ⟨other, uid, buf, place, segment, put, output⟩ := traced.down entry member type
    exact ⟨other, uid, buf, place, segment, more other put, output⟩
  · rw [Option.mem_toList, Option.map_eq_some_iff] at member
    obtain ⟨datagram, output, rfl⟩ := member
    refine ⟨session, t.m_uid session, buf, rfl, segment, ?_, output⟩
    dsimp only
    rw [Function.update_self]
    exact List.mem_append_right _ List.mem_cons_self

end Step

section Runs

variable [DecidableEq ι] [DecidableEq κ]

/-- A control block of a client has put out a segment. -/
theorem Traced.outputC (traced : Traced table clients t) {client : κ} {buf : List UInt8}
    (segment : Segment (clients client).m_conv buf) :
    Traced table clients { t with
      outputC := Function.update t.outputC client (t.outputC client ++ [buf])
      up := t.up ++ (udpOutput (clients client).uid buf).toList } := by
  have more := fun other => subset_update t.outputC client other buf
  refine ⟨traced.server, ?_, fun workerIndex uid data_ member =>
    (traced.posted workerIndex uid data_ member).mono more, fun session data_ member =>
    (traced.given session data_ member).mono more, traced.down, traced.inputs⟩
  refine List.forall_mem_append.mpr ⟨fun datagram member type => ?_, fun datagram member type => ?_⟩
  · obtain ⟨other, buf, segment, put, output⟩ := traced.up datagram member type
    exact ⟨other, buf, segment, more other put, output⟩
  · refine ⟨client, buf, segment, ?_, Option.mem_toList.mp member⟩
    dsimp only
    rw [Function.update_self]
    exact List.mem_append_right _ List.mem_cons_self

theorem Traced.step {event : Event ι κ}
    (sized : ∀ client, (clients client).uid.length = publicKeySize)
    (traced : Traced table clients t) (step : (system table clients heap).step t event next)
    (typed : Typed table clients t event) : Traced table clients next := by
  cases event with
  | server event =>
      obtain ⟨server, taken, rfl⟩ := step
      exact ⟨.step traced.server taken, traced.up, traced.posted, traced.given, traced.down,
        traced.inputs⟩
  | output session buf =>
      cases step
      exact traced.output typed
  | send session datagram =>
      cases step
      refine ⟨traced.server, traced.up, traced.posted, traced.given, ?_, traced.inputs⟩
      exact List.forall_mem_append.mpr ⟨traced.down,
        List.forall_mem_singleton.mpr fun type => absurd type typed⟩
  | outputC client buf =>
      cases step
      exact traced.outputC typed
  | sendC datagram =>
      cases step
      refine ⟨traced.server, ?_, traced.posted, traced.given, traced.down, traced.inputs⟩
      exact List.forall_mem_append.mpr ⟨traced.up,
        List.forall_mem_singleton.mpr fun type => absurd type typed⟩
  | arrive index datagram =>
      obtain ⟨sent, buffer, receivers, -, -, rfl⟩ := step
      refine ⟨traced.server, traced.up, fun workerIndex uid data_ member => ?_, traced.given,
        traced.down, traced.inputs⟩
      rcases List.mem_append.mp member with before | new
      · exact traced.posted workerIndex uid data_ before
      · exact traced.arrive sized sent new
  | run index milliSeconds =>
      obtain ⟨action, found, rfl⟩ := step
      exact ⟨traced.server, traced.up, fun workerIndex uid data_ member =>
        traced.posted workerIndex uid data_ (List.mem_of_mem_eraseIdx member),
        fun session data_ member =>
          traced.run milliSeconds (List.mem_of_getElem? found) session member,
        traced.down, traced.inputs⟩
  | arriveC client datagram =>
      obtain ⟨sent, rfl⟩ := step
      refine ⟨traced.server, traced.up, traced.posted, traced.given, traced.down,
        fun other data_ member => ?_⟩
      by_cases same : other = client
      · subst same
        dsimp only at member
        rw [Function.update_self] at member
        rcases List.mem_append.mp member with before | new
        · exact traced.inputs other data_ before
        · exact traced.arriveC sent new
      · dsimp only at member
        rw [Function.update_of_ne same] at member
        exact traced.inputs other data_ member

end Runs

section OneSegment

open KcpServer (client client_running)

/-- A segment of the first conversation. -/
def oneSegment : List UInt8 := List.replicate 24 0

end OneSegment

end Traffic

end Nicenet.Kcp
