import Nicenet.Kcp.Datagram

/-!
# Receivers

The server waits for datagrams with one buffer for each worker, the client with one in
all. Whichever wait a datagram ends, its handler is to start the next one.
-/

namespace Nicenet.Kcp

open Library

/-- The receives that `accept` starts, or the one of `startRead`. -/
def Side.receives : Side → Nat
  | .server => workThreadCount
  | .client => 1

/-- The buffers of the outstanding receives. -/
abbrev Receivers := List Buffer

namespace Receivers

def start (side : Side) : Receivers := List.replicate side.receives .fresh

/-- A handler that faults does not come to its next `startReceive`. -/
def rearmed : Except Fault Handled → Bool
  | .ok handled => handled.rearmed
  | .error _ => false

/-- A datagram ends one of the receives. -/
def step (side : Side) (heap : Heap) (s : Receivers) :
    Nat × List UInt8 → Option Receivers
  | (index, datagram) =>
      match s[index]? with
      | none => none
      | some buffer =>
          let buffer := buffer.receive datagram
          if rearmed (side.handler heap buffer (bytesRecvd datagram)) then
            some (s.set index buffer)
          else some (s.eraseIdx index)

/-- A message longer than its uid whose length field is below what follows the uid, so
that the handler returns early, or above the size of the buffer. -/
def Stops (buffer : Buffer) (bytesRecvd : Nat) : Prop :=
  buffer.packetType = 4 ∧ 1 + publicKeySize < bytesRecvd ∧
    (buffer.len.toNat < bytesRecvd - 1 - publicKeySize ∨ networkBufSize < buffer.len.toNat)

instance (buffer : Buffer) (bytesRecvd : Nat) : Decidable (Stops buffer bytesRecvd) :=
  inferInstanceAs (Decidable (_ ∧ _ ∧ _))

/-- The datagram does not stop the receiver it comes to. -/
def Spared (s : Receivers) : Nat × List UInt8 → Prop
  | (index, datagram) => ∀ buffer, s[index]? = some buffer →
      ¬Stops (buffer.receive datagram) (bytesRecvd datagram)

/-- All exits of a handler but those two come to the next receive. -/
theorem rearmed_iff (side : Side) (heap : Heap) (buffer : Buffer) (bytesRecvd : Nat) :
    rearmed (side.handler heap buffer bytesRecvd) = true ↔ ¬Stops buffer bytesRecvd := by
  by_cases type : buffer.packetType = 4
  · rw [handler_message heap side type, receiveMessage_eq, Stops]
    split
    · split
      · simp [rearmed, *]
      · split <;> simp [rearmed, *]
    · simp [rearmed, *]
  · have other : ¬(buffer.packetType = 4 ∧ bytesRecvd > 1 + publicKeySize) :=
      fun message => type message.1
    refine iff_of_true ?_ fun stops => type stops.1
    cases side with
    | client =>
        rw [Side.handler, KcpSessionC.startRead2, if_neg other]
        split <;> rfl
    | server =>
        rw [Side.handler, KcpServerImpl.startReceive, if_neg other]
        split
        · rfl
        · split
          · rfl
          · split <;> rfl

variable {side : Side} {heap : Heap} {s next : Receivers} {event : Nat × List UInt8}

/-- A step keeps the number of receives, or it loses the one that the datagram came to. -/
theorem step_length (taken : step side heap s event = some next) :
    next.length ≤ s.length ∧ (next.length = s.length ↔ Spared s event) := by
  obtain ⟨index, datagram⟩ := event
  simp only [step] at taken
  split at taken
  · cases taken
  · next buffer found =>
    have inside : index < s.length := (List.getElem?_eq_some_iff.mp found).1
    have spared : Spared s (index, datagram) ↔
        ¬Stops (buffer.receive datagram) (bytesRecvd datagram) := by
      simp [Spared, found]
    rw [spared, ← rearmed_iff side heap]
    split at taken
    · next rearmed =>
      cases taken
      simp [rearmed]
    · next lost =>
      cases taken
      simp only [List.length_eraseIdx_of_lt inside, lost]
      exact ⟨by omega, iff_of_false (by omega) Bool.false_ne_true⟩

/-- At the end of a run all receives are outstanding exactly if no datagram of the run has
stopped the one it came to. -/
theorem outstanding_iff (side : Side) (heap : Heap) {events : List (Nat × List UInt8)}
    {last : Receivers}
    (taken : Transition.run (step side heap) (start side) events = some last) :
    last.length = side.receives ↔
      Transition.Along (step side heap) Spared (start side) events := by
  have all : (start side).length = side.receives := List.length_replicate
  rw [← all]
  exact (Transition.run_keeps_iff (fun _ _ _ taken => (step_length taken).1)
    (fun _ _ _ taken => (step_length taken).2) taken).2

/-- After a hello the server still has all its receives. -/
theorem outstanding_hello :
    ((start .server).set 0 (Buffer.fresh.receive [1])).length = workThreadCount :=
  (@outstanding_iff .server (.filled 0) [(0, [1])] _ rfl).mpr
    ⟨fun buffer found => by
      cases found
      decide +kernel, fun _ _ => trivial⟩

/-- A message that announces no bytes and holds one takes a receive from the server. -/
theorem outstanding_fails :
    ¬∀ (side : Side) (heap : Heap) (events : List (Nat × List UInt8)) (last : Receivers),
      Transition.run (step side heap) (start side) events = some last →
      last.length = side.receives := by
  intro every
  let datagram : List UInt8 := [4] ++ List.replicate 68 0 ++ [9]
  have all : (start .server).length = Side.server.receives := List.length_replicate
  obtain ⟨next, taken⟩ := Option.isSome_iff_exists.mp
    (show (step .server (.filled 0) (start .server) (0, datagram)).isSome by decide +kernel)
  have same := every .server (.filled 0) [(0, datagram)] next (by
    rw [Transition.run, taken]
    rfl)
  have spared := (step_length taken).2.mp (same.trans all.symm)
  exact spared .fresh rfl (by decide +kernel)

end Receivers

end Nicenet.Kcp
