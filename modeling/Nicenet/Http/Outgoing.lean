import Nicenet.Library.Transition
import Nicenet.Http.Response

/-!
# The output of a connection

A destroyed response posts its text to the service of the connection; the task puts
it behind `m_sendBuffers` and starts a write unless one is outstanding. A completed
write takes what was sent off the front buffer and starts the next.

The responses are of any type, with `write` for the text they post.
-/

namespace Nicenet.Http

open Library

/-- The sending half of a connection. `tasks` are the responses whose tasks the
service has not run yet, `writes` the buffers of outstanding writes. `posted`,
`pushed` and `wire` only record the run: the responses destroyed, those put into
`m_sendBuffers` and the bytes sent. -/
structure Outgoing (α : Type) where
  tasks : List α
  sendBuffers : List Str
  isSending : Bool
  writes : List Str
  posted : List α
  pushed : List α
  wire : Str
  deriving DecidableEq, Repr

namespace Outgoing

variable {α : Type} (write : α → Str)

/-- A connection that has just been constructed. -/
def fresh : Outgoing α := ⟨[], [], false, [], [], [], []⟩

/-- `doSend()`. -/
def doSend (s : Outgoing α) : Outgoing α :=
  match s.sendBuffers with
  | [] => { s with isSending := false }
  | front :: _ => { s with isSending := true, writes := s.writes ++ [front] }

/-- `~HttpResponse()`. -/
def post (s : Outgoing α) (response : α) : Outgoing α :=
  { s with tasks := s.tasks ++ [response], posted := s.posted ++ [response] }

/-- The service runs its next task. -/
def push (s : Outgoing α) : Option (Outgoing α) :=
  match s.tasks with
  | [] => none
  | response :: tasks =>
      let s := { s with
        tasks := tasks
        sendBuffers := s.sendBuffers ++ [write response]
        pushed := s.pushed ++ [response] }
      some (if s.isSending then s else s.doSend)

/-- An outstanding write completes with the first `sentSize` bytes sent. -/
def complete (s : Outgoing α) (index sentSize : Nat) : Option (Outgoing α) :=
  match s.writes[index]? with
  | none => none
  | some buffer =>
      let s := { s with
        writes := s.writes.eraseIdx index
        wire := s.wire ++ buffer.take sentSize }
      if buffer.length < sentSize then none
      else if sentSize < buffer.length then
        some { s with
          sendBuffers := s.sendBuffers.modifyHead fun front =>
            (front.drop sentSize).take (buffer.length - sentSize) }.doSend
      else
        let s := { s with sendBuffers := s.sendBuffers.tail }
        some (if s.sendBuffers.length > 0 then s.doSend else { s with isSending := false })

inductive Event (α : Type) where
  | post (response : α)
  | push
  | complete (index sentSize : Nat)
  deriving DecidableEq, Repr

def step (s : Outgoing α) : Event α → Option (Outgoing α)
  | .post response => some (s.post response)
  | .push => s.push write
  | .complete index sentSize => s.complete index sentSize

/-- Responses are destroyed, tasks run and writes complete, in any order. -/
def system : Transition (Outgoing α) (Event α) := .deterministic fresh (step write)

/-- Either nothing waits, or the front buffer alone is being written. -/
def Steady (s : Outgoing α) : Prop :=
  (s.sendBuffers = [] ∧ s.writes = [] ∧ s.isSending = false) ∨
    ∃ front rest, s.sendBuffers = front :: rest ∧ s.writes = [front] ∧ s.isSending = true

/-- What holds between two tasks of the service: every destroyed response has been
pushed or waits in a task, and every pushed text has been sent or waits in the
buffers, in this order. -/
structure Sound (s : Outgoing α) : Prop where
  steady : s.Steady
  ordered : s.pushed ++ s.tasks = s.posted
  accounted : s.wire ++ s.sendBuffers.flatten = s.pushed.flatMap write

variable {write} {s next : Outgoing α}

theorem doSend_steady (idle : s.writes = []) : s.doSend.Steady := by
  rw [doSend]
  split
  · next none => exact .inl ⟨none, idle, rfl⟩
  · next front rest some => exact .inr ⟨front, rest, some, by rw [idle]; rfl, rfl⟩

@[simp] theorem doSend_sendBuffers : s.doSend.sendBuffers = s.sendBuffers := by
  rw [doSend]
  split <;> simp [*]

@[simp] theorem doSend_wire : s.doSend.wire = s.wire := by
  rw [doSend]
  split <;> rfl

@[simp] theorem doSend_pushed : s.doSend.pushed = s.pushed := by
  rw [doSend]
  split <;> rfl

@[simp] theorem doSend_posted : s.doSend.posted = s.posted := by
  rw [doSend]
  split <;> rfl

@[simp] theorem doSend_tasks : s.doSend.tasks = s.tasks := by
  rw [doSend]
  split <;> rfl

theorem doSend_sound (idle : s.writes = []) (ordered : s.pushed ++ s.tasks = s.posted)
    (accounted : s.wire ++ s.sendBuffers.flatten = s.pushed.flatMap write) :
    s.doSend.Sound write :=
  ⟨doSend_steady idle, by simpa using ordered, by simpa using accounted⟩

theorem push_sound (sound : s.Sound write) (pushed : s.push write = some next) :
    next.Sound write := by
  rw [push] at pushed
  split at pushed
  · cases pushed
  · next response tasks waiting =>
    cases pushed
    have ordered : s.pushed ++ [response] ++ tasks = s.posted := by
      rw [← sound.ordered, waiting, List.append_assoc, List.singleton_append]
    have accounted : s.wire ++ (s.sendBuffers ++ [write response]).flatten =
        (s.pushed ++ [response]).flatMap write := by
      rw [List.flatten_append, ← List.append_assoc, sound.accounted]
      simp
    rcases sound.steady with ⟨none, idle, notSending⟩ | ⟨front, rest, some, busy, sending⟩
    · simp only [notSending, Bool.false_eq_true, if_false]
      exact doSend_sound idle ordered accounted
    · simp only [sending, if_true]
      exact ⟨.inr ⟨front, rest ++ [write response], by simp [some], busy, rfl⟩,
        ordered, accounted⟩

theorem push_posted (pushed : s.push write = some next) : next.posted = s.posted := by
  rw [push] at pushed
  split at pushed
  · cases pushed
  · cases pushed
    split <;> simp

theorem complete_posted {index sentSize : Nat}
    (completed : s.complete index sentSize = some next) : next.posted = s.posted := by
  simp only [complete] at completed
  repeat' split at completed
  all_goals cases completed
  all_goals simp

theorem complete_sound {index sentSize : Nat} (sound : s.Sound write)
    (completed : s.complete index sentSize = some next) : next.Sound write := by
  rcases sound.steady with ⟨_, idle, _⟩ | ⟨front, rest, waiting, busy, sending⟩
  · simp [complete, idle] at completed
  · have accounted : s.wire ++ (front ++ rest.flatten) = s.pushed.flatMap write := by
      have accounted := sound.accounted
      rw [waiting] at accounted
      exact accounted
    have only : index = 0 := by
      cases index with
      | zero => rfl
      | succ index => simp [complete, busy] at completed
    subst only
    simp only [complete, busy, waiting, List.getElem?_cons_zero, List.eraseIdx_zero,
      List.tail_cons] at completed
    split at completed
    · cases completed
    split at completed
    · next partially =>
      cases completed
      have unsent : (front.drop sentSize).take (front.length - sentSize) =
          front.drop sentSize := List.take_of_length_le (by simp)
      have parts : front.take sentSize ++ (front.drop sentSize ++ rest.flatten) =
          front ++ rest.flatten := by
        rw [← List.append_assoc, List.take_append_drop]
      refine doSend_sound rfl sound.ordered ?_
      simp only [List.modifyHead_cons, List.flatten_cons, unsent]
      rw [List.append_assoc, parts, accounted]
    · next notMore notLess =>
      have whole : front.take sentSize = front :=
        List.take_of_length_le (Nat.not_lt.mp notLess)
      have sent : s.wire ++ front ++ rest.flatten = s.pushed.flatMap write := by
        rw [List.append_assoc, accounted]
      rw [whole] at completed
      cases completed
      split
      · exact doSend_sound rfl sound.ordered sent
      · next none =>
        have empty : rest = [] := by simpa using none
        exact ⟨.inl ⟨empty, rfl, rfl⟩, sound.ordered, sent⟩

theorem post_sound (sound : s.Sound write) (response : α) :
    (s.post response).Sound write := by
  refine ⟨sound.steady, ?_, sound.accounted⟩
  rw [post, ← sound.ordered, List.append_assoc]

theorem fresh_sound : (fresh : Outgoing α).Sound write :=
  ⟨.inl ⟨rfl, rfl, rfl⟩, rfl, rfl⟩

theorem step_sound {event : Event α} (sound : s.Sound write)
    (taken : s.step write event = some next) : next.Sound write := by
  cases event with
  | post response =>
      cases taken
      exact post_sound sound response
  | push => exact push_sound sound taken
  | complete index sentSize => exact complete_sound sound taken

theorem reachable_sound (reachable : (system write).Reachable s) : s.Sound write := by
  apply reachable.invariant
  · rintro s rfl
    exact fresh_sound
  · intro s event next sound taken
    exact step_sound sound taken

/-- Nothing is left to send. -/
def Idle (s : Outgoing α) : Prop := s.tasks = [] ∧ s.sendBuffers = []

/-- Once nothing is left, the texts have been sent in the order in which the
responses were destroyed. -/
theorem Sound.wire (sound : s.Sound write) (idle : s.Idle) :
    s.wire = s.posted.flatMap write := by
  have accounted := sound.accounted
  have ordered := sound.ordered
  rw [idle.2, List.flatten_nil, List.append_nil] at accounted
  rw [idle.1, List.append_nil] at ordered
  rw [accounted, ordered]

end Outgoing

end Nicenet.Http
