import Nicenet.Library.Transition
import Nicenet.Message

/-!
# The send queue of a TCP session

A message to be sent is swapped into a task of the session's service; the task
appends it to `m_SendList` and starts a write unless one is outstanding. A write
either batches messages, which leave the list before it starts, or sends the
first message, which leaves the list when it has completed. The completion
starts the next write.
-/

namespace Nicenet

open Library

/-- The `getSize()` bytes behind `m_buff`. -/
def Message.sized (msg : Message) : List UInt8 := msg.bytes.take msg.getSize.toNat

def Message.isNull (msg : Message) : Bool := msg.buff = .null

/-- A message owns nothing, or a buffer of exactly `getSize()` bytes. -/
def Message.Owned (msg : Message) : Prop :=
  match msg.buff with
  | .null => True
  | .writePoint => False
  | .heap memory =>
      (readWord memory).toNat = memory.length ∧ 6 ≤ memory.length ∧
        memory.length ≤ 2 ^ 31

/-- An outstanding `async_write`, by the branch of `doSend` that started it. -/
inductive Write where
  | batch
  | single
  deriving DecidableEq, Repr

/-- The sending half of a session. `tasks` are the messages of the tasks that its
service has not run yet. `posted` and `handed` only record the run: the messages
given to `doSend(Message&)` and the buffers given to `async_write`. -/
structure Sender where
  sendList : List Message
  isSending : Bool
  writes : List Write
  tasks : List Message
  posted : List Message
  handed : List (List UInt8)
  deriving DecidableEq, Repr

namespace Sender

/-- A session that has just been constructed. -/
def fresh : Sender := ⟨[], false, [], [], [], []⟩

/-- The loop that fills `data2`: the bytes copied and the messages left. -/
def batch : UInt32 → List Message → List UInt8 × List Message
  | _, [] => ([], [])
  | size_, msg :: rest =>
      if size_ + msg.getSize > UInt32.ofNat networkBufSize then
        ([], msg :: rest)
      else
        let (data2, left) := batch (size_ + msg.getSize) rest
        (msg.sized ++ data2, left)

/-- `doSend()`. -/
def doSend (s : Sender) : Sender :=
  match s.sendList.dropWhile Message.isNull with
  | [] => { s with sendList := [], isSending := false }
  | front :: rest =>
      if 0 < rest.length ∧ front.getSize ≤ UInt32.ofNat networkBufSize then
        let (data2, left) := batch 0 (front :: rest)
        { s with
          sendList := left
          isSending := true
          writes := s.writes ++ [.batch]
          handed := s.handed ++ [data2] }
      else
        { s with
          sendList := front :: rest
          isSending := true
          writes := s.writes ++ [.single]
          handed := s.handed ++ [front.sized] }

/-- `doSend(Message&)`: the message is swapped into a task. -/
def post (s : Sender) (msg : Message) : Sender :=
  { s with
    tasks := s.tasks ++ [(Message.empty.swap msg).1]
    posted := s.posted ++ [msg] }

/-- The service runs its next task. -/
def run (s : Sender) : Option Sender :=
  match s.tasks with
  | [] => none
  | msg_ :: tasks =>
      let s := { s with
        tasks := tasks
        sendList := s.sendList ++ [(Message.empty.swap msg_).1] }
      some (if s.isSending then s else s.doSend)

/-- The end of both completion handlers. -/
def finish (s : Sender) : Sender :=
  if s.sendList.length > 0 then s.doSend else { s with isSending := false }

/-- An outstanding write completes in full. -/
def complete (s : Sender) (index : Nat) : Option Sender :=
  match s.writes[index]? with
  | none => none
  | some .batch => some { s with writes := s.writes.eraseIdx index }.finish
  | some .single =>
      some { s with
        writes := s.writes.eraseIdx index
        sendList := s.sendList.tail }.finish

inductive Event where
  | post (msg : Message)
  | run
  | complete (index : Nat)
  deriving DecidableEq, Repr

/-- Posts of owned messages, tasks and completions, in any order. -/
def system : Transition Sender Event where
  initial s := s = fresh
  step s event next :=
    match event with
    | .post msg => msg.Owned ∧ next = s.post msg
    | .run => s.run = some next
    | .complete index => s.complete index = some next

end Sender

end Nicenet
