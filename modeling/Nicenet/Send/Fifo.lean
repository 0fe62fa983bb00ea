import Nicenet.Send.Queue

/-!
# The send queue is a lossless FIFO

The invariant accounts for the posted messages by their buffers: those already
handed to a write, grouped as the writes took them, then those in `m_SendList`
that are not in flight, then those in tasks. `doSend_ordered` is the lemma about
starting a write; posts, tasks and completions follow from it.
-/

namespace Nicenet

open Library

/-- The buffers of the messages that have one. -/
def loads (list : List Message) : List (List UInt8) :=
  list.filterMap fun msg =>
    match msg.buff with
    | .heap memory => some memory
    | _ => none

theorem loads_append (front back : List Message) :
    loads (front ++ back) = loads front ++ loads back := List.filterMap_append

theorem loads_swap (msg : Message) : loads [(Message.empty.swap msg).1] = loads [msg] := rfl

theorem Message.Owned.swap {msg : Message} (owned : msg.Owned) :
    (Message.empty.swap msg).1.Owned := owned

/-- The bytes of an owned message are all of its buffer. -/
theorem sized_eq {msg : Message} (owned : msg.Owned) :
    msg.sized = (loads [msg]).flatten := by
  obtain ⟨buff, writePoint, readPoint⟩ := msg
  cases buff with
  | null => rfl
  | writePoint => exact owned.elim
  | heap memory =>
      have size : (readWord memory).toNat = memory.length := owned.1
      simp only [Message.sized, Message.bytes, Message.getSize_heap, size,
        List.take_length, loads, List.filterMap_cons, List.filterMap_nil,
        List.flatten_singleton]

/-- The buffers of owned messages start with their own length. -/
theorem loads_framed {list : List Message} (owned : ∀ msg ∈ list, msg.Owned) :
    ∀ frame ∈ loads list, 6 ≤ frame.length ∧ (readWord frame).toNat = frame.length := by
  intro frame member
  obtain ⟨msg, inside, load⟩ := List.mem_filterMap.mp member
  have mine := owned msg inside
  obtain ⟨buff, writePoint, readPoint⟩ := msg
  cases buff with
  | null => cases load
  | writePoint => exact mine.elim
  | heap memory =>
      cases load
      exact ⟨mine.2.1, mine.1⟩

theorem loads_null {msg : Message} (null : msg.isNull) : loads [msg] = [] := by
  obtain ⟨buff, writePoint, readPoint⟩ := msg
  simp only [Message.isNull, decide_eq_true_eq] at null
  subst null
  rfl

/-- Messages without a buffer carry nothing. -/
theorem loads_dropWhile (list : List Message) :
    loads (list.dropWhile Message.isNull) = loads list := by
  induction list with
  | nil => rfl
  | cons msg list ih =>
      by_cases null : msg.isNull
      · have split : loads (msg :: list) = loads [msg] ++ loads list :=
          loads_append [msg] list
        rw [List.dropWhile_cons_of_pos null, ih, split, loads_null null,
          List.nil_append]
      · rw [List.dropWhile_cons_of_neg null]

namespace Sender

/-- The batch is the buffers of the messages it takes off the list. -/
theorem batch_spec {list : List Message} (size_ : UInt32)
    (owned : ∀ msg ∈ list, msg.Owned) :
    ∃ sent, list = sent ++ (batch size_ list).2 ∧
      (batch size_ list).1 = (loads sent).flatten := by
  induction list generalizing size_ with
  | nil => exact ⟨[], rfl, rfl⟩
  | cons msg list ih =>
      rw [batch]
      split
      · exact ⟨[], rfl, rfl⟩
      · obtain ⟨sent, rest, data⟩ := ih (size_ + msg.getSize)
          fun other member => owned other (List.mem_cons_of_mem _ member)
        refine ⟨msg :: sent, ?_, ?_⟩
        · simp only [List.cons_append]
          rw [← rest]
        · have head := sized_eq (owned msg List.mem_cons_self)
          have split : loads (msg :: sent) = loads [msg] ++ loads sent :=
            loads_append [msg] sent
          simp only [data, head, split, List.flatten_append]

/-- The messages of `m_SendList` that are not in flight. -/
def unsent (s : Sender) : List Message :=
  if .single ∈ s.writes then s.sendList.tail else s.sendList

/-- Every posted buffer is handed over, waiting in the list or in a task, in this
order. -/
def Accounted (s : Sender) : Prop :=
  ∃ groups : List (List (List UInt8)), s.handed = groups.map List.flatten ∧
    groups.flatten ++ loads s.unsent ++ loads s.tasks = loads s.posted

/-- What holds between two tasks of the service. -/
structure Ordered (s : Sender) : Prop where
  owned : ∀ msg ∈ s.sendList, msg.Owned
  ownedTasks : ∀ msg ∈ s.tasks, msg.Owned
  flight : (s.writes = [] ∧ s.isSending = false ∧ s.sendList = []) ∨
    (s.writes = [.batch] ∧ s.isSending = true) ∨
    (s.writes = [.single] ∧ s.isSending = true ∧ s.sendList ≠ [])
  accounted : s.Accounted

/-- Starting a write takes the next buffers off the list. -/
theorem doSend_ordered {s : Sender} (owned : ∀ msg ∈ s.sendList, msg.Owned)
    (ownedTasks : ∀ msg ∈ s.tasks, msg.Owned) (idle : s.writes = [])
    (accounted : s.Accounted) : s.doSend.Ordered := by
  obtain ⟨groups, handed, account⟩ := accounted
  have waiting : s.unsent = s.sendList := by simp [unsent, idle]
  rw [waiting, ← loads_dropWhile] at account
  have ownedRest : ∀ msg ∈ s.sendList.dropWhile Message.isNull, msg.Owned :=
    fun msg member => owned msg ((List.dropWhile_sublist _).mem member)
  rw [doSend]
  generalize s.sendList.dropWhile Message.isNull = list at account ownedRest
  cases list with
  | nil =>
      refine ⟨fun _ member => absurd member List.not_mem_nil, ownedTasks,
        .inl ⟨idle, rfl, rfl⟩, groups, handed, ?_⟩
      simpa [unsent, idle] using account
  | cons front rest =>
      simp only
      split
      · obtain ⟨sent, taken, data⟩ := batch_spec 0 ownedRest
        refine ⟨fun msg member => ownedRest msg ?_, ownedTasks,
          .inr (.inl ⟨by simp [idle], rfl⟩), groups ++ [loads sent], ?_, ?_⟩
        · rw [taken]
          exact List.mem_append_right _ member
        · simp only [handed, data, List.map_append, List.map_cons, List.map_nil]
        · rw [taken, loads_append] at account
          simpa [unsent, idle] using account
      · have load := sized_eq (ownedRest front List.mem_cons_self)
        refine ⟨ownedRest, ownedTasks, .inr (.inr ⟨by simp [idle], rfl, by simp⟩),
          groups ++ [loads [front]], ?_, ?_⟩
        · simp only [handed, load, List.map_append, List.map_cons, List.map_nil]
        · have split : loads (front :: rest) = loads [front] ++ loads rest :=
            loads_append [front] rest
          rw [split] at account
          simpa [unsent, idle] using account

theorem post_ordered {s : Sender} {msg : Message} (ordered : s.Ordered)
    (owned : msg.Owned) : (s.post msg).Ordered := by
  obtain ⟨groups, handed, account⟩ := ordered.accounted
  refine ⟨ordered.owned, ?_, ordered.flight, groups, handed, ?_⟩
  · exact List.forall_mem_append.mpr
      ⟨ordered.ownedTasks, List.forall_mem_singleton.mpr owned.swap⟩
  · have same : (s.post msg).unsent = s.unsent := rfl
    rw [same]
    simp only [post, loads_append, loads_swap, ← account, List.append_assoc]

/-- A task puts its message behind the others that wait. -/
theorem unsent_append {s : Sender} (tasks : List Message) (msg : Message)
    (flight : .single ∈ s.writes → s.sendList ≠ []) :
    unsent { s with tasks := tasks, sendList := s.sendList ++ [msg] } =
      s.unsent ++ [msg] := by
  simp only [unsent]
  split
  · next single => rw [List.tail_append_of_ne_nil (flight single)]
  · rfl

theorem run_ordered {s next : Sender} (ordered : s.Ordered)
    (run : s.run = some next) : next.Ordered := by
  obtain ⟨groups, handed, account⟩ := ordered.accounted
  rw [Sender.run] at run
  generalize queue : s.tasks = list at run
  cases list with
  | nil => exact absurd run (by simp)
  | cons msg_ tasks =>
      have ownedTask : msg_.Owned := ordered.ownedTasks msg_ (by simp [queue])
      have ownedTasks : ∀ msg ∈ tasks, msg.Owned :=
        fun msg member => ordered.ownedTasks msg (by simp [queue, member])
      have owned : ∀ msg ∈ s.sendList ++ [(Message.empty.swap msg_).1], msg.Owned :=
        List.forall_mem_append.mpr
          ⟨ordered.owned, List.forall_mem_singleton.mpr ownedTask.swap⟩
      have flight : .single ∈ s.writes → s.sendList ≠ [] := by
        intro single
        rcases ordered.flight with ⟨idle, _⟩ | ⟨batch, _⟩ | ⟨_, _, some⟩
        · rw [idle] at single
          exact absurd single List.not_mem_nil
        · rw [batch] at single
          simp at single
        · exact some
      have accounted : Accounted { s with
          tasks := tasks
          sendList := s.sendList ++ [(Message.empty.swap msg_).1] } := by
        refine ⟨groups, handed, ?_⟩
        have split : loads s.tasks = loads [msg_] ++ loads tasks := by
          rw [queue]
          exact loads_append [msg_] tasks
        rw [unsent_append tasks _ flight, loads_append, loads_swap, ← account, split]
        simp only [List.append_assoc]
      simp only [Option.some.injEq] at run
      subst run
      rcases ordered.flight with ⟨idle, quiet, _⟩ | ⟨batch, busy⟩ | ⟨single, busy, _⟩
      · simp only [quiet, Bool.false_eq_true, ↓reduceIte]
        exact doSend_ordered owned ownedTasks idle accounted
      · simp only [busy, ↓reduceIte]
        exact ⟨owned, ownedTasks, .inr (.inl ⟨batch, rfl⟩), accounted⟩
      · simp only [busy, ↓reduceIte]
        exact ⟨owned, ownedTasks, .inr (.inr ⟨single, rfl, by simp⟩), accounted⟩

/-- After a write has completed the next one starts, or the session is idle. -/
theorem finish_ordered {s : Sender} (owned : ∀ msg ∈ s.sendList, msg.Owned)
    (ownedTasks : ∀ msg ∈ s.tasks, msg.Owned) (idle : s.writes = [])
    (accounted : s.Accounted) : s.finish.Ordered := by
  rw [finish]
  split
  · exact doSend_ordered owned ownedTasks idle accounted
  · next short =>
    have empty : s.sendList = [] := List.length_eq_zero_iff.mp (by omega)
    exact ⟨owned, ownedTasks, .inl ⟨idle, rfl, empty⟩, accounted⟩

theorem complete_ordered {s next : Sender} {index : Nat} (ordered : s.Ordered)
    (complete : s.complete index = some next) : next.Ordered := by
  obtain ⟨groups, handed, account⟩ := ordered.accounted
  rw [Sender.complete] at complete
  rcases ordered.flight with ⟨idle, _⟩ | ⟨batch, _⟩ | ⟨single, _, _⟩
  · simp [idle] at complete
  · cases index with
    | succ index => simp [batch] at complete
    | zero =>
        simp only [batch, List.getElem?_cons_zero, List.eraseIdx_cons_zero,
          Option.some.injEq] at complete
        subst complete
        refine finish_ordered ordered.owned ordered.ownedTasks rfl ⟨groups, handed, ?_⟩
        simpa [unsent, batch] using account
  · cases index with
    | succ index => simp [single] at complete
    | zero =>
        simp only [single, List.getElem?_cons_zero, List.eraseIdx_cons_zero,
          Option.some.injEq] at complete
        subst complete
        refine finish_ordered (fun msg member => ordered.owned msg
          (List.mem_of_mem_tail member)) ordered.ownedTasks rfl ⟨groups, handed, ?_⟩
        simpa [unsent, single] using account

theorem ordered_of_reachable {s : Sender} (reachable : system.Reachable s) :
    s.Ordered := by
  apply reachable.invariant
  · rintro s rfl
    exact ⟨fun _ member => absurd member List.not_mem_nil,
      fun _ member => absurd member List.not_mem_nil, .inl ⟨rfl, rfl, rfl⟩,
      [], rfl, rfl⟩
  · intro s event next ordered step
    cases event with
    | post msg =>
        obtain ⟨owned, rfl⟩ := step
        exact post_ordered ordered owned
    | run => exact run_ordered ordered step
    | complete index => exact complete_ordered ordered step

/-- In every reachable state at most one write is outstanding; the buffers handed
to `async_write`, the messages of `m_SendList` that are not in flight and the
messages still in tasks are exactly the posted non-empty messages, in order and
each once; and an idle session has an empty queue. -/
theorem sendQueue_fifo {s : Sender} (reachable : system.Reachable s) :
    s.writes.length ≤ 1 ∧
    s.handed.flatten <+: (loads s.posted).flatten ∧
    (∃ groups : List (List (List UInt8)),
      s.handed = groups.map List.flatten ∧
        groups.flatten ++ loads s.unsent ++ loads s.tasks = loads s.posted) ∧
    (s.isSending = false → s.sendList = []) := by
  have ordered := ordered_of_reachable reachable
  obtain ⟨groups, handed, account⟩ := ordered.accounted
  refine ⟨?_, ?_, ⟨groups, handed, account⟩, ?_⟩
  · rcases ordered.flight with ⟨idle, _⟩ | ⟨batch, _⟩ | ⟨single, _⟩
    · simp [idle]
    · simp [batch]
    · simp [single]
  · have bytes : s.handed.flatten = groups.flatten.flatten := by
      rw [handed, List.flatten_flatten]
    rw [bytes, ← account, List.append_assoc, List.flatten_append]
    exact List.prefix_append _ _
  · intro quiet
    rcases ordered.flight with ⟨_, _, empty⟩ | ⟨_, busy⟩ | ⟨_, busy, _⟩
    · exact empty
    · rw [busy] at quiet
      exact absurd quiet (by decide)
    · rw [busy] at quiet
      exact absurd quiet (by decide)

section TwoMessages

def firstMsg : Message := ⟨.heap [6, 0, 0, 0, 1, 0], 6, 6⟩
def secondMsg : Message := ⟨.heap [7, 0, 0, 0, 2, 0, 9], 6, 6⟩

/-- Two messages have been posted and their tasks have run: the first one is in
flight, the second one waits in the list. -/
def twoPosted : Sender :=
  ⟨[firstMsg, secondMsg], true, [.single], [], [firstMsg, secondMsg],
    [[6, 0, 0, 0, 1, 0]]⟩

theorem twoPosted_reachable : system.Reachable twoPosted := by
  have first : firstMsg.Owned := ⟨by decide, by decide, by decide⟩
  have second : secondMsg.Owned := ⟨by decide, by decide, by decide⟩
  have start : system.Reachable fresh := .initial rfl
  have one : system.Reachable (fresh.post firstMsg) :=
    start.step (show system.step fresh (.post firstMsg) _ from ⟨first, rfl⟩)
  have two : system.Reachable ((fresh.post firstMsg).post secondMsg) :=
    one.step (show system.step _ (.post secondMsg) _ from ⟨second, rfl⟩)
  have sent : system.Reachable
      ⟨[firstMsg], true, [.single], [secondMsg], [firstMsg, secondMsg],
        [[6, 0, 0, 0, 1, 0]]⟩ :=
    two.step (show system.step _ .run _ from by rfl)
  exact sent.step (show system.step _ .run _ from by rfl)

theorem sendQueue_fifo_twoPosted :
    twoPosted.handed.flatten <+: (loads twoPosted.posted).flatten ∧
      loads twoPosted.unsent = [[7, 0, 0, 0, 2, 0, 9]] :=
  ⟨(sendQueue_fifo twoPosted_reachable).2.1, by decide⟩

end TwoMessages

end Sender

end Nicenet
