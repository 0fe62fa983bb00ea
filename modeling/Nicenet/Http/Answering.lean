import Nicenet.Http.Completes
import Nicenet.Http.Outgoing

/-!
# The order of responses

Requests are completed one after the other, each with a response object of its own.
The response of a request without a handler is destroyed when the callback ends; the
others are destroyed when their handlers, which may suspend, are through with them.
Nothing relates the order in which that happens to the order of the requests, and
responses are pushed in the order in which they are destroyed.
-/

namespace Nicenet.Http

open Library

/-- The response to a request without a handler. -/
def nook (request : HttpRequest) : HttpResponse :=
  { HttpResponse.empty with
    keepAlive := request.keepAlive
    statusCode := 404
    status := [110, 111, 111, 107] }

/-- A connection that answers. `reading` says whether `start` waits for the socket;
`suspended` are the requests whose handlers have been posted and are not finished.
Responses carry the number of their request. `requests` only records the run. -/
structure Answering (π : Type) where
  conn : HttpConnection π
  reading : Bool
  requests : List Event
  suspended : List Nat
  outgoing : Outgoing (Nat × HttpResponse)
  deriving DecidableEq, Repr

namespace Answering

/-- The text of a numbered response. -/
def write (response : Nat × HttpResponse) : Str := response.2.inspect

inductive Action where
  | read (data : Str)
  | finish (request : Nat) (response : HttpResponse)
  | push
  | complete (index sentSize : Nat)
  deriving DecidableEq, Repr

variable {π : Type} (parser : RequestParser π) (handles : Str → Bool)

def fresh : Answering π := ⟨⟨parser.fresh, []⟩, true, [], [], .fresh⟩

/-- The next request is completed: it is posted to its handler or answered at once. -/
def request (s : Answering π) (event : Event) : Answering π :=
  let s' := { s with requests := s.requests ++ [event] }
  match event with
  | .posted _ => { s' with suspended := s.suspended ++ [s.requests.length] }
  | .notFound req =>
      { s' with outgoing := s.outgoing.post (s.requests.length, nook req) }

/-- The callback of `start`. -/
def read (s : Answering π) (data : Str) : Answering π :=
  let read := onRead parser handles s.conn data
  let s := { s with conn := read.after, reading := read.again }
  match read.event with
  | none => s
  | some event => s.request event

def step (s : Answering π) : Action → Option (Answering π)
  | .read data =>
      if s.reading ∧ 0 < data.length ∧ data.length ≤ networkBufSize then
        some (s.read parser handles data)
      else none
  | .finish request response =>
      if request ∈ s.suspended then
        some { s with
          suspended := s.suspended.erase request
          outgoing := s.outgoing.post (request, response) }
      else none
  | .push => (s.outgoing.push write).map fun outgoing => { s with outgoing := outgoing }
  | .complete index sentSize =>
      (s.outgoing.complete index sentSize).map fun outgoing =>
        { s with outgoing := outgoing }

/-- Reads, handlers that finish, tasks and completed writes, in any order. -/
def system : Transition (Answering π) Action :=
  .deterministic (fresh parser) (step parser handles)

/-- The requests in the order in which their responses were destroyed. -/
def destroyed (s : Answering π) : List Nat := s.outgoing.posted.map Prod.fst

/-- The requests in the order in which their responses were pushed. -/
def pushed (s : Answering π) : List Nat := s.outgoing.pushed.map Prod.fst

/-- The requests whose responses wait in tasks of the service. -/
def waiting (s : Answering π) : List Nat := s.outgoing.tasks.map Prod.fst

/-- The k-th of them is request k. -/
def InOrder (requests : List Nat) : Prop := requests = List.range requests.length

instance : DecidablePred InOrder := fun _ => inferInstanceAs (Decidable (_ = _))

/-- Every request has one response, destroyed or with its handler. -/
def Answered (s : Answering π) : Prop :=
  (s.destroyed ++ s.suspended).Perm (List.range s.requests.length)

structure Sound (s : Answering π) : Prop where
  outgoing : s.outgoing.Sound write
  answered : s.Answered

variable {parser handles} {s next : Answering π}

theorem range_snoc {front : List Nat} {size : Nat} (perm : front.Perm (List.range size)) :
    (front ++ [size]).Perm (List.range (size + 1)) := by
  rw [List.range_succ]
  exact perm.append_right [size]

/-- A completed request has one response more. -/
theorem request_sound (sound : s.Sound) (event : Event) : (s.request event).Sound := by
  have more : (s.destroyed ++ s.suspended ++ [s.requests.length]).Perm
      (List.range (s.requests ++ [event]).length) := by
    rw [List.length_append, List.length_singleton]
    exact range_snoc sound.answered
  cases event with
  | posted req =>
      refine ⟨sound.outgoing, ?_⟩
      rw [List.append_assoc] at more
      exact more
  | notFound req =>
      refine ⟨Outgoing.post_sound sound.outgoing _, .trans ?_ more⟩
      have swapped : (s.destroyed ++ ([s.requests.length] ++ s.suspended)).Perm
          (s.destroyed ++ (s.suspended ++ [s.requests.length])) :=
        List.perm_append_comm.append_left s.destroyed
      simpa [destroyed, request, Outgoing.post] using swapped

theorem read_sound (sound : s.Sound) (data : Str) : (s.read parser handles data).Sound := by
  simp only [read]
  cases (onRead parser handles s.conn data).event with
  | none => exact ⟨sound.outgoing, sound.answered⟩
  | some event =>
      have same : Sound { s with
          conn := (onRead parser handles s.conn data).after
          reading := (onRead parser handles s.conn data).again } :=
        ⟨sound.outgoing, sound.answered⟩
      exact request_sound same event

/-- A handler that finishes destroys the response of its request. -/
theorem finish_sound (sound : s.Sound) {request : Nat} (member : request ∈ s.suspended)
    (response : HttpResponse) :
    Sound { s with
      suspended := s.suspended.erase request
      outgoing := s.outgoing.post (request, response) } := by
  refine ⟨Outgoing.post_sound sound.outgoing _, .trans ?_ sound.answered⟩
  have moved : (request :: s.suspended.erase request).Perm s.suspended :=
    (List.perm_cons_erase member).symm
  have kept := moved.append_left s.destroyed
  simpa [destroyed, Outgoing.post] using kept

theorem step_sound {action : Action} (sound : s.Sound)
    (taken : s.step parser handles action = some next) : next.Sound := by
  cases action with
  | read data =>
      simp only [step] at taken
      split at taken
      · cases taken
        exact read_sound sound data
      · cases taken
  | finish request response =>
      simp only [step] at taken
      split at taken
      · next member =>
        cases taken
        exact finish_sound sound member response
      · cases taken
  | push =>
      obtain ⟨outgoing, pushed, rfl⟩ := Option.map_eq_some_iff.mp taken
      refine ⟨Outgoing.push_sound sound.outgoing pushed, ?_⟩
      rw [Answered, destroyed, Outgoing.push_posted pushed]
      exact sound.answered
  | complete index sentSize =>
      obtain ⟨outgoing, completed, rfl⟩ := Option.map_eq_some_iff.mp taken
      refine ⟨Outgoing.complete_sound sound.outgoing completed, ?_⟩
      rw [Answered, destroyed, Outgoing.complete_posted completed]
      exact sound.answered

theorem reachable_sound (reachable : (system parser handles).Reachable s) : s.Sound := by
  apply reachable.invariant
  · rintro s rfl
    exact ⟨Outgoing.fresh_sound, .refl []⟩
  · intro s action next sound taken
    exact step_sound sound taken

/-- A front part of what is in order is in order. -/
theorem InOrder.front {front back : List Nat} (order : InOrder (front ++ back)) :
    InOrder front := by
  have taken := congrArg (List.take front.length) (order : front ++ back = List.range _)
  rw [List.take_left, List.length_append, List.take_range,
    Nat.min_eq_left (Nat.le_add_right _ _)] at taken
  exact taken

/-- Responses are pushed in the order in which they are destroyed, one for each
request at most; so they are in the order of the requests whenever they are destroyed
in this order. -/
theorem pushed_as_destroyed (reachable : (system parser handles).Reachable s) :
    s.pushed ++ s.waiting = s.destroyed ∧
      (s.destroyed ++ s.suspended).Perm (List.range s.requests.length) ∧
      (InOrder s.destroyed → InOrder s.pushed) := by
  have sound := reachable_sound reachable
  have ordered : s.pushed ++ s.waiting = s.destroyed := by
    rw [pushed, waiting, destroyed, ← List.map_append, sound.outgoing.ordered]
  refine ⟨ordered, sound.answered, fun order => ?_⟩
  rw [← ordered] at order
  exact order.front

/-- A handler for `/` alone. -/
def root (uri : Str) : Bool := uri = [47]

/-- One request, whose handler finishes. -/
theorem pushed_single :
    ∃ s : Answering HttpRequestParser, (system requestParser root).Reachable s ∧
      s.pushed = [0] ∧ InOrder s.pushed := by
  have taken : (Transition.run (step requestParser root) (fresh requestParser)
      [.read getRoot.bytes, .finish 0 .ok, .push]).map
        (fun s => (s.pushed, s.destroyed)) = some ([0], [0]) := by
    decide +kernel
  obtain ⟨s, taken, lists⟩ := Option.map_eq_some_iff.mp taken
  obtain ⟨pushed, destroyed⟩ := Prod.mk.inj lists
  have reachable := Transition.reachable_run taken
  refine ⟨s, reachable, pushed, (pushed_as_destroyed reachable).2.2 ?_⟩
  rw [destroyed]
  decide

/-- While the handler of the first request is suspended, a line feed completes a
second one, which has no handler: its response is pushed first. -/
theorem pushed_overtaken :
    ¬∀ (handles : Str → Bool) (s : Answering HttpRequestParser),
      (system requestParser handles).Reachable s → InOrder s.pushed := by
  intro every
  have taken : (Transition.run (step requestParser root) (fresh requestParser)
      [.read getRoot.bytes, .read [10], .push]).map pushed = some [1] := by
    decide +kernel
  obtain ⟨s, taken, pushed⟩ := Option.map_eq_some_iff.mp taken
  have order := every root s (Transition.reachable_run taken)
  rw [pushed] at order
  exact absurd order (by decide)

end Answering

end Nicenet.Http
