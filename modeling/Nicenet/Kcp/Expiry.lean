import Mathlib.Data.List.Induction
import Nicenet.Kcp.Stale

/-!
# Expired handshakes

`init2` starts a timer for its session, and at the end of it erases what is then kept for
the session's endpoint. Neither a reply nor the next hello from there stops that timer, so
what it finds may be the pre-session of a later handshake.
-/

namespace Nicenet.Kcp.KcpServer

open Library

variable {ι : Type} [DecidableEq ι] (table : ι → Identity)

/-- A pre-session leaves its place for a reply from its endpoint, for a newer one from
there, or at the end of its own timer. -/
def CancelsOwn (s : KcpServer ι) (event : Event ι) : Prop :=
  ∀ next endpoint session, s.step table event = some next →
    s.preSessions endpoint = some session → next.preSessions endpoint ≠ some session →
    (∃ accepted, event = .reply endpoint accepted) ∨
      (∃ newer, event = .sent newer ∧ next.preSessions endpoint = some newer) ∨
      event = .expired session

/-- The events at which the entry of an endpoint is written. -/
def Touches (endpoint : Endpoint) : Event ι → Prop
  | .sent session => (table session).endpoint = endpoint
  | .expired session => (table session).endpoint = endpoint
  | .reply sender _ => sender = endpoint
  | _ => False

instance (endpoint : Endpoint) : DecidablePred (Touches table endpoint) := fun event => by
  cases event <;> simp only [Touches] <;> infer_instance

/-- The handshake of a session is over: its client has replied, or there is a newer one
from its endpoint, or its own timer has ended. -/
def Settles (session : ι) (event : Event ι) : Prop :=
  Touches table (table session).endpoint event ∧
    ∀ other, event = .expired other → other = session

/-- No timer ends while the handshake of another session from the same endpoint goes on. -/
def EndsAlone (events : List (Event ι)) : Prop :=
  ∀ before newer between old after,
    events = before ++ .sent newer :: between ++ .expired old :: after →
    old ≠ newer → (table old).endpoint = (table newer).endpoint →
    ∃ event ∈ between, Settles table newer event

variable {table} {s next : KcpServer ι} {endpoint : Endpoint} {session : ι}

/-- The entry of an endpoint is written by the events that touch it alone. -/
theorem preSessions_untouched {event : Event ι} (taken : s.step table event = some next)
    (untouched : ¬Touches table endpoint event) :
    next.preSessions endpoint = s.preSessions endpoint := by
  cases step_takes taken with
  | hello new => rfl
  | sent sending => exact Function.update_of_ne (Ne.symm untouched) _ _
  | expired waits => exact Function.update_of_ne (Ne.symm untouched) _ _
  | @reply sender accepted =>
      have erased : Function.update s.preSessions sender none endpoint =
          s.preSessions endpoint := Function.update_of_ne (Ne.symm untouched) _ _
      rw [reply]
      cases s.preSessions sender with
      | none => exact erased
      | some session => cases accepted <;> exact erased
  | close created => exact congrFun (s.close_frame _).preSessions endpoint
  | timeout running => exact congrFun (s.removeSelf_frame _).preSessions endpoint
  | @main task tasks waiting =>
      exact congrFun (runMain_frame { s with main := tasks } task).preSessions endpoint
  | @worker worker task tasks waiting =>
      exact congrFun (runWorker_frame { s with
        workers := Function.update s.workers worker tasks } worker task).preSessions endpoint

theorem step_sent (taken : s.step table (.sent session) = some next) :
    next.preSessions (table session).endpoint = some session := by
  cases step_takes taken with
  | sent sending => exact Function.update_self _ _ _

theorem step_expired (taken : s.step table (.expired session) = some next) :
    next.preSessions (table session).endpoint = none := by
  cases step_takes taken with
  | expired waits => exact Function.update_self _ _ _

theorem step_reply {accepted : Bool}
    (taken : s.step table (.reply endpoint accepted) = some next) :
    next.preSessions endpoint = none := by
  cases taken
  rw [reply]
  cases s.preSessions endpoint with
  | none => exact Function.update_self _ _ _
  | some session => cases accepted <;> exact Function.update_self _ _ _

/-- An event that touches an endpoint and leaves a pre-session there is the one that has
put it there. -/
theorem touched_some {event : Event ι} (taken : s.step table event = some next)
    (touched : Touches table endpoint event) (waits : next.preSessions endpoint = some session) :
    event = .sent session ∧ (table session).endpoint = endpoint := by
  cases event with
  | sent other =>
      cases touched
      rw [step_sent taken] at waits
      cases waits
      exact ⟨rfl, rfl⟩
  | expired other =>
      cases touched
      rw [step_expired taken] at waits
      cases waits
  | reply sender accepted =>
      cases touched
      rw [step_reply taken] at waits
      cases waits
  | hello | close | timeout | main | worker => exact touched.elim

/-- What a run keeps for an endpoint is the session whose challenge was sent there last,
unless the endpoint has been touched since. -/
theorem run_preSessions {events : List (Event ι)}
    (taken : Transition.run (step table) fresh events = some s) :
    s.preSessions endpoint = some session ↔
      (table session).endpoint = endpoint ∧
        ∃ before between, events = before ++ .sent session :: between ∧
          ∀ event ∈ between, ¬Touches table endpoint event := by
  induction events using List.reverseRecOn generalizing s with
  | nil =>
      cases taken
      simp [fresh]
  | append_singleton events event ih =>
      rw [Transition.run_append] at taken
      obtain ⟨middle, front, last⟩ := Option.bind_eq_some_iff.mp taken
      obtain ⟨_, stepped, ⟨⟩⟩ := Option.bind_eq_some_iff.mp last
      by_cases touched : Touches table endpoint event
      · constructor
        · intro waits
          obtain ⟨rfl, home⟩ := touched_some stepped touched waits
          exact ⟨home, events, [], rfl, by simp⟩
        · rintro ⟨home, before, between, split, untouched⟩
          rcases Transition.concat_split split with ⟨rfl, rfl, rfl⟩ | ⟨front, rfl, rfl⟩
          · rw [← home]
            exact step_sent stepped
          · exact absurd touched (untouched event (by simp))
      · rw [preSessions_untouched stepped touched, ih front]
        refine and_congr_right fun home => ?_
        constructor
        · rintro ⟨before, between, rfl, untouched⟩
          refine ⟨before, between ++ [event], by simp, ?_⟩
          exact List.forall_mem_append.mpr
            ⟨untouched, List.forall_mem_singleton.mpr touched⟩
        · rintro ⟨before, between, split, untouched⟩
          rcases Transition.concat_split split with ⟨rfl, rfl, rfl⟩ | ⟨front, rfl, rfl⟩
          · exact absurd home touched
          · exact ⟨before, _, rfl, fun other member => untouched other (by simp [member])⟩

/-- What touches the endpoint of a session and does not settle its handshake is the end of
another timer. -/
theorem unsettled_touch {event : Event ι}
    (touched : Touches table (table session).endpoint event)
    (unsettled : ¬Settles table session event) :
    ∃ other, event = .expired other ∧ other ≠ session := by
  by_contra none
  refine unsettled ⟨touched, fun other expired => ?_⟩
  by_contra differ
  exact none ⟨other, expired, differ⟩

/-- The first event behind a challenge that touches its endpoint. -/
theorem first_touch {between : List (Event ι)} {newer old : ι} (differ : old ≠ newer)
    (same : (table old).endpoint = (table newer).endpoint)
    (unsettled : ∀ event ∈ between, ¬Settles table newer event) :
    ∃ front other back, between ++ [Event.expired old] = front ++ .expired other :: back ∧
      other ≠ newer ∧ (table other).endpoint = (table newer).endpoint ∧
      ∀ event ∈ front, ¬Touches table (table newer).endpoint event := by
  have some : ((between ++ [Event.expired old]).find? fun event =>
      decide (Touches table (table newer).endpoint event)).isSome := by
    rw [List.find?_isSome]
    exact ⟨Event.expired old, by simp, decide_eq_true same⟩
  obtain ⟨event, found⟩ := Option.isSome_iff_exists.mp some
  obtain ⟨touched, front, back, split, untouched⟩ := List.find?_eq_some_iff_append.mp found
  have touched : Touches table (table newer).endpoint event := by simpa using touched
  have member : event ∈ between ++ [.expired old] := List.mem_of_find?_eq_some found
  have other : ∃ other, event = .expired other ∧ other ≠ newer := by
    rcases List.mem_append.mp member with inside | final
    · exact unsettled_touch touched (unsettled event inside)
    · exact ⟨old, List.mem_singleton.mp final, differ⟩
  obtain ⟨other, rfl, apart⟩ := other
  exact ⟨front, other, back, split, apart, touched, by simpa using untouched⟩

/-- The timer of another session ends while the pre-session waits, and takes it away. -/
theorem expired_cancels {old newer : ι} (differ : old ≠ newer)
    (same : (table old).endpoint = (table newer).endpoint)
    (waits : s.preSessions (table newer).endpoint = some newer)
    (taken : s.step table (.expired old) = some next) :
    ¬CancelsOwn table s (.expired old) := by
  intro cancels
  have gone : next.preSessions (table newer).endpoint = none := by
    rw [← same]
    exact step_expired taken
  rcases cancels next _ newer taken waits (by simp [gone]) with
    ⟨_, reply⟩ | ⟨_, sent, _⟩ | expired
  · cases reply
  · cases sent
  · cases expired
    exact differ rfl

/-- A step that takes a pre-session away and should not is the end of another timer. -/
theorem cancelsOwn_of_expired {event : Event ι}
    (alone : ∀ old newer, event = .expired old → old ≠ newer →
      s.preSessions (table old).endpoint ≠ some newer) : CancelsOwn table s event := by
  intro next endpoint session taken waits gone
  have touched : Touches table endpoint event := by
    by_contra untouched
    rw [preSessions_untouched taken untouched] at gone
    exact gone waits
  cases event with
  | sent newer =>
      cases touched
      exact .inr (.inl ⟨newer, rfl, step_sent taken⟩)
  | expired old =>
      cases touched
      by_cases own : old = session
      · exact .inr (.inr (congrArg _ own))
      · exact absurd waits (alone old session rfl own)
  | reply sender accepted =>
      cases touched
      exact .inl ⟨accepted, rfl⟩
  | hello | close | timeout | main | worker => exact touched.elim

/-- Timers cancel their own handshakes in a run exactly if none of them ends while that of
another session from the same endpoint goes on. -/
theorem cancelsOwn_iff (table : ι → Identity) {events : List (Event ι)} {last : KcpServer ι}
    (taken : Transition.run (step table) fresh events = some last) :
    Transition.Along (step table) (CancelsOwn table) fresh events ↔
      EndsAlone table events := by
  rw [Transition.along_iff]
  constructor
  · intro cancels before newer between old after split differ same
    by_contra! unsettled
    obtain ⟨front, other, back, first, apart, home, untouched⟩ :=
      first_touch differ same unsettled
    have parts : events =
        (before ++ .sent newer :: front) ++ .expired other :: (back ++ after) := by
      have regroup : events =
          before ++ .sent newer :: ((between ++ [.expired old]) ++ after) := by
        rw [split]
        simp
      rw [regroup, first]
      simp
    rw [parts, Transition.run_append] at taken
    obtain ⟨middle, reached, rest⟩ := Option.bind_eq_some_iff.mp taken
    obtain ⟨next, stepped, -⟩ := Option.bind_eq_some_iff.mp rest
    have waits : middle.preSessions (table newer).endpoint = some newer :=
      (run_preSessions reached).mpr ⟨rfl, before, front, rfl, untouched⟩
    exact expired_cancels apart home waits stepped
      (cancels _ _ _ middle parts reached)
  · intro alone before event after middle split reached
    refine cancelsOwn_of_expired fun old newer expired differ waits => ?_
    obtain ⟨home, front, between, rfl, untouched⟩ := (run_preSessions reached).mp waits
    obtain ⟨other, member, settles⟩ := alone front newer between old after (by
      rw [split, expired]) differ home.symm
    exact untouched other member (home ▸ settles.1)

/-- Two hellos from one endpoint. -/
def twoHellos (_ : Bool) : Identity :=
  ⟨⟨[127, 0, 0, 1], 1000⟩, ⟨0, workThreadCount_pos⟩, 0, List.replicate publicKeySize 7⟩

/-- A handshake that gets its reply, and then the end of its timer. -/
theorem cancelsOwn_replied :
    Transition.Along (step twoHellos) (CancelsOwn twoHellos) fresh
      [.hello false, .sent false, .reply (twoHellos false).endpoint true, .expired false] :=
  (cancelsOwn_iff twoHellos rfl).mpr (by
    intro before newer between old after split differ
    have sent : Event.sent newer ∈ [Event.hello false, .sent false,
        .reply (twoHellos false).endpoint true, .expired false] := by
      rw [split]
      simp
    have expired : Event.expired old ∈ [Event.hello false, .sent false,
        .reply (twoHellos false).endpoint true, .expired false] := by
      rw [split]
      simp
    simp only [List.mem_cons, Event.sent.injEq, Event.expired.injEq, reduceCtorEq,
      List.not_mem_nil, or_false, false_or] at sent expired
    exact absurd (expired.trans sent.symm) differ)

/-- The timer of the first session ends when the challenge to the second one has just been
sent, and the reply to that will find no session. -/
theorem cancelsOwn_fails :
    ¬∀ (table : Bool → Identity) (events : List (Event Bool)) (last : KcpServer Bool),
      Transition.run (step table) fresh events = some last →
      Transition.Along (step table) (CancelsOwn table) fresh events := by
  intro every
  have along := every twoHellos
    [.hello false, .sent false, .hello true, .sent true, .expired false] _ rfl
  have cancels := Transition.along_iff.mp along
    [.hello false, .sent false, .hello true, .sent true] (.expired false) [] _ rfl rfl
  exact expired_cancels Bool.false_ne_true rfl rfl rfl cancels

end Nicenet.Kcp.KcpServer
