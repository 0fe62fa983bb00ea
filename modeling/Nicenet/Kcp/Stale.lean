import Nicenet.Kcp.Registry

/-!
# Stale removals

The removal of a displaced session spares its successor as long as their serial numbers
differ. A session is added once at most: what takes it from the hello to the main service
is in one place at a time, and `places` counts these.
-/

namespace Nicenet.Kcp.KcpServer

open Library

variable {ι : Type} (table : ι → Identity)

/-- The removal of a displaced session neither closes the session that displaced it nor
changes what is registered for the uid. -/
def Spares (s next : KcpServer ι) : Prop :=
  ∀ a b tasks, s.main = .remove a :: tasks → (a, b) ∈ s.displaced →
    next.closed b = s.closed b ∧
      next.sessions (table a).uid = s.sessions (table a).uid

/-- Pre-sessions are kept under their own endpoints. -/
def Homed (s : KcpServer ι) : Prop :=
  ∀ endpoint session, s.preSessions endpoint = some session →
    (table session).endpoint = endpoint

variable {table} {s next : KcpServer ι}

theorem update_preSessions {endpoint other : Endpoint} {value : Option ι} {session : ι}
    (found : Function.update s.preSessions endpoint value other = some session) :
    (other = endpoint ∧ value = some session) ∨ s.preSessions other = some session := by
  rw [Function.update_apply] at found
  split at found
  · next same => exact .inl ⟨same, found⟩
  · exact .inr found

variable (table) [DecidableEq ι]

/-- One if the session is the pre-session of an endpoint. -/
def mark (preSession : Option ι) (session : ι) : Nat :=
  if preSession = some session then 1 else 0

/-- The places in which a session waits to be added: as one that has not said hello, with
its challenge being sent, as a pre-session or in a task. -/
def places (s : KcpServer ι) (session : ι) : Nat :=
  (!s.created session).toNat + (s.sending session).toNat +
    mark (s.preSessions (table session).endpoint) session + s.main.count (.add session)

/-- Sessions wait in one place at most, those that have been added in none; a displaced
session is not registered again. -/
structure Once (s : KcpServer ι) : Prop where
  homed : s.Homed table
  places_le : ∀ session, s.places table session ≤ 1
  registered : ∀ {uid session}, s.sessions uid = some session →
    (table session).uid = uid ∧ s.places table session = 0
  displaced : ∀ {a b}, (a, b) ∈ s.displaced →
    s.places table a = 0 ∧ s.sessions (table a).uid ≠ some a

variable {table}

/-! ## What leaves the handshakes alone -/

/-- Two states with the same handshakes. -/
structure Frame (s next : KcpServer ι) : Prop where
  created : next.created = s.created
  sending : next.sending = s.sending
  preSessions : next.preSessions = s.preSessions
  adds : ∀ session, next.main.count (.add session) = s.main.count (.add session)

theorem Frame.refl (s : KcpServer ι) : Frame s s := ⟨rfl, rfl, rfl, fun _ => rfl⟩

theorem Frame.places (frame : Frame s next) (session : ι) :
    next.places table session = s.places table session := by
  rw [KcpServer.places, KcpServer.places, frame.created, frame.sending, frame.preSessions,
    frame.adds]

theorem Frame.homed (frame : Frame s next) (homed : s.Homed table) : next.Homed table := by
  rw [Homed, frame.preSessions]
  exact homed

theorem count_removal (s : KcpServer ι) (session other : ι) :
    (s.removal session).count (.add other) = 0 := by
  rw [removal]
  split <;> simp

theorem removeSelf_frame (s : KcpServer ι) (session : ι) : Frame s (s.removeSelf session) := by
  rw [removeSelf_eq]
  exact ⟨rfl, rfl, rfl, fun other => by simp [count_removal]⟩

theorem close_frame (s : KcpServer ι) (session : ι) : Frame s (s.close session) := by
  rw [close_eq]
  exact ⟨rfl, rfl, rfl, fun other => by simp [count_removal]⟩

theorem addSession_frame (s : KcpServer ι) (uid : Uid) (session : ι) :
    Frame s (s.addSession uid session) := by
  cases registered : s.sessions uid with
  | none =>
      rw [addSession_none registered]
      exact ⟨rfl, rfl, rfl, fun _ => rfl⟩
  | some old =>
      rw [addSession_some registered]
      exact ⟨rfl, rfl, rfl, fun other => by simp [count_removal]⟩

theorem removeSession_frame (s : KcpServer ι) (uid : Uid) (serialID : UInt64) :
    Frame s (s.removeSession table uid serialID) := by
  cases registered : s.sessions uid with
  | none =>
      rw [removeSession_none _ registered]
      exact .refl s
  | some current =>
      by_cases same : (table current).serialID = serialID
      · rw [← same, removeSession_same registered]
        exact ⟨rfl, rfl, rfl, fun other => by simp [count_removal]⟩
      · rw [removeSession_other registered same]
        exact .refl s

theorem runMain_frame (s : KcpServer ι) (task : MainTask ι) :
    Frame s (s.runMain table task) := by
  cases task with
  | add session =>
      have frame := s.addSession_frame (table session).uid session
      exact ⟨frame.created, frame.sending, frame.preSessions, frame.adds⟩
  | remove session =>
      have frame : Frame s (s.removeSession table (table session).uid
          (table session).serialID) := s.removeSession_frame _ _
      exact ⟨frame.created, frame.sending, frame.preSessions, frame.adds⟩
  | ready session => exact .refl s

theorem runWorker_frame (s : KcpServer ι) (worker : Worker) (task : WorkerTask ι) :
    Frame s (s.runWorker table worker task) := by
  cases task with
  | insert session =>
      exact ⟨rfl, rfl, rfl, fun other => by simp [runWorker, post]⟩
  | erase session => exact ⟨rfl, rfl, rfl, fun _ => rfl⟩

/-! ## Handshakes -/

theorem step_homed {event : Event ι} (homed : s.Homed table)
    (taken : s.step table event = some next) : next.Homed table := by
  cases step_takes taken with
  | hello new => exact homed
  | @sent session sending =>
      intro endpoint other found
      rcases update_preSessions found with ⟨same, value⟩ | before
      · cases value
        exact same.symm
      · exact homed endpoint other before
  | expired waits =>
      intro endpoint other found
      rcases update_preSessions found with ⟨_, value⟩ | before
      · cases value
      · exact homed endpoint other before
  | @reply endpoint accepted =>
      have erased : Homed table { s with
          preSessions := Function.update s.preSessions endpoint none } := by
        intro other session found
        rcases update_preSessions found with ⟨_, value⟩ | before
        · cases value
        · exact homed other session before
      rw [reply]
      cases s.preSessions endpoint with
      | none => exact erased
      | some session => cases accepted <;> exact erased
  | close created => exact (s.close_frame _).homed homed
  | timeout running => exact (s.removeSelf_frame _).homed homed
  | @main task tasks waiting => exact (runMain_frame { s with main := tasks } task).homed homed
  | @worker worker task tasks waiting =>
      exact (runWorker_frame { s with
        workers := Function.update s.workers worker tasks } worker task).homed homed

theorem mark_self (session : ι) : mark (some session) session = 1 := if_pos rfl

theorem mark_none (session : ι) : mark none session = 0 := if_neg nofun

theorem mark_other {session other : ι} (differ : other ≠ session) :
    mark (some other) session = 0 :=
  if_neg fun equal => differ (Option.some.inj equal)

/-- A pre-session that is taken out, or replaced by another one, no longer waits. -/
theorem mark_update_le (preSessions : Endpoint → Option ι) (endpoint home : Endpoint)
    {value : Option ι} {session : ι} (absent : mark value session = 0) :
    mark (Function.update preSessions endpoint value home) session ≤
      mark (preSessions home) session := by
  rw [Function.update_apply]
  split
  · rw [absent]
    exact Nat.zero_le _
  · exact Nat.le_refl _

/-- A session that is taken from its endpoint waits in the task that adds it. -/
theorem reply_places (homed : s.Homed table) (endpoint : Endpoint) (accepted : Bool)
    (session : ι) :
    (s.reply endpoint accepted).places table session ≤ s.places table session := by
  have fewer := mark_update_le s.preSessions endpoint (table session).endpoint
    (mark_none session)
  have erased : KcpServer.places table { s with
      preSessions := Function.update s.preSessions endpoint none } session ≤
      s.places table session := by
    simp only [places]
    omega
  rw [reply]
  cases found : s.preSessions endpoint with
  | none => exact erased
  | some other =>
      cases accepted with
      | false => exact erased
      | true =>
          by_cases same : other = session
          · subst same
            have taken : mark (s.preSessions endpoint) other = 1 := by
              rw [found, mark_self]
            rw [homed endpoint other found] at fewer
            simp only [places, init3, post, homed endpoint other found, if_true,
              Function.update_self, mark_none, List.count_append, List.count_singleton_self]
            omega
          · have count : List.count (.add session) [MainTask.add other] = 0 := by
              simp [same]
            simp only [places] at erased
            simp only [places, init3, post, if_true, List.count_append, count]
            omega

/-- A session that says hello waits for its challenge to be sent. -/
theorem init_places {other : ι} (new : s.created other = false) (session : ι) :
    (s.init other).places table session ≤ s.places table session := by
  by_cases same : session = other
  · subst same
    have fresh : (!s.created session).toNat = 1 := by simp [new]
    have bound := Bool.toNat_le (s.sending session)
    simp only [places, init, Function.update_self, fresh, Bool.not_true,
      Bool.toNat_true, Bool.toNat_false]
    omega
  · simp only [places, init, Function.update_of_ne same]
    exact Nat.le_refl _

/-- A session whose challenge has been sent waits at its endpoint, where it may replace
another one. -/
theorem init2_places {other : ι} (sending : s.sending other = true) (session : ι) :
    (s.init2 table other).places table session ≤ s.places table session := by
  by_cases same : session = other
  · subst same
    simp only [places, init2, Function.update_self, sending, mark_self,
      Bool.toNat_true, Bool.toNat_false]
    omega
  · have fewer := mark_update_le s.preSessions (table other).endpoint
      (table session).endpoint (mark_other (Ne.symm same))
    simp only [places, init2, Function.update_of_ne same]
    omega

/-- No step makes a session wait in more places. -/
theorem step_places {event : Event ι} (homed : s.Homed table)
    (taken : s.step table event = some next) (session : ι) :
    next.places table session ≤ s.places table session := by
  cases step_takes taken with
  | hello new => exact init_places new session
  | sent sending => exact init2_places sending session
  | @expired other waits =>
      have fewer := mark_update_le s.preSessions (table other).endpoint
        (table session).endpoint (mark_none session)
      simp only [places, expire]
      omega
  | @reply endpoint accepted => exact reply_places homed endpoint accepted session
  | close created => exact Nat.le_of_eq ((s.close_frame _).places session)
  | timeout running => exact Nat.le_of_eq ((s.removeSelf_frame _).places session)
  | @main task tasks waiting =>
      have fewer : tasks.count (.add session) ≤ s.main.count (.add session) := by
        rw [waiting]
        exact List.count_le_count_cons
      rw [(runMain_frame { s with main := tasks } task).places session]
      simp only [places]
      omega
  | @worker worker task tasks waiting =>
      exact Nat.le_of_eq ((runWorker_frame { s with
        workers := Function.update s.workers worker tasks } worker task).places session)

/-! ## Runs -/

theorem fresh_once : (fresh : KcpServer ι).Once table where
  homed endpoint session found := by cases found
  places_le session := Nat.le_refl _
  registered found := by cases found
  displaced found := by cases found

/-- Sessions may stop waiting and stop being registered. -/
theorem Once.weaken (once : s.Once table) (homed : next.Homed table)
    (places : ∀ session, next.places table session ≤ s.places table session)
    (sessions : ∀ {uid session}, next.sessions uid = some session →
      s.sessions uid = some session)
    (displaced : next.displaced = s.displaced) : next.Once table where
  homed := homed
  places_le session := (places session).trans (once.places_le session)
  registered found := by
    obtain ⟨uid, zero⟩ := once.registered (sessions found)
    exact ⟨uid, Nat.le_zero.mp (zero ▸ places _)⟩
  displaced member := by
    obtain ⟨zero, absent⟩ := once.displaced (displaced ▸ member)
    exact ⟨Nat.le_zero.mp (zero ▸ places _), fun found => absent (sessions found)⟩

/-- A session that is about to be added waits nowhere else. -/
theorem Once.popped {session : ι} {tasks : List (MainTask ι)} (once : s.Once table)
    (waiting : s.main = .add session :: tasks) :
    s.places table session = 1 ∧
      KcpServer.places table { s with main := tasks } session = 0 := by
  have bound := once.places_le session
  have count : s.main.count (.add session) = tasks.count (.add session) + 1 := by
    rw [waiting, List.count_cons_self]
  simp only [places, count] at bound ⊢
  omega

theorem addSession_sessions (s : KcpServer ι) (uid : Uid) (session : ι) :
    (s.addSession uid session).sessions =
      Function.update s.sessions uid (some session) := by
  cases registered : s.sessions uid with
  | none => rw [addSession_none registered]
  | some old => rw [addSession_some registered]

theorem mem_addSession_displaced (s : KcpServer ι) {uid : Uid} {session : ι}
    {pair : ι × ι} (member : pair ∈ (s.addSession uid session).displaced) :
    pair ∈ s.displaced ∨ ∃ old, s.sessions uid = some old ∧ pair = (old, session) := by
  cases registered : s.sessions uid with
  | none =>
      rw [addSession_none registered] at member
      exact .inl member
  | some old =>
      rw [addSession_some registered] at member
      rcases List.mem_append.mp member with before | new
      · exact .inl before
      · exact .inr ⟨old, rfl, List.mem_singleton.mp new⟩

theorem removeSession_sessions (s : KcpServer ι) {uid other : Uid} {serialID : UInt64}
    {session : ι}
    (found : (s.removeSession table uid serialID).sessions other = some session) :
    s.sessions other = some session := by
  cases registered : s.sessions uid with
  | none =>
      rw [removeSession_none _ registered] at found
      exact found
  | some current =>
      by_cases same : (table current).serialID = serialID
      · subst same
        simp only [removeSession_same registered, Function.update_apply] at found
        split at found
        · cases found
        · exact found
      · rw [removeSession_other registered same] at found
        exact found

theorem removeSession_displaced (s : KcpServer ι) (uid : Uid) (serialID : UInt64) :
    (s.removeSession table uid serialID).displaced = s.displaced := by
  cases registered : s.sessions uid with
  | none => rw [removeSession_none _ registered]
  | some current =>
      by_cases same : (table current).serialID = serialID
      · subst same
        rw [removeSession_same registered]
      · rw [removeSession_other registered same]

/-- A session is added for the first time, so it is none that has been displaced. -/
theorem Once.addSession {session : ι} {tasks : List (MainTask ι)} (once : s.Once table)
    (waiting : s.main = .add session :: tasks)
    (taken : s.step table .main = some next)
    (sessions : next.sessions =
      Function.update s.sessions (table session).uid (some session))
    (displaced : ∀ pair ∈ next.displaced, pair ∈ s.displaced ∨
      ∃ old, s.sessions (table session).uid = some old ∧ pair = (old, session))
    (zero : next.places table session = 0) : next.Once table := by
  have places := step_places once.homed taken
  obtain ⟨one, _⟩ := once.popped waiting
  -- The added session waited until now, those added or displaced before did not.
  have stays : ∀ {other}, s.places table other = 0 → next.places table other = 0 ∧
      other ≠ session := by
    intro other before
    refine ⟨Nat.le_zero.mp (before ▸ places other), ?_⟩
    rintro rfl
    omega
  have absent : ∀ {other}, s.places table other = 0 →
      s.sessions (table other).uid ≠ some other ∨
        (table other).uid = (table session).uid →
      next.sessions (table other).uid ≠ some other := by
    intro other before either found
    rw [sessions, Function.update_apply] at found
    split at found
    · exact (stays before).2 (Option.some.inj found).symm
    · next differ => exact either.elim (fun absent => absent found) differ
  refine ⟨step_homed once.homed taken, fun other => (places other).trans
    (once.places_le other), ?_, ?_⟩
  · intro uid other found
    rw [sessions, Function.update_apply] at found
    split at found
    · next same =>
      cases found
      exact ⟨same.symm, zero⟩
    · obtain ⟨uid, before⟩ := once.registered found
      exact ⟨uid, (stays before).1⟩
  · intro a b member
    rcases displaced _ member with before | ⟨old, registered, equal⟩
    · obtain ⟨before, gone⟩ := once.displaced before
      exact ⟨(stays before).1, absent before (.inl gone)⟩
    · cases equal
      obtain ⟨uid, before⟩ := once.registered registered
      exact ⟨(stays before).1, absent before (.inr uid)⟩

theorem step_once {event : Event ι} (once : s.Once table)
    (taken : s.step table event = some next) : next.Once table := by
  have homed := step_homed once.homed taken
  have places := step_places once.homed taken
  cases step_takes taken with
  | hello new => exact once.weaken homed places id rfl
  | sent sending => exact once.weaken homed places id rfl
  | expired waits => exact once.weaken homed places id rfl
  | @reply endpoint accepted =>
      have registry : (s.reply endpoint accepted).sessions = s.sessions ∧
          (s.reply endpoint accepted).displaced = s.displaced := by
        rw [reply]
        cases s.preSessions endpoint with
        | none => exact ⟨rfl, rfl⟩
        | some session => cases accepted <;> exact ⟨rfl, rfl⟩
      refine once.weaken homed places ?_ registry.2
      intro uid session found
      rwa [registry.1] at found
  | close created =>
      rw [close_eq] at homed places ⊢
      exact once.weaken homed places id rfl
  | timeout running =>
      rw [removeSelf_eq] at homed places ⊢
      exact once.weaken homed places id rfl
  | @main task tasks waiting =>
      cases task with
      | add session =>
          refine once.addSession waiting taken ?_ ?_ ?_
          · exact addSession_sessions _ _ _
          · exact fun pair member => mem_addSession_displaced { s with main := tasks } member
          · rw [(runMain_frame _ _).places]
            exact (once.popped waiting).2
      | remove session =>
          refine once.weaken homed places ?_ ?_
          · exact removeSession_sessions { s with main := tasks }
          · exact removeSession_displaced { s with main := tasks } _ _
      | ready session => exact once.weaken homed places id rfl
  | @worker worker task tasks waiting =>
      cases task <;> exact once.weaken homed places id rfl

theorem reachable_once (reachable : (system table).Reachable s) : s.Once table := by
  apply reachable.invariant
  · rintro s rfl
    exact fresh_once
  · intro s event next once taken
    exact step_once once taken

/-- The removal of a displaced session finds its successor, or a later one, which it
leaves alone if their numbers differ. -/
theorem Once.spares (once : s.Once table)
    (differ : ∀ a b, a ≠ b → (table a).uid = (table b).uid →
      (table a).serialID ≠ (table b).serialID)
    (taken : s.step table .main = some next) : s.Spares table next := by
  intro a b tasks waiting member
  rw [step_main waiting] at taken
  cases taken
  obtain ⟨_, absent⟩ := once.displaced member
  have stays : ({ s with main := tasks } : KcpServer ι).removeSession table (table a).uid
      (table a).serialID = { s with main := tasks } := by
    cases registered : s.sessions (table a).uid with
    | none => exact removeSession_none _ registered
    | some current =>
        obtain ⟨uid, _⟩ := once.registered registered
        refine removeSession_other registered (differ current a ?_ uid)
        rintro rfl
        exact absent registered
  rw [runMain, removeSelfImpl, stays]
  exact ⟨rfl, rfl⟩

variable (table) in
/-- A session that displaces another one with the same number is closed by the removal of
the other. -/
theorem displace_closes {a b : ι} (apart : a ≠ b) (uid : (table a).uid = (table b).uid)
    (serialID : (table a).serialID = (table b).serialID) :
    ∃ s next, (system table).Reachable s ∧ s.step table .main = some next ∧
      ¬s.Spares table next := by
  obtain ⟨s, reachable, main, registered, unclosed, _, _, displaced⟩ := displace apart uid
  refine ⟨s, _, reachable, step_main main, fun spares => ?_⟩
  have closed := (spares a b [] main (by simp [displaced])).1
  have popped : ({ s with main := [] } : KcpServer ι).sessions (table b).uid = some b :=
    registered
  rw [runMain, removeSelfImpl, uid, serialID, removeSession_same popped, unclosed] at closed
  simp [postWorker] at closed

/-- The removals of displaced sessions spare their successors, in every run, exactly if
any two sessions with the same uid have different numbers. -/
theorem spares_iff (table : ι → Identity) :
    (∀ s next, (system table).Reachable s → s.step table .main = some next →
        s.Spares table next) ↔
      ∀ a b, a ≠ b → (table a).uid = (table b).uid →
        (table a).serialID ≠ (table b).serialID := by
  constructor
  · intro spares a b apart uid serialID
    obtain ⟨s, next, reachable, taken, closes⟩ := displace_closes table apart uid serialID
    exact closes (spares s next reachable taken)
  · intro differ s next reachable taken
    exact (reachable_once reachable).spares differ taken

/-- A client that connects twice; both sessions find zero where their number should be. -/
def unnumbered (second : Bool) : Identity :=
  ⟨⟨[127, 0, 0, 1], if second then 1001 else 1000⟩, ⟨if second then 1 else 0, by
    cases second <;> decide⟩, 0, List.replicate publicKeySize 7⟩

/-- The removal of the first session closes the second one. -/
theorem spares_fails :
    ¬∀ (table : Bool → Identity) (s next : KcpServer Bool), (system table).Reachable s →
      s.step table .main = some next → s.Spares table next := by
  intro every
  obtain ⟨s, next, reachable, taken, closes⟩ :=
    displace_closes unnumbered Bool.false_ne_true rfl rfl
  exact closes (every unnumbered s next reachable taken)

end Nicenet.Kcp.KcpServer
