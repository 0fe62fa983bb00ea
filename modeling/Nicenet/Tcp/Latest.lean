import Nicenet.Tcp.Registry

/-!
# The latest session of a uid

What `m_sessions` holds for a uid is the session added last, unless that one has been
removed. The others are closed: the session displaced by `addSession`, the session removed
by `removeSession`. A removal goes by the number of its session, which is its own.
-/

namespace Nicenet.Tcp.TcpServer

open Library

variable {ι : Type}

/-- Each session has been given a number of its own. -/
def Distinct (s : TcpServer ι) : Prop :=
  ∀ a b, s.completed a = true → s.completed b = true → s.m_serialID a = s.m_serialID b → a = b

/-- The session is the last one added for the uid, and it has not been removed since. -/
def Latest (m_uid : ι → Uid) (ran : List (MainTask ι)) (uid : Uid) (session : ι) : Prop :=
  m_uid session = uid ∧ ∃ before after, ran = before ++ .add session :: after ∧
    (∀ other, .add other ∈ after → m_uid other ≠ uid) ∧ .remove session ∉ after

variable {m_uid m_uid' : ι → Uid} {ran : List (MainTask ι)} {uid : Uid} {session other : ι}

theorem latest_nil : ¬Latest m_uid [] uid session := by
  rintro ⟨-, before, after, split, -⟩
  simp at split

theorem Latest.added (latest : Latest m_uid ran uid session) : .add session ∈ ran := by
  obtain ⟨-, before, after, rfl, -⟩ := latest
  simp

theorem latest_add : Latest m_uid (ran ++ [.add other]) uid session ↔
    if m_uid other = uid then session = other else Latest m_uid ran uid session := by
  constructor
  · rintro ⟨home, before, after, split, last, stays⟩
    rcases Transition.concat_split split with ⟨rfl, equal, rfl⟩ | ⟨front, rfl, rfl⟩
    · cases equal
      rw [if_pos home]
    · have differ : m_uid other ≠ uid := last other (by simp)
      rw [if_neg differ]
      refine ⟨home, before, front, rfl, fun another member => last another (by simp [member]),
        fun member => stays (by simp [member])⟩
  · split
    · next home =>
      rintro rfl
      exact ⟨home, ran, [], rfl, by simp, by simp⟩
    · next differ =>
      rintro ⟨home, before, after, rfl, last, stays⟩
      refine ⟨home, before, after ++ [.add other], by simp, ?_, by simpa using stays⟩
      intro another member
      rcases List.mem_append.mp member with earlier | final
      · exact last another earlier
      · cases List.mem_singleton.mp final
        exact differ

theorem latest_remove : Latest m_uid (ran ++ [.remove other]) uid session ↔
    session ≠ other ∧ Latest m_uid ran uid session := by
  constructor
  · rintro ⟨home, before, after, split, last, stays⟩
    rcases Transition.concat_split split with ⟨-, equal, -⟩ | ⟨front, rfl, rfl⟩
    · cases equal
    · refine ⟨?_, home, before, front, rfl, fun another member => last another (by
        simp [member]), fun member => stays (by simp [member])⟩
      rintro rfl
      exact stays (by simp)
  · rintro ⟨differ, home, before, after, rfl, last, stays⟩
    exact ⟨home, before, after ++ [.remove other], by simp, by simpa using last,
      by simpa [differ] using stays⟩

/-- Only the uids of sessions that have been added matter. -/
theorem Latest.congr (same : ∀ task ∈ ran, m_uid' task.session = m_uid task.session)
    (latest : Latest m_uid ran uid session) : Latest m_uid' ran uid session := by
  have added := latest.added
  obtain ⟨home, before, after, rfl, last, stays⟩ := latest
  refine ⟨(same _ added).trans home, before, after, rfl, ?_, stays⟩
  intro other member
  have equal : m_uid' other = m_uid other := same (.add other) (by simp [member])
  rw [equal]
  exact last other member

/-! ## Every interleaving -/

/-- Tasks are about sessions that have their uid and number; each uid has its latest
session, and the others are closed. -/
structure Kept (s : TcpServer ι) : Prop where
  ran : ∀ task ∈ s.ran, s.completed task.session = true
  main : ∀ task ∈ s.main, s.completed task.session = true
  reading : ∀ {session}, s.reading session = true → s.completed session = true
  latest : ∀ uid session,
    s.m_sessions uid = some session ↔ Latest s.m_uid s.ran uid session
  closed : ∀ {session}, .add session ∈ s.ran →
    s.m_sessions (s.m_uid session) ≠ some session → s.closed session = true

variable {s next : TcpServer ι} {session : ι}

theorem Kept.completed (kept : s.Kept) {uid : Uid} (found : s.m_sessions uid = some session) :
    s.completed session = true :=
  kept.ran _ ((kept.latest uid session).mp found).added

theorem Kept.home (kept : s.Kept) {uid : Uid} (found : s.m_sessions uid = some session) :
    s.m_uid session = uid :=
  ((kept.latest uid session).mp found).1

theorem fresh_kept (memory : ι → UInt64) : (fresh memory).Kept where
  ran _ member := by cases member
  main _ member := by cases member
  reading reads := by cases reads
  latest uid session := iff_of_false (by simp [fresh]) latest_nil
  closed member := by cases member

variable [DecidableEq ι]

/-- The session that is given its uid has not been added. -/
theorem Kept.init2 (kept : s.Kept) (new : s.completed session = false) (uid : Uid)
    (serialID : UInt64) : (s.init2 session uid serialID).Kept := by
  have stays : ∀ other, s.completed other = true →
      Function.update s.completed session true other = true := by
    intro other before
    rw [Function.update_apply, before, ite_self]
  have same : ∀ other, s.completed other = true →
      Function.update s.m_uid session uid other = s.m_uid other := by
    intro other before
    refine Function.update_of_ne ?_ _ _
    rintro rfl
    rw [new] at before
    cases before
  have uids : ∀ task ∈ s.ran, Function.update s.m_uid session uid task.session =
      s.m_uid task.session := fun task member => same _ (kept.ran task member)
  constructor
  · exact fun task member => stays _ (kept.ran task member)
  · refine List.forall_mem_append.mpr ⟨?_, List.forall_mem_singleton.mpr ?_⟩
    · exact fun task before => stays _ (kept.main task before)
    · exact Function.update_self _ _ _
  · exact fun reads => stays _ (kept.reading reads)
  · intro other found
    exact (kept.latest other found).trans
      ⟨Latest.congr uids, Latest.congr fun task member => (uids task member).symm⟩
  · intro other added displaced
    have uid : Function.update s.m_uid session uid other = s.m_uid other :=
      same other (kept.ran _ added)
    exact kept.closed added (uid ▸ displaced)

theorem Kept.close (kept : s.Kept) (session : ι) : (s.close session).Kept where
  ran := kept.ran
  main := kept.main
  reading := kept.reading
  latest := kept.latest
  closed := by
    intro other added displaced
    have before : s.closed other = true := kept.closed added displaced
    simp only [TcpServer.close, Function.update_apply, before, ite_self]

omit [DecidableEq ι] in
theorem Kept.removeSelf (kept : s.Kept) (reads : s.reading session = true) :
    (s.removeSelf session).Kept where
  ran := kept.ran
  main := List.forall_mem_append.mpr
    ⟨kept.main, List.forall_mem_singleton.mpr (kept.reading reads)⟩
  reading := kept.reading
  latest := kept.latest
  closed := kept.closed

section Main

variable {task : MainTask ι} {tasks : List (MainTask ι)}

omit [DecidableEq ι] in
theorem Kept.taken (kept : s.Kept) (waiting : s.main = task :: tasks) :
    s.completed task.session = true ∧
      (∀ other ∈ s.ran ++ [task], s.completed other.session = true) ∧
      ∀ other ∈ tasks, s.completed other.session = true := by
  have first : s.completed task.session = true :=
    kept.main task (by rw [waiting]; exact List.mem_cons_self)
  refine ⟨first, ?_, fun other member => ?_⟩
  · exact List.forall_mem_append.mpr ⟨kept.ran, List.forall_mem_singleton.mpr first⟩
  · exact kept.main other (by rw [waiting]; exact List.mem_cons_of_mem _ member)

theorem Kept.add (kept : s.Kept) (waiting : s.main = .add session :: tasks) :
    ((s.take (.add session) tasks).runMain (.add session)).Kept := by
  obtain ⟨completed, ran, main⟩ := kept.taken waiting
  rw [runMain, addSession_eq]
  refine ⟨ran, main, ?_, ?_, ?_⟩
  · intro other reads
    simp only [doRead, take, Function.update_apply] at reads
    split at reads
    · next same =>
      rw [same]
      exact completed
    · exact kept.reading reads
  · intro uid other
    simp only [doRead, take, Function.update_apply]
    rw [latest_add]
    by_cases home : s.m_uid session = uid
    · simp [home, eq_comm]
    · rw [if_neg home, if_neg (Ne.symm home)]
      exact kept.latest uid other
  · intro other added displaced
    simp only [doRead, take, Function.update_apply] at displaced
    simp only [doRead, take, Bool.or_eq_true]
    rcases List.mem_append.mp added with before | last
    · by_cases registered : s.m_sessions (s.m_uid other) = some other
      · split at displaced
        · next same => exact .inr (decide_eq_true (same ▸ registered))
        · exact absurd registered displaced
      · exact .inl (kept.closed before registered)
    · cases List.mem_singleton.mp last
      rw [if_pos rfl] at displaced
      exact absurd rfl displaced

/-- A removal finds its own session or changes nothing. -/
theorem Kept.removal (kept : s.Kept) (distinct : s.Distinct)
    (completed : s.completed session = true) :
    (s.m_sessions (s.m_uid session) = some session ∧ s.removeSelfImpl session = { s with
        m_sessions := Function.update s.m_sessions (s.m_uid session) none
        closed := Function.update s.closed session true }) ∨
      (s.m_sessions (s.m_uid session) ≠ some session ∧ s.removeSelfImpl session = s) := by
  cases registered : s.m_sessions (s.m_uid session) with
  | none => exact .inr ⟨nofun, removeSession_none _ registered⟩
  | some current =>
      by_cases own : current = session
      · subst own
        exact .inl ⟨rfl, removeSession_same registered⟩
      · refine .inr ⟨fun same => own (Option.some.inj same), removeSession_other registered ?_⟩
        exact fun same => own (distinct _ _ (kept.completed registered) completed same)

theorem take_removeSelfImpl (s : TcpServer ι) (session : ι) :
    (s.take task tasks).removeSelfImpl session =
      (s.removeSelfImpl session).take task tasks := by
  simp only [removeSelfImpl, removeSession, take]
  split
  · rfl
  · next current registered =>
    by_cases same : s.m_serialID current = s.m_serialID session
    · simp only [same, if_true]
      rfl
    · simp only [same, if_false]

theorem Kept.remove (kept : s.Kept) (distinct : s.Distinct)
    (waiting : s.main = .remove session :: tasks) :
    ((s.take (.remove session) tasks).runMain (.remove session)).Kept := by
  obtain ⟨first, ran, main⟩ := kept.taken waiting
  have completed : s.completed session = true := first
  rw [runMain, take_removeSelfImpl]
  rcases kept.removal distinct completed with ⟨own, removed⟩ | ⟨gone, removed⟩
  · rw [removed]
    refine ⟨ran, main, kept.reading, ?_, ?_⟩
    · intro uid other
      simp only [take, Function.update_apply]
      rw [latest_remove, ← kept.latest uid other]
      split
      · next home =>
        refine iff_of_false nofun ?_
        rintro ⟨differ, found⟩
        rw [home, own] at found
        exact differ (Option.some.inj found).symm
      · next differ =>
        refine (and_iff_right_of_imp ?_).symm
        rintro found rfl
        exact differ (kept.home found).symm
    · intro other added displaced
      have before : .add other ∈ s.ran := by simpa [take] using added
      simp only [take, Function.update_apply] at displaced ⊢
      split
      · rfl
      · next differ =>
        refine kept.closed before ?_
        intro found
        split at displaced
        · next home =>
          rw [home, own] at found
          exact differ (Option.some.inj found).symm
        · exact displaced found
  · rw [removed]
    refine ⟨ran, main, kept.reading, ?_, ?_⟩
    · intro uid other
      refine (kept.latest uid other).trans ?_
      rw [take, latest_remove, iff_and_self]
      rintro latest rfl
      have found := (kept.latest uid other).mpr latest
      exact gone (kept.home found ▸ found)
    · intro other added displaced
      have before : .add other ∈ s.ran := by simpa [take] using added
      exact kept.closed before displaced

end Main

/-- Numbers that are each a session's own have been so before. -/
theorem step_distinct {event : Event ι} (taken : s.step event = some next)
    (distinct : next.Distinct) : s.Distinct := by
  have stays : ∀ session, s.completed session = true →
      next.completed session = true ∧ next.m_serialID session = s.m_serialID session := by
    intro session before
    cases step_takes taken with
    | @complete other uid serialID new =>
        have differ : session ≠ other := by
          rintro rfl
          rw [new] at before
          cases before
        exact ⟨(Function.update_of_ne differ _ _).trans before, Function.update_of_ne differ _ _⟩
    | close => exact ⟨before, rfl⟩
    | failed reads => exact ⟨before, rfl⟩
    | @main task tasks waiting =>
        cases task with
        | add added =>
            rw [runMain, addSession_eq]
            exact ⟨before, rfl⟩
        | remove removed =>
            rw [runMain, take_removeSelfImpl, removeSelfImpl, removeSession]
            split
            · exact ⟨before, rfl⟩
            · split <;> exact ⟨before, rfl⟩
  intro a b first second same
  obtain ⟨first', serial⟩ := stays a first
  obtain ⟨second', serial'⟩ := stays b second
  exact distinct a b first' second' (by rw [serial, serial', same])

theorem step_kept {event : Event ι} (kept : s.Kept) (distinct : s.Distinct)
    (taken : s.step event = some next) : next.Kept := by
  cases step_takes taken with
  | complete new => exact kept.init2 new _ _
  | close => exact kept.close _
  | failed reads => exact kept.removeSelf reads
  | @main task tasks waiting =>
      cases task with
      | add session => exact kept.add waiting
      | remove session => exact kept.remove distinct waiting

theorem reachable_kept {memory : ι → UInt64} (reachable : (system memory).Reachable s)
    (distinct : s.Distinct) : s.Kept := by
  have kept : s.Distinct → s.Kept := by
    apply reachable.invariant
    · rintro s rfl _
      exact fresh_kept memory
    · intro s event next kept taken distinct
      have before := step_distinct taken distinct
      exact step_kept (kept before) before taken
  exact kept distinct

/-- In every interleaving, a uid has the session added last unless that has been removed,
all others that have been added for it are closed, and a removal touches its own session
alone. -/
theorem latest_kept (memory : ι → UInt64) {s : TcpServer ι}
    (reachable : (system memory).Reachable s) (distinct : s.Distinct) :
    (∀ uid session, s.m_sessions uid = some session ↔
        Latest s.m_uid s.ran uid session) ∧
      (∀ session, .add session ∈ s.ran → s.m_sessions (s.m_uid session) ≠ some session →
        s.closed session = true) ∧
      ∀ a b tasks next, s.main = .remove a :: tasks → s.step .main = some next → b ≠ a →
        next.closed b = s.closed b ∧
          ∀ uid, s.m_sessions uid = some b → next.m_sessions uid = some b := by
  have kept := reachable_kept reachable distinct
  refine ⟨kept.latest, fun session => kept.closed, ?_⟩
  intro a b tasks next waiting taken differ
  have completed : s.completed a = true := (kept.taken waiting).1
  rw [step_main waiting, runMain, take_removeSelfImpl] at taken
  cases taken
  rcases kept.removal distinct completed with ⟨own, removed⟩ | ⟨gone, removed⟩
  · rw [removed]
    refine ⟨Function.update_of_ne differ _ _, fun uid found => ?_⟩
    simp only [take, Function.update_apply]
    split
    · next home =>
      rw [home, own] at found
      exact absurd (Option.some.inj found).symm differ
    · exact found
  · rw [removed]
    exact ⟨rfl, fun uid found => found⟩

/-- A client that connects twice: the second session displaces the first, whose read then
fails. -/
theorem latest_kept_displaced :
    ∃ s : TcpServer Bool, s.m_sessions [7] = some true ∧ s.main = [.remove false] ∧
      s.closed false = true ∧
      ((∀ uid session, s.m_sessions uid = some session ↔
          Latest s.m_uid s.ran uid session) ∧
        (∀ session, .add session ∈ s.ran →
          s.m_sessions (s.m_uid session) ≠ some session → s.closed session = true) ∧
        ∀ a b tasks next, s.main = .remove a :: tasks → s.step .main = some next → b ≠ a →
          next.closed b = s.closed b ∧
            ∀ uid, s.m_sessions uid = some b → next.m_sessions uid = some b) := by
  have taken : Transition.run step (fresh fun _ => 0)
      [Event.complete false [7] 10000, .complete true [7] 10001, .main, .main,
        .failed false] = some _ := rfl
  have reachable := Transition.reachable_run taken
  refine ⟨_, rfl, rfl, rfl, latest_kept _ reachable ?_⟩
  intro a b _ _
  cases a <;> cases b <;> decide

end Nicenet.Tcp.TcpServer
