import Mathlib.Data.List.Basic
import Nicenet.Library.Shared
import Nicenet.Library.Transition

/-!
# The pool of MySQL connections

`init` opens the connections, `popConn` hands them out behind shared pointers, and the
last of these gives the connection back. Any number of threads do so at once, by hand or
in `execute` and `query`; the pool is changed under its lock alone. A result set is freed
by `execute`, or with the last pointer to the `MysqlResult` that `query` has made.

What the client library does is in the events: whether a connection is made, and what a
statement ends with.
-/

namespace Nicenet.Mysql

open Library

variable {ι η ρ : Type}

structure MysqlError where
  code : UInt32
  message : String
  deriving DecidableEq, Repr

def MysqlError.ok (error : MysqlError) : Bool := error.code = 0

structure MysqlResult (ρ : Type) where
  errCode : Int32
  errMsg : String
  res : Option ρ
  rowCount : Int32
  deriving DecidableEq, Repr

/-- The constructor. The rows have all been fetched with the result set. -/
def MysqlResult.new (mysql_num_rows : ρ → UInt64) (ec : Int32) (em : String) (r : Option ρ) :
    MysqlResult ρ :=
  ⟨ec, em, r, (r.map fun res => (mysql_num_rows res).toUInt32.toInt32).getD 0⟩

def MysqlResult.ok (result : MysqlResult ρ) : Bool := result.errCode = 0

/-- An object of its own for each connection that is popped; `number` tells them apart. -/
structure MysqlConnection (η : Type) where
  number : Nat
  handle : η
  deriving DecidableEq, Repr

structure MysqlConnectionPool (η : Type) where
  m_dbname : String
  m_poolSize : Int32
  m_pool : List η
  deriving DecidableEq, Repr

/-- What comes of one attempt to connect: no memory for a handle, a handle that
`mysql_real_connect` has failed for, or a connection. -/
inductive Attempt (η : Type) where
  | unavailable
  | refused (conn : η)
  | connected (conn : η)
  deriving DecidableEq, Repr

/-- `init` on its way: the pool, the handles closed again, and what is returned. -/
structure Opening (η : Type) where
  m_pool : List η
  closed : List η
  ok : Bool
  deriving DecidableEq, Repr

namespace MysqlConnectionPool

/-- The loop of `init` with `left` rounds to go, and the test behind it. -/
def connect (attempts : Nat → Attempt η) : Nat → Nat → Opening η → Opening η
  | 0, _, opening => { opening with ok := !opening.m_pool.isEmpty }
  | left + 1, i, opening =>
      match attempts i with
      | .unavailable => { opening with ok := false }
      | .refused conn =>
          let opening := { opening with closed := opening.closed ++ [conn] }
          if i = 0 then { opening with ok := false } else connect attempts left (i + 1) opening
      | .connected conn =>
          connect attempts left (i + 1) { opening with m_pool := opening.m_pool ++ [conn] }

/-- `init` of a new pool. -/
def init (attempts : Nat → Attempt η) (dbname : String) (poolSize : Int32) :
    MysqlConnectionPool η × Bool :=
  let opening := connect attempts poolSize.toInt.toNat 0 ⟨[], [], true⟩
  (⟨dbname, poolSize, opening.m_pool⟩, opening.ok)

def getDBName (pool : MysqlConnectionPool η) : String := pool.m_dbname

def popConn (pool : MysqlConnectionPool η) : Option (η × MysqlConnectionPool η) :=
  match pool.m_pool with
  | [] => none
  | c :: m_pool => some (c, { pool with m_pool := m_pool })

def pushConn (pool : MysqlConnectionPool η) : Option η → MysqlConnectionPool η
  | none => pool
  | some conn => { pool with m_pool := pool.m_pool ++ [conn] }

end MysqlConnectionPool

/-- How a statement ends: the results of `mysql_real_query`, of `mysql_errno` and
`mysql_error`, and of `mysql_store_result`. -/
structure Answer (ρ : Type) where
  realQuery : Int32
  errno : UInt32
  error : String
  result : Option ρ
  deriving DecidableEq, Repr

/-- What `execute` returns, and the result set that it frees. -/
def execute (c : Option (MysqlConnection η)) (answer : Answer ρ) : MysqlError × Option ρ :=
  match c with
  | none => (⟨1, "pool empty"⟩, none)
  | some _ =>
      if answer.realQuery ≠ 0 then (⟨answer.errno, answer.error⟩, none)
      else (⟨0, ""⟩, answer.result)

/-- What `query` returns. -/
def query (mysql_num_rows : ρ → UInt64) (c : Option (MysqlConnection η)) (answer : Answer ρ) :
    MysqlResult ρ :=
  match c with
  | none => .new mysql_num_rows 1 "pool empty" none
  | some _ =>
      if answer.realQuery ≠ 0 then
        .new mysql_num_rows answer.errno.toInt32 answer.error none
      else .new mysql_num_rows 0 "" answer.result

/-- The result set of a `MysqlResult`, of which the numbers tell one from the other. -/
def resultSet (entry : Nat × MysqlResult ρ) : Option ρ := entry.2.res

/-- A pool, the pointers to its connections and to results. `connected` records what `init`
has opened, `stored` and `freed` the result sets, `closed` what the destructor of the pool
has closed. -/
structure Pooled (ι η ρ : Type) where
  pool : MysqlConnectionPool η
  connected : List η
  conns : Shared ι (MysqlConnection η)
  results : Shared ι (Nat × MysqlResult ρ)
  stored : List ρ
  freed : List ρ
  closed : List η
  gone : Bool

namespace Pooled

/-- A pool behind `init`. -/
def fresh (pool : MysqlConnectionPool η) : Pooled ι η ρ :=
  ⟨pool, pool.m_pool, .empty, .empty, [], [], [], false⟩

/-- `popConn` for a pointer that is null: it stays null when there is no connection. -/
def popConn (s : Pooled ι η ρ) (owner : ι) : Pooled ι η ρ :=
  match s.pool.popConn with
  | none => s
  | some (c, pool) =>
      { s with pool := pool, conns := s.conns.make owner ⟨s.conns.made.length, c⟩ }

section Owners

variable [DecidableEq ι]

/-- A pointer to a connection is reset: the last one runs `~MysqlConnection`. -/
def resetConn [DecidableEq η] (s : Pooled ι η ρ) (owner : ι) : Pooled ι η ρ :=
  { s with
    pool := s.pool.pushConn ((s.conns.last? owner).map MysqlConnection.handle)
    conns := s.conns.reset owner }

/-- `execute` with the connection of a pointer. -/
def execute (s : Pooled ι η ρ) (owner : ι) (answer : Answer ρ) : Pooled ι η ρ :=
  let freed := (Mysql.execute (s.conns.object? owner) answer).2
  { s with stored := s.stored ++ freed.toList, freed := s.freed ++ freed.toList }

/-- `query` with the connection of a pointer, and another pointer for what it returns. -/
def query (mysql_num_rows : ρ → UInt64) (s : Pooled ι η ρ) (owner result : ι)
    (answer : Answer ρ) : Pooled ι η ρ :=
  let returned := Mysql.query mysql_num_rows (s.conns.object? owner) answer
  { s with
    results := s.results.make result (s.results.made.length, returned)
    stored := s.stored ++ returned.res.toList }

/-- A pointer to a result is reset: the last one runs `~MysqlResult`. -/
def resetResult [DecidableEq ρ] (s : Pooled ι η ρ) (owner : ι) : Pooled ι η ρ :=
  { s with
    results := s.results.reset owner
    freed := s.freed ++ ((s.results.last? owner).bind resultSet).toList }

end Owners

/-- `~MysqlConnectionPool`. -/
def destroy (s : Pooled ι η ρ) : Pooled ι η ρ :=
  { s with
    pool := { s.pool with m_pool := [] }
    closed := s.closed ++ s.pool.m_pool
    gone := true }

inductive Event (ι ρ : Type) where
  | popConn (owner : ι)
  | shareConn (owner other : ι)
  | resetConn (owner : ι)
  | execute (owner : ι) (answer : Answer ρ)
  | query (owner result : ι) (answer : Answer ρ)
  | shareResult (owner other : ι)
  | resetResult (owner : ι)
  | destroy
  deriving DecidableEq, Repr

/-- Connections that are open at the same time are not the same. -/
def Apart (attempts : Nat → Attempt η) : Prop :=
  ∀ i j conn, attempts i = .connected conn → attempts j = .connected conn → i = j

/-- Pointers that are set are null before, and each result set is a new one. Whatever the
result of `init` was, any order of steps may follow, up to the use of a pool that is
gone. -/
def system [DecidableEq ι] [DecidableEq η] [DecidableEq ρ] (mysql_num_rows : ρ → UInt64) :
    Transition (Pooled ι η ρ) (Event ι ρ) where
  initial s := ∃ attempts dbname poolSize, Apart attempts ∧
    s = fresh (MysqlConnectionPool.init attempts dbname poolSize).1
  step s event next :=
    match event with
    | .popConn owner => s.gone = false ∧ s.conns.Free owner ∧ next = s.popConn owner
    | .shareConn owner other => s.conns.Free other ∧
        next = { s with conns := s.conns.share owner other }
    | .resetConn owner => (s.gone = false ∨ s.conns.last? owner = none) ∧
        next = s.resetConn owner
    | .execute owner answer => (∀ r, answer.result = some r → r ∉ s.stored) ∧
        next = s.execute owner answer
    | .query owner result answer => s.results.Free result ∧
        (∀ r, answer.result = some r → r ∉ s.stored) ∧
        next = s.query mysql_num_rows owner result answer
    | .shareResult owner other => s.results.Free other ∧
        next = { s with results := s.results.share owner other }
    | .resetResult owner => next = s.resetResult owner
    | .destroy => s.gone = false ∧ next = s.destroy

/-- The connections that somebody has. -/
def leased [DecidableEq η] (s : Pooled ι η ρ) : List η :=
  s.conns.objects.map MysqlConnection.handle

/-- The result sets that somebody has. -/
def held [DecidableEq ρ] (s : Pooled ι η ρ) : List ρ :=
  s.results.objects.filterMap resultSet

/-! ## What the functions do -/

/-- The loop puts each connection into the pool once. -/
theorem connect_nodup {attempts : Nat → Attempt η} (apart : Apart attempts) (left : Nat) :
    ∀ {i : Nat} {opening : Opening η}, opening.m_pool.Nodup →
      (∀ conn ∈ opening.m_pool, ∃ j < i, attempts j = .connected conn) →
      (MysqlConnectionPool.connect attempts left i opening).m_pool.Nodup := by
  induction left with
  | zero => exact fun nodup _ => nodup
  | succ left ih =>
      intro i opening nodup before
      have later : ∀ conn ∈ opening.m_pool, ∃ j < i + 1, attempts j = .connected conn := by
        intro conn member
        obtain ⟨j, less, attempt⟩ := before conn member
        exact ⟨j, Nat.lt_succ_of_lt less, attempt⟩
      rw [MysqlConnectionPool.connect]
      split
      · exact nodup
      · split
        · exact nodup
        · exact ih nodup later
      · next conn attempt =>
        apply ih
        · refine List.nodup_append.mpr ⟨nodup, List.nodup_singleton _, ?_⟩
          rintro one member other added rfl
          cases List.mem_singleton.mp added
          obtain ⟨j, less, same⟩ := before conn member
          exact absurd (apart j i conn same attempt) (Nat.ne_of_lt less)
        · refine List.forall_mem_append.mpr ⟨later, List.forall_mem_singleton.mpr ?_⟩
          exact ⟨i, Nat.lt_succ_self i, attempt⟩

theorem execute_frees {c : Option (MysqlConnection η)} {answer : Answer ρ} {r : ρ}
    (frees : r ∈ (Mysql.execute c answer).2) : answer.result = some r := by
  cases c with
  | none => cases frees
  | some c =>
      simp only [Mysql.execute] at frees
      split at frees
      · cases frees
      · exact frees

theorem query_stores {mysql_num_rows : ρ → UInt64} {c : Option (MysqlConnection η)}
    {answer : Answer ρ} {r : ρ} (stores : r ∈ (Mysql.query mysql_num_rows c answer).res) :
    answer.result = some r := by
  cases c with
  | none => cases stores
  | some c =>
      simp only [Mysql.query] at stores
      split at stores
      · cases stores
      · exact stores

/-! ## Every run -/

variable [DecidableEq ρ]

/-- Objects go by their numbers; connections come back in the order in which they are let
go of, and the pool has those that have not been popped again. -/
structure Conserved (s : Pooled ι η ρ) : Prop where
  conns : s.conns.Kept
  results : s.results.Kept
  numbered : ∀ c ∈ s.conns.made, c.number < s.conns.made.length
  counted : ∀ r ∈ s.results.made, r.1 < s.results.made.length
  apart : s.connected.Nodup
  queue : s.connected ++ s.conns.destroyed.map MysqlConnection.handle =
    s.conns.made.map MysqlConnection.handle ++ (s.closed ++ s.pool.m_pool)
  whole : s.gone = false → s.closed = []
  new : s.stored.Nodup
  accounted : s.stored.Perm (s.freed ++ s.held)

variable {s next : Pooled ι η ρ}

theorem fresh_conserved {pool : MysqlConnectionPool η} (apart : pool.m_pool.Nodup) :
    (fresh pool : Pooled ι η ρ).Conserved where
  conns := Shared.empty_kept
  results := Shared.empty_kept
  numbered _ member := absurd member List.not_mem_nil
  counted _ member := absurd member List.not_mem_nil
  apart := apart
  queue := by simp [fresh, Shared.empty]
  whole _ := rfl
  new := .nil
  accounted := by simp [fresh, held, Shared.objects, Shared.empty]

theorem Conserved.popConn (conserved : s.Conserved) (alive : s.gone = false) {owner : ι}
    (free : s.conns.Free owner) : (s.popConn owner).Conserved := by
  rw [Pooled.popConn, MysqlConnectionPool.popConn]
  have queue := conserved.queue
  cases pool : s.pool.m_pool with
  | nil => exact conserved
  | cons c m_pool =>
      have new : (⟨s.conns.made.length, c⟩ : MysqlConnection η) ∉ s.conns.made := fun member =>
        Nat.lt_irrefl _ (conserved.numbered _ member)
      refine ⟨conserved.conns.make free new, conserved.results,
        Shared.numbers_append conserved.numbered rfl, conserved.counted, conserved.apart, ?_,
        conserved.whole, conserved.new, conserved.accounted⟩
      rw [pool, conserved.whole alive, List.nil_append] at queue
      change _ = (s.conns.made ++ [_]).map _ ++ (s.closed ++ m_pool)
      rw [conserved.whole alive, List.nil_append, List.map_append, List.append_assoc]
      exact queue

/-- A result set that is stored is a new one. -/
theorem Conserved.stores (conserved : s.Conserved) {result : Option ρ}
    (new : ∀ r ∈ result, r ∉ s.stored) : (s.stored ++ result.toList).Nodup := by
  refine List.nodup_append.mpr ⟨conserved.new, ?_, ?_⟩
  · cases result with
    | none => exact .nil
    | some r => exact List.nodup_singleton r
  · rintro one member other added rfl
    exact new one (Option.mem_toList.mp added) member

section Owners

variable [DecidableEq ι]

theorem Conserved.shareConn (conserved : s.Conserved) {owner other : ι}
    (free : s.conns.Free other) :
    Conserved { s with conns := s.conns.share owner other } := by
  have same : (s.conns.share owner other).made = s.conns.made ∧
      (s.conns.share owner other).destroyed = s.conns.destroyed := by
    rw [Shared.share]
    split <;> exact ⟨rfl, rfl⟩
  have queue := conserved.queue
  have numbered := conserved.numbered
  rw [← same.1, ← same.2] at queue
  rw [← same.1] at numbered
  exact ⟨conserved.conns.share owner free, conserved.results, numbered, conserved.counted,
    conserved.apart, queue, conserved.whole, conserved.new, conserved.accounted⟩

theorem Conserved.resetConn [DecidableEq η] (conserved : s.Conserved) (owner : ι) :
    (s.resetConn owner).Conserved := by
  refine ⟨conserved.conns.reset owner, conserved.results, conserved.numbered, conserved.counted,
    conserved.apart, ?_, conserved.whole, conserved.new, conserved.accounted⟩
  have queue := conserved.queue
  rw [Pooled.resetConn, Shared.reset, List.map_append, ← List.append_assoc, queue]
  cases s.conns.last? owner with
  | none => simp [MysqlConnectionPool.pushConn]
  | some c => simp [MysqlConnectionPool.pushConn]

theorem Conserved.execute (conserved : s.Conserved) (owner : ι) {answer : Answer ρ}
    (new : ∀ r, answer.result = some r → r ∉ s.stored) : (s.execute owner answer).Conserved := by
  refine ⟨conserved.conns, conserved.results, conserved.numbered, conserved.counted,
    conserved.apart, conserved.queue, conserved.whole, ?_, ?_⟩
  · exact conserved.stores fun r frees => new r (execute_frees frees)
  · have accounted := conserved.accounted.append_right
      (Mysql.execute (s.conns.object? owner) answer).2.toList
    rw [List.append_assoc] at accounted
    refine accounted.trans ?_
    rw [Pooled.execute, List.append_assoc]
    exact List.perm_append_comm.append_left _

theorem Conserved.query (conserved : s.Conserved) (mysql_num_rows : ρ → UInt64)
    (owner : ι) {result : ι} {answer : Answer ρ} (free : s.results.Free result)
    (new : ∀ r, answer.result = some r → r ∉ s.stored) :
    (s.query mysql_num_rows owner result answer).Conserved := by
  have fresh : (s.results.made.length, Mysql.query mysql_num_rows (s.conns.object? owner)
      answer) ∉ s.results.made := fun member =>
    Nat.lt_irrefl _ (conserved.counted _ member)
  refine ⟨conserved.conns, conserved.results.make free fresh, conserved.numbered,
    Shared.numbers_append conserved.counted rfl, conserved.apart, conserved.queue, conserved.whole,
    ?_, ?_⟩
  · exact conserved.stores fun r stores => new r (query_stores stores)
  · have objects := (conserved.results.objects_make free fresh).filterMap resultSet
    rw [List.filterMap_append] at objects
    have accounted := conserved.accounted.append_right
      (Mysql.query mysql_num_rows (s.conns.object? owner) answer).res.toList
    rw [List.append_assoc] at accounted
    refine accounted.trans (List.Perm.append_left _ (List.Perm.trans ?_ objects.symm))
    rw [held]
    apply List.Perm.append_left
    obtain ⟨code, message, res, rows⟩ :=
      Mysql.query mysql_num_rows (s.conns.object? owner) answer
    cases res <;> rfl

theorem Conserved.shareResult (conserved : s.Conserved) {owner other : ι}
    (free : s.results.Free other) :
    Conserved { s with results := s.results.share owner other } := by
  have made : (s.results.share owner other).made = s.results.made := by
    rw [Shared.share]
    split <;> rfl
  have counted := conserved.counted
  rw [← made] at counted
  have objects := (conserved.results.objects_share owner free).filterMap resultSet
  exact ⟨conserved.conns, conserved.results.share owner free, conserved.numbered, counted,
    conserved.apart, conserved.queue, conserved.whole, conserved.new,
    conserved.accounted.trans (objects.symm.append_left s.freed)⟩

theorem Conserved.resetResult (conserved : s.Conserved) (owner : ι) :
    (s.resetResult owner).Conserved := by
  refine ⟨conserved.conns, conserved.results.reset owner, conserved.numbered, conserved.counted,
    conserved.apart, conserved.queue, conserved.whole, conserved.new, ?_⟩
  have objects : s.held.Perm _ :=
    (conserved.results.objects_reset owner).filterMap resultSet
  rw [List.filterMap_append] at objects
  refine conserved.accounted.trans ((objects.append_left s.freed).trans ?_)
  rw [Pooled.resetResult, List.append_assoc]
  apply List.Perm.append_left
  cases s.results.last? owner with
  | none => rfl
  | some entry =>
      obtain ⟨number, code, message, res, rows⟩ := entry
      cases res <;> rfl

end Owners

theorem Conserved.destroy (conserved : s.Conserved) : s.destroy.Conserved where
  conns := conserved.conns
  results := conserved.results
  numbered := conserved.numbered
  counted := conserved.counted
  apart := conserved.apart
  queue := by
    rw [Pooled.destroy]
    simp only [List.append_nil]
    exact conserved.queue
  whole := Bool.noConfusion
  new := conserved.new
  accounted := conserved.accounted

section Runs

variable [DecidableEq ι] [DecidableEq η] {mysql_num_rows : ρ → UInt64}

theorem conserved_of_reachable
    (reachable : (@system ι η ρ _ _ _ mysql_num_rows).Reachable s) : s.Conserved := by
  apply reachable.invariant
  · rintro s ⟨attempts, dbname, poolSize, apart, rfl⟩
    exact fresh_conserved (connect_nodup apart _ .nil fun _ member =>
      absurd member List.not_mem_nil)
  · intro s event next conserved step
    cases event with
    | popConn owner =>
        obtain ⟨alive, free, rfl⟩ := step
        exact conserved.popConn alive free
    | shareConn owner other =>
        obtain ⟨free, rfl⟩ := step
        exact conserved.shareConn free
    | resetConn owner =>
        obtain ⟨-, rfl⟩ := step
        exact conserved.resetConn owner
    | execute owner answer =>
        obtain ⟨new, rfl⟩ := step
        exact conserved.execute owner new
    | query owner result answer =>
        obtain ⟨free, new, rfl⟩ := step
        exact conserved.query mysql_num_rows owner free new
    | shareResult owner other =>
        obtain ⟨free, rfl⟩ := step
        exact conserved.shareResult free
    | resetResult owner =>
        cases step
        exact conserved.resetResult owner
    | destroy =>
        obtain ⟨-, rfl⟩ := step
        exact conserved.destroy

omit [DecidableEq ι] in
theorem Conserved.perm (conserved : s.Conserved) :
    (s.closed ++ s.pool.m_pool ++ s.leased).Perm s.connected := by
  have made := conserved.conns.perm.map MysqlConnection.handle
  rw [List.map_append] at made
  have both : (s.connected ++ s.conns.destroyed.map MysqlConnection.handle).Perm
      (s.conns.destroyed.map MysqlConnection.handle ++
        (s.leased ++ (s.closed ++ s.pool.m_pool))) := by
    rw [conserved.queue, ← List.append_assoc (s.conns.destroyed.map _)]
    exact made.append_right _
  have rest := (List.perm_append_left_iff _).mp (List.perm_append_comm.trans both)
  exact (List.perm_append_comm.trans rest.symm)

/-- In every order of the steps, each connection that `init` has opened is in the pool, has
one `MysqlConnection` that somebody holds, or has been closed with the pool, and is so once:
none is lost and no two objects have the same. `popConn` returns null exactly if all of them
are held. They are handed out in the order in which they have come back. Each result set has
been freed once, or is in one `MysqlResult` that somebody holds. -/
theorem pool_conserves (reachable : (@system ι η ρ _ _ _ mysql_num_rows).Reachable s) :
    (s.closed ++ s.pool.m_pool ++ s.leased).Perm s.connected ∧
    (∀ first ∈ s.conns.objects, ∀ second ∈ s.conns.objects,
      first.handle = second.handle → first = second) ∧
    (s.gone = false → (s.pool.popConn = none ↔ s.leased.Perm s.connected)) ∧
    s.connected ++ s.conns.destroyed.map MysqlConnection.handle =
      s.conns.made.map MysqlConnection.handle ++ (s.closed ++ s.pool.m_pool) ∧
    s.stored.Nodup ∧ s.stored.Perm (s.freed ++ s.held) := by
  have conserved := conserved_of_reachable reachable
  have perm := conserved.perm
  refine ⟨perm, ?_, fun alive => ?_, conserved.queue, conserved.new, conserved.accounted⟩
  · have nodup : s.leased.Nodup :=
      (List.nodup_append.mp (perm.nodup_iff.mpr conserved.apart)).2.1
    intro first one second two same
    exact List.inj_on_of_nodup_map nodup one two same
  · rw [conserved.whole alive, List.nil_append] at perm
    have empty : s.pool.popConn = none ↔ s.pool.m_pool = [] := by
      rw [MysqlConnectionPool.popConn]
      cases s.pool.m_pool <;> simp
    rw [empty]
    constructor
    · intro none
      rwa [none] at perm
    · intro all
      have lengths := perm.length_eq.trans all.length_eq.symm
      rw [List.length_append] at lengths
      exact List.length_eq_zero_iff.mp (by omega)

end Runs

/-- Two connections, the first of them with a result set. -/
theorem pool_conserves_two : ∃ s : Pooled Nat Nat Nat,
    s.leased = [0] ∧ s.pool.m_pool = [1] ∧ s.stored.Perm (s.freed ++ s.held) ∧ s.held = [7] := by
  have begun : (@system Nat Nat Nat _ _ _ fun _ => 1).Reachable
      (fresh ⟨"db", 2, [0, 1]⟩) :=
    .initial ⟨fun i => .connected i, "db", 2, fun i j conn first second => by
      cases first
      cases second
      rfl, congrArg fresh (by decide +kernel)⟩
  have popped := begun.step (show (@system Nat Nat Nat _ _ _ fun _ => 1).step _
    (.popConn 0) _ from ⟨rfl, fun _ => List.not_mem_nil, rfl⟩)
  have queried := popped.step (show (@system Nat Nat Nat _ _ _ fun _ => 1).step _
    (.query 0 0 ⟨0, 0, "", some 7⟩) _ from
      ⟨fun _ => List.not_mem_nil, fun _ _ => List.not_mem_nil, rfl⟩)
  exact ⟨_, rfl, rfl, (pool_conserves queried).2.2.2.2.2, rfl⟩

end Pooled

end Nicenet.Mysql
