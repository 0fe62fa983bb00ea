import Mathlib.Data.List.Pairwise
import Nicenet.Library.Shared
import Nicenet.Library.Transition

/-!
# The pool of MongoDB clients

libmongoc hands out each of its clients to one holder at a time. `init` pops one for a ping,
`popClient` puts one behind a shared pointer, and the last of these pushes it back. A query
is copied into a `MongoCursor`, which destroys what is left of it in the end; what `fetch`
takes goes to a `Bson`.

What libmongoc does is in the events.
-/

namespace Nicenet.Mongo

open Library

variable {ι γ β : Type}

/-- `MONGOC_URI_MAXPOOLSIZE`, as `init` sets it. -/
def maxPoolSize : Nat := 100

/-- `m_cursorImpl` are the documents copied and not fetched. -/
structure MongoCursor (β : Type) where
  m_err : Int32
  m_cursorImpl : List β
  deriving DecidableEq, Repr

namespace MongoCursor

/-- The constructor. `cursor` is what `mongoc_cursor_next` gives, of which some may be null. -/
def new (err : Int32) (cursor : Option (List (Option β))) : MongoCursor β :=
  ⟨err, (cursor.getD []).filterMap id⟩

def fetch (c : MongoCursor β) : Option β × MongoCursor β :=
  match c.m_cursorImpl with
  | [] => (none, c)
  | front :: m_cursorImpl => (some front, { c with m_cursorImpl := m_cursorImpl })

end MongoCursor

/-- What `~BsonT` destroys. -/
def BsonT.destroy (isView : Bool) (m_bson : Option β) : Option β :=
  if isView then m_bson else none

/-- An object of its own for each client that is popped; `number` tells them apart. -/
structure MongoClient (γ : Type) where
  number : Nat
  m_dbname : String
  m_client : γ
  deriving DecidableEq, Repr

/-- `MongoClient::find`: there may be no collection or no cursor. -/
def MongoClient.find (_ : MongoClient γ) (cursor : Option (List (Option β))) : MongoCursor β :=
  match cursor with
  | none => .new 2 none
  | some documents => .new 0 (some documents)

/-- Of the pool of libmongoc, the clients that are popped and not pushed. -/
structure MongoConnectionPool (γ : Type) where
  m_dbname : String
  m_poolImpl : Option (List γ)
  deriving DecidableEq, Repr

/-- How the calls of libmongoc in `init` end. -/
structure Setup (γ : Type) where
  uri_new : Bool
  uri_set_appname : Bool
  uri_set_option : Bool
  write_concern_new : Bool
  client_pool_new : Bool
  client_pool_pop : Option γ
  command_simple : Bool
  deriving DecidableEq, Repr

namespace MongoConnectionPool

def pop (pool : MongoConnectionPool γ) (client : γ) : MongoConnectionPool γ :=
  { pool with m_poolImpl := pool.m_poolImpl.map (client :: ·) }

def push [DecidableEq γ] (pool : MongoConnectionPool γ) (client : γ) : MongoConnectionPool γ :=
  { pool with m_poolImpl := pool.m_poolImpl.map (·.erase client) }

/-- `init` of a new pool. The client of the ping is pushed back when the ping fails. -/
def init [DecidableEq γ] (setup : Setup γ) (dbname appName : String) :
    MongoConnectionPool γ × Bool :=
  let closed : MongoConnectionPool γ := ⟨"", none⟩
  if !setup.uri_new then (closed, false)
  else if appName ≠ "" ∧ !setup.uri_set_appname then (closed, false)
  else if !setup.uri_set_option then (closed, false)
  else if !setup.write_concern_new then (closed, false)
  else if !setup.client_pool_new then (closed, false)
  else
    let pool : MongoConnectionPool γ := ⟨"", some []⟩
    match setup.client_pool_pop with
    | none => (pool, false)
    | some client =>
        let pool := pool.pop client
        if !setup.command_simple then (pool.push client, false)
        else ({ pool with m_dbname := dbname }, true)

def getDBName (pool : MongoConnectionPool γ) : String := pool.m_dbname

/-- The clients that libmongoc has handed out. -/
def popped (pool : MongoConnectionPool γ) : List γ := pool.m_poolImpl.getD []

end MongoConnectionPool

/-- A cursor; `copied` and `fetched` only record its documents. -/
structure Found (β : Type) where
  cursor : MongoCursor β
  copied : List β
  fetched : List β
  gone : Bool
  deriving DecidableEq, Repr

def Found.new (cursor : MongoCursor β) : Found β := ⟨cursor, cursor.m_cursorImpl, [], false⟩

def Found.fetch (found : Found β) : Found β :=
  { found with
    cursor := found.cursor.fetch.2
    fetched := found.fetched ++ found.cursor.fetch.1.toList }

/-- A document that is fetched is the first that is left. -/
theorem Found.fetch_documents (found : Found β) :
    found.fetched ++ found.cursor.m_cursorImpl =
      found.fetch.fetched ++ found.fetch.cursor.m_cursorImpl := by
  obtain ⟨⟨m_err, m_cursorImpl⟩, copied, fetched, gone⟩ := found
  rw [Found.fetch, MongoCursor.fetch, List.append_assoc]
  cases m_cursorImpl with
  | nil => rfl
  | cons front m_cursorImpl => rfl

/-- A pool, the pointers to its clients, and cursors. `ok` records what `init` has returned and
`pinged` what it has left popped, `destroyed` the documents destroyed. -/
structure Pooled (ι γ β : Type) where
  pool : MongoConnectionPool γ
  ok : Bool
  pinged : List γ
  clients : Shared ι (MongoClient γ)
  cursors : List (Found β)
  destroyed : List β
  gone : Bool

namespace Pooled

/-- A pool behind `init`. -/
def fresh (opened : MongoConnectionPool γ × Bool) : Pooled ι γ β :=
  ⟨opened.1, opened.2, opened.1.popped, .empty, [], [], false⟩

/-- `popClient` for a pointer that is null. -/
def popClient (s : Pooled ι γ β) (owner : ι) : Option γ → Pooled ι γ β
  | none => s
  | some c => { s with
      pool := s.pool.pop c
      clients := s.clients.make owner ⟨s.clients.made.length, s.pool.getDBName, c⟩ }

def found (s : Pooled ι γ β) (cursor : MongoCursor β) : Pooled ι γ β :=
  { s with cursors := s.cursors ++ [.new cursor] }

/-- `MongoConnectionPool::find`, whose pointer to a client is gone when it returns. -/
def find [DecidableEq γ] (s : Pooled ι γ β) (client : Option γ)
    (cursor : Option (List (Option β))) : Pooled ι γ β :=
  match client with
  | none => s.found (.new 2 none)
  | some c =>
      let client : MongoClient γ := ⟨s.clients.made.length, s.pool.getDBName, c⟩
      { s.found (client.find cursor) with pool := (s.pool.pop c).push c }

inductive Event (ι γ β : Type) where
  | popClient (owner : ι) (client : Option γ)
  | share (owner other : ι)
  | reset (owner : ι)
  | find (client : Option γ) (cursor : Option (List (Option β)))
  | query (owner : ι) (cursor : Option (List (Option β)))
  | fetch (index : Nat)
  | release (index : Nat) (document : β)
  | drop (index : Nat)
  | destroy
  deriving DecidableEq, Repr

section Owners

variable [DecidableEq ι] [DecidableEq γ]

/-- A pointer to a client is reset: the last one runs `~MongoClient`. -/
def reset (s : Pooled ι γ β) (owner : ι) : Pooled ι γ β :=
  { s with
    pool := match s.clients.last? owner with
      | none => s.pool
      | some client => s.pool.push client.m_client
    clients := s.clients.reset owner }

/-- libmongoc has a client for another holder. -/
def Available (s : Pooled ι γ β) (client : Option γ) : Prop :=
  s.gone = false ∧ s.pool.m_poolImpl.isSome ∧ s.pool.popped.length < maxPoolSize ∧
    ∀ c ∈ client, c ∉ s.pool.popped

/-- The documents of a cursor are copies of its own. -/
def Copies (s : Pooled ι γ β) (cursor : Option (List (Option β))) : Prop :=
  (s.cursors.flatMap Found.copied ++ (cursor.getD []).filterMap id).Nodup

/-- Pointers that are set are null before. Any order of steps may follow on `init`, up to the
use of a pool that is gone. -/
def system : Transition (Pooled ι γ β) (Event ι γ β) where
  initial s := ∃ setup dbname appName,
    s = fresh (MongoConnectionPool.init setup dbname appName)
  step s event next :=
    match event with
    | .popClient owner client => s.Available client ∧ s.clients.Free owner ∧
        next = s.popClient owner client
    | .share owner other => s.clients.Free other ∧
        next = { s with clients := s.clients.share owner other }
    | .reset owner => (s.gone = false ∨ s.clients.last? owner = none) ∧ next = s.reset owner
    | .find client cursor => s.Available client ∧ s.Copies cursor ∧ next = s.find client cursor
    | .query owner cursor => s.gone = false ∧ s.Copies cursor ∧
        ∃ client, s.clients.object? owner = some client ∧ next = s.found (client.find cursor)
    | .fetch index => ∃ found, s.cursors[index]? = some found ∧ found.gone = false ∧
        next = { s with cursors := s.cursors.set index found.fetch }
    | .release index document => ∃ found, s.cursors[index]? = some found ∧
        document ∈ found.fetched ∧
        next = { s with
          destroyed := s.destroyed ++ (BsonT.destroy false (some document)).toList }
    | .drop index => ∃ found, s.cursors[index]? = some found ∧ found.gone = false ∧
        next = { s with
          cursors := s.cursors.set index { found with gone := true }
          destroyed := s.destroyed ++ found.cursor.m_cursorImpl }
    | .destroy => s.gone = false ∧ next = { s with gone := true }

/-- The clients that somebody has. -/
def leased (s : Pooled ι γ β) : List γ := s.clients.objects.map MongoClient.m_client

/-- The documents that cursors which are gone had left. -/
def left (s : Pooled ι γ β) : List β :=
  (s.cursors.filter Found.gone).flatMap fun found => found.cursor.m_cursorImpl

end Owners

/-! ## What the functions do -/

variable [DecidableEq γ]

/-- A client that is popped and pushed back leaves no trace. -/
theorem push_pop (pool : MongoConnectionPool γ) (client : γ) :
    (pool.pop client).push client = pool := by
  obtain ⟨m_dbname, m_poolImpl⟩ := pool
  cases m_poolImpl with
  | none => rfl
  | some popped =>
      simp only [MongoConnectionPool.pop, MongoConnectionPool.push, Option.map_some,
        List.erase_cons_head]

theorem popped_push (pool : MongoConnectionPool γ) (client : γ) :
    (pool.push client).popped = pool.popped.erase client := by
  rw [MongoConnectionPool.popped, MongoConnectionPool.push, MongoConnectionPool.popped]
  cases pool.m_poolImpl with
  | none => rfl
  | some popped => rfl

/-- `init` leaves the client of its ping popped exactly if it returns true. -/
theorem init_popped (setup : Setup γ) (dbname appName : String) :
    (MongoConnectionPool.init setup dbname appName).1.popped.length =
      (MongoConnectionPool.init setup dbname appName).2.toNat := by
  simp only [MongoConnectionPool.init, push_pop]
  repeat' split
  all_goals rfl

/-! ## Every run -/

/-- libmongoc has handed out the client of the ping and those that somebody has, each once,
and no more than it may. Each document that a cursor has copied has been fetched from it, or
is left in it; those of cursors that are gone have been destroyed. -/
structure Conserved (s : Pooled ι γ β) : Prop where
  clients : s.clients.Kept
  numbered : ∀ c ∈ s.clients.made, c.number < s.clients.made.length
  pinged : s.pinged.length = s.ok.toNat
  popped : s.pool.popped.Perm (s.pinged ++ s.leased)
  apart : s.pool.popped.Nodup
  bounded : s.pool.popped.length ≤ maxPoolSize
  documents : ∀ found ∈ s.cursors, found.copied = found.fetched ++ found.cursor.m_cursorImpl
  new : (s.cursors.flatMap Found.copied).Nodup
  destroyed : s.destroyed.Perm s.left

variable {s next : Pooled ι γ β}

theorem fresh_conserved (setup : Setup γ) (dbname appName : String) :
    (fresh (MongoConnectionPool.init setup dbname appName) : Pooled ι γ β).Conserved := by
  have pinged := init_popped setup dbname appName
  have single : (MongoConnectionPool.init setup dbname appName).1.popped.length ≤ 1 := by
    rw [pinged]
    exact Bool.toNat_le _
  refine ⟨Shared.empty_kept, fun c member => absurd member List.not_mem_nil, pinged, ?_, ?_,
    Nat.le_trans single (by decide), fun found member => absurd member List.not_mem_nil, .nil, .nil⟩
  · rw [leased, fresh, Shared.objects, Shared.empty]
    simp
  · rw [fresh]
    generalize (MongoConnectionPool.init setup dbname appName).1.popped = popped at single
    rcases popped with _ | ⟨client, _ | ⟨_, _⟩⟩
    · exact .nil
    · exact List.nodup_singleton client
    · exact absurd single (by simp)

theorem Conserved.popClient (conserved : s.Conserved) {owner : ι} {client : Option γ}
    (available : s.Available client) (free : s.clients.Free owner) :
    (s.popClient owner client).Conserved := by
  obtain ⟨-, open_, fewer, unused⟩ := available
  cases client with
  | none => exact conserved
  | some c =>
      have new : (⟨s.clients.made.length, s.pool.getDBName, c⟩ : MongoClient γ) ∉
          s.clients.made := fun member => Nat.lt_irrefl _ (conserved.numbered _ member)
      have popped : (s.pool.pop c).popped = c :: s.pool.popped := by
        rw [MongoConnectionPool.popped, MongoConnectionPool.pop, MongoConnectionPool.popped]
        cases some : s.pool.m_poolImpl with
        | none => rw [some] at open_; cases open_
        | some popped => rfl
      have objects := (conserved.clients.objects_make free new).map MongoClient.m_client
      refine ⟨conserved.clients.make free new, Shared.numbers_append conserved.numbered rfl,
        conserved.pinged, ?_, ?_, ?_, conserved.documents, conserved.new, conserved.destroyed⟩
      · rw [Pooled.popClient, popped, leased]
        refine List.Perm.trans ?_ (objects.symm.append_left s.pinged)
        rw [List.map_append, ← List.append_assoc]
        exact (conserved.popped.cons c).trans (List.perm_append_singleton c _).symm
      · rw [Pooled.popClient, popped]
        exact List.nodup_cons.mpr ⟨unused c rfl, conserved.apart⟩
      · rw [Pooled.popClient, popped]
        exact fewer

/-- A cursor of its own for the documents of a query. -/
theorem Conserved.found (conserved : s.Conserved) {cursor : MongoCursor β}
    (copies : (s.cursors.flatMap Found.copied ++ cursor.m_cursorImpl).Nodup) :
    (s.found cursor).Conserved where
  clients := conserved.clients
  numbered := conserved.numbered
  pinged := conserved.pinged
  popped := conserved.popped
  apart := conserved.apart
  bounded := conserved.bounded
  documents := List.forall_mem_append.mpr
    ⟨conserved.documents, List.forall_mem_singleton.mpr rfl⟩
  new := by
    rw [Pooled.found, List.flatMap_append, List.flatMap_singleton]
    exact copies
  destroyed := by
    rw [Pooled.found, left, List.filter_append, List.flatMap_append]
    simpa [Found.new, left] using conserved.destroyed

/-- A cursor changes, but not what has been copied into it. -/
theorem Conserved.change (conserved : s.Conserved) {index : Nat} {found : Found β}
    (member : s.cursors[index]? = some found) (other : Found β)
    (copied : other.copied = found.copied)
    (documents : other.copied = other.fetched ++ other.cursor.m_cursorImpl)
    (alive : found.gone = false) :
    Conserved { s with
      cursors := s.cursors.set index other
      destroyed := s.destroyed ++ if other.gone then other.cursor.m_cursorImpl else [] } := by
  obtain ⟨front, back, split, changed⟩ := Transition.split_set member
  have kept := conserved.documents
  have new := conserved.new
  have before := conserved.destroyed
  rw [left, split] at before
  rw [split] at kept new
  refine ⟨conserved.clients, conserved.numbered, conserved.pinged, conserved.popped,
    conserved.apart, conserved.bounded, ?_, ?_, ?_⟩
  · rw [changed]
    rw [List.forall_mem_append, List.forall_mem_cons] at kept ⊢
    exact ⟨kept.1, documents, kept.2.2⟩
  · rw [changed]
    rw [List.flatMap_append, List.flatMap_cons] at new ⊢
    rw [copied]
    exact new
  · rw [left, changed]
    rw [List.filter_append, List.flatMap_append, List.filter_cons_of_neg (by simp [alive])]
      at before
    rw [List.filter_append, List.flatMap_append]
    cases gone : other.gone with
    | false =>
        rw [List.filter_cons_of_neg (by simp [gone]), if_neg Bool.false_ne_true, List.append_nil]
        exact before
    | true =>
        rw [List.filter_cons_of_pos gone, if_pos rfl, List.flatMap_cons, ← List.append_assoc]
        refine (before.append_right _).trans ?_
        rw [List.append_assoc, List.append_assoc]
        exact List.perm_append_comm.append_left _

omit [DecidableEq γ] in
theorem find_copies {client : MongoClient γ} {cursor : Option (List (Option β))}
    (copies : s.Copies cursor) :
    (s.cursors.flatMap Found.copied ++ (client.find cursor).m_cursorImpl).Nodup := by
  cases cursor with
  | none => exact copies
  | some documents => exact copies

section Owners

variable [DecidableEq ι]

theorem Conserved.share (conserved : s.Conserved) {owner other : ι}
    (free : s.clients.Free other) :
    Conserved { s with clients := s.clients.share owner other } := by
  have made : (s.clients.share owner other).made = s.clients.made := by
    rw [Shared.share]
    split <;> rfl
  have numbered := conserved.numbered
  rw [← made] at numbered
  have objects := (conserved.clients.objects_share owner free).map MongoClient.m_client
  exact ⟨conserved.clients.share owner free, numbered, conserved.pinged,
    conserved.popped.trans (objects.symm.append_left s.pinged), conserved.apart,
    conserved.bounded, conserved.documents, conserved.new, conserved.destroyed⟩

/-- The client that is pushed back is the one that nobody has any more. -/
theorem Conserved.reset (conserved : s.Conserved) (owner : ι) : (s.reset owner).Conserved := by
  have objects : s.leased.Perm _ :=
    (conserved.clients.objects_reset owner).map MongoClient.m_client
  have popped := conserved.popped.trans (objects.append_left s.pinged)
  rw [List.map_append] at popped
  cases last : s.clients.last? owner with
  | none =>
      rw [last, Option.toList_none, List.map_nil, List.nil_append] at popped
      refine ⟨conserved.clients.reset owner, conserved.numbered, conserved.pinged, ?_, ?_, ?_,
        conserved.documents, conserved.new, conserved.destroyed⟩
      all_goals rw [Pooled.reset, last]
      · exact popped
      · exact conserved.apart
      · exact conserved.bounded
  | some client =>
      rw [last, Option.toList_some, List.map_singleton] at popped
      have rest : (s.pool.popped.erase client.m_client).Perm
          (s.pinged ++ (s.clients.reset owner).objects.map MongoClient.m_client) := by
        have swapped := popped.trans List.perm_middle
        have erased := swapped.erase client.m_client
        rw [List.erase_cons_head] at erased
        exact erased
      refine ⟨conserved.clients.reset owner, conserved.numbered, conserved.pinged, ?_, ?_, ?_,
        conserved.documents, conserved.new, conserved.destroyed⟩
      all_goals rw [Pooled.reset, last]
      all_goals dsimp only
      all_goals rw [popped_push]
      · exact rest
      · exact conserved.apart.erase _
      · exact Nat.le_trans List.length_erase_le conserved.bounded

theorem conserved_of_reachable (reachable : (@system ι γ β _ _).Reachable s) : s.Conserved := by
  apply reachable.invariant
  · rintro s ⟨setup, dbname, appName, rfl⟩
    exact fresh_conserved setup dbname appName
  · intro s event next conserved step
    cases event with
    | popClient owner client =>
        obtain ⟨available, free, rfl⟩ := step
        exact conserved.popClient available free
    | share owner other =>
        obtain ⟨free, rfl⟩ := step
        exact conserved.share free
    | reset owner =>
        obtain ⟨-, rfl⟩ := step
        exact conserved.reset owner
    | find client cursor =>
        obtain ⟨-, copies, rfl⟩ := step
        cases client with
        | none =>
            refine conserved.found ?_
            exact (List.nodup_append.mp copies).1.append .nil (List.disjoint_nil_right _)
        | some c =>
            rw [Pooled.find, push_pop]
            exact conserved.found (find_copies copies)
    | query owner cursor =>
        obtain ⟨-, copies, client, -, rfl⟩ := step
        exact conserved.found (find_copies copies)
    | fetch index =>
        obtain ⟨found, member, alive, rfl⟩ := step
        have documents := conserved.documents _ (List.mem_of_getElem? member)
        have changed := conserved.change member found.fetch rfl
          (documents.trans found.fetch_documents) alive
        have same : (if found.fetch.gone then found.fetch.cursor.m_cursorImpl else []) = [] :=
          if_neg (Bool.not_eq_true _ ▸ alive)
        rw [same, List.append_nil] at changed
        exact changed
    | release index document =>
        obtain ⟨found, -, -, rfl⟩ := step
        have same : s.destroyed ++ (BsonT.destroy false (some document)).toList = s.destroyed :=
          List.append_nil _
        rw [same]
        exact conserved
    | drop index =>
        obtain ⟨found, member, alive, rfl⟩ := step
        exact conserved.change member { found with gone := true } rfl
          (conserved.documents found (List.mem_of_getElem? member)) alive
    | destroy =>
        obtain ⟨-, rfl⟩ := step
        exact ⟨conserved.clients, conserved.numbered, conserved.pinged, conserved.popped,
          conserved.apart, conserved.bounded, conserved.documents, conserved.new,
          conserved.destroyed⟩

omit [DecidableEq ι] [DecidableEq γ] in
theorem left_sublist {cursors : List (Found β)}
    (documents : ∀ found ∈ cursors, found.copied = found.fetched ++ found.cursor.m_cursorImpl) :
    ((cursors.filter Found.gone).flatMap fun found => found.cursor.m_cursorImpl).Sublist
      (cursors.flatMap Found.copied) := by
  induction cursors with
  | nil => exact .slnil
  | cons found cursors ih =>
      obtain ⟨own, others⟩ := List.forall_mem_cons.mp documents
      rw [List.flatMap_cons, own]
      cases gone : found.gone with
      | false =>
          rw [List.filter_cons_of_neg (by simp [gone])]
          exact (ih others).trans (List.sublist_append_right _ _)
      | true =>
          rw [List.filter_cons_of_pos gone, List.flatMap_cons]
          exact (List.sublist_append_right _ _).append (ih others)

/-- In every order of the steps, libmongoc has handed out, each once, the client of the ping
if `init` has returned true and those of the `MongoClient` objects that somebody has, so that
all but 99 of 100 may be leased. Each document copied is fetched once, in the order of the
query, or left: those left are destroyed with the cursor, once, and those fetched never. -/
theorem clients_leased (reachable : (@system ι γ β _ _).Reachable s) :
    (s.pool.popped.Perm (s.pinged ++ s.leased) ∧ s.pool.popped.Nodup) ∧
      s.pinged.length = s.ok.toNat ∧ s.pinged.length + s.leased.length ≤ maxPoolSize ∧
      (∀ first ∈ s.clients.objects, ∀ second ∈ s.clients.objects,
        first.m_client = second.m_client → first = second) ∧
      (∀ found ∈ s.cursors, found.copied = found.fetched ++ found.cursor.m_cursorImpl) ∧
      s.destroyed.Perm s.left ∧ s.destroyed.Nodup ∧
      ∀ found ∈ s.cursors, ∀ document ∈ found.fetched, document ∉ s.destroyed := by
  have conserved := conserved_of_reachable reachable
  have popped := conserved.popped
  have nodup := popped.nodup_iff.mp conserved.apart
  have inside : s.left.Sublist (s.cursors.flatMap Found.copied) :=
    left_sublist conserved.documents
  refine ⟨⟨popped, conserved.apart⟩, conserved.pinged, ?_, ?_, conserved.documents,
    conserved.destroyed, conserved.destroyed.nodup_iff.mpr (conserved.new.sublist inside), ?_⟩
  · rw [← List.length_append, ← popped.length_eq]
    exact conserved.bounded
  · intro first one second two same
    exact List.inj_on_of_nodup_map (List.nodup_append.mp nodup).2.1 one two same
  · intro found member document fetched destroyed
    obtain ⟨other, there, left⟩ := List.mem_flatMap.mp (conserved.destroyed.mem_iff.mp destroyed)
    have there := List.mem_of_mem_filter there
    obtain ⟨each, apart⟩ := List.nodup_flatMap.mp conserved.new
    have mine : document ∈ found.copied := by
      rw [conserved.documents found member]
      exact List.mem_append_left _ fetched
    by_cases same : found = other
    · subst same
      have own := each found member
      rw [conserved.documents found member] at own
      exact (List.nodup_append.mp own).2.2 document fetched document left rfl
    · have theirs : document ∈ other.copied := by
        rw [conserved.documents other there]
        exact List.mem_append_right _ left
      have symm : Std.Symm (Function.onFun List.Disjoint (@Found.copied β)) :=
        ⟨fun _ _ disjoint => disjoint.symm⟩
      exact apart.forall member there same mine theirs

/-- A pool whose ping has gone well, with one client leased; of a query with two documents one
is fetched, and the other is destroyed. -/
theorem clients_leased_one : ∃ s : Pooled Nat Nat Nat, s.pinged = [0] ∧ s.leased = [1] ∧
    s.pool.popped.Perm [0, 1] ∧ s.destroyed = [8] := by
  have begun : (@system Nat Nat Nat _ _).Reachable
      (fresh (MongoConnectionPool.init ⟨true, true, true, true, true, some 0, true⟩ "db" "")) :=
    .initial ⟨_, _, _, rfl⟩
  have popped := begun.step (show (@system Nat Nat Nat _ _).step _ (.popClient 0 (some 1)) _ from
    ⟨⟨rfl, rfl, by decide, by decide⟩, fun _ => List.not_mem_nil, rfl⟩)
  have queried := popped.step (show (@system Nat Nat Nat _ _).step _
    (.query 0 (some [some 7, none, some 8])) _ from
      ⟨rfl, show [7, 8].Nodup by decide, _, rfl, rfl⟩)
  have fetched := queried.step (show (@system Nat Nat Nat _ _).step _ (.fetch 0) _ from
    ⟨_, rfl, rfl, rfl⟩)
  have dropped := fetched.step (show (@system Nat Nat Nat _ _).step _ (.drop 0) _ from
    ⟨_, rfl, rfl, rfl⟩)
  exact ⟨_, rfl, rfl, (clients_leased dropped).1.1, rfl⟩

end Owners

end Pooled

end Nicenet.Mongo
