import Nicenet.Proto.Stable
import Nicenet.Session.Values

/-!
# Programs of different versions

Two programs may have been built after different runs of `ProtoJson2Hpp.py` in one directory.
The ids that `cmd.cpp` gives them are those of two tables, which agree as far as they have
the same names. A message that only the sender knows is then not taken for another one. What
both know has the same fields in both.
-/

namespace Nicenet

open Library

namespace ProtoJson2Hpp

/-- `extern const ui16` of `cmd.cpp`: the constant of a name. -/
def constant (written : List (Int × Text)) (name : Text) : Option UInt16 :=
  (written.find? fun row => row.2 = name).map fun row => UInt16.ofInt row.1

theorem mem_of_constant {written : List (Int × Text)} {name : Text} {id : UInt16}
    (found : constant written name = some id) :
    ∃ row, (row, name) ∈ written ∧ UInt16.ofInt row = id := by
  obtain ⟨⟨row, other⟩, first, rfl⟩ := Option.map_eq_some_iff.mp found
  obtain rfl : other = name := by simpa using List.find?_some first
  exact ⟨row, List.mem_of_find?_eq_some first, rfl⟩

/-- Two tables have one id for the same names only, and the same id for them. -/
def Agree (sender receiver : List (Int × Text)) : Prop :=
  ∀ name other id another, constant sender name = some id →
    constant receiver other = some another → (id = another ↔ name = other)

theorem toNat_ofInt {id : Int} (nonneg : 0 ≤ id) (small : id ≤ 60000) :
    ((UInt16.ofInt id).toNat : Int) = id := by
  have small : id.toNat < 2 ^ 16 := by omega
  rw [UInt16.ofInt, Int.emod_eq_of_lt nonneg (by omega), UInt16.toNat_ofNat_of_lt' small,
    Int.toNat_of_nonneg nonneg]

/-- The ids of a table fit into a `ui16`. -/
theorem IsTable.ofInt_inj {cmdFix : Dict Text Int} {table : List (Int × Text)}
    (isTable : IsTable cmdFix table) {first second : Int × Text} (here : first ∈ table)
    (there : second ∈ table) (same : UInt16.ofInt first.1 = UInt16.ofInt second.1) :
    first.1 = second.1 := by
  obtain ⟨nonneg, small⟩ := isTable.inRange first here
  obtain ⟨nonneg', small'⟩ := isTable.inRange second there
  rw [← toNat_ofInt nonneg small, ← toNat_ofInt nonneg' small', same]

section Directory

variable {cmdFix : Dict Text Int} {directory : Directory}

/-- The last table has all the rows of those before it. -/
theorem Directory.Sane.latest_table (sane : directory.Sane cmdFix) {table : List (Int × Text)}
    (emitted : table ∈ directory.emitted) :
    ∃ latest, IsTable cmdFix latest ∧ ∀ other ∈ directory.emitted, ∀ row ∈ other,
      row ∈ latest := by
  cases tables : directory.emitted with
  | nil =>
      rw [tables] at emitted
      exact absurd emitted List.not_mem_nil
  | cons latest earlier =>
      refine ⟨latest, (sane.latest latest earlier tables).1, fun other member row inside => ?_⟩
      rcases List.mem_cons.mp member with rfl | before
      · exact inside
      · have stable := sane.stable
        rw [Directory.Stable, tables] at stable
        exact ((List.pairwise_cons.mp stable).1 other before).mem inside

theorem Directory.Sane.agree (sane : directory.Sane cmdFix)
    {sender receiver : List (Int × Text)} (sends : sender ∈ directory.emitted)
    (receives : receiver ∈ directory.emitted) : Agree sender receiver := by
  obtain ⟨latest, isTable, inside⟩ := sane.latest_table sends
  intro name other id another first second
  obtain ⟨row, here, rfl⟩ := mem_of_constant first
  obtain ⟨line, there, rfl⟩ := mem_of_constant second
  have here := inside sender sends _ here
  have there := inside receiver receives _ there
  constructor
  · intro same
    obtain rfl : row = line := isTable.ofInt_inj here there same
    exact isTable.ids row name other here there
  · rintro rfl
    rw [isTable.names row line name here there]

/-- All histories of runs whose schemas have plain names. -/
def Directory.system (cmdFix : Dict Text Int) (cmdJson : Option Text) :
    Transition Directory Run :=
  (Transition.deterministic ⟨cmdJson, []⟩ (Directory.run cmdFix)).guarded fun _ run =>
    ∀ name ∈ messages run.filelist, Plain name

end Directory

end ProtoJson2Hpp

namespace Versions

open ProtoJson2Hpp (Text constant Agree)

variable {ι : Type} {Value : Text → Type} (ty : (name : Text) → Ty (Value name))
variable {sender receiver : List (Int × Text)}

/-- `sendMessage(const Serializable&)` in a program that was built with a table. -/
def Message (written : List (Int × Text)) (value : (name : Text) × Value name)
    (msg : Nicenet.Message) : Prop :=
  ∃ heap id, constant written value.1 = some id ∧
    (ty value.1).toMsg heap id value.2 .empty = .ok msg

/-- The commands of a session class in a program that was built with a table. -/
def entries (written : List (Int × Text)) (info : ι) (kinds : List Text) :
    List (SessionCommand ι Text) :=
  kinds.filterMap fun name => (constant written name).map fun id => ⟨info, id, name⟩

/-- A value without conditional fields that a default object takes over as it is. -/
def Plain (value : (name : Text) × Value name) : Prop :=
  (ty value.1).plain ∧ (ty value.1).Fresh (ty value.1).init value.2

/-- What the command of a type does first: it decodes its message. -/
def decode (started : Text × Nicenet.Message) : Except Fault ((name : Text) × Value name) :=
  match (ty started.1).unserializeFrom started.2 (ty started.1).init with
  | .error fault => .error fault
  | .ok (value, _) => .ok ⟨started.1, value⟩

theorem mem_entries {info : ι} {kinds : List Text} {entry : SessionCommand ι Text} :
    entry ∈ entries receiver info kinds ↔
      ∃ name ∈ kinds, ∃ id, constant receiver name = some id ∧ ⟨info, id, name⟩ = entry := by
  simp only [entries, List.mem_filterMap, Option.map_eq_some_iff]

variable [DecidableEq ι]

/-- The receiver's table of commands has the sender's id of a name for this name only. -/
theorem getMessagerParse_entries (agree : Agree sender receiver) (own : Agree receiver receiver)
    (info : ι) {kinds : List Text} (once : kinds.Nodup)
    (known : ∀ kind ∈ kinds, constant receiver kind ≠ none) {name : Text} {id : UInt16}
    (sends : constant sender name = some id) :
    getMessagerParse (entries receiver info kinds) info id =
      if name ∈ kinds then some name else none := by
  by_cases listed : name ∈ kinds
  · obtain ⟨other, found⟩ := Option.ne_none_iff_exists'.mp (known name listed)
    obtain rfl : id = other := (agree name name id other sends found).mpr rfl
    have apart : (entries receiver info kinds).Pairwise fun first second =>
        first.info ≠ second.info ∨ first.command ≠ second.command := by
      apply List.pairwise_filterMap.mpr
      apply once.imp
      intro first second different entry here another there
      obtain ⟨one, mine, rfl⟩ := Option.map_eq_some_iff.mp here
      obtain ⟨two, yours, rfl⟩ := Option.map_eq_some_iff.mp there
      exact .inr fun same => different ((own first second one two mine yours).mp same)
    rw [if_pos listed]
    exact getMessagerParse_of_mem apart (mem_entries.mpr ⟨name, listed, id, found, rfl⟩)
  · rw [if_neg listed, getMessagerParse_apply, List.find?_eq_none.mpr, Option.map_none]
    intro entry member
    obtain ⟨other, inside, another, found, rfl⟩ :=
      mem_entries.mp (List.mem_reverse.mp member)
    simp only [decide_eq_true_eq, true_and]
    intro same
    obtain rfl := (agree name other id another sends found).mp same.symm
    exact listed inside

/-- A message of the sender starts the command of its type in the receiver, if there is one,
and the command reads the value. -/
theorem starts_sent (agree : Agree sender receiver) (own : Agree receiver receiver) (info : ι)
    {kinds : List Text} (once : kinds.Nodup)
    (known : ∀ kind ∈ kinds, constant receiver kind ≠ none)
    {value : (name : Text) × Value name} {msg : Nicenet.Message}
    (sent : Message ty sender value msg) (plain : Plain ty value) :
    Starts (some (getMessagerParse (entries receiver info kinds) info)) (decode ty)
      (if value.1 ∈ kinds then some (.ok value) else none) msg := by
  obtain ⟨heap, id, sends, built⟩ := sent
  obtain ⟨memory, buff, getID, next, read⟩ := toMsg_read built plain.1 plain.2
  refine ⟨memory, buff, ?_⟩
  simp only [handleMessage, bind, Option.bind, getID,
    getMessagerParse_entries agree own info once known sends]
  by_cases listed : value.1 ∈ kinds
  · simp only [if_pos listed, Option.map_some, decode, read]
  · simp only [if_neg listed, Option.map_none]

section TwoVersions

open ProtoJson2Hpp (Directory dict writeCmd mem_of_lookup)

/-- The table of a project with one type, and the one behind a run that has found another. -/
def older : List (Int × Text) := [(101, "LoginID".toList)]

def newer : List (Int × Text) := [(101, "LoginID".toList), (102, "MoveID".toList)]

/-- Every type is one with the three fields of `Code`. -/
def coded (_ : Text) : Ty Proto.Code := Proto.Code.ty

/-- A value of the type that both programs have. -/
def login : (_ : Text) × Proto.Code := ⟨"LoginID".toList, 7, [97], 3, ()⟩

end TwoVersions

end Versions

end Nicenet
