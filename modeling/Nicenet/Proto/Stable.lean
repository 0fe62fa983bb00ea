import Nicenet.Library.Transition
import Nicenet.Proto.CmdJson

/-!
# Ids over the life of a project

The script is run again and again in one directory, with schemas that come and go.
What it remembers of an id is in the `cmd.json` that it wrote the last time.
-/

namespace Nicenet.ProtoJson2Hpp

open Library

/-! ## What loading remembers -/

section Load

variable {cmdFix cmd : Dict Text Int}

/-- An entry of `cmd.json` whose name and id belong to nobody else is remembered. -/
theorem load_remembers {id : Int} {name : Text} (given : cmd.lookup name = some id)
    (apart : name ∉ cmdFix) (inRange : 0 ≤ id ∧ id ≤ 60000)
    (fresh : id ∉ loadFix cmdFix)
    (alone : ∀ other, cmd.lookup other = some id → other = name) :
    (load cmdFix cmd).idMap.lookup id = some name := by
  have listed : ⟨name, id⟩ ∈ cmd.entries := AList.mem_lookup_iff.mp given
  rw [load_lookup, AList.lookup_eq_none.mpr fresh, Option.none_or, remembered, if_pos inRange]
  cases found : cmd.entries.find? fun entry => entry.2 = id ∧ entry.1 ∉ cmdFix with
  | none =>
      have other := List.find?_eq_none.mp found ⟨name, id⟩ listed
      exact absurd ⟨rfl, apart⟩ (mt decide_eq_true other)
  | some entry =>
      have here : entry.2 = id ∧ entry.1 ∉ cmdFix := by simpa using List.find?_some found
      have known : cmd.lookup entry.1 = some entry.2 :=
        AList.mem_lookup_iff.mpr (List.mem_of_find?_eq_some found)
      rw [here.1] at known
      exact congrArg some (alone entry.1 known)

/-- No name comes from nowhere. -/
theorem load_source {name : Text} (known : name ∈ (load cmdFix cmd).cmdIDs) :
    name ∈ cmd := by
  have every : ∀ (entries : List ((_ : Text) × Int))
      (dicts : Dict Text Int × Dict Int Text),
      name ∈ (entries.foldl (keep cmdFix) dicts).1 → name ∈ dicts.1 := by
    intro entries
    induction entries with
    | nil => exact fun dicts known => known
    | cons entry entries ih =>
        intro dicts known
        have later := ih _ known
        rcases keep_cases cmdFix dicts entry with dropped | ⟨_, _, _, kept⟩
        · rw [dropped] at later
          exact (AList.mem_erase.mp later).2
        · rw [kept] at later
          exact later
  exact every cmd.entries _ known

end Load

/-! ## One table after the other -/

/-- A table that the script wrote. -/
structure IsTable (cmdFix : Dict Text Int) (table : List (Int × Text)) : Prop where
  fixed : ∀ name id, cmdFix.lookup name = some id → (id, name) ∈ table
  ids : ∀ id name other, (id, name) ∈ table → (id, other) ∈ table → name = other
  names : ∀ id other name, (id, name) ∈ table → (other, name) ∈ table → id = other
  inRange : ∀ row ∈ table, 0 ≤ row.1 ∧ row.1 ≤ 60000

theorem IsTable.congr {cmdFix other : Dict Text Int} {table : List (Int × Text)}
    (isTable : IsTable cmdFix table)
    (same : ∀ name, other.lookup name = cmdFix.lookup name) : IsTable other table where
  fixed := fun name id given => isTable.fixed name id (by rw [← same, given])
  ids := isTable.ids
  names := isTable.names
  inRange := isTable.inRange

theorem Sound.congr {cmdFix other : Dict Text Int} (sound : Sound cmdFix)
    (same : ∀ name, other.lookup name = cmdFix.lookup name) : Sound other := by
  refine ⟨fun name other id => ?_, fun name id => ?_⟩
  · rw [same, same]
    exact sound.1 name other id
  · rw [same]
    exact sound.2 name id

/-- Every name keeps its id, and every id its name. -/
structure Keeps (earlier later : List (Int × Text)) : Prop where
  same : ∀ row ∈ earlier, ∀ id, (id, row.2) ∈ later ↔ id = row.1
  own : ∀ row ∈ earlier, ∀ name, (row.1, name) ∈ later ↔ name = row.2

theorem Keeps.mem {earlier later : List (Int × Text)} (keeps : Keeps earlier later)
    {row : Int × Text} (member : row ∈ earlier) : row ∈ later :=
  (keeps.same row member row.1).mpr rfl

theorem Keeps.trans {first second third : List (Int × Text)} (before : Keeps first second)
    (after : Keeps second third) : Keeps first third where
  same := fun row member => after.same row (before.mem member)
  own := fun row member => after.own row (before.mem member)

section Table

variable {cmdFix cmd : Dict Text Int} {filelist : List (List Item)}
variable {written : List (Int × Text)}

theorem isTable_of_table (sound : Sound cmdFix)
    (wrote : table cmdFix cmd filelist = .ok written) : IsTable cmdFix written := by
  obtain ⟨last, rfl, builds⟩ := table_builds wrote
  refine ⟨fun name id given => ?_, fun id name other first second => ?_,
    fun id other name first second => ?_, builds.inRange sound⟩
  · exact mem_rows.mpr ((builds.found sound.1).1 name id given)
  · exact Option.some.inj ((mem_rows.mp first).symm.trans (mem_rows.mp second))
  · exact builds.coherent.unique (mem_rows.mp first) (mem_rows.mp second)

/-- Names come from the two files that are read, and from the schemas. -/
theorem table_source (wrote : table cmdFix cmd filelist = .ok written) {row : Int × Text}
    (member : row ∈ written) :
    row.2 ∈ cmdFix ∨ row.2 ∈ cmd ∨ row.2 ∈ messages filelist := by
  obtain ⟨last, rfl, builds⟩ := table_builds wrote
  rcases builds.coherent.named row.1 row.2 (mem_rows.mp member) with fixed | ⟨_, listed⟩
  · rw [builds.extended.fixed] at fixed
    exact .inl (mem_of_lookup fixed)
  · exact .inr ((builds.source row.2 (mem_of_lookup listed)).imp_left load_source)

/-- A table built on `cmd.json` keeps what is in there. -/
theorem table_keeps (sound : Sound cmdFix) {before : List (Int × Text)}
    (isTable : IsTable cmdFix before)
    (read : ∀ name id, cmd.lookup name = some id ↔ (id, name) ∈ before)
    (wrote : table cmdFix cmd filelist = .ok written) : Keeps before written := by
  have isLater := isTable_of_table sound wrote
  obtain ⟨last, rfl, builds⟩ := table_builds wrote
  have kept : ∀ row ∈ before, row ∈ rows last.idMap := by
    rintro ⟨id, name⟩ member
    by_cases fixed : name ∈ cmdFix
    · obtain ⟨other, given⟩ := Option.isSome_iff_exists.mp (AList.lookup_isSome.mpr fixed)
      have same := isTable.names id other name member (isTable.fixed name other given)
      rw [same]
      exact isLater.fixed name other given
    · refine mem_rows.mpr (builds.extended.kept id name ?_)
      refine load_remembers ((read name id).mpr member) fixed (isTable.inRange _ member)
        (fun taken => ?_) (fun other given => ?_)
      · obtain ⟨other, found⟩ := Option.isSome_iff_exists.mp (AList.lookup_isSome.mpr taken)
        have given := loadFix_sound found
        have same := isTable.ids id name other member (isTable.fixed other id given)
        exact fixed (same ▸ mem_of_lookup given)
      · exact isTable.ids id other name ((read other id).mp given) member
  refine ⟨fun row member id => ?_, fun row member name => ?_⟩
  · refine ⟨fun other => isLater.names id row.1 row.2 other (kept row member), ?_⟩
    rintro rfl
    exact kept row member
  · refine ⟨fun other => isLater.ids row.1 name row.2 other (kept row member), ?_⟩
    rintro rfl
    exact kept row member

end Table

/-! ## Runs in one directory -/

/-- What the script reads and leaves behind, apart from `cmd_fix.json` and the
schemas: `cmd.json`, and the tables of all the runs so far, the last one first. -/
structure Directory where
  cmdJson : Option Text
  emitted : List (List (Int × Text))
  deriving DecidableEq

/-- A run: the order in which its dictionaries are gone through, the schema files it
finds, and whether `build2` and `build3` get through them. -/
structure Run where
  cmdFix : Dict Text Int
  cmd : Dict Text Int
  filelist : List (List Item)
  through : Bool

/-- The dictionary in `cmd.json`; nothing if `json.loads` raises an exception. -/
def Directory.cmdIDs (directory : Directory) : Option (Dict Text Int) :=
  match directory.cmdJson with
  | none => some ∅
  | some text => (loads text).map dict

/-- One run of the script. It writes only at its end. -/
def Directory.run (cmdFix : Dict Text Int) (directory : Directory) (run : Run) :
    Option Directory :=
  if run.cmdFix.entries.Perm cmdFix.entries then
    match directory.cmdIDs with
    | none => some directory
    | some cmdIDs =>
        if run.cmd.entries.Perm cmdIDs.entries then
          match table run.cmdFix run.cmd run.filelist with
          | .error _ => some directory
          | .ok rows =>
              if run.through then
                let (text, through) := writeCmd rows
                some {
                  cmdJson := some text
                  emitted := if through then rows :: directory.emitted
                    else directory.emitted }
              else
                some directory
        else
          none
  else
    none

/-- No id that was emitted once is taken from its name, or the name from its id. -/
def Directory.Stable (directory : Directory) : Prop :=
  directory.emitted.Pairwise fun later earlier => Keeps earlier later

/-- A run that changes the directory builds a table on what it read. -/
theorem run_cases {cmdFix : Dict Text Int} {directory next : Directory} {run : Run}
    (taken : directory.run cmdFix run = some next) :
    (∀ name, run.cmdFix.lookup name = cmdFix.lookup name) ∧
      (next = directory ∨ ∃ cmdIDs written, directory.cmdIDs = some cmdIDs ∧
        (∀ name, run.cmd.lookup name = cmdIDs.lookup name) ∧
        table run.cmdFix run.cmd run.filelist = .ok written ∧
        next = {
          cmdJson := some (writeCmd written).1
          emitted := if (writeCmd written).2 then written :: directory.emitted
            else directory.emitted }) := by
  rw [Directory.run] at taken
  split at taken
  · rename_i fixed
    refine ⟨fun name => AList.perm_lookup fixed, ?_⟩
    split at taken
    · cases taken
      exact .inl rfl
    · rename_i cmdIDs read
      split at taken
      · rename_i listed
        split at taken
        · cases taken
          exact .inl rfl
        · rename_i written wrote
          split at taken
          · cases taken
            exact .inr ⟨cmdIDs, written, read, fun name => AList.perm_lookup listed, wrote,
              rfl⟩
          · cases taken
            exact .inl rfl
      · cases taken
  · cases taken

/-- What holds between the runs: `cmd.json` has plain names only, and after the first
table it is the last one, if it can be read. -/
structure Directory.Sane (cmdFix : Dict Text Int) (directory : Directory) : Prop where
  plain : ∀ cmdIDs, directory.cmdIDs = some cmdIDs → ∀ name ∈ cmdIDs, Plain name
  latest : ∀ written earlier, directory.emitted = written :: earlier →
    IsTable cmdFix written ∧ ∀ cmdIDs, directory.cmdIDs = some cmdIDs →
      ∀ name id, cmdIDs.lookup name = some id ↔ (id, name) ∈ written
  stable : directory.Stable

/-- What is read back of a table of plain names. -/
theorem cmdIDs_writeCmd {cmdFix : Dict Text Int} {written : List (Int × Text)}
    (isTable : IsTable cmdFix written) (nodup : written.Nodup)
    (plain : ∀ row ∈ written, Plain row.2) {emitted : List (List (Int × Text))}
    {cmdIDs : Dict Text Int}
    (read : Directory.cmdIDs ⟨some (writeCmd written).1, emitted⟩ = some cmdIDs) :
    (writeCmd written).2 = true ∧
      ∀ name id, cmdIDs.lookup name = some id ↔ (id, name) ∈ written := by
  have ids : written.Pairwise fun first second => first.1 ≠ second.1 := by
    apply List.Nodup.pairwise_of_forall_ne nodup
    intro row member other second apart same
    have pair : (row.1, row.2) ∈ written := member
    rw [same] at pair
    exact apart (Prod.ext same (isTable.ids other.1 row.2 other.2 pair second))
  have names : written.Pairwise fun first second => first.2 ≠ second.2 := by
    apply List.Nodup.pairwise_of_forall_ne nodup
    intro row member other second apart same
    have pair : (row.1, row.2) ∈ written := member
    rw [same] at pair
    exact apart (Prod.ext (isTable.names row.1 other.1 other.2 pair second) same)
  have loaded := loads_writeCmd
    plain ids
  simp only [Directory.cmdIDs, loaded] at read
  split at read
  · rename_i through
    cases read
    refine ⟨through, fun name id => ?_⟩
    rw [lookup_dict (List.pairwise_map.mpr names), List.mem_map]
    constructor
    · rintro ⟨row, member, same⟩
      rw [← Prod.swap_swap row, same] at member
      exact member
    · exact fun member => ⟨(id, name), member, rfl⟩
  · cases read

theorem nodup_table {cmdFix cmd : Dict Text Int} {filelist : List (List Item)}
    {written : List (Int × Text)} (wrote : table cmdFix cmd filelist = .ok written) :
    written.Nodup := by
  obtain ⟨last, rfl, _⟩ := table_builds wrote
  exact nodup_rows last.idMap

/-- A table that was built on `cmd.json` keeps all the tables before it. -/
theorem Directory.Sane.keeps {cmdFix : Dict Text Int} {directory : Directory} {run : Run}
    {cmdIDs : Dict Text Int} {written : List (Int × Text)} (sound : Sound run.cmdFix)
    (sane : directory.Sane cmdFix)
    (same : ∀ name, run.cmdFix.lookup name = cmdFix.lookup name)
    (read : directory.cmdIDs = some cmdIDs)
    (listed : ∀ name, run.cmd.lookup name = cmdIDs.lookup name)
    (wrote : table run.cmdFix run.cmd run.filelist = .ok written) :
    ∀ earlier ∈ directory.emitted, Keeps earlier written := by
  intro earlier member
  cases tables : directory.emitted with
  | nil =>
      rw [tables] at member
      exact absurd member List.not_mem_nil
  | cons latest others =>
      obtain ⟨wasTable, remembered⟩ := sane.latest latest others tables
      have keeps : Keeps latest written := table_keeps sound (wasTable.congr same)
        (fun name id => by rw [listed]; exact remembered cmdIDs read name id) wrote
      rw [tables] at member
      rcases List.mem_cons.mp member with rfl | member
      · exact keeps
      · have stable := sane.stable
        rw [Directory.Stable, tables] at stable
        exact ((List.pairwise_cons.mp stable).1 earlier member).trans keeps

/-- One run keeps the ids of the tables before it, if the names it adds are plain. -/
theorem Directory.Sane.run {cmdFix : Dict Text Int} (sound : Sound cmdFix)
    (plainFix : ∀ name ∈ cmdFix, Plain name) {directory next : Directory} {run : Run}
    (plainTypes : ∀ name ∈ messages run.filelist, Plain name)
    (sane : directory.Sane cmdFix) (taken : directory.run cmdFix run = some next) :
    next.Sane cmdFix := by
  obtain ⟨same, rfl | ⟨cmdIDs, written, read, listed, wrote, rfl⟩⟩ := run_cases taken
  · exact sane
  · have soundRun := sound.congr same
    have isTable := (isTable_of_table soundRun wrote).congr fun name => (same name).symm
    have plain : ∀ row ∈ written, Plain row.2 := by
      intro row member
      rcases table_source wrote member with fixed | known | added
      · refine plainFix row.2 ?_
        rw [← AList.lookup_isSome, ← same, AList.lookup_isSome]
        exact fixed
      · refine sane.plain cmdIDs read row.2 ?_
        rw [← AList.lookup_isSome, ← listed, AList.lookup_isSome]
        exact known
      · exact plainTypes row.2 added
    have nodup := nodup_table wrote
    refine ⟨fun again readBack name known => ?_, fun last earlier emitted => ?_, ?_⟩
    · obtain ⟨_, entries⟩ := cmdIDs_writeCmd isTable nodup plain readBack
      obtain ⟨id, given⟩ := Option.isSome_iff_exists.mp (AList.lookup_isSome.mpr known)
      exact plain (id, name) ((entries name id).mp given)
    · by_cases through : (writeCmd written).2
      · rw [if_pos through] at emitted
        cases emitted
        exact ⟨isTable, fun again readBack =>
          (cmdIDs_writeCmd isTable nodup plain readBack).2⟩
      · rw [if_neg through] at emitted
        -- Nothing can be read of a file that the write did not get through.
        exact ⟨(sane.latest last earlier emitted).1, fun again readBack =>
          absurd (cmdIDs_writeCmd isTable nodup plain readBack).1 through⟩
    · by_cases through : (writeCmd written).2
      · rw [Directory.Stable, if_pos through]
        exact List.pairwise_cons.mpr
          ⟨sane.keeps soundRun same read listed wrote, sane.stable⟩
      · rw [Directory.Stable, if_neg through]
        exact sane.stable

/-! ## Every history of runs -/

/-- In every history of runs with plain names, the ids that were emitted once stay with
their names. -/
theorem stable_of_plain {cmdFix : Dict Text Int} (sound : Sound cmdFix)
    (plainFix : ∀ name ∈ cmdFix, Plain name) {cmdJson : Option Text}
    (plainCmd : ∀ cmdIDs, Directory.cmdIDs ⟨cmdJson, []⟩ = some cmdIDs →
      ∀ name ∈ cmdIDs, Plain name) {runs : List Run}
    (plainTypes : ∀ run ∈ runs, ∀ name ∈ messages run.filelist, Plain name)
    {last : Directory}
    (taken : Transition.run (Directory.run cmdFix) ⟨cmdJson, []⟩ runs = some last) :
    last.Stable := by
  have every : ∀ (runs : List Run) (directory : Directory),
      (∀ run ∈ runs, ∀ name ∈ messages run.filelist, Plain name) →
      directory.Sane cmdFix →
      Transition.run (Directory.run cmdFix) directory runs = some last →
      last.Sane cmdFix := by
    intro runs
    induction runs with
    | nil =>
        intro directory _ sane taken
        cases taken
        exact sane
    | cons run runs ih =>
        intro directory plainTypes sane taken
        obtain ⟨next, first, later⟩ := Option.bind_eq_some_iff.mp taken
        have types := plainTypes run List.mem_cons_self
        exact ih next (fun other member => plainTypes other (List.mem_cons_of_mem _ member))
          (sane.run sound plainFix types first) later
  refine (every runs ⟨cmdJson, []⟩ plainTypes ?_ taken).stable
  exact ⟨plainCmd, fun _ _ emitted => absurd emitted (List.cons_ne_nil _ _).symm,
    List.Pairwise.nil⟩

/-- A run whose dictionaries are gone through in the order of their entries. -/
def Run.of (cmdFix cmd : Dict Text Int) (typeNames : List Text) : Run where
  cmdFix := cmdFix
  cmd := cmd
  filelist := [typeNames.map Item.plain]
  through := true

/-- `Login` comes, goes and comes again. -/
theorem stable_login :
    Directory.Stable
      ⟨some (writeCmd [(101, "LoginID".toList), (102, "MoveID".toList)]).1,
        [[(101, "LoginID".toList), (102, "MoveID".toList)],
          [(101, "LoginID".toList), (102, "MoveID".toList)], [(101, "LoginID".toList)]]⟩ := by
  let one : List (Int × Text) := [(101, "LoginID".toList)]
  let two : List (Int × Text) := [(101, "LoginID".toList), (102, "MoveID".toList)]
  let runs : List Run :=
    [.of ∅ ∅ ["Login".toList],
      .of ∅ (dict [("LoginID".toList, 101)]) ["Move".toList],
      .of ∅ (dict [("LoginID".toList, 101), ("MoveID".toList, 102)]) ["Login".toList]]
  have first : Directory.run ∅ ⟨none, []⟩ (.of ∅ ∅ ["Login".toList]) =
      some ⟨some (writeCmd one).1, [one]⟩ := by
    decide +kernel
  have second : Directory.run ∅ ⟨some (writeCmd one).1, [one]⟩
      (.of ∅ (dict [("LoginID".toList, 101)]) ["Move".toList]) =
      some ⟨some (writeCmd two).1, [two, one]⟩ := by
    decide +kernel
  have third : Directory.run ∅ ⟨some (writeCmd two).1, [two, one]⟩
      (.of ∅ (dict [("LoginID".toList, 101), ("MoveID".toList, 102)]) ["Login".toList]) =
      some ⟨some (writeCmd two).1, [two, two, one]⟩ := by
    decide +kernel
  have reached : Transition.run (Directory.run ∅) ⟨none, []⟩ runs =
      some ⟨some (writeCmd two).1, [two, two, one]⟩ := by
    simp only [runs, Transition.run, first, Option.bind_some, second, third]
  have login : Plain (idName "Login".toList) := by decide +kernel
  have move : Plain (idName "Move".toList) := by decide +kernel
  have plain : ∀ run ∈ runs, ∀ name ∈ messages run.filelist, Plain name := by
    simp only [runs, List.forall_mem_cons]
    refine ⟨List.forall_mem_singleton.mpr login, List.forall_mem_singleton.mpr move,
      List.forall_mem_singleton.mpr login, by simp⟩
  refine stable_of_plain ⟨fun _ _ _ found => absurd (mem_of_lookup found) (AList.notMem_empty _),
    fun _ _ found => absurd (mem_of_lookup found) (AList.notMem_empty _)⟩
    (fun _ member => absurd member (AList.notMem_empty _)) ?_ plain reached
  rintro _ ⟨⟩ _ member
  exact absurd member (AList.notMem_empty _)

/-- A backslash is written as it is and read as the start of an escape: the second run
knows the first id under another name, and gives the type a new one. -/
theorem stable_fails :
    Transition.run (Directory.run ∅) ⟨none, []⟩
        [.of ∅ ∅ ["P\\u0041".toList],
          .of ∅ (dict [("PAID".toList, 101)]) ["P\\u0041".toList]] =
      some ⟨some (writeCmd [(101, "PAID".toList), (102, "P\\u0041ID".toList)]).1,
        [[(101, "PAID".toList), (102, "P\\u0041ID".toList)],
          [(101, "P\\u0041ID".toList)]]⟩ ∧
      ¬Directory.Stable
        ⟨some (writeCmd [(101, "PAID".toList), (102, "P\\u0041ID".toList)]).1,
          [[(101, "PAID".toList), (102, "P\\u0041ID".toList)],
            [(101, "P\\u0041ID".toList)]]⟩ := by
  have first : Directory.run ∅ ⟨none, []⟩ (.of ∅ ∅ ["P\\u0041".toList]) =
      some ⟨some (writeCmd [(101, "P\\u0041ID".toList)]).1, [[(101, "P\\u0041ID".toList)]]⟩ := by
    decide +kernel
  have second : Directory.run ∅
      ⟨some (writeCmd [(101, "P\\u0041ID".toList)]).1, [[(101, "P\\u0041ID".toList)]]⟩
      (.of ∅ (dict [("PAID".toList, 101)]) ["P\\u0041".toList]) =
      some ⟨some (writeCmd [(101, "PAID".toList), (102, "P\\u0041ID".toList)]).1,
        [[(101, "PAID".toList), (102, "P\\u0041ID".toList)], [(101, "P\\u0041ID".toList)]]⟩ := by
    decide +kernel
  refine ⟨by simp only [Transition.run, first, Option.bind_some, second], fun stable => ?_⟩
  have keeps := (List.pairwise_cons.mp stable).1 _ List.mem_cons_self
  have lost := keeps.mem List.mem_cons_self
  exact absurd lost (by decide +kernel)

end Nicenet.ProtoJson2Hpp
