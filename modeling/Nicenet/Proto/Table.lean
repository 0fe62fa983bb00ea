import Mathlib.Data.List.AList
import Mathlib.Data.List.Sort

/-!
# The table of message ids

`ProtoJson2Hpp.py` gives every `isMsg` type an id: the one that `cmd_fix.json`
has for it, the one that `cmd.json` remembers, or the first one that is free. It
collects them in `idMap` and writes the table from there. Only `cmd.json` loses
entries that clash; what is wrong with `cmd_fix.json` goes to the log and stays.
-/

namespace Nicenet.ProtoJson2Hpp

/-- A `unicode` string. -/
abbrev Text := List Char

/-- A `dict`. The order of its entries is the one that a loop goes through. -/
abbrev Dict (κ ν : Type) := AList fun _ : κ => ν

/-- A JSON value, as far as `build` looks at it. -/
inductive Value where
  | string (text : Text)
  | list
  | bool (value : Bool)
  | other
  deriving DecidableEq, Repr

/-- An element of a schema file: an object, of which `build` reads three members,
or something without `has_key`. -/
inductive Item where
  | object (typeName fields isMsg : Option Value)
  | other
  deriving DecidableEq, Repr

/-- How the script ends before it writes the table: `build` returned an error, or
an exception went through. -/
inductive Stop where
  | exit
  | raised
  deriving DecidableEq, Repr

/-- The globals of the script. -/
structure Cmds where
  cmdIDs2 : Dict Text Int
  cmdIDs : Dict Text Int
  idMap : Dict Int Text
  canUseIDs : List Int
  structs : List Text

/-! ## Loading -/

/-- `range(start, stop)`. -/
def range (start stop : Nat) : List Int :=
  (List.range' start (stop - start)).map Int.ofNat

/-- The types that are there from the start. -/
def builtins : List Text :=
  ["string".toList, "std::string".toList, "binary".toList, "OperUInt".toList,
    "StoreUInt".toList, "u8".toList, "u16".toList, "u32".toList, "u64".toList,
    "ui8".toList, "ui16".toList, "ui32".toList, "ui64".toList]

/-- The loop over `cmd_fix.json`. Its checks only write to the log. -/
def loadFix (cmdIDs : Dict Text Int) : Dict Int Text :=
  cmdIDs.entries.foldl (fun idMap i => idMap.insert i.2 i.1) ∅

/-- What the loop over `cmd.json` does with one entry. -/
def keep (cmdIDs2 : Dict Text Int) (dicts : Dict Text Int × Dict Int Text)
    (i : (_ : Text) × Int) : Dict Text Int × Dict Int Text :=
  if i.1 ∈ cmdIDs2 then
    (dicts.1.erase i.1, dicts.2)
  else if i.2 < 0 ∨ i.2 > 60000 then
    (dicts.1.erase i.1, dicts.2)
  else if i.2 ∈ dicts.2 then
    (dicts.1.erase i.1, dicts.2)
  else
    (dicts.1, dicts.2.insert i.2 i.1)

/-- The globals after `cmd_fix.json` and `cmd.json` have been read. `List.diff`
removes one element after the other and ignores those that are not there. -/
def load (cmdFix cmd : Dict Text Int) : Cmds :=
  let dicts := cmd.entries.foldl (keep cmdFix) (cmd, loadFix cmdFix)
  { cmdIDs2 := cmdFix
    cmdIDs := dicts.1
    idMap := dicts.2
    canUseIDs := (range 101 60001).diff dicts.2.keys
    structs := builtins }

/-! ## Building -/

/-- The name under which a type has its id. -/
def idName (typeName : Text) : Text := typeName ++ ['I', 'D']

/-- The id of an `isMsg` type. -/
def allocate (cmds : Cmds) (typeName : Text) : Except Stop Cmds :=
  if idName typeName ∉ cmds.cmdIDs2 ∧ idName typeName ∉ cmds.cmdIDs then
    match cmds.canUseIDs with
    | [] => .error .raised
    | id :: others =>
        .ok { cmds with
          cmdIDs := cmds.cmdIDs.insert (idName typeName) id
          idMap := cmds.idMap.insert id (idName typeName)
          canUseIDs := others }
  else
    .ok cmds

/-- The body of the loop of `build`. -/
def buildItem (cmds : Cmds) : Item → Except Stop Cmds
  | .other => .error .raised
  | .object typeName fields isMsg =>
      match typeName with
      | some (.string typeName) =>
          if typeName ∈ cmds.structs then
            .error .exit
          else if typeName.drop (typeName.length - 2) = ['I', 'D'] then
            .error .exit
          else
            match fields with
            | some .list => do
                let cmds ←
                  if isMsg = some (.bool true) then allocate cmds typeName else .ok cmds
                return { cmds with structs := cmds.structs ++ [typeName] }
            | _ => .error .exit
      | _ => .error .exit

/-- `build` of one schema file, of which it goes through the elements. -/
def build (cmds : Cmds) (j : List Item) : Except Stop Cmds := j.foldlM buildItem cmds

/-! ## Writing -/

/-- The rows of the table, in the order of their ids. -/
def rows (idMap : Dict Int Text) : List (Int × Text) :=
  (idMap.keys.insertionSort (· ≤ ·)).filterMap fun i =>
    (idMap.lookup i).map fun name => (i, name)

/-- The rows that are written to `cmd.json` and to `cmd.cpp`. -/
def table (cmdFix cmd : Dict Text Int) (filelist : List (List Item)) :
    Except Stop (List (Int × Text)) := do
  let cmds ← filelist.foldlM build (load cmdFix cmd)
  return rows cmds.idMap

/-! ## The rows of a dictionary -/

/-- What is found behind an `insert` is new, or it was there. -/
theorem lookup_insert_cases {κ ν : Type} [DecidableEq κ] {dict : Dict κ ν} {key other : κ}
    {value found : ν} (hit : (dict.insert key value).lookup other = some found) :
    (other = key ∧ found = value) ∨ (other ≠ key ∧ dict.lookup other = some found) := by
  by_cases same : other = key
  · rw [same, AList.lookup_insert, Option.some.injEq] at hit
    exact .inl ⟨same, hit.symm⟩
  · rw [AList.lookup_insert_ne same] at hit
    exact .inr ⟨same, hit⟩

theorem mem_of_lookup {κ ν : Type} [DecidableEq κ] {dict : Dict κ ν} {key : κ} {value : ν}
    (found : dict.lookup key = some value) : key ∈ dict := by
  rw [← AList.lookup_isSome, found]
  rfl

theorem mem_rows {idMap : Dict Int Text} {row : Int × Text} :
    row ∈ rows idMap ↔ idMap.lookup row.1 = some row.2 := by
  simp only [rows, List.mem_filterMap, List.mem_insertionSort, Option.map_eq_some_iff]
  constructor
  · rintro ⟨id, _, name, found, rfl⟩
    exact found
  · intro found
    exact ⟨row.1, AList.mem_keys.mp (mem_of_lookup found), row.2, found, rfl⟩

theorem nodup_rows (idMap : Dict Int Text) : (rows idMap).Nodup := by
  apply List.Nodup.filterMap
  · intro id other row first second
    simp only [Option.mem_def, Option.map_eq_some_iff] at first second
    obtain ⟨_, _, rfl⟩ := first
    obtain ⟨_, _, same⟩ := second
    exact (congrArg Prod.fst same).symm
  · exact (List.perm_insertionSort (· ≤ ·) idMap.keys).nodup_iff.mpr idMap.keys_nodup

/-- No id is in the rows twice. -/
theorem pairwise_rows (idMap : Dict Int Text) :
    (rows idMap).Pairwise fun first second => first.1 ≠ second.1 := by
  apply List.Nodup.pairwise_of_forall_ne (nodup_rows idMap)
  intro row member other second apart same
  rw [mem_rows] at member second
  rw [same, second, Option.some.injEq] at member
  exact apart (Prod.ext same member.symm)

/-! ## What the dictionaries agree on -/

/-- `idMap` is the inverse of `cmdIDs2` and `cmdIDs`, as far as it keeps up with
them, and the free ids are not in it. -/
structure Cmds.Coherent (cmds : Cmds) : Prop where
  named : ∀ id name, cmds.idMap.lookup id = some name →
    cmds.cmdIDs2.lookup name = some id ∨
      (name ∉ cmds.cmdIDs2 ∧ cmds.cmdIDs.lookup name = some id)
  entered : ∀ name id, cmds.cmdIDs.lookup name = some id →
    cmds.idMap.lookup id = some name
  inRange : ∀ id name, cmds.idMap.lookup id = some name →
    cmds.cmdIDs2.lookup name = some id ∨ (0 ≤ id ∧ id ≤ 60000)
  free : ∀ id ∈ cmds.canUseIDs, id ∉ cmds.idMap ∧ 0 ≤ id ∧ id ≤ 60000
  distinct : cmds.canUseIDs.Nodup

/-- One part of the script has added to the dictionaries. -/
structure Cmds.Extends (before after : Cmds) : Prop where
  fixed : after.cmdIDs2 = before.cmdIDs2
  known : ∀ name ∈ before.cmdIDs, name ∈ after.cmdIDs
  kept : ∀ id name, before.idMap.lookup id = some name →
    after.idMap.lookup id = some name

namespace Cmds.Extends

theorem refl (cmds : Cmds) : cmds.Extends cmds :=
  ⟨rfl, fun _ known => known, fun _ _ kept => kept⟩

theorem trans {first second third : Cmds} (before : first.Extends second)
    (after : second.Extends third) : first.Extends third where
  fixed := after.fixed.trans before.fixed
  known := fun name known => after.known name (before.known name known)
  kept := fun id name kept => after.kept id name (before.kept id name kept)

end Cmds.Extends

/-! ### Loading -/

section Load

variable {cmdFix cmd : Dict Text Int}

/-- An id that is found was given by `cmd_fix.json`. -/
theorem loadFix_sound {id : Int} {name : Text}
    (found : (loadFix cmdFix).lookup id = some name) :
    cmdFix.lookup name = some id := by
  have every : ∀ (entries : List ((_ : Text) × Int)) (idMap : Dict Int Text),
      (∀ entry ∈ entries, cmdFix.lookup entry.1 = some entry.2) →
      (∀ id name, idMap.lookup id = some name → cmdFix.lookup name = some id) →
      ∀ id name, (entries.foldl (fun idMap i => idMap.insert i.2 i.1) idMap).lookup id =
        some name → cmdFix.lookup name = some id := by
    intro entries
    induction entries with
    | nil => exact fun idMap _ sound => sound
    | cons entry entries ih =>
        intro idMap given sound
        refine ih _ (fun other member => given other (List.mem_cons_of_mem _ member)) ?_
        intro id name found
        rcases lookup_insert_cases found with ⟨rfl, rfl⟩ | ⟨_, found⟩
        · exact given entry List.mem_cons_self
        · exact sound id name found
  refine every cmdFix.entries ∅ ?_ ?_ id name found
  · exact fun entry member => AList.mem_lookup_iff.mpr member
  · intro id name found
    rw [AList.lookup_empty] at found
    cases found

/-- No two names of `cmd_fix.json` have the same id. -/
def Distinct (cmdFix : Dict Text Int) : Prop :=
  ∀ name other id, cmdFix.lookup name = some id → cmdFix.lookup other = some id →
    name = other

/-- Where the ids are distinct, none of the names is lost. -/
theorem loadFix_complete (distinct : Distinct cmdFix) {id : Int} {name : Text}
    (given : cmdFix.lookup name = some id) :
    (loadFix cmdFix).lookup id = some name := by
  have every : ∀ (entries : List ((_ : Text) × Int)) (idMap : Dict Int Text),
      (∀ entry ∈ entries, entry.2 = id → entry.1 = name) →
      (idMap.lookup id = some name ∨ ⟨name, id⟩ ∈ entries) →
      (entries.foldl (fun idMap i => idMap.insert i.2 i.1) idMap).lookup id =
        some name := by
    intro entries
    induction entries with
    | nil => exact fun idMap _ found => found.resolve_right List.not_mem_nil
    | cons entry entries ih =>
        intro idMap alone found
        refine ih _ (fun other member => alone other (List.mem_cons_of_mem _ member)) ?_
        by_cases same : id = entry.2
        · rw [← alone entry List.mem_cons_self same.symm, same, AList.lookup_insert]
          exact .inl rfl
        · rw [AList.lookup_insert_ne same]
          refine found.imp_right fun member => ?_
          rcases List.mem_cons.mp member with rfl | member
          · exact absurd rfl same
          · exact member
  refine every cmdFix.entries ∅ ?_ (.inr (AList.mem_lookup_iff.mp given))
  intro entry member same
  have found : cmdFix.lookup entry.1 = some entry.2 := AList.mem_lookup_iff.mpr member
  rw [same] at found
  exact distinct entry.1 name id found given

/-- An entry of `cmd.json` is dropped, or new to `idMap`. -/
theorem keep_cases (cmdFix : Dict Text Int) (dicts : Dict Text Int × Dict Int Text)
    (i : (_ : Text) × Int) :
    keep cmdFix dicts i = (dicts.1.erase i.1, dicts.2) ∨
      (i.1 ∉ cmdFix ∧ (0 ≤ i.2 ∧ i.2 ≤ 60000) ∧ i.2 ∉ dicts.2 ∧
        keep cmdFix dicts i = (dicts.1, dicts.2.insert i.2 i.1)) := by
  rw [keep]
  split
  · exact .inl rfl
  · split
    · exact .inl rfl
    · split
      · exact .inl rfl
      · rename_i apart inside fresh
        exact .inr ⟨apart, by omega, fresh, rfl⟩

/-- What holds in the loop over `cmd.json`, with some entries still ahead. -/
structure Loading (cmdFix : Dict Text Int) (ahead : List ((_ : Text) × Int))
    (dicts : Dict Text Int × Dict Int Text) : Prop where
  named : ∀ id name, dicts.2.lookup id = some name →
    cmdFix.lookup name = some id ∨
      (name ∉ cmdFix ∧ dicts.1.lookup name = some id ∧ (0 ≤ id ∧ id ≤ 60000) ∧
        ∀ entry ∈ ahead, name ≠ entry.1)
  entered : ∀ name id, dicts.1.lookup name = some id →
    dicts.2.lookup id = some name ∨ ⟨name, id⟩ ∈ ahead
  once : ahead.Pairwise fun entry other => entry.1 ≠ other.1
  listed : ∀ entry ∈ ahead, dicts.1.lookup entry.1 = some entry.2

theorem Loading.keep {entry : (_ : Text) × Int} {ahead : List ((_ : Text) × Int)}
    {dicts : Dict Text Int × Dict Int Text}
    (loading : Loading cmdFix (entry :: ahead) dicts) :
    Loading cmdFix ahead (keep cmdFix dicts entry) := by
  have once := List.pairwise_cons.mp loading.once
  have here := loading.listed entry List.mem_cons_self
  rcases keep_cases cmdFix dicts entry with dropped | ⟨apart, inside, fresh, kept⟩
  · rw [dropped]
    refine ⟨?_, ?_, once.2, ?_⟩
    · intro id name found
      refine (loading.named id name found).imp_right ?_
      rintro ⟨outside, listed, bounds, others⟩
      refine ⟨outside, ?_, bounds,
        fun other member => others other (List.mem_cons_of_mem _ member)⟩
      rw [AList.lookup_erase_ne (others entry List.mem_cons_self)]
      exact listed
    · intro name id found
      by_cases same : name = entry.1
      · rw [same, AList.lookup_erase] at found
        cases found
      · rw [AList.lookup_erase_ne same] at found
        refine (loading.entered name id found).imp_right fun member => ?_
        rcases List.mem_cons.mp member with rfl | member
        · exact absurd rfl same
        · exact member
    · intro other member
      rw [AList.lookup_erase_ne (once.1 other member).symm]
      exact loading.listed other (List.mem_cons_of_mem _ member)
  · rw [kept]
    refine ⟨?_, ?_, once.2, ?_⟩
    · intro id name found
      rcases lookup_insert_cases found with ⟨rfl, rfl⟩ | ⟨_, found⟩
      · exact .inr ⟨apart, here, inside, once.1⟩
      · refine (loading.named id name found).imp_right ?_
        rintro ⟨outside, listed, bounds, others⟩
        exact ⟨outside, listed, bounds,
          fun other member => others other (List.mem_cons_of_mem _ member)⟩
    · intro name id found
      rcases loading.entered name id found with entered | member
      · by_cases same : id = entry.2
        · rw [same] at entered
          refine absurd ?_ fresh
          rw [← AList.lookup_isSome, entered]
          rfl
        · rw [AList.lookup_insert_ne same]
          exact .inl entered
      · rcases List.mem_cons.mp member with rfl | member
        · exact .inl (AList.lookup_insert _)
        · exact .inr member
    · exact fun other member => loading.listed other (List.mem_cons_of_mem _ member)

theorem Loading.foldl {ahead : List ((_ : Text) × Int)}
    {dicts : Dict Text Int × Dict Int Text} (loading : Loading cmdFix ahead dicts) :
    Loading cmdFix [] (ahead.foldl (ProtoJson2Hpp.keep cmdFix) dicts) := by
  induction ahead generalizing dicts with
  | nil => exact loading
  | cons entry ahead ih => exact ih loading.keep

theorem mem_range {start stop : Nat} {id : Int} (member : id ∈ range start stop) :
    start ≤ id ∧ id < stop := by
  simp only [range, List.mem_map, List.mem_range'_1] at member
  obtain ⟨n, bounds, rfl⟩ := member
  simp only [Int.ofNat_eq_natCast]
  omega

theorem nodup_range (start stop : Nat) : (range start stop).Nodup :=
  List.Nodup.map (fun _ _ same => Int.ofNat.inj same) List.nodup_range'

theorem load_loading (cmdFix cmd : Dict Text Int) :
    Loading cmdFix [] (cmd.entries.foldl (keep cmdFix) (cmd, loadFix cmdFix)) := by
  apply Loading.foldl
  refine ⟨?_, ?_, ?_, ?_⟩
  · exact fun id name found => .inl (loadFix_sound found)
  · exact fun name id found => .inr (AList.mem_lookup_iff.mp found)
  · exact List.pairwise_map.mp cmd.keys_nodup
  · exact fun entry member => AList.mem_lookup_iff.mpr member

theorem coherent_load (cmdFix cmd : Dict Text Int) : (load cmdFix cmd).Coherent := by
  have loading := load_loading cmdFix cmd
  have nodup := nodup_range 101 60001
  refine ⟨?_, ?_, ?_, ?_, nodup.diff⟩
  · exact fun id name found => (loading.named id name found).imp_right
      fun ⟨outside, listed, _⟩ => ⟨outside, listed⟩
  · exact fun name id found =>
      (loading.entered name id found).resolve_right List.not_mem_nil
  · exact fun id name found => (loading.named id name found).imp_right
      fun ⟨_, _, bounds, _⟩ => bounds
  · intro id member
    obtain ⟨inside, outside⟩ := (nodup.mem_sdiff_iff).mp member
    have bounds := mem_range inside
    refine ⟨fun known => outside (AList.mem_keys.mp known), ?_⟩
    omega

/-- The name that `cmd.json` has for an id, unless the id or the name is in
`cmd_fix.json` or the id is out of range. Of two such names with one id the first counts. -/
def remembered (cmdFix cmd : Dict Text Int) (id : Int) : Option Text :=
  if 0 ≤ id ∧ id ≤ 60000 then
    (cmd.entries.find? fun entry => entry.2 = id ∧ entry.1 ∉ cmdFix).map fun entry => entry.1
  else none

/-- What the loop over `cmd.json` finds under an id, or adds there. -/
theorem load_lookup (cmdFix cmd : Dict Text Int) (id : Int) :
    (load cmdFix cmd).idMap.lookup id =
      ((loadFix cmdFix).lookup id).or (remembered cmdFix cmd id) := by
  have every : ∀ (entries : List ((_ : Text) × Int))
      (dicts : Dict Text Int × Dict Int Text),
      (entries.foldl (keep cmdFix) dicts).2.lookup id =
        (dicts.2.lookup id).or (if 0 ≤ id ∧ id ≤ 60000 then
          (entries.find? fun entry => entry.2 = id ∧ entry.1 ∉ cmdFix).map fun entry => entry.1
        else none) := by
    intro entries
    induction entries with
    | nil => simp
    | cons entry entries ih =>
        intro dicts
        rw [List.foldl_cons, ih, List.find?_cons]
        by_cases here : entry.2 = id ∧ entry.1 ∉ cmdFix
        · obtain ⟨rfl, apart⟩ := here
          simp only [apart, not_false_eq_true, and_self, decide_true, Option.map_some]
          rw [keep, if_neg apart]
          by_cases inside : 0 ≤ entry.2 ∧ entry.2 ≤ 60000
          · rw [if_neg (by omega), if_pos inside, if_pos inside]
            cases found : dicts.2.lookup entry.2 with
            | some name =>
                rw [if_pos (mem_of_lookup found)]
                simp [found]
            | none =>
                rw [if_neg (AList.lookup_eq_none.mp found), AList.lookup_insert]
                rfl
          · rw [if_pos (by omega), if_neg inside, if_neg inside]
        · rw [show decide (entry.2 = id ∧ entry.1 ∉ cmdFix) = false from decide_eq_false here]
          suffices same : (keep cmdFix dicts entry).2.lookup id = dicts.2.lookup id by
            rw [same]
          rcases keep_cases cmdFix dicts entry with dropped | ⟨apart, _, _, kept⟩
          · rw [dropped]
          · rw [kept, AList.lookup_insert_ne fun same => here ⟨same.symm, apart⟩]
  exact every cmd.entries _

/-- What `cmd_fix.json` put into `idMap` stays there. -/
theorem load_kept {id : Int} {name : Text}
    (found : (loadFix cmdFix).lookup id = some name) :
    (load cmdFix cmd).idMap.lookup id = some name := by
  rw [load_lookup, found, Option.some_or]

end Load

/-! ### Building -/

/-- The name that a type has in the table, if it is an `isMsg` type. -/
def Item.message : Item → Option Text
  | .object (some (.string typeName)) _ (some (.bool true)) => some (idName typeName)
  | _ => none

/-- The names of the `isMsg` types of all schema files. -/
def messages (filelist : List (List Item)) : List Text :=
  filelist.flatten.filterMap Item.message

/-- An id is looked for among the known ones, and taken from the free ones. -/
theorem allocate_cases {cmds next : Cmds} {typeName : Text}
    (allocated : allocate cmds typeName = .ok next) :
    (next = cmds ∧ (idName typeName ∈ cmds.cmdIDs2 ∨ idName typeName ∈ cmds.cmdIDs)) ∨
      (idName typeName ∉ cmds.cmdIDs2 ∧ idName typeName ∉ cmds.cmdIDs ∧
        ∃ id others, cmds.canUseIDs = id :: others ∧
          next = { cmds with
            cmdIDs := cmds.cmdIDs.insert (idName typeName) id
            idMap := cmds.idMap.insert id (idName typeName)
            canUseIDs := others }) := by
  rw [allocate] at allocated
  split at allocated
  · rename_i unknown
    cases free : cmds.canUseIDs with
    | nil => simp [free] at allocated
    | cons id others =>
        simp only [free, Except.ok.injEq] at allocated
        exact .inr ⟨unknown.1, unknown.2, id, others, rfl, allocated.symm⟩
  · rename_i known
    cases allocated
    exact .inl ⟨rfl, by tauto⟩

/-- A new id clashes with nothing. -/
theorem Cmds.Coherent.allocate {cmds next : Cmds} {typeName : Text}
    (coherent : cmds.Coherent) (allocated : allocate cmds typeName = .ok next) :
    next.Coherent ∧ cmds.Extends next ∧
      (idName typeName ∈ next.cmdIDs2 ∨ idName typeName ∈ next.cmdIDs) ∧
      ∀ name ∈ next.cmdIDs, name ∈ cmds.cmdIDs ∨ name = idName typeName := by
  rcases allocate_cases allocated with ⟨rfl, known⟩ | ⟨fixed, known, id, others, free, rfl⟩
  · exact ⟨coherent, .refl _, known, fun _ => .inl⟩
  · have first : id ∈ cmds.canUseIDs := by
      rw [free]
      exact List.mem_cons_self
    obtain ⟨fresh, bounds⟩ := coherent.free id first
    have distinct := coherent.distinct
    rw [free, List.nodup_cons] at distinct
    have apart : ∀ {other : Int} {name : Text}, cmds.idMap.lookup other = some name →
        other ≠ id := by
      rintro other name found rfl
      exact fresh (mem_of_lookup found)
    refine ⟨⟨?_, ?_, ?_, ?_, distinct.2⟩, ⟨rfl, ?_, ?_⟩, .inr ?_, ?_⟩
    · intro other name found
      rcases lookup_insert_cases found with ⟨rfl, rfl⟩ | ⟨_, found⟩
      · exact .inr ⟨fixed, AList.lookup_insert _⟩
      · refine (coherent.named other name found).imp_right fun ⟨outside, listed⟩ => ?_
        refine ⟨outside, ?_⟩
        rw [AList.lookup_insert_ne]
        · exact listed
        · rintro rfl
          exact known (mem_of_lookup listed)
    · intro name other found
      rcases lookup_insert_cases found with ⟨rfl, rfl⟩ | ⟨_, found⟩
      · exact AList.lookup_insert _
      · have entered := coherent.entered name other found
        rw [AList.lookup_insert_ne (apart entered)]
        exact entered
    · intro other name found
      rcases lookup_insert_cases found with ⟨rfl, rfl⟩ | ⟨_, found⟩
      · exact .inr bounds
      · exact coherent.inRange other name found
    · intro other member
      obtain ⟨outside, inside⟩ := coherent.free other (by
        rw [free]
        exact List.mem_cons_of_mem _ member)
      refine ⟨fun known => ?_, inside⟩
      rcases (AList.mem_insert _).mp known with rfl | known
      · exact distinct.1 member
      · exact outside known
    · exact fun name member => (AList.mem_insert _).mpr (.inr member)
    · intro other name found
      rw [AList.lookup_insert_ne (apart found)]
      exact found
    · exact (AList.mem_insert _).mpr (.inl rfl)
    · exact fun name member => ((AList.mem_insert _).mp member).symm

/-- The globals that have nothing to do with `structs`. -/
theorem Cmds.Coherent.structs {cmds : Cmds} (coherent : cmds.Coherent)
    (structs : List Text) : Cmds.Coherent { cmds with structs := structs } where
  named := coherent.named
  entered := coherent.entered
  inRange := coherent.inRange
  free := coherent.free
  distinct := coherent.distinct

/-- What an element does to the globals, apart from `structs`. -/
theorem buildItem_cases {cmds next : Cmds} {item : Item}
    (built : buildItem cmds item = .ok next) :
    ∃ typeName middle, next = { middle with structs := cmds.structs ++ [typeName] } ∧
      ((item.message = none ∧ middle = cmds) ∨
        (item.message = some (idName typeName) ∧ allocate cmds typeName = .ok middle)) := by
  cases item with
  | other => cases built
  | object typeName fields isMsg =>
      rw [buildItem.eq_def] at built
      simp only at built
      split at built
      · rename_i typeName
        split at built
        · cases built
        · split at built
          · cases built
          · split at built
            · by_cases named : isMsg = some (.bool true)
              · subst named
                simp only [↓reduceIte, bind, Except.bind] at built
                cases allocated : allocate cmds typeName with
                | error stop => simp [allocated] at built
                | ok middle =>
                    simp only [allocated, pure, Except.pure, Except.ok.injEq] at built
                    refine ⟨typeName, middle, ?_, .inr ⟨rfl, allocated⟩⟩
                    rw [← built]
                    rcases allocate_cases allocated with ⟨rfl, _⟩ |
                      ⟨_, _, _, _, _, rfl⟩ <;> rfl
              · simp only [if_neg named, bind, Except.bind, pure, Except.pure,
                  Except.ok.injEq] at built
                refine ⟨typeName, cmds, built.symm, .inl ⟨?_, rfl⟩⟩
                rw [Item.message.eq_def]
                split
                · rename_i same
                  cases same
                  exact absurd rfl named
                · rfl
            · cases built
      · cases built

/-- What part of the script leaves behind: coherent dictionaries, which have all
that they had before, and an id for each of some names. -/
structure Cmds.Builds (before : Cmds) (names : List Text) (after : Cmds) : Prop where
  coherent : after.Coherent
  extended : before.Extends after
  present : ∀ name ∈ names, name ∈ after.cmdIDs2 ∨ name ∈ after.cmdIDs
  source : ∀ name ∈ after.cmdIDs, name ∈ before.cmdIDs ∨ name ∈ names

/-- One element. -/
theorem Cmds.Coherent.buildItem {cmds next : Cmds} {item : Item}
    (coherent : cmds.Coherent) (built : buildItem cmds item = .ok next) :
    cmds.Builds item.message.toList next := by
  obtain ⟨typeName, middle, rfl, ⟨none, rfl⟩ | ⟨some, allocated⟩⟩ := buildItem_cases built
  · rw [none]
    exact ⟨coherent.structs _, ⟨rfl, fun _ known => known, fun _ _ kept => kept⟩,
      fun name member => absurd member List.not_mem_nil, fun _ => .inl⟩
  · obtain ⟨later, extended, known, source⟩ := coherent.allocate allocated
    rw [some]
    refine ⟨later.structs _, ⟨extended.fixed, extended.known, extended.kept⟩, ?_, ?_⟩
    · intro name member
      rw [List.mem_singleton.mp member]
      exact known
    · exact fun name member => (source name member).imp_right List.mem_singleton.mpr

/-- One step after the other. -/
theorem Cmds.Builds.foldlM {α : Type} {step : Cmds → α → Except Stop Cmds}
    {names : α → List Text}
    (each : ∀ cmds entry next, cmds.Coherent → step cmds entry = .ok next →
      cmds.Builds (names entry) next)
    {entries : List α} {cmds last : Cmds} (coherent : cmds.Coherent)
    (taken : entries.foldlM step cmds = .ok last) :
    cmds.Builds (entries.flatMap names) last := by
  induction entries generalizing cmds with
  | nil =>
      cases taken
      exact ⟨coherent, .refl _, fun name member => absurd member List.not_mem_nil,
        fun _ => .inl⟩
  | cons entry entries ih =>
      rw [List.foldlM_cons] at taken
      cases first : step cmds entry with
      | error stop => simp [first, bind, Except.bind] at taken
      | ok next =>
          simp only [first, bind, Except.bind] at taken
          have one := each cmds entry next coherent first
          have others := ih one.coherent taken
          refine ⟨others.coherent, one.extended.trans others.extended, ?_, ?_⟩
          · intro name member
            rcases List.mem_append.mp member with here | later
            · refine (one.present name here).imp (fun fixed => ?_)
                (others.extended.known name)
              rw [others.extended.fixed]
              exact fixed
            · exact others.present name later
          · intro name member
            rw [List.flatMap_cons, List.mem_append, ← or_assoc]
            exact (others.source name member).imp_left (one.source name)

/-- All schema files. -/
theorem Cmds.Coherent.build {cmds last : Cmds} {filelist : List (List Item)}
    (coherent : cmds.Coherent) (taken : filelist.foldlM build cmds = .ok last) :
    cmds.Builds (messages filelist) last := by
  have all := Cmds.Builds.foldlM
    (fun cmds j next coherent built => Cmds.Builds.foldlM
      (fun cmds item next coherent built => coherent.buildItem built) coherent built)
    coherent taken
  have same : filelist.flatMap (fun j => j.flatMap fun item => item.message.toList) =
      messages filelist := by
    rw [messages, List.filterMap_eq_flatMap_toList, ← List.flatMap_id, List.flatMap_assoc]
    rfl
  rw [same] at all
  exact all

/-! ## The table -/

/-- The ids of `Type.h`: `SYSPING_REQ`, `SYSPING_ACK`, `PROTOCOL_VERSION_NTF`,
`PROTOCOL_VERSION_AVAILABLE_NTF`, `KCP_READY_NTF` and `KCP_CLOSE`. -/
def systemIDs : List Int := [0xFFFA, 0xFFFB, 0xFFFC, 0xFFFD, 0xFFF0, 0xFFEF]

/-- What the table is for: every message has one id, every id one message, the
fixed ids are kept, and those of the system are left alone. -/
structure Good (cmdFix : Dict Text Int) (names : List Text) (table : List (Int × Text)) :
    Prop where
  complete : ∀ name ∈ names, (table.map Prod.snd).count name = 1
  injective : ∀ row ∈ table, ∀ other ∈ table, row.2 ≠ other.2 → row.1 ≠ other.1
  fixed : ∀ name id, cmdFix.lookup name = some id →
    ∀ other, (other, name) ∈ table ↔ other = id
  inRange : ∀ row ∈ table, 0 ≤ row.1 ∧ row.1 ≤ 60000
  system : ∀ row ∈ table, row.1 ∉ systemIDs

/-- The ids of `cmd_fix.json` are distinct and in range. -/
def Sound (cmdFix : Dict Text Int) : Prop :=
  Distinct cmdFix ∧ ∀ name id, cmdFix.lookup name = some id → 0 ≤ id ∧ id ≤ 60000

/-- The run that a table comes from. -/
theorem table_builds {cmdFix cmd : Dict Text Int} {filelist : List (List Item)}
    {written : List (Int × Text)} (wrote : table cmdFix cmd filelist = .ok written) :
    ∃ last, written = rows last.idMap ∧
      (load cmdFix cmd).Builds (messages filelist) last := by
  rw [table] at wrote
  cases built : filelist.foldlM build (load cmdFix cmd) with
  | error stop => simp [built, bind, Except.bind] at wrote
  | ok last =>
      simp only [built, bind, Except.bind, pure, Except.pure, Except.ok.injEq] at wrote
      exact ⟨last, wrote.symm, (coherent_load cmdFix cmd).build built⟩

/-- A name has at most one id. -/
theorem Cmds.Coherent.unique {cmds : Cmds} (coherent : cmds.Coherent) {id other : Int}
    {name : Text} (first : cmds.idMap.lookup id = some name)
    (second : cmds.idMap.lookup other = some name) : id = other := by
  rcases coherent.named id name first with fixed | ⟨outside, listed⟩
  · rcases coherent.named other name second with again | ⟨outside, _⟩
    · exact Option.some.inj (fixed.symm.trans again)
    · exact absurd (mem_of_lookup fixed) outside
  · rcases coherent.named other name second with fixed | ⟨_, again⟩
    · exact absurd (mem_of_lookup fixed) outside
    · exact Option.some.inj (listed.symm.trans again)

/-- No name is in the table twice. -/
theorem Cmds.Coherent.nodup_names {cmds : Cmds} (coherent : cmds.Coherent) :
    ((rows cmds.idMap).map Prod.snd).Nodup := by
  refine List.Nodup.map_on ?_ (nodup_rows cmds.idMap)
  intro row member other second same
  rw [mem_rows] at member second
  rw [← same] at second
  exact Prod.ext (coherent.unique member second) same

/-- A name with an id is in `idMap`, if the ids of `cmd_fix.json` are distinct. -/
theorem Cmds.Builds.found {cmdFix cmd : Dict Text Int} {names : List Text} {last : Cmds}
    (builds : (load cmdFix cmd).Builds names last) (distinct : Distinct cmdFix) :
    (∀ name id, cmdFix.lookup name = some id → last.idMap.lookup id = some name) ∧
      ∀ name ∈ names, ∃ id, last.idMap.lookup id = some name := by
  have fixed : ∀ name id, cmdFix.lookup name = some id →
      last.idMap.lookup id = some name := fun name id given =>
    builds.extended.kept id name (load_kept (loadFix_complete distinct given))
  refine ⟨fixed, fun name member => ?_⟩
  rcases builds.present name member with known | known
  · rw [builds.extended.fixed] at known
    obtain ⟨id, given⟩ := Option.isSome_iff_exists.mp (AList.lookup_isSome.mpr known)
    exact ⟨id, fixed name id given⟩
  · obtain ⟨id, given⟩ := Option.isSome_iff_exists.mp (AList.lookup_isSome.mpr known)
    exact ⟨id, builds.coherent.entered name id given⟩

/-- The ids of a table are in range, if those of `cmd_fix.json` are. -/
theorem Cmds.Builds.inRange {cmdFix cmd : Dict Text Int} {names : List Text} {last : Cmds}
    (builds : (load cmdFix cmd).Builds names last) (sound : Sound cmdFix) :
    ∀ row ∈ rows last.idMap, 0 ≤ row.1 ∧ row.1 ≤ 60000 := by
  intro row member
  rw [mem_rows] at member
  refine (builds.coherent.inRange row.1 row.2 member).elim (fun given => ?_) id
  rw [builds.extended.fixed] at given
  exact sound.2 row.2 row.1 given

/-- The rows are good exactly if `cmd_fix.json` is: what is wrong there is logged, and
written all the same. -/
theorem good_rows_iff {cmdFix cmd : Dict Text Int} {filelist : List (List Item)}
    {written : List (Int × Text)} (wrote : table cmdFix cmd filelist = .ok written) :
    Good cmdFix (messages filelist) written ↔ Sound cmdFix := by
  obtain ⟨last, rfl, builds⟩ := table_builds wrote
  constructor
  · intro good
    have given : ∀ name id, cmdFix.lookup name = some id → (id, name) ∈ rows last.idMap :=
      fun name id fixed => (good.fixed name id fixed id).mpr rfl
    refine ⟨fun name other id first second => ?_, fun name id fixed => ?_⟩
    · have here := mem_rows.mp (given name id first)
      have there := mem_rows.mp (given other id second)
      exact Option.some.inj (here.symm.trans there)
    · exact good.inRange (id, name) (given name id fixed)
  · intro sound
    obtain ⟨fixed, found⟩ := builds.found sound.1
    have bounds := builds.inRange sound
    refine ⟨fun name member => ?_, fun row member other second apart => ?_,
      fun name id given other => ?_, bounds, fun row member => ?_⟩
    · obtain ⟨id, given⟩ := found name member
      refine List.count_eq_one_of_mem builds.coherent.nodup_names ?_
      exact List.mem_map.mpr ⟨(id, name), mem_rows.mpr given, rfl⟩
    · intro same
      rw [mem_rows] at member second
      rw [← same, member, Option.some.injEq] at second
      exact apart second
    · rw [mem_rows]
      refine ⟨fun other => builds.coherent.unique other (fixed name id given), ?_⟩
      rintro rfl
      exact fixed name other given
    · have inside := bounds row member
      simp only [systemIDs, List.mem_cons, List.not_mem_nil, or_false]
      omega

theorem lookup_single {key name : Text} {value id : Int}
    (found : ((∅ : Dict Text Int).insert key value).lookup name = some id) :
    name = key ∧ id = value := by
  rcases lookup_insert_cases found with new | ⟨_, found⟩
  · exact new
  · rw [AList.lookup_empty] at found
    cases found

/-- A message type without fields. -/
def Item.plain (typeName : Text) : Item :=
  .object (some (.string typeName)) (some .list) (some (.bool true))

end Nicenet.ProtoJson2Hpp
