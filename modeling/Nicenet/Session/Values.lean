import Mathlib.Data.List.Forall2
import Mathlib.Data.List.ReduceOption
import Nicenet.Proto.Table
import Nicenet.Serial.RoundTrip
import Nicenet.Session.Channel

/-!
# Values over a TCP connection

A program's message types have the ids of the table that `ProtoJson2Hpp.py` writes. One
side sends values of these types; the other side has commands for some of them, each of
which decodes its message into a default object of its type.
-/

namespace Nicenet

open Library

/-- The message types of a program and their ids, none of them twice. -/
structure Protocol (ν : Type) where
  Value : ν → Type
  ty : (kind : ν) → Ty (Value kind)
  id : ν → UInt16
  distinct : Function.Injective id

/-- The ids that a table gives to distinct names are distinct. -/
theorem ids_injective {ν : Type} {cmdFix cmd : ProtoJson2Hpp.Dict ProtoJson2Hpp.Text Int}
    {filelist : List (List ProtoJson2Hpp.Item)} {written : List (Int × ProtoJson2Hpp.Text)}
    (wrote : ProtoJson2Hpp.table cmdFix cmd filelist = .ok written)
    {name : ν → ProtoJson2Hpp.Text} (names : Function.Injective name) {id : ν → UInt16}
    (listed : ∀ kind, (((id kind).toNat : Int), name kind) ∈ written) :
    Function.Injective id := by
  intro kind other same
  obtain ⟨last, rfl, -⟩ := ProtoJson2Hpp.table_builds wrote
  have first := ProtoJson2Hpp.mem_rows.mp (listed kind)
  have second := ProtoJson2Hpp.mem_rows.mp (listed other)
  rw [same] at first
  exact names (Option.some.inj (first.symm.trans second))

/-- The types of a program, each with the id that the table of the program has for its name. -/
def Protocol.ofTable {ν : Type} {cmdFix cmd : ProtoJson2Hpp.Dict ProtoJson2Hpp.Text Int}
    {filelist : List (List ProtoJson2Hpp.Item)} {written : List (Int × ProtoJson2Hpp.Text)}
    (wrote : ProtoJson2Hpp.table cmdFix cmd filelist = .ok written)
    {name : ν → ProtoJson2Hpp.Text} (names : Function.Injective name)
    {Value : ν → Type} (ty : (kind : ν) → Ty (Value kind)) (id : ν → UInt16)
    (listed : ∀ kind, (((id kind).toNat : Int), name kind) ∈ written) : Protocol ν where
  Value := Value
  ty := ty
  id := id
  distinct := ids_injective wrote names listed

namespace Protocol

variable {ν : Type} (protocol : Protocol ν)

/-- `sendMessage(const Serializable&)` of a value. -/
def Message (value : (kind : ν) × protocol.Value kind) (msg : Message) : Prop :=
  ∃ heap, (protocol.ty value.1).toMsg heap (protocol.id value.1) value.2 .empty = .ok msg

/-- A value without conditional fields that a default object takes over as it is. -/
def Plain (value : (kind : ν) × protocol.Value kind) : Prop :=
  (protocol.ty value.1).plain ∧ (protocol.ty value.1).Fresh (protocol.ty value.1).init value.2

/-- The commands of a session class for some of the types. -/
def entries {ι : Type} (info : ι) (kinds : List ν) : List (SessionCommand ι ν) :=
  kinds.map fun kind => ⟨info, protocol.id kind, kind⟩

/-- What the command of a type does first: it decodes its message. -/
def decode (started : ν × Nicenet.Message) : Except Fault ((kind : ν) × protocol.Value kind) :=
  match (protocol.ty started.1).unserializeFrom started.2 (protocol.ty started.1).init with
  | .error fault => .error fault
  | .ok (value, _) => .ok ⟨started.1, value⟩

end Protocol

section Header

variable {α : Type} {ty : Ty α} {heap : Heap} {id : UInt16} {v : α} {sent : Message}

/-- What `toMsg` has built is a buffer with the id and the value behind the size. -/
theorem toMsg_built {msg : Message} (built : ty.toMsg heap id v msg = .ok sent) :
    6 + ty.written v ≤ ty.bufferSize v ∧
      sent = ⟨.heap (Bytes.overwrite (headerMemory heap (ty.bufferSize v) id) 6
        (ty.insert v).flatten), 6 + UInt32.ofNat (ty.written v), 6⟩ := by
  by_cases room : 6 + ty.written v ≤ ty.bufferSize v
  · rw [toMsg_ok heap ty id v msg room] at built
    cases built
    exact ⟨room, rfl⟩
  · rw [toMsg_outOfRange heap ty id v msg (Nat.lt_of_not_le room)] at built
    cases built

/-- A write behind the header leaves the id of the message alone. -/
theorem getMsgID_headerMemory (heap : Heap) (id : UInt16) {size : Nat} (bytes : List UInt8)
    (writePoint readPoint : UInt32) (header : 6 ≤ size) :
    Message.getMsgID ⟨.heap (Bytes.overwrite (headerMemory heap size id) 6 bytes), writePoint,
      readPoint⟩ = id := by
  have built := Message.length_builtMemory heap (show 4 ≤ size by omega)
  have front : ((Message.builtMemory heap size).take 4).length = 4 := by
    rw [List.length_take, built]
    omega
  have taken : (headerMemory heap size id).take 6 =
      (Message.builtMemory heap size).take 4 ++ Bytes.ofNat 2 id.toNat := by
    have all := Bytes.take_overwrite_end (Bytes.ofNat 2 id.toNat)
      (show 4 ≤ (Message.builtMemory heap size).length by omega)
    rwa [Bytes.length_ofNat] at all
  have field : ((Bytes.overwrite (headerMemory heap size id) 6 bytes).drop 4).take 2 =
      Bytes.ofNat 2 id.toNat := by
    have inside := length_headerMemory heap id header
    rw [List.take_drop, Bytes.take_overwrite (by rw [inside]; exact header) (Nat.le_refl 6),
      taken, List.drop_left' front]
  simp only [Message.getMsgID, field]
  rw [Bytes.toNat_ofNat_of_lt (UInt16.toNat_lt id), UInt16.ofNat_toNat]

/-- The id of a message and the value in it are read from any message with its buffer. -/
theorem toMsg_read {msg : Message} (built : ty.toMsg heap id v msg = .ok sent)
    (plain : ty.plain) (fresh : ty.Fresh ty.init v) :
    ∃ memory, sent.buff = .heap memory ∧ Message.getMsgID ⟨.heap memory, 6, 6⟩ = id ∧
      ∃ next, ty.unserializeFrom ⟨.heap memory, 6, 6⟩ ty.init = .ok (v, next) := by
  obtain ⟨room, rfl⟩ := toMsg_built built
  have limit : ty.bufferSize v < 2 ^ 32 := UInt32.toNat_lt _
  have small : ty.written v < 2 ^ 32 := by omega
  obtain ⟨rest, unread⟩ := unread_header heap ty id limit room
  refine ⟨_, rfl, getMsgID_headerMemory heap id _ 6 6 (by omega), ?_⟩
  have word : ty.Words ty.init (ty.insert v).flatten (ty.merge ty.init v) :=
    ⟨v, (ty.wire_eq plain ty.init v small).symm, rfl⟩
  rw [(ty.merge_eq_iff plain ty.init v small).mpr fresh] at word
  have ahead : Unread _ ⟨.heap _, 6, 6⟩ _ := ⟨rfl, unread.size, unread.inside, unread.ahead⟩
  obtain ⟨next, read, -⟩ := (ty.extract_reads ty.init).complete word ahead
  exact ⟨next, read⟩

end Header

section Decoded

variable {κ ω : Type} {parser : Option (MessageParser κ)} {decode : κ × Message → ω}

/-- What the command reads that a message starts; nothing if it starts none. -/
def Starts (parser : Option (MessageParser κ)) (decode : κ × Message → ω)
    (outcome : Option ω) (msg : Message) : Prop :=
  ∃ memory, msg.buff = .heap memory ∧
    (handleMessage parser ⟨.heap memory, 6, 6⟩).map decode = outcome

theorem decode_frames {outcomes : List (Option ω)} {posted : List Message}
    (starts : List.Forall₂ (Starts parser decode) outcomes posted) :
    (loads posted).map (fun frame => (handleMessage parser ⟨.heap frame, 6, 6⟩).map decode) =
      outcomes := by
  induction starts with
  | nil => rfl
  | @cons outcome msg outcomes posted first _ ih =>
      obtain ⟨memory, buff, read⟩ := first
      have load : loads (msg :: posted) = memory :: loads posted := by
        simp only [loads, List.filterMap_cons, buff]
      rw [load, List.map_cons, read, ih]

theorem decode_commands (frames : List (List UInt8)) :
    (Channel.commands parser frames).map decode =
      (frames.map fun frame =>
        (handleMessage parser ⟨.heap frame, 6, 6⟩).map decode).reduceOption := by
  rw [Channel.commands, List.map_filterMap, List.reduceOption, List.filterMap_map]
  rfl

/-- What is left of outcomes that are there on a condition. -/
theorem reduceOption_ite {α : Type} (known : α → Prop) [DecidablePred known] (read : α → ω)
    (values : List α) :
    (values.map fun value => if known value then some (read value) else none).reduceOption =
      (values.filter fun value => known value).map read := by
  induction values with
  | nil => rfl
  | cons value values ih =>
      rw [List.map_cons]
      by_cases here : known value
      · rw [if_pos here, List.reduceOption_cons_of_some, ih]
        simp [here]
      · rw [if_neg here, List.reduceOption_cons_of_none, ih]
        simp [here]

section Values

variable {α : Type} {known : α → Prop} [DecidablePred known] {read : α → ω}
variable {values : List α} {posted : List Message}

/-- Messages that are built of values start the commands of the values that are known. -/
theorem starts_map {built : α → Message → Prop} {plain : α → Prop}
    (each : ∀ value msg, built value msg → plain value →
      Starts parser decode (if known value then some (read value) else none) msg)
    (sent : List.Forall₂ built values posted) (all : ∀ value ∈ values, plain value) :
    List.Forall₂ (Starts parser decode)
      (values.map fun value => if known value then some (read value) else none) posted := by
  apply List.forall₂_map_left_iff.mpr
  have both := (List.forall₂_and_left values posted).mpr ⟨all, sent⟩
  exact both.imp fun value msg both => each value msg both.2 both.1

variable (starts : List.Forall₂ (Starts parser decode)
  (values.map fun value => if known value then some (read value) else none) posted)
include starts

/-- The commands for the first of some messages have read the first of their values. -/
theorem decode_prefix {front : List (List UInt8)} (begun : front <+: loads posted) :
    ∃ first, first <+: values ∧ (Channel.commands parser front).map decode =
      (first.filter fun value => known value).map read := by
  have part := begun.map fun frame => (handleMessage parser ⟨.heap frame, 6, 6⟩).map decode
  rw [decode_frames starts] at part
  obtain ⟨first, before, same⟩ := List.prefix_map_iff.mp part
  refine ⟨first, before, ?_⟩
  rw [decode_commands, same, reduceOption_ite]

theorem decode_all :
    (Channel.commands parser (loads posted)).map decode =
      (values.filter fun value => known value).map read := by
  rw [decode_commands, decode_frames starts, reduceOption_ite]

end Values

end Decoded

namespace Protocol

variable {ν ι : Type} [DecidableEq ν] [DecidableEq ι] {protocol : Protocol ν}

/-- The table of the class knows the ids of its types and no others. -/
theorem getMessagerParse_entries (info : ι) {kinds : List ν} (once : kinds.Nodup) (kind : ν) :
    getMessagerParse (protocol.entries info kinds) info (protocol.id kind) =
      if kind ∈ kinds then some kind else none := by
  by_cases known : kind ∈ kinds
  · have apart : (protocol.entries info kinds).Pairwise fun first second =>
        first.info ≠ second.info ∨ first.command ≠ second.command := by
      rw [entries, List.pairwise_map]
      exact once.imp fun other => .inr fun same => other (protocol.distinct same)
    have member : (⟨info, protocol.id kind, kind⟩ : SessionCommand ι ν) ∈
        protocol.entries info kinds := List.mem_map_of_mem known
    rw [if_pos known]
    exact getMessagerParse_of_mem apart member
  · rw [if_neg known, getMessagerParse_apply, List.find?_eq_none.mpr, Option.map_none]
    intro entry member
    obtain ⟨other, inside, rfl⟩ := List.mem_map.mp (List.mem_reverse.mp member)
    simp only [decide_eq_true_eq, true_and]
    intro same
    exact known (protocol.distinct same ▸ inside)

/-- A message that was built of a value starts the command of its type, if there is one, and
the command reads the value. -/
theorem starts_sent (info : ι) {kinds : List ν} (once : kinds.Nodup)
    {value : (kind : ν) × protocol.Value kind} {msg : Nicenet.Message}
    (sent : protocol.Message value msg) (plain : protocol.Plain value) :
    Starts (some (getMessagerParse (protocol.entries info kinds) info)) protocol.decode
      (if value.1 ∈ kinds then some (.ok value) else none) msg := by
  obtain ⟨heap, built⟩ := sent
  obtain ⟨memory, buff, id, next, read⟩ := toMsg_read built plain.1 plain.2
  refine ⟨memory, buff, ?_⟩
  simp only [handleMessage, bind, Option.bind, id, getMessagerParse_entries info once]
  by_cases known : value.1 ∈ kinds
  · simp only [if_pos known, Option.map_some, decode, read]
  · simp only [if_neg known, Option.map_none]

/-- The messages of some values start the commands for those values, and these read them. -/
theorem starts_values (info : ι) {kinds : List ν} (once : kinds.Nodup)
    {values : List ((kind : ν) × protocol.Value kind)} {posted : List Nicenet.Message}
    (sent : List.Forall₂ protocol.Message values posted)
    (plain : ∀ value ∈ values, protocol.Plain value) :
    List.Forall₂
      (Starts (some (getMessagerParse (protocol.entries info kinds) info)) protocol.decode)
      (values.map fun value => if value.1 ∈ kinds then some (.ok value) else none) posted := by
  exact starts_map (fun _ _ => starts_sent info once) sent plain

section OneValue

open ProtoJson2Hpp (table Item)

theorem table_code :
    table ∅ ∅ [[Item.plain "Code".toList]] = .ok [(101, "CodeID".toList)] := by
  decide +kernel

/-- A program with the type `Code`, which has three fields, and its table. -/
def code : Protocol Unit :=
  .ofTable table_code (fun _ _ _ => rfl) (fun _ => Proto.Code.ty) (fun _ => 101)
    fun _ => List.mem_singleton_self _

/-- A value of it, and the buffer that `toMsg` makes of it. -/
def codeValue : (kind : Unit) × code.Value kind := ⟨(), 7, [97], 3, ()⟩

def codeFrame : List UInt8 :=
  [27, 0, 0, 0, 101, 0, 7, 0, 0, 0, 1, 0, 0, 0, 97, 3, 0, 0, 0, 0, 0, 0, 0, 0, 0, 0, 0]

theorem codeMessage : code.Message codeValue ⟨.heap codeFrame, 19, 6⟩ :=
  ⟨Heap.filled 0, by rfl⟩

theorem codePlain : code.Plain codeValue :=
  ⟨by rfl, trivial, trivial, trivial, trivial⟩

end OneValue

end Protocol

end Nicenet
