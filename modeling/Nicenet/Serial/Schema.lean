import Nicenet.Message

/-!
# Message types and their serialization

A schema lists the fields of a struct; `ProtoJson2Hpp.py` writes one struct, one
`operator<<`, one `operator>>` and one `getSize` for each of its types. `Ty` has
a constructor for every type a field can have, indexed by the values of that
type, and each of the three overload sets is one function over it.
-/

namespace Nicenet

open Library

/-- `oper_uint_base` is `ui32`. -/
structure OperUInt where
  impl : UInt32
  deriving DecidableEq, Repr

/-- `store_uint_base` is `ui64`. -/
structure StoreUInt where
  impl : UInt64
  deriving DecidableEq, Repr

/-- `m_Size` bytes; `m_Size` is a `ui32`. -/
structure Binary where
  data : List UInt8
  size_lt : data.length < 2 ^ 32
  deriving DecidableEq, Repr

namespace Binary

/-- `m_Size` and the bytes copied to `m_Data`. -/
def copy (size : UInt32) (data : List UInt8) : Binary where
  data := data.take size.toNat
  size_lt := Nat.lt_of_le_of_lt (List.length_take_le _ _) size.toNat_lt

def m_Size (binary : Binary) : UInt32 := UInt32.ofNat binary.data.length

theorem toNat_m_Size (binary : Binary) : binary.m_Size.toNat = binary.data.length :=
  UInt32.toNat_ofNat_of_lt' binary.size_lt

end Binary

mutual

/-- The types of a field. A struct has its fields and its default value. -/
inductive Ty : Type → Type 1 where
  | ui16 : Ty UInt16
  | ui32 : Ty UInt32
  | ui64 : Ty UInt64
  | string : Ty (List UInt8)
  | binary : Ty Binary
  | operUInt : Ty OperUInt
  | storeUInt : Ty StoreUInt
  | vector {α : Type} (element : Ty α) : Ty (List α)
  | struct {α : Type} (fields : Fields α α) (init : α) : Ty α

/-- The fields of a struct with values `σ`, from one field to the last. A
condition is an expression over the whole struct. Where a variable `s` is in
scope, it stands in front of a field of that name. -/
inductive Fields : Type → Type → Type 1 where
  | nil {σ : Type} : Fields σ Unit
  | cons {σ α β : Type} (name : String) (field : Ty α)
      (condition : Option (Option UInt32 → σ → Bool)) (others : Fields σ β) :
      Fields σ (α × β)

end

/-- The value of a default-constructed object. -/
def Ty.init : {α : Type} → Ty α → α
  | _, .ui16 => 0
  | _, .ui32 => 0
  | _, .ui64 => 0
  | _, .string => []
  | _, .binary => Binary.copy 0 []
  | _, .operUInt => ⟨0⟩
  | _, .storeUInt => ⟨0⟩
  | _, .vector _ => []
  | _, .struct _ init => init

/-- A field without a condition is always present. The operators write `p.` in front
of the condition. -/
def present {σ : Type} (condition : Option (Option UInt32 → σ → Bool)) (whole : σ) : Bool :=
  condition.all fun holds => holds none whole

/-- The condition in `getSize`, where `s` is what has been counted so far. -/
def presentInSize {σ : Type} (condition : Option (Option UInt32 → σ → Bool)) (s : UInt32)
    (whole : σ) : Bool :=
  condition.all fun holds => holds (some s) whole

/-! ## Writing -/

mutual

/-- `operator<<`: the blocks it passes to `write_data`, in order. -/
def Ty.insert : {α : Type} → Ty α → α → List (List UInt8)
  | _, .ui16, p => [Bytes.ofNat 2 p.toNat]
  | _, .ui32, p => [wordBytes p]
  | _, .ui64, p => [Bytes.ofNat 8 p.toNat]
  | _, .string, p => [wordBytes (UInt32.ofNat p.length), p]
  | _, .binary, p => [wordBytes p.m_Size, p.data]
  | _, .operUInt, p => [wordBytes p.impl]
  | _, .storeUInt, p => [Bytes.ofNat 8 p.impl.toNat]
  | _, .vector element, p =>
      wordBytes (UInt32.ofNat p.length) :: p.flatMap element.insert
  | _, .struct fields _, p => fields.insert p p

/-- The generated statements `if (p.condition) m << p.field;`. -/
def Fields.insert : {σ β : Type} → Fields σ β → σ → β → List (List UInt8)
  | _, _, .nil, _, _ => []
  | _, _, .cons _ field condition others, whole, p =>
      (if present condition whole then field.insert p.1 else []) ++
        others.insert whole p.2

end

mutual

/-- `getSize`. There is no overload for `ui16` and `ui32`: both are converted to
the `ui64` that the overload for eight bytes takes. -/
def Ty.getSize : {α : Type} → Ty α → α → UInt32
  | _, .ui16, _ => 8
  | _, .ui32, _ => 8
  | _, .ui64, _ => 8
  | _, .string, s => UInt32.ofNat s.length + 4
  | _, .binary, s => s.m_Size + 4
  | _, .operUInt, _ => 4
  | _, .storeUInt, _ => 8
  | _, .vector element, s => s.foldl (fun si item => si + element.getSize item) 4
  | _, .struct fields _, p => fields.getSize p p 0

/-- The generated statements `if (condition) s += getSize(field);`. For a field `s`
that is the local variable, a `ui32`, which the overload for eight bytes takes. -/
def Fields.getSize : {σ β : Type} → Fields σ β → σ → β → UInt32 → UInt32
  | _, _, .nil, _, _, s => s
  | _, _, .cons name field condition others, whole, p, s =>
      others.getSize whole p.2
        (if presentInSize condition s whole then
          s + if name = "s" then 8 else field.getSize p.1
        else s)

end

/-- The generated `serializeTo`. -/
def Ty.serializeTo {α : Type} (ty : Ty α) (p : α) (msg : Message) :
    Except Fault Message :=
  (ty.insert p).foldlM Message.writeData msg

/-- `Serializable::toMsg`. -/
def Ty.toMsg {α : Type} (heap : Heap) (ty : Ty α) (id : UInt16) (p : α)
    (msg : Message) : Except Fault Message := do
  let s := 6 + ty.getSize p
  let msg ← msg.buildBuff heap s.toNat
  let msg ← msg.ID heap id
  ty.serializeTo p msg

/-! ## Reading -/

/-- A read of `size` bytes through the pointer that `read_data` returns. -/
def Message.fetch (m : Message) (size : Nat) : Except Fault (List UInt8 × Message) := do
  let (pointer, m) := m.readData size
  let bytes ← pointer.load size
  return (bytes, m)

/-- The loop of the vector reader: each element is read into a temporary. -/
def extractItems {α : Type} (item : Message → Except Fault (α × Message)) :
    Nat → Message → List α → Except Fault (List α × Message)
  | 0, m, p => .ok (p, m)
  | s + 1, m, p => do
      let (t, m) ← item m
      extractItems item s m (p ++ [t])

mutual

/-- `operator>>` into a target object. -/
def Ty.extract : {α : Type} → Ty α → Message → α → Except Fault (α × Message)
  | _, .ui16, m, _ => do
      let (bytes, m) ← m.fetch 2
      return (UInt16.ofNat (Bytes.toNat bytes), m)
  | _, .ui32, m, _ => do
      let (bytes, m) ← m.fetch 4
      return (readWord bytes, m)
  | _, .ui64, m, _ => do
      let (bytes, m) ← m.fetch 8
      return (UInt64.ofNat (Bytes.toNat bytes), m)
  | _, .string, m, _ => do
      let (bytes, m) ← m.fetch 4
      m.fetch (readWord bytes).toNat
  | _, .binary, m, _ => do
      let (bytes, m) ← m.fetch 4
      if readWord bytes > 0 then
        let (data, m) ← m.fetch (readWord bytes).toNat
        return (Binary.copy (readWord bytes) data, m)
      else
        return (Binary.copy 0 [], m)
  | _, .operUInt, m, _ => do
      let (bytes, m) ← m.fetch 4
      return (⟨readWord bytes⟩, m)
  | _, .storeUInt, m, _ => do
      let (bytes, m) ← m.fetch 8
      return (⟨UInt64.ofNat (Bytes.toNat bytes)⟩, m)
  | _, .vector element, m, p => do
      let (bytes, m) ← m.fetch 4
      extractItems (fun m => element.extract m element.init)
        (readWord bytes).toNat m p
  | _, .struct fields _, m, p => fields.extract id m p

/-- The generated statements `if (p.condition) m >> p.field;`. The condition is
evaluated on the object as it is by then: `rebuild` puts the remaining fields
behind the ones already read. -/
def Fields.extract : {σ β : Type} → Fields σ β → (β → σ) → Message → β →
    Except Fault (β × Message)
  | _, _, .nil, _, m, _ => .ok ((), m)
  | _, _, .cons _ field condition others, rebuild, m, p => do
      let (first, m) ←
        if present condition (rebuild p) then field.extract m p.1
        else .ok (p.1, m)
      let (rest, m) ← others.extract (fun tail => rebuild (first, tail)) m p.2
      return ((first, rest), m)

end

/-- The generated `unserializeFrom`. -/
def Ty.unserializeFrom {α : Type} (ty : Ty α) (msg : Message) (p : α) :
    Except Fault (α × Message) :=
  ty.extract msg p

/-! ## The types of the repository -/

namespace Proto

abbrev Code := UInt32 × List UInt8 × UInt32 × Unit

/-- `Code` of `CodeProto.hpp`: `value`, `file` and `line`. -/
def Code.ty : Ty Code :=
  .struct (.cons "value" .ui32 none (.cons "file" .string none
    (.cons "line" .ui32 none .nil)))
    (1, [], 0, ())

abbrev XDataBase := UInt64 × List UInt8 × List (List UInt8) × Unit

/-- `XDataBase` of `TestProtocol.h`: `bn`, `bs` and `bs2`, whose default is the
three strings `55`, `66` and `77`. -/
def XDataBase.ty : Ty XDataBase :=
  .struct (.cons "bn" .ui64 none (.cons "bs" .string none
    (.cons "bs2" (.vector .string) none .nil)))
    (1, [], [[53, 53], [54, 54], [55, 55]], ())

abbrev XData := UInt64 × XDataBase × List UInt8 × Binary × Unit

/-- `XData` of `TestProtocol.h`: `n1`, `d1`, `s1` and `s2`. -/
def XData.ty : Ty XData :=
  .struct (.cons "n1" .ui64 none (.cons "d1" XDataBase.ty none (.cons "s1" .string none
    (.cons "s2" .binary none .nil))))
    (1, XDataBase.ty.init, [], Binary.copy 0 [], ())

end Proto

end Nicenet
