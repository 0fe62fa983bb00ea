import Nicenet.Library.Reader
import Nicenet.Serial.Size

/-!
# What decoding reads

`wire` is the block of bytes that `operator>>` takes for a value, and `merge` the
object it leaves, both for a target that already holds something: a vector is
appended to, a condition is decided on the object as it is by then. The main
result, `extract_reads`, says that `operator>>` succeeds on exactly the bodies
that start with the wire form of some value.
-/

namespace Nicenet

open Library

/-- The items that a count of four bytes announces. -/
def counted {α : Type} (items : List α) : List α :=
  items.take (items.length % 2 ^ 32)

theorem length_counted {α : Type} (items : List α) :
    (counted items).length = (UInt32.ofNat items.length).toNat := by
  rw [counted, List.length_take, UInt32.toNat_ofNat']
  exact Nat.min_eq_left (Nat.mod_le _ _)

theorem counted_of_lt {α : Type} {items : List α} (small : items.length < 2 ^ 32) :
    counted items = items := by
  rw [counted, Nat.mod_eq_of_lt small, List.take_length]

mutual

/-- The object after reading the value `v` into the target `p`. -/
def Ty.merge : {α : Type} → Ty α → α → α → α
  | _, .string, _, v => counted v
  | _, .vector element, p, v => p ++ (counted v).map (element.merge element.init)
  | _, .struct fields _, p, v => fields.merge id p v
  | _, .ui16, _, v => v
  | _, .ui32, _, v => v
  | _, .ui64, _, v => v
  | _, .binary, _, v => v
  | _, .operUInt, _, v => v
  | _, .storeUInt, _, v => v

def Fields.merge : {σ β : Type} → Fields σ β → (β → σ) → β → β → β
  | _, _, .nil, _, _, _ => ()
  | _, _, .cons _ field condition others, rebuild, p, v =>
      let first :=
        if present condition (rebuild p) then field.merge p.1 v.1 else p.1
      (first, others.merge (fun tail => rebuild (first, tail)) p.2 v.2)

end

mutual

/-- The bytes read for the value `v` into the target `p`. -/
def Ty.wire : {α : Type} → Ty α → α → α → List UInt8
  | _, .string, _, v => wordBytes (UInt32.ofNat v.length) ++ counted v
  | _, .vector element, _, v =>
      wordBytes (UInt32.ofNat v.length) ++
        (counted v).flatMap (element.wire element.init)
  | _, .struct fields _, p, v => fields.wire id p v
  | _, .ui16, _, v => Bytes.ofNat 2 v.toNat
  | _, .ui32, _, v => wordBytes v
  | _, .ui64, _, v => Bytes.ofNat 8 v.toNat
  | _, .binary, _, v => wordBytes v.m_Size ++ v.data
  | _, .operUInt, _, v => wordBytes v.impl
  | _, .storeUInt, _, v => Bytes.ofNat 8 v.impl.toNat

def Fields.wire : {σ β : Type} → Fields σ β → (β → σ) → β → β → List UInt8
  | _, _, .nil, _, _, _ => []
  | _, _, .cons _ field condition others, rebuild, p, v =>
      let here := present condition (rebuild p)
      let first := if here then field.merge p.1 v.1 else p.1
      (if here then field.wire p.1 v.1 else []) ++
        others.wire (fun tail => rebuild (first, tail)) p.2 v.2

end

/-! ## The read point of a message -/

/-- The bytes of the buffer that are still ahead of the read point. -/
structure Unread (memory : List UInt8) (message : Message) (rest : List UInt8) :
    Prop where
  buff : message.buff = .heap memory
  size : (readWord memory).toNat = memory.length
  inside : message.readPoint.toNat ≤ memory.length
  ahead : memory.drop message.readPoint.toNat = rest

section Fetch

variable {memory : List UInt8}

theorem Unread.length {message : Message} {rest : List UInt8}
    (unread : Unread memory message rest) :
    message.readPoint.toNat + rest.length = memory.length := by
  have inside := unread.inside
  rw [← unread.ahead, List.length_drop]
  omega

/-- The read point moves over the bytes that were read. -/
theorem Unread.readPoint_after {message next : Message} {word rest : List UInt8}
    (before : Unread memory message (word ++ rest)) (after : Unread memory next rest) :
    next.readPoint.toNat = message.readPoint.toNat + word.length := by
  have start := before.length
  have behind := after.length
  rw [List.length_append, ← behind] at start
  omega

/-- The bytes that are there are handed out. -/
theorem fetch_append {message : Message} {word rest : List UInt8}
    (unread : Unread memory message (word ++ rest)) :
    ∃ next, message.fetch word.length = .ok (word, next) ∧
      Unread memory next rest := by
  have length := unread.length
  have small := UInt32.toNat_lt (readWord memory)
  have sized := unread.size
  rw [List.length_append] at length
  have next := @toNat_advance message.readPoint word.length (by omega)
  have inside : ¬message.readPoint.toNat + word.length > message.getSize.toNat := by
    rw [Message.getSize, unread.buff]
    simp only
    omega
  have bytes : message.bytes.drop message.readPoint.toNat = word ++ rest := by
    rw [Message.bytes, unread.buff]
    exact unread.ahead
  have room : word.length ≤ (word ++ rest).length := by
    rw [List.length_append]
    exact Nat.le_add_right _ _
  refine ⟨{ message with
    readPoint := message.readPoint + UInt32.ofNat word.length }, ?_, ?_⟩
  · simp only [Message.fetch, Message.readData, if_neg inside,
      Message.Pointer.load, bytes, if_pos room, List.take_left]
    rfl
  · refine ⟨unread.buff, unread.size, ?_, ?_⟩
    · simp only [next]
      omega
    · simp only [next]
      rw [← List.drop_drop, unread.ahead, List.drop_left]

/-- A read behind the end of the buffer uses the null pointer. -/
theorem fetch_short {message : Message} {stream : List UInt8} {size : Nat}
    (unread : Unread memory message stream) (short : stream.length < size) :
    message.fetch size = .error .nullDeref := by
  have length := unread.length
  have sized := unread.size
  have beyond : message.readPoint.toNat + size > message.getSize.toNat := by
    rw [Message.getSize, unread.buff]
    simp only
    omega
  simp only [Message.fetch, Message.readData, if_pos beyond]
  rfl

/-- `read_data` hands out the bytes that are there, and nothing else. -/
theorem fetch_reads (memory : List UInt8) (size : Nat) :
    Reads (Unread memory) Fault.nullDeref (fun message => message.fetch size)
      (fun word value => word = value ∧ value.length = size) where
  complete := by
    rintro message word rest value ⟨rfl, rfl⟩ unread
    exact fetch_append unread
  sound := by
    intro message stream unread
    by_cases short : stream.length < size
    · exact .inl (fetch_short unread short)
    · have taken : (stream.take size).length = size := by
        rw [List.length_take]
        omega
      have split := List.take_append_drop size stream
      rw [← split] at unread
      obtain ⟨next, read, later⟩ := fetch_append unread
      rw [taken] at read
      exact .inr ⟨_, _, _, next, ⟨rfl, taken⟩, split.symm, read, later⟩

end Fetch

/-! ## The words each type reads -/

/-- The words that are the wire form of a value, with the object they leave. -/
def Ty.Words {α : Type} (ty : Ty α) (p : α) (word : List UInt8) (object : α) : Prop :=
  ∃ v, word = ty.wire p v ∧ object = ty.merge p v

def Fields.Words {σ β : Type} (fields : Fields σ β) (rebuild : β → σ) (p : β)
    (word : List UInt8) (object : β) : Prop :=
  ∃ v, word = fields.wire rebuild p v ∧ object = fields.merge rebuild p v

section Extract

variable {memory : List UInt8}

/-- `operator>>` of a number of `size` bytes. -/
theorem number_reads {α : Type} (size : Nat) (decode : List UInt8 → α)
    (encode : α → List UInt8) (length : ∀ value, (encode value).length = size)
    (decode_encode : ∀ value, decode (encode value) = value)
    (encode_decode : ∀ word, word.length = size → encode (decode word) = word) :
    Reads (Unread memory) Fault.nullDeref (fun message => do
        let (bytes, message) ← message.fetch size
        return (decode bytes, message))
      (fun word value => ∃ v, word = encode v ∧ value = v) := by
  have reads := (fetch_reads memory size).bind
    fun bytes => Reads.succeed (decode bytes)
  apply reads.congr
  intro word value
  constructor
  · rintro ⟨front, bytes, back, rfl, ⟨rfl, sized⟩, rfl, rfl⟩
    refine ⟨_, ?_, rfl⟩
    rw [List.append_nil, encode_decode front sized]
  · rintro ⟨v, rfl, rfl⟩
    exact ⟨encode value, encode value, [], (List.append_nil _).symm,
      ⟨rfl, length value⟩, rfl, (decode_encode value).symm⟩

theorem word_reads {α : Type} (make : UInt32 → α) (impl : α → UInt32)
    (make_impl : ∀ value, make (impl value) = value)
    (impl_make : ∀ word, impl (make word) = word) :
    Reads (Unread memory) Fault.nullDeref (fun message => do
        let (bytes, message) ← message.fetch 4
        return (make (readWord bytes), message))
      (fun word value => ∃ v, word = wordBytes (impl v) ∧ value = v) := by
  apply number_reads 4 (fun bytes => make (readWord bytes))
  · exact fun value => length_wordBytes (impl value)
  · intro value
    have word := readWord_wordBytes (impl value) []
    rw [List.append_nil] at word
    rw [word, make_impl]
  · intro word sized
    rw [impl_make, wordBytes_readWord (Nat.le_of_eq sized.symm),
      List.take_of_length_le (Nat.le_of_eq sized)]

theorem quad_reads {α : Type} (make : UInt64 → α) (impl : α → UInt64)
    (make_impl : ∀ value, make (impl value) = value)
    (impl_make : ∀ word, impl (make word) = word) :
    Reads (Unread memory) Fault.nullDeref (fun message => do
        let (bytes, message) ← message.fetch 8
        return (make (UInt64.ofNat (Bytes.toNat bytes)), message))
      (fun word value => ∃ v, word = Bytes.ofNat 8 (impl v).toNat ∧ value = v) := by
  apply number_reads 8 (fun bytes => make (UInt64.ofNat (Bytes.toNat bytes)))
  · exact fun value => Bytes.length_ofNat 8 (impl value).toNat
  · intro value
    rw [Bytes.toNat_ofNat_of_lt (UInt64.toNat_lt _), UInt64.ofNat_toNat, make_impl]
  · intro word sized
    have bound := Bytes.toNat_lt word
    rw [sized] at bound
    rw [impl_make, UInt64.toNat_ofNat_of_lt' bound,
      Bytes.ofNat_toNat_of_length sized]

/-- A count, and then what it announces. -/
theorem counted_reads {α : Type}
    {next : UInt32 → Message → Except Fault (α × Message)}
    {later : UInt32 → List UInt8 → α → Prop}
    (reads : ∀ size,
      Reads (Unread memory) Fault.nullDeref (next size) (later size)) :
    Reads (Unread memory) Fault.nullDeref (fun message => do
        let (bytes, message) ← message.fetch 4
        next (readWord bytes) message)
      (fun word value => ∃ size back,
        word = wordBytes size ++ back ∧ later size back value) := by
  have all := (fetch_reads memory 4).bind
    fun bytes => reads (readWord bytes)
  apply all.congr
  intro word value
  constructor
  · rintro ⟨front, bytes, back, rfl, ⟨rfl, sized⟩, accepted⟩
    refine ⟨readWord front, back, ?_, accepted⟩
    rw [wordBytes_readWord (Nat.le_of_eq sized.symm),
      List.take_of_length_le (Nat.le_of_eq sized)]
  · rintro ⟨size, back, rfl, accepted⟩
    refine ⟨wordBytes size, wordBytes size, back, rfl,
      ⟨rfl, length_wordBytes size⟩, ?_⟩
    have word := readWord_wordBytes size []
    rw [List.append_nil] at word
    rw [word]
    exact accepted

/-- The loop of the vector reader appends one object for each item. -/
theorem items_reads {α γ : Type} {item : Message → Except Fault (α × Message)}
    {wire : γ → List UInt8} {object : γ → α}
    (reads : Reads (Unread memory) Fault.nullDeref item
      (fun word value => ∃ v, word = wire v ∧ value = object v))
    (s : Nat) (p : List α) :
    Reads (Unread memory) Fault.nullDeref (fun message => extractItems item s message p)
      (fun word value => ∃ vs : List γ,
        vs.length = s ∧ word = vs.flatMap wire ∧ value = p ++ vs.map object) := by
  induction s generalizing p with
  | zero =>
      apply (Reads.succeed p).congr
      intro word value
      constructor
      · rintro ⟨rfl, rfl⟩
        exact ⟨[], rfl, rfl, (List.append_nil _).symm⟩
      · rintro ⟨vs, empty, rfl, rfl⟩
        rw [List.length_eq_zero_iff.mp empty]
        exact ⟨rfl, List.append_nil _⟩
  | succ s ih =>
      have all := reads.bind fun t => ih (p ++ [t])
      apply all.congr
      intro word value
      constructor
      · rintro ⟨_, _, _, rfl, ⟨v, rfl, rfl⟩, vs, rfl, rfl, rfl⟩
        exact ⟨v :: vs, rfl, rfl, by simp⟩
      · rintro ⟨vs, length, rfl, rfl⟩
        cases vs with
        | nil => exact absurd length (Nat.succ_ne_zero s).symm
        | cons v vs =>
            refine ⟨wire v, object v, vs.flatMap wire, rfl, ⟨v, rfl, rfl⟩, vs, ?_,
              rfl, by simp⟩
            exact Nat.succ.inj length

/-- The data of a `Binary`: no read at all if it is empty. -/
theorem binary_reads (size : UInt32) :
    Reads (Unread memory) Fault.nullDeref (fun message =>
        if size > 0 then do
          let (data, message) ← message.fetch size.toNat
          return (Binary.copy size data, message)
        else return (Binary.copy 0 [], message))
      (fun word value => word = value.data ∧ value.data.length = size.toNat) := by
  by_cases some : size > 0
  · simp only [if_pos some]
    apply ((fetch_reads memory size.toNat).bind fun data =>
      Reads.succeed (Binary.copy size data)).congr
    intro word value
    constructor
    · rintro ⟨front, data, back, rfl, ⟨rfl, sized⟩, rfl, rfl⟩
      simp only [Binary.copy, ← sized, List.take_length, List.append_nil, and_self]
    · rintro ⟨rfl, sized⟩
      refine ⟨value.data, value.data, [], (List.append_nil _).symm, ⟨rfl, sized⟩, rfl, ?_⟩
      cases value
      simp only [Binary.copy, ← sized, List.take_length]
  · have zero : size.toNat = 0 := by
      have := UInt32.not_lt.mp some
      rw [UInt32.le_iff_toNat_le] at this
      exact Nat.le_zero.mp this
    simp only [if_neg some]
    apply (Reads.succeed (Binary.copy 0 [])).congr
    intro word value
    constructor
    · rintro ⟨rfl, rfl⟩
      exact ⟨rfl, zero.symm⟩
    · rintro ⟨rfl, sized⟩
      have empty := List.length_eq_zero_iff.mp (sized.trans zero)
      refine ⟨empty, ?_⟩
      cases value
      simp only [Binary.copy, List.take_nil, Binary.mk.injEq]
      exact empty

mutual

/-- `operator>>` reads the wire forms of values and fails on everything else. -/
theorem Ty.extract_reads : {α : Type} → (ty : Ty α) → (p : α) →
    Reads (Unread memory) Fault.nullDeref (fun message => ty.extract message p)
      (ty.Words p)
  | _, .ui16, p => by
      apply number_reads 2 (fun bytes => UInt16.ofNat (Bytes.toNat bytes))
        (fun v => Bytes.ofNat 2 v.toNat)
      · exact fun value => Bytes.length_ofNat 2 value.toNat
      · intro value
        rw [Bytes.toNat_ofNat_of_lt (UInt16.toNat_lt _), UInt16.ofNat_toNat]
      · intro word sized
        have bound := Bytes.toNat_lt word
        rw [sized] at bound
        rw [UInt16.toNat_ofNat_of_lt' bound, Bytes.ofNat_toNat_of_length sized]
  | _, .ui32, p => word_reads id id (fun _ => rfl) (fun _ => rfl)
  | _, .ui64, p => quad_reads id id (fun _ => rfl) (fun _ => rfl)
  | _, .operUInt, p => word_reads OperUInt.mk OperUInt.impl (fun _ => rfl) (fun _ => rfl)
  | _, .storeUInt, p =>
      quad_reads StoreUInt.mk StoreUInt.impl (fun _ => rfl) (fun _ => rfl)
  | _, .string, p => by
      have reads := counted_reads fun size => fetch_reads memory size.toNat
      apply reads.congr
      intro word value
      simp only [Ty.Words, Ty.wire, Ty.merge]
      constructor
      · rintro ⟨size, back, rfl, rfl, sized⟩
        have small := UInt32.toNat_lt size
        have all := counted_of_lt (show back.length < 2 ^ 32 by omega)
        refine ⟨back, ?_, all.symm⟩
        rw [all, sized, UInt32.ofNat_toNat]
      · rintro ⟨v, rfl, rfl⟩
        exact ⟨_, _, rfl, rfl, length_counted v⟩
  | _, .binary, p => by
      apply (counted_reads binary_reads).congr
      intro word value
      simp only [Ty.Words, Ty.wire, Ty.merge]
      constructor
      · rintro ⟨size, back, rfl, rfl, sized⟩
        have announced : value.m_Size = size := by
          rw [Binary.m_Size, sized, UInt32.ofNat_toNat]
        exact ⟨value, by rw [announced], rfl⟩
      · rintro ⟨v, rfl, rfl⟩
        exact ⟨value.m_Size, value.data, rfl, rfl, value.toNat_m_Size.symm⟩
  | _, .vector element, p => by
      have reads := counted_reads fun size =>
        items_reads (element.extract_reads element.init) size.toNat p
      apply reads.congr
      intro word value
      simp only [Ty.Words, Ty.wire, Ty.merge]
      constructor
      · rintro ⟨size, back, rfl, vs, length, rfl, rfl⟩
        have small := UInt32.toNat_lt size
        refine ⟨vs, ?_, ?_⟩
        · rw [counted_of_lt (by omega), length, UInt32.ofNat_toNat]
        · rw [counted_of_lt (by omega)]
      · rintro ⟨v, rfl, rfl⟩
        exact ⟨_, _, rfl, counted v, length_counted v, rfl, rfl⟩
  | _, .struct fields _, p => fields.extract_reads id p

theorem Fields.extract_reads : {σ β : Type} → (fields : Fields σ β) →
    (rebuild : β → σ) → (p : β) →
    Reads (Unread memory) Fault.nullDeref
      (fun message => fields.extract rebuild message p) (fields.Words rebuild p)
  | _, _, .nil, rebuild, p => by
      apply (Reads.succeed ()).congr
      intro word value
      constructor
      · rintro ⟨rfl, rfl⟩
        exact ⟨(), rfl, rfl⟩
      · rintro ⟨v, rfl, rfl⟩
        exact ⟨rfl, rfl⟩
  | _, _, .cons _ field condition others, rebuild, p => by
      by_cases here : present condition (rebuild p)
      · have reads := (field.extract_reads p.1).bind fun first =>
          (others.extract_reads (fun tail => rebuild (first, tail)) p.2).bind
            fun rest => Reads.succeed (first, rest)
        simp only [Fields.extract, here, ↓reduceIte]
        apply reads.congr
        intro word value
        simp only [Fields.Words, Fields.wire, Fields.merge, here, ↓reduceIte]
        constructor
        · rintro ⟨_, _, _, rfl, ⟨v, rfl, rfl⟩, _, _, _, rfl, ⟨w, rfl, rfl⟩, rfl, rfl⟩
          exact ⟨(v, w), by rw [List.append_nil], rfl⟩
        · rintro ⟨⟨v, w⟩, rfl, rfl⟩
          exact ⟨_, _, _, rfl, ⟨v, rfl, rfl⟩, _, _, [], (List.append_nil _).symm,
            ⟨w, rfl, rfl⟩, rfl, rfl⟩
      · have reads :=
          (others.extract_reads (fun tail => rebuild (p.1, tail)) p.2).bind
            fun rest => Reads.succeed (p.1, rest)
        simp only [Fields.extract, here, Bool.false_eq_true, ↓reduceIte]
        apply reads.congr
        intro word value
        simp only [Fields.Words, Fields.wire, Fields.merge, here, Bool.false_eq_true,
          ↓reduceIte, List.nil_append]
        constructor
        · rintro ⟨_, _, _, rfl, ⟨w, rfl, rfl⟩, rfl, rfl⟩
          exact ⟨(p.1, w), by rw [List.append_nil], rfl⟩
        · rintro ⟨⟨v, w⟩, rfl, rfl⟩
          exact ⟨_, _, [], (List.append_nil _).symm, ⟨w, rfl, rfl⟩, rfl, rfl⟩

end

end Extract

end Nicenet
