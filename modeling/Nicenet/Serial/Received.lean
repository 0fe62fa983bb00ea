import Nicenet.Serial.Wire

/-!
# Decoding what a peer sent

Nothing checks the body of a received message before `operator>>` reads it, and
the readers use the result of `read_data` without asking whether it is null. A
body is decoded without the use of a null pointer exactly when it starts with
the wire form of a value, counts and lengths included.
-/

namespace Nicenet

open Library

/-- The body of a received message is unread. -/
theorem unread_received {heap : Heap} {frame : List UInt8} {message : Message}
    (framed : IsFrame frame) (received : Message.ofBuffer heap frame = .ok message) :
    Unread frame message (frame.drop 6) := by
  rw [Message.ofBuffer_long heap framed.1] at received
  cases received
  exact ⟨rfl, framed.2.2, framed.1, rfl⟩

/-- Decoding a received message uses no null pointer if and only if the body
starts with the bytes that the target reads for some value. -/
theorem decode_sound_iff {α : Type} (ty : Ty α) {heap : Heap} {frame : List UInt8}
    {message : Message} (framed : IsFrame frame)
    (received : Message.ofBuffer heap frame = .ok message) (target : α) :
    ty.unserializeFrom message target ≠ .error .nullDeref ↔
      ∃ v, ty.wire target v <+: frame.drop 6 := by
  have succeeds :=
    (ty.extract_reads target).ne_error_iff (unread_received framed received)
  rw [Ty.unserializeFrom, succeeds]
  constructor
  · rintro ⟨word, value, ⟨v, rfl, _⟩, start⟩
    exact ⟨v, start⟩
  · rintro ⟨v, start⟩
    exact ⟨_, _, ⟨v, rfl, rfl⟩, start⟩

/-- An `XDataBase` with two empty lists is decoded. -/
theorem decode_sound_xDataBase :
    Proto.XDataBase.ty.unserializeFrom
        ⟨.heap [22, 0, 0, 0, 1, 0, 5, 0, 0, 0, 0, 0, 0, 0, 0, 0, 0, 0, 0, 0, 0, 0],
          6, 6⟩ Proto.XDataBase.ty.init ≠ .error .nullDeref :=
  (decode_sound_iff Proto.XDataBase.ty
    (show IsFrame
      [22, 0, 0, 0, 1, 0, 5, 0, 0, 0, 0, 0, 0, 0, 0, 0, 0, 0, 0, 0, 0, 0] by decide)
    (show Message.ofBuffer (Heap.filled 0) _ = _ by rfl)
    Proto.XDataBase.ty.init).mpr ⟨(5, [], [], ()), by decide⟩

/-- An `XDataBase` whose string announces three bytes, with two bytes left in the
message: the string is assigned from a null pointer. -/
theorem decode_sound_lying_length :
    IsFrame [20, 0, 0, 0, 1, 0, 5, 0, 0, 0, 0, 0, 0, 0, 3, 0, 0, 0, 65, 66] ∧
      Message.ofBuffer (Heap.filled 0)
        [20, 0, 0, 0, 1, 0, 5, 0, 0, 0, 0, 0, 0, 0, 3, 0, 0, 0, 65, 66] =
        .ok ⟨.heap [20, 0, 0, 0, 1, 0, 5, 0, 0, 0, 0, 0, 0, 0, 3, 0, 0, 0, 65, 66],
          6, 6⟩ ∧
      ¬Proto.XDataBase.ty.unserializeFrom
        ⟨.heap [20, 0, 0, 0, 1, 0, 5, 0, 0, 0, 0, 0, 0, 0, 3, 0, 0, 0, 65, 66], 6, 6⟩
        Proto.XDataBase.ty.init ≠ .error .nullDeref := by
  refine ⟨by decide, by decide, fun sound => sound ?_⟩
  rfl

end Nicenet
