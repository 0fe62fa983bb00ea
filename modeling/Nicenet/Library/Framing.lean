import Mathlib.Tactic.Common
import Mathlib.Data.List.Basic

/-!
# Length-prefixed framing of a stream

A framing reads the size of the next frame from a header at the front of the
stream; the frame includes its header. This module relates a stream to the
frames that can be stripped off its front and to what is left, independently
of how any receiver stores the part that is not complete yet.
-/

namespace Nicenet.Library

variable {β : Type}

/-- How a stream announces its frames. The size is read from the first `header`
elements only, so it does not change when more of the stream arrives. -/
structure Framing (β : Type) where
  header : Nat
  limit : Nat
  size : List β → Nat
  header_pos : 0 < header
  size_append : ∀ front back, header ≤ front.length →
    size (front ++ back) = size front

namespace Framing

variable (framing : Framing β)

/-- More of the stream is needed before the next frame is complete. -/
def Waits (stream : List β) : Prop :=
  stream.length < framing.header ∨
    framing.size stream ≤ framing.limit ∧ stream.length < framing.size stream

/-- The next frame announces more than the limit. -/
def Rejects (stream : List β) : Prop :=
  framing.header ≤ stream.length ∧ framing.limit < framing.size stream

/-- The next frame is complete. -/
def Ready (stream : List β) : Prop :=
  framing.header ≤ stream.length ∧ framing.size stream ≤ framing.limit ∧
    framing.size stream ≤ stream.length

instance (stream : List β) : Decidable (framing.Waits stream) :=
  inferInstanceAs (Decidable (_ ∨ _ ∧ _))

instance (stream : List β) : Decidable (framing.Rejects stream) :=
  inferInstanceAs (Decidable (_ ∧ _))

instance (stream : List β) : Decidable (framing.Ready stream) :=
  inferInstanceAs (Decidable (_ ∧ _ ∧ _))

/-- Exactly one of the three verdicts holds of a stream. -/
theorem waits_or_rejects_or_ready (stream : List β) :
    framing.Waits stream ∨ framing.Rejects stream ∨ framing.Ready stream := by
  simp only [Waits, Rejects, Ready]
  omega

theorem Ready.not_waits {framing : Framing β} {stream : List β}
    (ready : framing.Ready stream) : ¬framing.Waits stream := by
  simp only [Ready, Waits] at *
  omega

theorem Ready.not_rejects {framing : Framing β} {stream : List β}
    (ready : framing.Ready stream) : ¬framing.Rejects stream := by
  simp only [Ready, Rejects] at *
  omega

theorem Waits.not_rejects {framing : Framing β} {stream : List β}
    (waits : framing.Waits stream) : ¬framing.Rejects stream := by
  simp only [Waits, Rejects] at *
  omega

theorem Ready.append {framing : Framing β} {front : List β}
    (ready : framing.Ready front) (back : List β) :
    framing.Ready (front ++ back) := by
  obtain ⟨header, limit, inside⟩ := ready
  have size := framing.size_append front back header
  refine ⟨?_, ?_, ?_⟩
  · rw [List.length_append]
    omega
  · rw [size]
    exact limit
  · rw [size, List.length_append]
    omega

/-- `Strips stream frames rest` says that complete frames can be taken off the
front of the stream one after the other, leaving `rest`. -/
inductive Strips : List β → List (List β) → List β → Prop where
  | refl (stream : List β) : Strips stream [] stream
  | frame {stream rest : List β} {frames : List (List β)} :
      framing.Ready stream →
      Strips (stream.drop (framing.size stream)) frames rest →
      Strips stream (stream.take (framing.size stream) :: frames) rest

/-- Some frame boundary inside the stream is followed by a header announcing a
frame of size zero. -/
def Stalls (stream : List β) : Prop :=
  ∃ frames rest, framing.Strips stream frames rest ∧
    framing.header ≤ rest.length ∧ framing.size rest = 0

namespace Strips

variable {framing}
variable {stream rest more : List β} {frames later : List (List β)}

/-- Stripping loses nothing and reorders nothing. -/
theorem flatten (strips : framing.Strips stream frames rest) :
    frames.flatten ++ rest = stream := by
  induction strips with
  | refl stream => rfl
  | frame ready strips ih =>
      rw [List.flatten_cons, List.append_assoc, ih, List.take_append_drop]

theorem length_le (strips : framing.Strips stream frames rest) :
    rest.length ≤ stream.length := by
  rw [← strips.flatten, List.length_append]
  omega

/-- Stripping goes on where it stopped when more of the stream arrives. -/
theorem append (strips : framing.Strips stream frames rest) (back : List β)
    (next : framing.Strips (rest ++ back) later more) :
    framing.Strips (stream ++ back) (frames ++ later) more := by
  induction strips with
  | refl stream => exact next
  | @frame stream rest frames ready strips ih =>
      have size := framing.size_append stream back ready.1
      have take : stream.take (framing.size stream) =
          (stream ++ back).take (framing.size (stream ++ back)) := by
        rw [size, List.take_append_of_le_length ready.2.2]
      rw [List.cons_append, take]
      apply Strips.frame (ready.append back)
      rw [size, List.drop_append_of_le_length ready.2.2]
      exact ih next

/-- A stream of whole frames, each of its own size, strips into them. -/
theorem ofFrames {frames : List (List β)}
    (whole : ∀ frame ∈ frames, framing.header ≤ frame.length ∧
      framing.size frame = frame.length ∧ frame.length ≤ framing.limit)
    (tail : List β) :
    framing.Strips (frames.flatten ++ tail) frames tail := by
  induction frames with
  | nil => exact .refl tail
  | cons frame frames ih =>
      obtain ⟨header, size, limit⟩ := whole frame List.mem_cons_self
      have sizeAll : framing.size (frame ++ (frames.flatten ++ tail)) =
          frame.length := by
        rw [framing.size_append _ _ header, size]
      have ready : framing.Ready (frame ++ (frames.flatten ++ tail)) := by
        refine ⟨?_, ?_, ?_⟩
        · rw [List.length_append]
          omega
        · rw [sizeAll]
          exact limit
        · rw [sizeAll, List.length_append]
          omega
      have later := ih fun frame member => whole frame (List.mem_cons_of_mem _ member)
      have step : framing.Strips (frame ++ (frames.flatten ++ tail))
          ((frame ++ (frames.flatten ++ tail)).take
            (framing.size (frame ++ (frames.flatten ++ tail))) :: frames) tail := by
        apply Strips.frame ready
        rw [sizeAll, List.drop_left]
        exact later
      rw [sizeAll, List.take_left] at step
      rw [List.flatten_cons, List.append_assoc]
      exact step

/-- If a stream of whole frames is cut, then the front strips into the first of them,
and what is left of it is where the next one starts. -/
theorem splits (strips : framing.Strips stream frames rest) :
    ∀ {whole : List (List β)} {back : List β},
    (∀ frame ∈ whole, framing.header ≤ frame.length ∧
      framing.size frame = frame.length) →
    whole.flatten = stream ++ back →
    ∃ others, whole = frames ++ others ∧ rest ++ back = others.flatten := by
  induction strips with
  | refl stream =>
      intro whole back _ equal
      exact ⟨whole, rfl, equal.symm⟩
  | @frame stream rest frames ready strips ih =>
      intro whole back sizes equal
      cases whole with
      | nil =>
          have positive := framing.header_pos
          have lengths := congrArg List.length equal
          simp only [List.flatten_nil, List.length_nil, List.length_append] at lengths
          have := ready.1
          omega
      | cons frame whole =>
          obtain ⟨header, size⟩ := sizes frame List.mem_cons_self
          rw [List.flatten_cons] at equal
          have same : framing.size stream = frame.length := by
            rw [← size, ← framing.size_append stream back ready.1,
              ← framing.size_append frame whole.flatten header, equal]
          have head : stream.take (framing.size stream) = frame := by
            have taken := congrArg (List.take frame.length) equal
            rw [List.take_left, List.take_append_of_le_length
              (by rw [← same]; exact ready.2.2)] at taken
            rw [same]
            exact taken.symm
          have tail : whole.flatten =
              stream.drop (framing.size stream) ++ back := by
            have dropped := congrArg (List.drop frame.length) equal
            rw [List.drop_left, List.drop_append_of_le_length
              (by rw [← same]; exact ready.2.2)] at dropped
            rw [same, dropped]
          obtain ⟨others, wholeEq, backEq⟩ := ih
            (fun frame member => sizes frame (List.mem_cons_of_mem _ member)) tail
          exact ⟨others, by rw [head, wholeEq, List.cons_append], backEq⟩

/-- If a stream of whole frames is cut, and the front strips into frames with
nothing left, then the cut is between two of the whole frames. -/
theorem aligned {front : List β} {taken : List (List β)}
    (strips : framing.Strips front taken []) {frames : List (List β)} {back : List β}
    (sizes : ∀ frame ∈ frames, framing.header ≤ frame.length ∧
      framing.size frame = frame.length)
    (equal : frames.flatten = front ++ back) :
    ∃ others, frames = taken ++ others ∧ back = others.flatten :=
  strips.splits sizes equal

/-- What is left of the front of a stream of whole frames stalls nowhere. -/
theorem moving (strips : framing.Strips stream frames rest) {whole : List (List β)}
    {back : List β}
    (sizes : ∀ frame ∈ whole, framing.header ≤ frame.length ∧
      framing.size frame = frame.length)
    (equal : whole.flatten = stream ++ back) : ¬framing.Stalls rest := by
  rintro ⟨later, reached, next, header, zero⟩
  have positive := framing.header_pos
  have all : framing.Strips stream (frames ++ later) reached := by
    have longer := strips.append [] (by rw [List.append_nil]; exact next)
    rwa [List.append_nil] at longer
  obtain ⟨others, split, left⟩ := all.splits sizes equal
  have lengths := congrArg List.length left
  rw [List.length_append] at lengths
  cases others with
  | nil =>
      rw [List.flatten_nil, List.length_nil] at lengths
      omega
  | cons frame others =>
      obtain ⟨long, size⟩ := sizes frame (by rw [split]; simp)
      have same : framing.size reached = framing.size frame := by
        rw [← framing.size_append reached back header, left, List.flatten_cons,
          framing.size_append frame others.flatten long]
      omega

/-- A stream can be stripped in one way only, if one goes on as long as there is
a complete frame. -/
theorem unique {others : List (List β)}
    (first : framing.Strips stream frames rest)
    (second : framing.Strips stream others more)
    (maximal : ¬framing.Ready rest) (maximal' : ¬framing.Ready more) :
    frames = others ∧ rest = more := by
  induction first generalizing others with
  | refl stream =>
      cases second with
      | refl => exact ⟨rfl, rfl⟩
      | frame ready _ => exact absurd ready maximal
  | frame ready strips ih =>
      cases second with
      | refl => exact absurd ready maximal'
      | frame _ later =>
          obtain ⟨framesEq, restEq⟩ := ih later maximal
          rw [framesEq, restEq]
          exact ⟨rfl, rfl⟩

end Strips

namespace Strips

variable {framing : Framing β} {stream rest more : List β} {frames others : List (List β)}

/-- Stripping on as long as there is a complete frame passes every other place at which
stripping may stop. -/
theorem passes (all : framing.Strips stream frames rest) (maximal : ¬framing.Ready rest)
    (part : framing.Strips stream others more) :
    ∃ later, frames = others ++ later ∧ framing.Strips more later rest := by
  induction part generalizing frames with
  | refl stream => exact ⟨frames, rfl, all⟩
  | frame ready _ ih =>
      cases all with
      | refl => exact absurd ready maximal
      | frame _ strips =>
          obtain ⟨later, rfl, left⟩ := ih strips
          exact ⟨later, rfl, left⟩

/-- Each frame that is stripped is the front of a stream that stripping has come to. -/
theorem of_mem (strips : framing.Strips stream frames rest) {frame : List β}
    (member : frame ∈ frames) :
    ∃ before reached, framing.Strips stream before reached ∧ framing.Ready reached ∧
      frame = reached.take (framing.size reached) := by
  induction strips with
  | refl => exact absurd member List.not_mem_nil
  | @frame stream rest frames ready _ ih =>
      rcases List.mem_cons.mp member with rfl | member
      · exact ⟨[], stream, .refl stream, ready, rfl⟩
      · obtain ⟨before, reached, strips, front, equal⟩ := ih member
        exact ⟨_, reached, .frame ready strips, front, equal⟩

/-- Where stripping comes to an end there is no frame of size zero. -/
theorem not_stalls (strips : framing.Strips stream frames rest)
    (maximal : ¬framing.Ready rest) : ¬framing.Stalls stream := by
  rintro ⟨others, reached, part, header, zero⟩
  obtain ⟨later, -, left⟩ := strips.passes maximal part
  have ready : framing.Ready reached := ⟨header, by omega, by omega⟩
  clear strips part
  generalize same : reached = start at left
  induction left with
  | refl =>
      subst same
      exact maximal ready
  | frame _ _ ih =>
      subst same
      exact ih maximal (by rw [zero, List.drop_zero])

end Strips

/-- A ready stream with a non-empty next frame stalls when the stream behind
that frame does. -/
theorem Stalls.frame {framing : Framing β} {stream : List β}
    (ready : framing.Ready stream)
    (stalls : framing.Stalls (stream.drop (framing.size stream))) :
    framing.Stalls stream := by
  obtain ⟨frames, rest, strips, header, zero⟩ := stalls
  exact ⟨_, rest, .frame ready strips, header, zero⟩

/-- A stream stalls at its front or behind its first frame. -/
theorem stalls_iff_of_ready {stream : List β} (ready : framing.Ready stream) :
    framing.Stalls stream ↔ framing.size stream = 0 ∨
      framing.Stalls (stream.drop (framing.size stream)) := by
  constructor
  · rintro ⟨frames, rest, strips, header, zero⟩
    cases strips with
    | refl => exact Or.inl zero
    | frame _ strips => exact Or.inr ⟨_, rest, strips, header, zero⟩
  · rintro (zero | stalls)
    · exact ⟨[], stream, .refl stream, ready.1, zero⟩
    · exact stalls.frame ready

theorem not_stalls_of_waits {stream : List β} (waits : framing.Waits stream) :
    ¬framing.Stalls stream := by
  rintro ⟨frames, rest, strips, header, zero⟩
  cases strips with
  | refl =>
      simp only [Waits] at waits
      omega
  | frame ready _ => exact ready.not_waits waits

theorem not_stalls_of_rejects {stream : List β} (rejects : framing.Rejects stream) :
    ¬framing.Stalls stream := by
  rintro ⟨frames, rest, strips, header, zero⟩
  cases strips with
  | refl =>
      simp only [Rejects] at rejects
      omega
  | frame ready _ => exact ready.not_rejects rejects

/-- A stream of whole frames never stalls. -/
theorem not_stalls_flatten {frames : List (List β)}
    (whole : ∀ frame ∈ frames, framing.header ≤ frame.length ∧
      framing.size frame = frame.length ∧ frame.length ≤ framing.limit) :
    ¬framing.Stalls frames.flatten := by
  have positive := framing.header_pos
  induction frames with
  | nil => exact framing.not_stalls_of_waits (.inl positive)
  | cons frame frames ih =>
      obtain ⟨header, size, limit⟩ := whole frame List.mem_cons_self
      have sizeAll : framing.size (frame ++ frames.flatten) = frame.length := by
        rw [framing.size_append _ _ header, size]
      have ready : framing.Ready (frame ++ frames.flatten) :=
        Ready.append ⟨header, by omega, by omega⟩ _
      rw [List.flatten_cons, framing.stalls_iff_of_ready ready, sizeAll,
        List.drop_left]
      rintro (zero | stalls)
      · omega
      · exact ih (fun frame member => whole frame (List.mem_cons_of_mem _ member))
          stalls

/-- A stream of whole frames that waits for more is empty. -/
theorem Waits.nil_of_whole {framing : Framing β} {frames : List (List β)}
    (waits : framing.Waits frames.flatten)
    (sizes : ∀ frame ∈ frames, framing.header ≤ frame.length ∧
      framing.size frame = frame.length) : frames = [] := by
  cases frames with
  | nil => rfl
  | cons frame frames =>
      obtain ⟨header, size⟩ := sizes frame List.mem_cons_self
      rw [List.flatten_cons, Waits, framing.size_append _ _ header, size,
        List.length_append] at waits
      omega

end Framing

end Nicenet.Library
