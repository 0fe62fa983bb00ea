import Mathlib.Tactic.Common
import Mathlib.Data.List.Basic

/-!
# Readers of a stream

A reader takes a state to a value and the state behind it, or fails. `Reads`
says that it accepts exactly the streams that start with a word of a language,
and which value it returns for the word; the rules below build the language of
a composed reader from the languages of its parts.
-/

namespace Nicenet.Library

variable {τ σ ε α β : Type}

/-- `unread` relates a state to the part of the stream still ahead of it. -/
structure Reads (unread : σ → List τ → Prop) (failure : ε)
    (read : σ → Except ε (α × σ)) (language : List τ → α → Prop) : Prop where
  /-- A word in front of the stream is read, and nothing else. -/
  complete {state : σ} {word rest : List τ} {value : α} :
    language word value → unread state (word ++ rest) →
    ∃ next, read state = .ok (value, next) ∧ unread next rest
  /-- Without a word in front of the stream the reader fails. -/
  sound {state : σ} {stream : List τ} :
    unread state stream → read state = .error failure ∨
      ∃ word value rest next, language word value ∧ stream = word ++ rest ∧
        read state = .ok (value, next) ∧ unread next rest

namespace Reads

variable {unread : σ → List τ → Prop} {failure : ε}
variable {read : σ → Except ε (α × σ)} {language other : List τ → α → Prop}

/-- A reader that returns without reading. -/
theorem succeed (value : α) :
    Reads unread failure (fun state => .ok (value, state))
      (fun word result => word = [] ∧ result = value) where
  complete := by
    rintro state word rest result ⟨rfl, rfl⟩ ahead
    exact ⟨state, rfl, ahead⟩
  sound := by
    intro state stream ahead
    exact .inr ⟨[], value, stream, state, ⟨rfl, rfl⟩, rfl, rfl, ahead⟩

/-- One reader after the other, the second one chosen by the first value. -/
theorem bind {next : α → σ → Except ε (β × σ)} {later : α → List τ → β → Prop}
    (first : Reads unread failure read language)
    (second : ∀ value, Reads unread failure (next value) (later value)) :
    Reads unread failure (fun state => do
        let (value, state) ← read state
        next value state)
      (fun word result => ∃ front value back,
        word = front ++ back ∧ language front value ∧ later value back result) where
  complete := by
    rintro state word rest result ⟨front, value, back, rfl, accepted, behind⟩ ahead
    rw [List.append_assoc] at ahead
    obtain ⟨middle, readFirst, ahead⟩ := first.complete accepted ahead
    obtain ⟨last, readSecond, ahead⟩ := (second value).complete behind ahead
    refine ⟨last, ?_, ahead⟩
    simp only [readFirst]
    exact readSecond
  sound := by
    intro state stream ahead
    rcases first.sound ahead with failed |
      ⟨front, value, rest, middle, accepted, rfl, readFirst, ahead⟩
    · apply Or.inl
      simp only [failed]
      rfl
    · rcases (second value).sound ahead with failed |
        ⟨back, result, rest, last, behind, rfl, readSecond, ahead⟩
      · apply Or.inl
        simp only [readFirst]
        exact failed
      · apply Or.inr
        refine ⟨front ++ back, result, rest, last,
          ⟨front, value, back, rfl, accepted, behind⟩,
          (List.append_assoc front back rest).symm, ?_, ahead⟩
        simp only [readFirst]
        exact readSecond

/-- The language of a reader may be described in another way. -/
theorem congr (reads : Reads unread failure read language)
    (same : ∀ word value, language word value ↔ other word value) :
    Reads unread failure read other where
  complete := by
    intro state word rest value accepted ahead
    exact reads.complete ((same word value).mpr accepted) ahead
  sound := by
    intro state stream ahead
    rcases reads.sound ahead with failed | ⟨word, value, rest, next, accepted, found⟩
    · exact .inl failed
    · exact .inr ⟨word, value, rest, next, (same word value).mp accepted, found⟩

/-- A reader fails on the streams that do not start with a word. -/
theorem ne_error_iff (reads : Reads unread failure read language) {state : σ}
    {stream : List τ} (ahead : unread state stream) :
    read state ≠ .error failure ↔
      ∃ word value, language word value ∧ word <+: stream := by
  constructor
  · intro succeeds
    rcases reads.sound ahead with failed | ⟨word, value, rest, _, accepted, rfl, _⟩
    · exact absurd failed succeeds
    · exact ⟨word, value, accepted, rest, rfl⟩
  · rintro ⟨word, value, accepted, rest, rfl⟩ failed
    obtain ⟨next, read, _⟩ := reads.complete accepted ahead
    rw [failed] at read
    cases read

end Reads

end Nicenet.Library
