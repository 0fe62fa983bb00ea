import Nicenet.Url.Reached

/-!
# Port numbers

The digits of a port go through an `int` and a `uint16_t`, and those at the end of a URL are
dropped. Neither a URL with too large a port is refused, so the number is right exactly when
it fits.
-/

namespace Nicenet.UrlParser

open Library Http

/-- The digits that are written as a port: behind the host and its colon, in front of a slash
or at the end. -/
def PortText (str digits : Str) : Prop :=
  ∃ front, PortFront digits front ∧ (str = front ∨ ∃ rest, str = front ++ 47 :: rest)

/-- A port is the number that is written, and one that does not fit is refused. -/
structure PortKept (str : Str) : Prop where
  httpPort : ∀ url, parse str = some (true, url) → url.port ≠ [] →
    url.httpPort.toNat = numeral 10 url.port
  refuses : ∀ digits, PortText str digits → 65535 < numeral 10 digits →
    ∀ url, parse str ≠ some (true, url)

variable {str digits front : Str}

/-- Digits of a port are read up to their end, and a slash begins the path. -/
theorem PortFront.passes (written : PortFront digits front) :
    ∃ s, machine.Passes start front s ∧
      ∃ url, machine.Passes s [47] ⟨.path, url, [], []⟩ := by
  obtain ⟨all, ⟨scheme, host, word, opens, rfl⟩ |
    ⟨scheme, user, password, host, word, has, wf, rfl⟩⟩ := written
  · obtain ⟨next, colon, _, slash⟩ := (@atUser_seat scheme host).port all
    have passes := (opens_passes opens).append colon
    rw [List.append_assoc]
    exact ⟨next, passes, _, slash⟩
  · obtain ⟨next, colon, _, slash⟩ := (@atHost_seat scheme user password host).port all
    have passes := ((hasUser_passes has).append (host_passes wf)).append colon
    rw [List.append_assoc (word ++ host)]
    exact ⟨next, passes, _, slash⟩

/-- A URL with a port is accepted, however large the port is. -/
theorem PortText.accepted (written : PortText str digits) :
    ∃ url, parse str = some (true, url) := by
  obtain ⟨front, written, rfl | ⟨rest, rfl⟩⟩ := written
  · obtain ⟨s, passes, _⟩ := written.passes
    exact ⟨_, parse_of_passes passes⟩
  · obtain ⟨s, passes, url, slash⟩ := written.passes
    have begun : Scan.Begun ⟨.path, url, [], []⟩ := .inl rfl
    have accepted := begun.accepted rest
    have run := (passes.append slash) rest
    rw [List.append_assoc, List.singleton_append] at run
    exact ⟨_, by rw [parse, run, accepted]⟩

/-- A port that is found is written in front of a slash, and its number is what `atoi` and the
`uint16_t` make of it. -/
theorem port_written {url : Url} (accepted : parse str = some (true, url))
    (found : url.port ≠ []) :
    PortText str url.port ∧ url.integerPort = toPort (atoi url.port) := by
  obtain ⟨s, run, rfl⟩ := parse_eq_true.mp accepted
  rw [finish_port] at found ⊢
  rw [finish_integerPort]
  cases reached_of_run run with
  | path begun settled written =>
      obtain ⟨front, rest, written, split, value⟩ := written.resolve_left found
      exact ⟨⟨front, written, .inr ⟨rest, split⟩⟩, value⟩
  | _ => exact absurd rfl found

/-- The number of a port is right exactly when it fits into 16 bits. -/
theorem port_kept_iff (str : Str) :
    PortKept str ↔ ∀ digits, PortText str digits → numeral 10 digits ≤ 65535 := by
  constructor
  · intro kept digits written
    by_contra large
    obtain ⟨url, accepted⟩ := written.accepted
    exact kept.refuses digits written (Nat.not_le.mp large) url accepted
  · intro fits
    refine ⟨fun url accepted found => ?_, fun digits written large => ?_⟩
    · obtain ⟨written, value⟩ := port_written accepted found
      obtain ⟨front, ⟨all, ends⟩, split⟩ := written
      have small := fits url.port ⟨front, ⟨all, ends⟩, split⟩
      have wf : IsNumeral 10 url.port :=
        ⟨found, fun ch member => (isDigit_iff ch).mp (all ch member)⟩
      rw [Url.httpPort, if_neg found, value, toPort_atoi wf small]
    · exact absurd (fits digits written) (Nat.not_le.mpr large)

/-- `h://h:65616/` is accepted with port 80. -/
theorem port_kept_fails : ¬∀ str : Str, PortKept str := by
  intro every
  have wraps : parse [104, 58, 47, 47, 104, 58, 54, 53, 54, 49, 54, 47] = some (true, {
      scheme := [104]
      hostname := [104]
      port := [54, 53, 54, 49, 54]
      path := [47]
      integerPort := 80 }) := by
    decide +kernel
  have number := (every _).httpPort _ wraps nofun
  exact absurd number (by decide +kernel)

end Nicenet.UrlParser
