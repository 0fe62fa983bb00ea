import Nicenet.Url.Reached

/-!
# URLs that are refused

A refusal clears the components, but a user or host that was kept aside comes back as the
host. A bracket at the start of a host aborts the process with the next character.
-/

namespace Nicenet.UrlParser

open Library Http

/-- No component is set. -/
def Url.Cleared (url : Url) : Prop :=
  url.scheme = [] ∧ url.username = [] ∧ url.password = [] ∧ url.hostname = [] ∧
    url.port = [] ∧ url.path = [] ∧ url.query = [] ∧ url.fragment = []

/-- `parse` comes back, and a refusal leaves nothing behind. -/
def FailsCleanly (str : Str) : Prop :=
  ∃ valid url, parse str = some (valid, url) ∧ (valid = false → url.Cleared)

/-- A host starts with a bracket and goes on behind it. -/
def Bracket (str : Str) : Prop :=
  ∃ scheme user password front ch rest, HasUser scheme user password front ∧
    str = front ++ 91 :: ch :: rest

/-- The first character without a place comes directly behind what may be a user or a host, or
behind digits that follow its colon. -/
def BreaksOff (str : Str) : Prop :=
  ∃ scheme text front ch rest, Opens scheme text front ∧ text ≠ [] ∧
    ((isHostChar ch = false ∧ ch ≠ 58 ∧ ch ≠ 64 ∧ ch ≠ 47 ∧ str = front ++ ch :: rest) ∨
      ∃ digits, (∀ other ∈ digits, isDigit other) ∧ isPasswordChar ch = false ∧ ch ≠ 47 ∧
        str = front ++ 58 :: digits ++ ch :: rest)

variable {str : Str}

/-- A bracket aborts the process. -/
theorem Bracket.aborts (bracket : Bracket str) : parse str = none := by
  obtain ⟨scheme, user, password, front, ch, rest, has, rfl⟩ := bracket
  have opening : machine.Passes (atHost scheme user password []) [91]
      { atHost scheme user password [] with state := .ipv6Hostname } :=
    .symbol fun _ => rfl
  have stops := @parse_of_stop _ _ _ ch rest _ ((hasUser_passes has).append opening) rfl
  rw [List.append_assoc, List.singleton_append] at stops
  rw [parse, stops]

/-- What was kept aside is left as the host. -/
theorem BreaksOff.leaves (breaks : BreaksOff str) :
    ∃ url, parse str = some (false, url) ∧ url.hostname ≠ [] := by
  obtain ⟨scheme, text, front, ch, rest, opens, ne, ⟨host, colon, at_, slash, rfl⟩ |
    ⟨digits, all, other, slash, rfl⟩⟩ := breaks
  · have stops : (atUser scheme text).step ch = (atUser scheme text).refuse := by
      simp [Scan.step, atUser, host, colon, at_, slash]
    rw [parse, parse_of_stop (opens_passes opens) stops]
    refine ⟨_, rfl, ?_⟩
    simp [finish, atUser, ne]
  · have digit : isDigit ch = false := by
      by_contra digit
      exact absurd (isDigit_isPasswordChar ch (by simpa using digit)) (by simp [other])
    have stops : (atPortOrPassword scheme text digits).step ch =
        (atPortOrPassword scheme text digits).refuse := by
      simp [Scan.step, atPortOrPassword, digit, slash, other]
    rw [parse, parse_of_stop ((opens_passes opens).append (digits_pass all)) stops]
    refine ⟨_, rfl, ?_⟩
    simp [finish, atPortOrPassword, ne]

/-- The loop is left early by an abort or by a refusal. -/
theorem Scan.step_stop {s last : Scan} {ch : UInt8} {result : Stop}
    (step : s.step ch = .stop last result) :
    result = .aborted ∧ s.state = .ipv6Hostname ∨
      result = .invalid ∧ last = { s with url := {} } := by
  rw [Scan.step] at step
  split at step
  case h_7 state =>
      cases step
      exact .inl ⟨rfl, state⟩
  all_goals
    repeat' split at step
    all_goals cases step
    all_goals exact .inr ⟨rfl, rfl⟩

/-- Where a run is refused, nothing is kept aside or the URL breaks off. -/
theorem Reached.refused {word rest : Str} {s : Scan} {ch : UInt8} (reached : Reached word s)
    (step : s.step ch = s.refuse) :
    s.usernameOrHostname = [] ∨ BreaksOff (word ++ ch :: rest) := by
  cases reached with
  | @usernameOrHostname scheme text word opens =>
      by_cases ne : text = []
      · exact .inl ne
      · refine .inr ⟨scheme, text, word, ch, rest, opens, ne, .inl ?_⟩
        simp only [Scan.step, atUser, Scan.refuse] at step
        split at step
        · cases step
        · next host =>
          split at step
          · cases step
          · next colon =>
            split at step
            · cases step
            · next sign =>
              split at step
              · cases step
              · next slash => exact ⟨Bool.eq_false_iff.mpr host, colon, sign, slash, rfl⟩
  | @portOrPassword scheme text front digits opens all =>
      by_cases ne : text = []
      · exact .inl ne
      · refine .inr ⟨scheme, text, front, ch, rest, opens, ne, .inr ⟨digits, all, ?_⟩⟩
        simp only [Scan.step, atPortOrPassword, Scan.refuse] at step
        split at step
        · cases step
        · split at step
          · cases step
          · next slash =>
            split at step
            · cases step
            · next other => exact ⟨Bool.eq_false_iff.mpr other, slash, by simp⟩
  | path begun settled written => exact .inl settled
  | _ => exact .inl rfl

/-- Where a run is aborted, a bracket starts the host. -/
theorem Reached.aborted {word rest : Str} {s : Scan} {ch : UInt8} (reached : Reached word s)
    (state : s.state = .ipv6Hostname) : Bracket (word ++ ch :: rest) := by
  cases reached with
  | @ipv6Hostname scheme user password front has =>
      exact ⟨scheme, user, password, front, ch, rest, has, by simp⟩
  | path begun settled written =>
      rcases begun with other | other | other
      all_goals
        rw [state] at other
        cases other
  | _ => cases state

/-- A refusal is clean exactly when no host starts with a bracket and the URL does not break
off behind what may be a user or a host. -/
theorem fails_cleanly_iff (str : Str) :
    FailsCleanly str ↔ ¬Bracket str ∧ ¬BreaksOff str := by
  constructor
  · rintro ⟨valid, url, parsed, cleared⟩
    refine ⟨fun bracket => ?_, fun breaks => ?_⟩
    · rw [bracket.aborts] at parsed
      cases parsed
    · obtain ⟨left, refused, host⟩ := breaks.leaves
      rw [refused] at parsed
      cases parsed
      exact host (cleared rfl).2.2.2.1
  · rintro ⟨plain, whole⟩
    cases result : (machine.consume start str).result with
    | none =>
        refine ⟨true, finish (machine.consume start str).state, ?_, nofun⟩
        rw [parse, result]
    | some stop =>
        obtain ⟨word, ch, before, split, run, step⟩ := uniform.last_step result
        have reached := reached_of_run run
        rcases Scan.step_stop step with ⟨_, state⟩ | ⟨rfl, last⟩
        · rw [split] at plain
          exact absurd (reached.aborted state) plain
        · have refuse : before.step ch = before.refuse := by
            rw [Scan.refuse, ← last]
            exact step
          rw [split] at whole
          have aside := (reached.refused refuse).resolve_right whole
          refine ⟨false, finish (machine.consume start str).state, ?_, fun _ => ?_⟩
          · rw [parse, result]
          · rw [last, finish, if_neg (not_not.mpr aside)]
            exact ⟨rfl, rfl, rfl, rfl, rfl, rfl, rfl, rfl⟩

/-- `a://b c` is refused and leaves the host `b`. -/
theorem fails_cleanly_fails : ¬∀ str : Str, FailsCleanly str := by
  intro every
  obtain ⟨valid, url, parsed, cleared⟩ := every [97, 58, 47, 47, 98, 32, 99]
  have left : parse [97, 58, 47, 47, 98, 32, 99] = some (false, { hostname := [98] }) := by
    decide +kernel
  rw [left] at parsed
  cases parsed
  exact absurd (cleared rfl).2.2.2.1 (by decide)

end Nicenet.UrlParser
