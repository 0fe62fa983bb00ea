import Nicenet.Library.Split
import Nicenet.Url.Parser

/-!
# How URLs are spelled

The words that take the parser to each of its states, and the other way round: where it is
tells what it has read.
-/

namespace Nicenet.UrlParser

open Library Http

/-- A scheme, and what comes first behind it: behind two slashes, or behind the colon when it
starts with a letter or a digit. -/
def Opens (scheme text word : Str) : Prop :=
  (∀ ch ∈ scheme, isSchemeChar ch) ∧ (∀ ch ∈ text, isHostChar ch) ∧
    (word = scheme ++ [58, 47, 47] ++ text ∨
      (∃ first ∈ text.head?, isalnum first) ∧ word = scheme ++ [58] ++ text)

/-- A password that is told from a port by one of its characters. -/
def IsPassword (password : Str) : Prop :=
  (∀ ch ∈ password, isPasswordChar ch) ∧ ∃ ch ∈ password, isDigit ch = false

/-- A scheme with a user, with a password or an empty one for none, up to the `@`. -/
def HasUser (scheme user password word : Str) : Prop :=
  ∃ front, Opens scheme user front ∧
    (password = [] ∧ word = front ++ [64] ∨
      IsPassword password ∧ word = front ++ [58] ++ password ++ [64])

/-- A word that ends in the digits of a port. -/
def PortFront (digits word : Str) : Prop :=
  (∀ ch ∈ digits, isDigit ch) ∧
    ((∃ scheme host front, Opens scheme host front ∧ word = front ++ [58] ++ digits) ∨
      ∃ scheme user password host front, HasUser scheme user password front ∧
        (∀ ch ∈ host, isHostChar ch) ∧ word = front ++ host ++ [58] ++ digits)

/-! ## From the words to the states -/

section Passes

variable {scheme text user password host digits word : Str}

theorem opens_passes (opens : Opens scheme text word) :
    machine.Passes start word (atUser scheme text) := by
  obtain ⟨wf, chars, rfl | ⟨⟨first, found, alnum⟩, rfl⟩⟩ := opens
  · exact (slashes_pass wf).append (text_passes [] chars)
  · obtain ⟨rest, rfl⟩ := List.head?_eq_some_iff.mp found
    have later := @text_passes scheme rest [first]
      fun ch member => chars ch (List.mem_cons_of_mem _ member)
    have passes := (alnum_passes wf alnum).append later
    simpa using passes

/-- Behind a colon, with digits of a port or a password. -/
def atPortOrPassword (scheme text digits : Str) : Scan where
  state := .portOrPassword
  url := { scheme, path := [47] }
  usernameOrHostname := text
  portOrPassword := digits

/-- In a password. -/
def atPassword (scheme user password : Str) : Scan where
  state := .password
  url := { scheme, username := user, password, path := [47] }
  usernameOrHostname := []
  portOrPassword := []

/-- Behind the user, with a host and digits of its port. -/
def atPort (scheme user password host digits : Str) : Scan where
  state := .port
  url := { scheme, username := user, password, hostname := host, path := [47] }
  usernameOrHostname := []
  portOrPassword := digits

theorem colon_passes :
    machine.Passes (atUser scheme text) [58] (atPortOrPassword scheme text []) :=
  .symbol fun _ => rfl

theorem digits_pass (all : ∀ ch ∈ digits, isDigit ch) :
    machine.Passes (atUser scheme text) (58 :: digits) (atPortOrPassword scheme text digits) := by
  refine colon_passes.append (Machine.Passes.collect (atPortOrPassword scheme text)
    (fun text ch left accepted => ?_) [] all)
  simp only [machine, Scan.step, atPortOrPassword, accepted, if_true]

/-- The first character of a password that is no digit decides what it is. -/
theorem password_passes (wf : IsPassword password) :
    machine.Passes (atUser scheme user) (58 :: password) (atPassword scheme user password) := by
  obtain ⟨chars, other, member, letter⟩ := wf
  rcases Split.cases_all isDigit password with all | ⟨front, first, rest, rfl, all, fails⟩
  · exact absurd (all other member) (by rw [letter]; exact Bool.false_ne_true)
  · have rest_chars : ∀ ch ∈ rest, isPasswordChar ch := fun ch member =>
      chars ch (List.mem_append_right _ (List.mem_cons_of_mem _ member))
    have accepted := chars first (List.mem_append_right _ List.mem_cons_self)
    have slash := (isPasswordChar_spec first accepted).2
    have decides : machine.Passes (atPortOrPassword scheme user front) [first]
        (atPassword scheme user (front ++ [first])) := by
      refine .symbol fun _ => ?_
      simp only [machine, Scan.step, atPortOrPassword, fails, slash, accepted, if_true, if_false,
        Bool.false_eq_true]
      rfl
    have collects : machine.Passes (atPassword scheme user (front ++ [first])) rest
        (atPassword scheme user (front ++ [first] ++ rest)) := by
      refine Machine.Passes.collect (atPassword scheme user) (fun text ch left accepted => ?_)
        _ rest_chars
      simp only [machine, Scan.step, atPassword, accepted, if_true]
    have passes := ((digits_pass all).append decides).append collects
    simpa using passes

theorem hasUser_passes (has : HasUser scheme user password word) :
    machine.Passes start word (atHost scheme user password []) := by
  obtain ⟨front, opens, ⟨rfl, rfl⟩ | ⟨wf, rfl⟩⟩ := has
  · exact (opens_passes opens).append (.symbol fun _ => rfl)
  · rw [List.append_assoc front]
    exact ((opens_passes opens).append (password_passes wf)).append (.symbol fun _ => rfl)

/-- At the end of a host, with components that a slash would settle. -/
structure Seat (s : Scan) (url : Url) : Prop where
  slash : machine.Passes s [47] ⟨.path, url, [], []⟩
  port : ∀ {digits : Str}, (∀ ch ∈ digits, isDigit ch) →
    ∃ next, machine.Passes s (58 :: digits) next ∧ finish next = finish s ∧
      machine.Passes next [47]
        ⟨.path, { url with port := digits, integerPort := toPort (atoi digits) }, [], []⟩

theorem atUser_seat :
    Seat (atUser scheme host) { scheme, hostname := host, path := [47] } where
  slash := .symbol fun _ => rfl
  port digits := ⟨_, digits_pass digits, rfl, .symbol fun _ => rfl⟩

theorem atHost_seat :
    Seat (atHost scheme user password host)
      { scheme, username := user, password, hostname := host, path := [47] } where
  slash := by
    refine .symbol fun _ => ?_
    simp only [machine, Scan.step, atHost]
    rfl
  port {digits} all := by
    have colon : machine.Passes (atHost scheme user password host) [58]
        (atPort scheme user password host []) := by
      refine .symbol fun _ => ?_
      simp only [machine, Scan.step, atHost]
      rfl
    have collects : machine.Passes (atPort scheme user password host []) digits
        (atPort scheme user password host digits) := by
      refine Machine.Passes.collect (atPort scheme user password host)
        (fun text ch left accepted => ?_) [] all
      simp only [machine, Scan.step, atPort, accepted, if_true]
    exact ⟨_, colon.append collects, rfl, .symbol fun _ => rfl⟩

/-- The slash in front of the path has been read. -/
def Scan.Begun (s : Scan) : Prop := s.state = .path ∨ s.state = .query ∨ s.state = .fragment

/-- Behind that slash every character is taken, and the port stays. -/
theorem Scan.Begun.step {s : Scan} (begun : s.Begun) (ch : UInt8) :
    ∃ next, s.step ch = .next next ∧ next.Begun ∧ next.url.port = s.url.port ∧
      next.url.integerPort = s.url.integerPort ∧
      next.usernameOrHostname = s.usernameOrHostname := by
  rcases begun with state | state | state
  · simp only [Scan.step, state]
    split
    · exact ⟨_, rfl, .inr (.inr rfl), rfl, rfl, rfl⟩
    · split
      · exact ⟨_, rfl, .inr (.inl rfl), rfl, rfl, rfl⟩
      · exact ⟨_, rfl, .inl rfl, rfl, rfl, rfl⟩
  · simp only [Scan.step, state]
    split
    · exact ⟨_, rfl, .inr (.inr rfl), rfl, rfl, rfl⟩
    · split
      · exact ⟨_, rfl, .inr (.inl rfl), rfl, rfl, rfl⟩
      · exact ⟨_, rfl, .inr (.inl rfl), rfl, rfl, rfl⟩
  · simp only [Scan.step, state]
    exact ⟨_, rfl, .inr (.inr rfl), rfl, rfl, rfl⟩

/-- Behind a path begun, the URL is accepted whatever comes. -/
theorem Scan.Begun.accepted {s : Scan} (begun : s.Begun) (rest : Str) :
    (machine.consume s rest).result = none := by
  induction rest generalizing s with
  | nil => rfl
  | cons ch rest ih =>
      obtain ⟨next, step, later, _⟩ := begun.step ch
      rw [machine.consume_next (show machine s ch rest.length = .next next from step)]
      exact ih later

end Passes

end Nicenet.UrlParser
