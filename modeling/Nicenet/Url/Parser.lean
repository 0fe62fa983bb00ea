import Nicenet.Library.Machine
import Nicenet.Http.Numeral

/-!
# The URL parser

`parse_` reads one character after the other; `step` is the body of its loop. What comes
first behind the scheme may turn out to be a user or a host, and what comes behind its colon
a port or a password, so both are kept aside until a later character tells. A user or host
that is still aside behind the loop is taken for the host, also when the loop has failed.
-/

namespace Nicenet.UrlParser

open Library Http

/-- The states of `parse_`. -/
inductive State where
  | scheme
  | slashAfterScheme1
  | slashAfterScheme2
  | usernameOrHostname
  | password
  | hostname
  | ipv6Hostname
  | portOrPassword
  | port
  | path
  | query
  | fragment
  deriving DecidableEq, Repr

structure Url where
  scheme : Str := []
  username : Str := []
  password : Str := []
  hostname : Str := []
  port : Str := []
  path : Str := []
  query : Str := []
  fragment : Str := []
  integerPort : UInt16 := 0
  deriving DecidableEq, Repr

/-- The variables of `parse_`, and the components as far as they are known. -/
structure Scan where
  state : State
  url : Url
  usernameOrHostname : Str
  portOrPassword : Str
  deriving DecidableEq, Repr

/-- What ends the loop early: `valid` is false, or the process is aborted. -/
inductive Stop where
  | invalid
  | aborted
  deriving DecidableEq, Repr

def isUnreserved (ch : UInt8) : Bool := isalnum ch || [45, 46, 95, 126].contains ch

def isSchemeChar (ch : UInt8) : Bool := isalnum ch || ch = 43 || ch = 45 || ch = 46

def isHostChar (ch : UInt8) : Bool := isUnreserved ch || ch = 37

def isPasswordChar (ch : UInt8) : Bool := isalnum ch || ch = 37

/-- An `int` stored in a `uint16_t`. -/
def toPort (value : Int32) : UInt16 := UInt16.ofInt value.toInt

namespace Scan

/-- A character that has no place: `valid` and the components are cleared. -/
def refuse (s : Scan) : Machine.Move Scan Stop := .stop { s with url := {} } .invalid

/-- The slash behind a port. -/
def takePort (s : Scan) : Scan :=
  { s with
    state := .path
    url.port := s.portOrPassword
    portOrPassword := s.url.port
    url.integerPort := toPort (atoi s.portOrPassword) }

/-- The body of the loop of `parse_`. -/
def step (s : Scan) (ch : UInt8) : Machine.Move Scan Stop :=
  match s.state with
  | .scheme =>
      if isSchemeChar ch then .next { s with url.scheme := s.url.scheme ++ [ch] }
      else if ch = 58 then .next { s with state := .slashAfterScheme1 }
      else s.refuse
  | .slashAfterScheme1 =>
      if ch = 47 then .next { s with state := .slashAfterScheme2 }
      else if isalnum ch then
        .next { s with state := .usernameOrHostname, usernameOrHostname := [ch] }
      else s.refuse
  | .slashAfterScheme2 =>
      if ch = 47 then .next { s with state := .usernameOrHostname } else s.refuse
  | .usernameOrHostname =>
      if isHostChar ch then
        .next { s with usernameOrHostname := s.usernameOrHostname ++ [ch] }
      else if ch = 58 then .next { s with state := .portOrPassword }
      else if ch = 64 then
        .next { s with
          state := .hostname
          url.username := s.usernameOrHostname
          usernameOrHostname := s.url.username }
      else if ch = 47 then
        .next { s with
          state := .path
          url.hostname := s.usernameOrHostname
          usernameOrHostname := s.url.hostname }
      else s.refuse
  | .password =>
      if isPasswordChar ch then .next { s with url.password := s.url.password ++ [ch] }
      else if ch = 64 then .next { s with state := .hostname }
      else s.refuse
  | .hostname =>
      if ch = 91 ∧ s.url.hostname = [] then .next { s with state := .ipv6Hostname }
      else if isHostChar ch then .next { s with url.hostname := s.url.hostname ++ [ch] }
      else if ch = 58 then .next { s with state := .port }
      else if ch = 47 then .next { s with state := .path }
      else s.refuse
  | .ipv6Hostname => .stop s .aborted
  | .portOrPassword =>
      if isDigit ch then .next { s with portOrPassword := s.portOrPassword ++ [ch] }
      else if ch = 47 then
        .next { s with
          url.hostname := s.usernameOrHostname
          usernameOrHostname := s.url.hostname }.takePort
      else if isPasswordChar ch then
        .next { s with
          state := .password
          url.username := s.usernameOrHostname
          usernameOrHostname := s.url.username
          url.password := s.portOrPassword ++ [ch]
          portOrPassword := s.url.password }
      else s.refuse
  | .port =>
      if isDigit ch then .next { s with portOrPassword := s.portOrPassword ++ [ch] }
      else if ch = 47 then .next s.takePort
      else s.refuse
  | .path =>
      if ch = 35 then .next { s with state := .fragment }
      else if ch = 63 then .next { s with state := .query }
      else .next { s with url.path := s.url.path ++ [ch] }
  | .query =>
      if ch = 35 then .next { s with state := .fragment }
      else if ch = 63 then .next { s with state := .query }
      else .next { s with url.query := s.url.query ++ [ch] }
  | .fragment => .next { s with url.fragment := s.url.fragment ++ [ch] }

end Scan

/-- The loop of `parse_`. -/
def machine : Machine Scan UInt8 Stop := fun s ch _ => s.step ch

def start : Scan := ⟨.scheme, { path := [47] }, [], []⟩

/-- What `parse_` does behind its loop. -/
def finish (s : Scan) : Url :=
  if s.usernameOrHostname ≠ [] then { s.url with hostname := s.usernameOrHostname }
  else s.url

/-- `parse`: what it answers and the components behind it, unless the process is aborted. -/
def parse (str : Str) : Option (Bool × Url) :=
  let halt := machine.consume start str
  match halt.result with
  | none => some (true, finish halt.state)
  | some .invalid => some (false, finish halt.state)
  | some .aborted => none

def Url.httpPort (url : Url) : UInt16 :=
  if url.port = [] then
    if url.scheme = [104, 116, 116, 112, 115] then 443 else 80
  else url.integerPort

/-- An empty text is accepted. -/
example : parse [] = some (true, { path := [47] }) := rfl

theorem isDigit_iff : ∀ ch : UInt8, isDigit ch ↔ isDigitOf 10 ch := by
  decide +kernel

/-- `atoi` and the `uint16_t` keep a number that fits. -/
theorem toPort_atoi {digits : Str} (wf : IsNumeral 10 digits)
    (fits : numeral 10 digits ≤ 65535) :
    (toPort (atoi digits)).toNat = numeral 10 digits := by
  have value : (numeral 10 digits : Int) % 2 ^ 16 = numeral 10 digits := by
    omega
  rw [toPort, atoi_numeral wf (by omega), UInt16.ofInt, value, Int.toNat_natCast]
  exact UInt16.toNat_ofNat_of_lt' (Nat.lt_succ_of_le fits)

/-! ## Words that pass -/

/-- A text that the parser goes through is accepted. -/
theorem parse_of_passes {text : Str} {s : Scan} (passes : machine.Passes start text s) :
    parse text = some (true, finish s) := by
  have run := passes []
  rw [List.append_nil] at run
  rw [parse, run]
  rfl

/-- A URL is accepted when its loop comes to the end. -/
theorem parse_eq_true {str : Str} {url : Url} :
    parse str = some (true, url) ↔
      ∃ s, machine.consume start str = ⟨s, none, []⟩ ∧ finish s = url := by
  constructor
  · intro accepted
    rw [parse] at accepted
    cases result : (machine.consume start str).result with
    | some stop => cases stop <;> simp [result] at accepted
    | none =>
        simp only [result, Option.some.injEq, Prod.mk.injEq, true_and] at accepted
        refine ⟨_, ?_, accepted⟩
        rw [← result, ← machine.rest_of_none result]
  · rintro ⟨s, run, rfl⟩
    rw [parse, run]

@[simp] theorem finish_port (s : Scan) : (finish s).port = s.url.port := by
  rw [finish]
  split <;> rfl

@[simp] theorem finish_integerPort (s : Scan) :
    (finish s).integerPort = s.url.integerPort := by
  rw [finish]
  split <;> rfl

theorem parse_of_stop {text : Str} {s last : Scan} {ch : UInt8} {rest : Str} {result : Stop}
    (passes : machine.Passes start text s) (step : s.step ch = .stop last result) :
    machine.consume start (text ++ ch :: rest) = ⟨last, some result, rest⟩ := by
  rw [passes]
  exact machine.consume_stop step

section Passes

variable {scheme text user password host digits : Str}

theorem uniform : Machine.Uniform machine := fun _ _ _ _ => rfl

/-- In the scheme. -/
def atScheme (scheme : Str) : Scan where
  state := .scheme
  url := { scheme, path := [47] }
  usernameOrHostname := []
  portOrPassword := []

/-- Behind the scheme, with what may be a user or a host. -/
def atUser (scheme text : Str) : Scan where
  state := .usernameOrHostname
  url := { scheme, path := [47] }
  usernameOrHostname := text
  portOrPassword := []

/-- Behind the user, with a host. -/
def atHost (scheme user password host : Str) : Scan where
  state := .hostname
  url := { scheme, username := user, password, hostname := host, path := [47] }
  usernameOrHostname := []
  portOrPassword := []

theorem isHostChar_spec : ∀ ch : UInt8, isHostChar ch →
    ch ≠ 91 ∧ ch ≠ 58 ∧ ch ≠ 64 ∧ ch ≠ 47 := by
  decide +kernel

theorem isDigit_isPasswordChar : ∀ ch : UInt8, isDigit ch → isPasswordChar ch := by
  decide +kernel

theorem isPasswordChar_spec : ∀ ch : UInt8, isPasswordChar ch → ch ≠ 64 ∧ ch ≠ 47 := by
  decide +kernel

theorem isalnum_isHostChar : ∀ ch : UInt8, isalnum ch → isHostChar ch ∧ ch ≠ 47 := by
  decide +kernel

theorem scheme_passes (wf : ∀ ch ∈ scheme, isSchemeChar ch) :
    machine.Passes start scheme (atScheme scheme) := by
  refine Machine.Passes.collect atScheme (fun text ch left accepted => ?_) [] wf
  simp only [machine, Scan.step, atScheme, accepted, if_true]

/-- A scheme with its colon, and two slashes. -/
theorem slashes_pass (wf : ∀ ch ∈ scheme, isSchemeChar ch) :
    machine.Passes start (scheme ++ [58, 47, 47]) (atUser scheme []) :=
  (scheme_passes wf).append
    (.cons (fun _ => rfl) (.cons (fun _ => rfl) (.symbol fun _ => rfl)))

/-- A user or host can also follow the colon directly. -/
theorem alnum_passes (wf : ∀ ch ∈ scheme, isSchemeChar ch) {ch : UInt8} (alnum : isalnum ch) :
    machine.Passes start (scheme ++ [58, ch]) (atUser scheme [ch]) := by
  refine (scheme_passes wf).append (.cons (fun _ => rfl) (.symbol fun _ => ?_))
  simp only [machine, Scan.step, (isalnum_isHostChar ch alnum).2, alnum, if_true, if_false]
  rfl

theorem text_passes (front : Str) (wf : ∀ ch ∈ text, isHostChar ch) :
    machine.Passes (atUser scheme front) text (atUser scheme (front ++ text)) := by
  refine Machine.Passes.collect (atUser scheme) (fun text ch left accepted => ?_) front wf
  simp only [machine, Scan.step, atUser, accepted, if_true]

theorem host_passes (wf : ∀ ch ∈ host, isHostChar ch) :
    machine.Passes (atHost scheme user password []) host (atHost scheme user password host) := by
  refine Machine.Passes.collect (atHost scheme user password) (fun text ch left accepted => ?_)
    [] wf
  have other := (isHostChar_spec ch accepted).1
  simp only [machine, Scan.step, atHost, accepted, other, false_and, if_true, if_false]

end Passes

end Nicenet.UrlParser
