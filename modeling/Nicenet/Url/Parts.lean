import Nicenet.Url.Spelled

/-!
# URLs written from their parts

A URL is put together from its parts and parsed. The parts come back unless a password
consists of digits, a port is not followed by a path, or a query has a question mark in it.
-/

namespace Nicenet.UrlParser

open Library Http

/-- Letters and digits, at least one. -/
def IsWord (text : Str) : Prop := text ≠ [] ∧ ∀ ch ∈ text, isalnum ch

/-- A path behind its slash, and what can follow it. -/
structure Tail where
  path : Str
  query : Option Str
  fragment : Option Str
  path_wf : ∀ ch ∈ path, ch ≠ 63 ∧ ch ≠ 35
  query_wf : ∀ text ∈ query, ∀ ch ∈ text, ch ≠ 35

/-- A user and perhaps a password. -/
structure User where
  name : Str
  password : Option Str
  name_wf : IsWord name
  password_wf : ∀ text ∈ password, IsWord text

/-- The parts of a URL. A port is a number in decimal that fits into 16 bits. -/
structure Parts where
  scheme : Str
  user : Option User
  host : Str
  port : Option Str
  tail : Option Tail
  scheme_wf : IsWord scheme
  host_wf : host ≠ [] ∧ ∀ ch ∈ host, isUnreserved ch
  port_wf : ∀ digits ∈ port, IsNumeral 10 digits ∧ numeral 10 digits ≤ 65535

/-- A part behind the character that marks it, when there is one. -/
def marked (mark : UInt8) : Option Str → Str
  | none => []
  | some text => mark :: text

def User.text (user : User) : Str := user.name ++ marked 58 user.password ++ [64]

def Tail.text (tail : Tail) : Str :=
  47 :: tail.path ++ marked 63 tail.query ++ marked 35 tail.fragment

namespace Parts

def text (parts : Parts) : Str :=
  parts.scheme ++ [58, 47, 47] ++ (parts.user.map User.text).getD [] ++ parts.host ++
    marked 58 parts.port ++ (parts.tail.map Tail.text).getD []

/-- The components are those of the parts, and the port is the number given. -/
structure Gives (parts : Parts) (url : Url) : Prop where
  scheme : url.scheme = parts.scheme
  username : url.username = (parts.user.map User.name).getD []
  password : url.password = (parts.user.bind User.password).getD []
  hostname : url.hostname = parts.host
  port : url.port = parts.port.getD []
  path : url.path = 47 :: (parts.tail.map Tail.path).getD []
  query : url.query = (parts.tail.bind Tail.query).getD []
  fragment : url.fragment = (parts.tail.bind Tail.fragment).getD []
  httpPort : ∀ digits ∈ parts.port, url.httpPort.toNat = numeral 10 digits

/-- No password of digits only, a path behind every port and no question mark in a query. -/
structure Plain (parts : Parts) : Prop where
  password : ∀ text ∈ parts.user.bind User.password, ∃ ch ∈ text, isDigit ch = false
  port : parts.port.isSome → parts.tail.isSome
  query : ∀ text ∈ parts.tail.bind Tail.query, 63 ∉ text

/-- The components in front of the port. -/
def base (parts : Parts) : Url where
  scheme := parts.scheme
  username := (parts.user.map User.name).getD []
  password := (parts.user.bind User.password).getD []
  hostname := parts.host
  path := [47]

end Parts

/-! ## The tail -/

section Tail

variable {url : Url} {text : Str}

theorem path_passes (wf : ∀ ch ∈ text, ch ≠ 63 ∧ ch ≠ 35) :
    machine.Passes ⟨.path, url, [], []⟩ text
      ⟨.path, { url with path := url.path ++ text }, [], []⟩ := by
  refine Machine.Passes.collect (fun text => Scan.mk .path { url with path := text } [] [])
    (fun text ch left accepted => ?_) url.path wf
  simp only [machine, Scan.step, accepted.1, accepted.2, if_false]

theorem foldl_unmarked (query text : Str) :
    text.foldl (fun query ch => if ch = 63 then query else query ++ [ch]) query =
      query ++ text.filter (· ≠ 63) := by
  induction text generalizing query with
  | nil => simp
  | cons ch text ih =>
      rw [List.foldl_cons, ih]
      by_cases mark : ch = 63 <;> simp [mark]

/-- A question mark in a query is left out. -/
theorem query_passes (wf : ∀ ch ∈ text, ch ≠ 35) :
    machine.Passes ⟨.query, url, [], []⟩ text
      ⟨.query, { url with query := url.query ++ text.filter (· ≠ 63) }, [], []⟩ := by
  rw [← foldl_unmarked]
  refine Machine.Passes.loop (fun query => Scan.mk .query { url with query := query } [] [])
    (fun query ch left accepted => ?_) url.query wf
  by_cases mark : ch = 63
  · simp [machine, Scan.step, mark]
  · simp [machine, Scan.step, mark, accepted]

theorem fragment_passes :
    machine.Passes ⟨.fragment, url, [], []⟩ text
      ⟨.fragment, { url with fragment := url.fragment ++ text }, [], []⟩ :=
  Machine.Passes.collect (fun text => Scan.mk .fragment { url with fragment := text } [] [])
    (fun _ _ _ (_ : True) => rfl) url.fragment fun _ _ => trivial

theorem marked_query_passes {query : Option Str} (wf : ∀ text ∈ query, ∀ ch ∈ text, ch ≠ 35) :
    ∃ state, (state = .path ∨ state = .query) ∧
      machine.Passes ⟨.path, url, [], []⟩ (marked 63 query)
        ⟨state, { url with query := url.query ++ (query.getD []).filter (· ≠ 63) }, [], []⟩ := by
  cases query with
  | none =>
      refine ⟨.path, .inl rfl, ?_⟩
      simp only [Option.getD_none, List.filter_nil, List.append_nil]
      exact .nil _
  | some text => exact ⟨.query, .inr rfl, .cons (fun _ => rfl) (query_passes (wf text rfl))⟩

theorem marked_fragment_passes {state : State} (fragment : Option Str)
    (begun : state = .path ∨ state = .query) :
    ∃ last, machine.Passes ⟨state, url, [], []⟩ (marked 35 fragment)
      ⟨last, { url with fragment := url.fragment ++ fragment.getD [] }, [], []⟩ := by
  cases fragment with
  | none =>
      refine ⟨state, ?_⟩
      simp only [Option.getD_none, List.append_nil]
      exact .nil _
  | some text =>
      have mark : ∀ left, machine ⟨state, url, [], []⟩ 35 left =
          .next ⟨.fragment, url, [], []⟩ := by
        intro left
        rcases begun with rfl | rfl <;> rfl
      exact ⟨.fragment, .cons mark fragment_passes⟩

/-- A tail is read behind its slash. -/
theorem tail_passes (tail : Tail) :
    ∃ state, machine.Passes ⟨.path, url, [], []⟩
      (tail.path ++ marked 63 tail.query ++ marked 35 tail.fragment)
      ⟨state, { url with
        path := url.path ++ tail.path
        query := url.query ++ (tail.query.getD []).filter (· ≠ 63)
        fragment := url.fragment ++ tail.fragment.getD [] }, [], []⟩ := by
  have path := @path_passes url _ tail.path_wf
  obtain ⟨state, begun, query⟩ :=
    @marked_query_passes { url with path := url.path ++ tail.path } _ tail.query_wf
  obtain ⟨last, fragment⟩ := @marked_fragment_passes { url with
    path := url.path ++ tail.path
    query := url.query ++ (tail.query.getD []).filter (· ≠ 63) } state tail.fragment begun
  exact ⟨last, (path.append query).append fragment⟩

end Tail

/-! ## The front -/

namespace Parts

variable (parts : Parts)

theorem isalnum_chars : ∀ ch : UInt8, isalnum ch →
    isSchemeChar ch ∧ isHostChar ch ∧ isPasswordChar ch := by
  decide +kernel

theorem isUnreserved_isHostChar : ∀ ch : UInt8, isUnreserved ch → isHostChar ch := by
  decide +kernel

/-- A user or host behind the slashes. -/
theorem opens {text : Str} (wf : ∀ ch ∈ text, isHostChar ch) :
    Opens parts.scheme text (parts.scheme ++ [58, 47, 47] ++ text) :=
  ⟨fun ch member => (isalnum_chars ch (parts.scheme_wf.2 ch member)).1, wf, .inl rfl⟩

theorem name_opens (user : User) :
    Opens parts.scheme user.name (parts.scheme ++ [58, 47, 47] ++ user.name) :=
  parts.opens fun ch member => (isalnum_chars ch (user.name_wf.2 ch member)).2.1

theorem hasUser (user : User)
    (told : ∀ text ∈ user.password, ∃ ch ∈ text, isDigit ch = false) :
    HasUser parts.scheme user.name (user.password.getD [])
      (parts.scheme ++ [58, 47, 47] ++ user.text) := by
  refine ⟨_, parts.name_opens user, ?_⟩
  cases password : user.password with
  | none =>
      refine .inl ⟨rfl, ?_⟩
      simp [User.text, password, marked]
  | some text =>
      have chars : ∀ ch ∈ text, isPasswordChar ch := fun ch member =>
        (isalnum_chars ch ((user.password_wf text password).2 ch member)).2.2
      refine .inr ⟨⟨chars, told text password⟩, ?_⟩
      simp [User.text, password, marked]

/-- Up to the end of the host, with a password that is told from a port. -/
theorem front_passes
    (told : ∀ text ∈ parts.user.bind User.password, ∃ ch ∈ text, isDigit ch = false) :
    ∃ s, machine.Passes start
        (parts.scheme ++ [58, 47, 47] ++ (parts.user.map User.text).getD [] ++ parts.host) s ∧
      Seat s parts.base ∧ finish s = parts.base := by
  have host : ∀ ch ∈ parts.host, isHostChar ch := fun ch member =>
    isUnreserved_isHostChar ch (parts.host_wf.2 ch member)
  cases user : parts.user with
  | none =>
      refine ⟨atUser parts.scheme parts.host, ?_, ?_, ?_⟩
      · simpa using opens_passes (parts.opens host)
      · have seat := @atUser_seat parts.scheme parts.host
        simpa [base, user] using seat
      · simp [finish, atUser, base, user, parts.host_wf.1]
  | some user' =>
      rw [user] at told
      refine ⟨atHost parts.scheme user'.name (user'.password.getD []) parts.host, ?_, ?_, ?_⟩
      · exact (hasUser_passes (parts.hasUser user' told)).append (host_passes host)
      · have seat := @atHost_seat parts.scheme user'.name (user'.password.getD []) parts.host
        simpa [base, user] using seat
      · simp [finish, atHost, base, user]

/-- A password of digits only is taken for a port, and the `@` behind it is refused. -/
theorem parse_digits {user : User} {digits : Str} (present : parts.user = some user)
    (password : user.password = some digits) (all : ∀ ch ∈ digits, isDigit ch) (url : Url) :
    parse parts.text ≠ some (true, url) := by
  have opens := parts.name_opens user
  have passes := (opens_passes opens).append (@digits_pass parts.scheme user.name digits all)
  have stops := @parse_of_stop _ _ _ 64 (parts.host ++ marked 58 parts.port ++
    (parts.tail.map Tail.text).getD []) _ passes rfl
  have text : parts.text = parts.scheme ++ [58, 47, 47] ++ user.name ++ 58 :: digits ++
      64 :: (parts.host ++ marked 58 parts.port ++ (parts.tail.map Tail.text).getD []) := by
    simp [Parts.text, present, User.text, password, marked]
  rw [parse, text, stops]
  intro same
  cases same

/-! ## The whole text -/

/-- What is made of the parts: a port is kept when a path follows, and the question marks of
a query are left out. -/
def found (parts : Parts) : Url :=
  match parts.tail with
  | none => parts.base
  | some tail => { parts.base with
      port := parts.port.getD []
      integerPort := (parts.port.map fun digits => toPort (atoi digits)).getD 0
      path := 47 :: tail.path
      query := (tail.query.getD []).filter (· ≠ 63)
      fragment := tail.fragment.getD [] }

theorem parse_text
    (told : ∀ text ∈ parts.user.bind User.password, ∃ ch ∈ text, isDigit ch = false) :
    parse parts.text = some (true, parts.found) := by
  obtain ⟨s, front, seat, finished⟩ := parts.front_passes told
  rw [Parts.text, found]
  cases port : parts.port with
  | none =>
      cases tail : parts.tail with
      | none =>
          have accepted := parse_of_passes front
          rw [finished] at accepted
          simpa [marked] using accepted
      | some last =>
          obtain ⟨state, behind⟩ := @tail_passes parts.base last
          have accepted := parse_of_passes ((front.append seat.slash).append behind)
          simp only [marked, List.append_nil, Option.map_some, Option.getD_some, Tail.text]
          rw [List.append_assoc, List.singleton_append] at accepted
          exact accepted
  | some digits =>
      have all : ∀ ch ∈ digits, isDigit ch := fun ch member =>
        (isDigit_iff ch).mpr ((parts.port_wf digits port).1.2 ch member)
      obtain ⟨next, colon, kept, slash⟩ := seat.port all
      cases tail : parts.tail with
      | none =>
          have accepted := parse_of_passes (front.append colon)
          rw [kept, finished] at accepted
          simpa [marked] using accepted
      | some last =>
          obtain ⟨state, behind⟩ := @tail_passes { parts.base with
            port := digits
            integerPort := toPort (atoi digits) } last
          have accepted := parse_of_passes (((front.append colon).append slash).append behind)
          simp only [marked, Option.map_some, Option.getD_some, Tail.text]
          rw [List.append_assoc, List.singleton_append] at accepted
          exact accepted

/-- A port is not empty, so it is lost without a path. -/
theorem port_kept (gives : parts.Gives parts.found) (written : parts.port.isSome) :
    parts.tail.isSome := by
  obtain ⟨digits, port⟩ := Option.isSome_iff_exists.mp written
  have kept := gives.port
  cases tail : parts.tail with
  | none =>
      rw [found, tail, port] at kept
      exact absurd kept.symm (parts.port_wf digits port).1.1
  | some last => rfl

theorem query_kept (gives : parts.Gives parts.found) {text : Str}
    (written : text ∈ parts.tail.bind Tail.query) : 63 ∉ text := by
  obtain ⟨last, tail, query⟩ := Option.bind_eq_some_iff.mp written
  have kept := gives.query
  rw [found, tail] at kept
  simp only [query, Option.bind_some, Option.getD_some, List.filter_eq_self] at kept
  exact fun member => absurd (kept 63 member) (by decide)

/-- What is found are the parts, when they are plain. -/
theorem found_gives (plain : parts.Plain) : parts.Gives parts.found := by
  cases tail : parts.tail with
  | none =>
      have none : parts.port = none := by
        cases port : parts.port with
        | none => rfl
        | some digits =>
            have impossible := plain.port (by rw [port]; rfl)
            rw [tail] at impossible
            cases impossible
      simp only [found, tail]
      exact ⟨rfl, rfl, rfl, rfl, by rw [none]; rfl, by rw [tail]; rfl, by rw [tail]; rfl,
        by rw [tail]; rfl, by rw [none]; nofun⟩
  | some last =>
      have query : (last.query.getD []).filter (· ≠ 63) = last.query.getD [] := by
        cases query : last.query with
        | none => rfl
        | some text =>
            have absent := plain.query text (by rw [tail]; exact query)
            exact List.filter_eq_self.mpr fun ch member =>
              decide_eq_true fun same => absent (same ▸ member)
      simp only [found, tail, query]
      refine ⟨rfl, rfl, rfl, rfl, rfl, by rw [tail]; rfl, by rw [tail]; rfl, by rw [tail]; rfl,
        ?_⟩
      intro digits port
      rw [Option.mem_def] at port
      have wf := parts.port_wf digits port
      simp only [Url.httpPort, port, Option.getD_some, Option.map_some, wf.1.1, if_false]
      exact toPort_atoi wf.1 wf.2

/-- The parts come back exactly when they are plain. -/
theorem text_parse_iff (parts : Parts) :
    (∃ url, parse parts.text = some (true, url) ∧ parts.Gives url) ↔ parts.Plain := by
  constructor
  · rintro ⟨url, accepted, gives⟩
    have told : ∀ text ∈ parts.user.bind User.password, ∃ ch ∈ text, isDigit ch = false := by
      intro text password
      obtain ⟨user, present, password⟩ := Option.bind_eq_some_iff.mp password
      rcases Split.cases_all isDigit text with digits | ⟨front, first, back, rfl, _, other⟩
      · exact absurd accepted (parts.parse_digits present password digits url)
      · exact ⟨first, List.mem_append_right _ List.mem_cons_self, other⟩
    rw [parts.parse_text told] at accepted
    cases accepted
    exact ⟨told, parts.port_kept gives, fun _ => parts.query_kept gives⟩
  · intro plain
    exact ⟨parts.found, parts.parse_text plain.password, parts.found_gives plain⟩

/-- `http://h:8080`. -/
def samplePort : Parts where
  scheme := [104, 116, 116, 112]
  user := none
  host := [104]
  port := some [56, 48, 56, 48]
  tail := none
  scheme_wf := ⟨nofun, by decide +kernel⟩
  host_wf := ⟨nofun, by decide +kernel⟩
  port_wf digits given := by
    cases given
    decide +kernel

/-- The port at the end of a URL is lost. -/
theorem text_parse_fails : ¬∀ parts : Parts, ∃ url,
    parse parts.text = some (true, url) ∧ parts.Gives url := by
  intro every
  obtain ⟨url, accepted, gives⟩ := every samplePort
  have lost : parse samplePort.text =
      some (true, { scheme := [104, 116, 116, 112], hostname := [104], path := [47] }) := by
    decide +kernel
  rw [lost] at accepted
  cases accepted
  exact absurd gives.port (by decide)

end Parts

end Nicenet.UrlParser
