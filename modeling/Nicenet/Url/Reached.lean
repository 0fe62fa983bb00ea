import Nicenet.Url.Spelled

/-!
# What the parser has read

Where the parser is tells the word it has read, up to the path.
-/

namespace Nicenet.UrlParser

open Library Http

/-- A word and where it takes the parser. From the path on only the port is kept track of: it
was written in front of a slash. -/
inductive Reached : Str → Scan → Prop
  | scheme {scheme : Str} (wf : ∀ ch ∈ scheme, isSchemeChar ch) :
      Reached scheme (atScheme scheme)
  | slashAfterScheme1 {scheme : Str} (wf : ∀ ch ∈ scheme, isSchemeChar ch) :
      Reached (scheme ++ [58]) { atScheme scheme with state := .slashAfterScheme1 }
  | slashAfterScheme2 {scheme : Str} (wf : ∀ ch ∈ scheme, isSchemeChar ch) :
      Reached (scheme ++ [58, 47]) { atScheme scheme with state := .slashAfterScheme2 }
  | usernameOrHostname {scheme text word : Str} (opens : Opens scheme text word) :
      Reached word (atUser scheme text)
  | portOrPassword {scheme text front digits : Str} (opens : Opens scheme text front)
      (all : ∀ ch ∈ digits, isDigit ch) :
      Reached (front ++ [58] ++ digits) (atPortOrPassword scheme text digits)
  | password {scheme user front password : Str} (opens : Opens scheme user front)
      (wf : IsPassword password) :
      Reached (front ++ [58] ++ password) (atPassword scheme user password)
  | hostname {scheme user password front host : Str} (has : HasUser scheme user password front)
      (wf : ∀ ch ∈ host, isHostChar ch) :
      Reached (front ++ host) (atHost scheme user password host)
  | ipv6Hostname {scheme user password front : Str} (has : HasUser scheme user password front) :
      Reached (front ++ [91])
        { atHost scheme user password [] with state := .ipv6Hostname }
  | port {scheme user password front host digits : Str}
      (has : HasUser scheme user password front) (wf : ∀ ch ∈ host, isHostChar ch)
      (all : ∀ ch ∈ digits, isDigit ch) :
      Reached (front ++ host ++ [58] ++ digits) (atPort scheme user password host digits)
  | path {word : Str} {s : Scan} (begun : s.Begun)
      (settled : s.usernameOrHostname = [])
      (written : s.url.port = [] ∨ ∃ front rest, PortFront s.url.port front ∧
        word = front ++ 47 :: rest ∧ s.url.integerPort = toPort (atoi s.url.port)) :
      Reached word s

theorem forall_snoc {property : UInt8 → Prop} {text : Str} {ch : UInt8}
    (all : ∀ other ∈ text, property other) (last : property ch) :
    ∀ other ∈ text ++ [ch], property other :=
  List.forall_mem_append.mpr ⟨all, List.forall_mem_singleton.mpr last⟩

theorem Opens.snoc {scheme text word : Str} {ch : UInt8} (opens : Opens scheme text word)
    (accepted : isHostChar ch) : Opens scheme (text ++ [ch]) (word ++ [ch]) := by
  obtain ⟨wf, chars, rfl | ⟨⟨first, found, alnum⟩, rfl⟩⟩ := opens
  · exact ⟨wf, forall_snoc chars accepted, .inl (List.append_assoc _ _ _)⟩
  · refine ⟨wf, forall_snoc chars accepted, .inr ⟨⟨first, ?_, alnum⟩, List.append_assoc _ _ _⟩⟩
    obtain ⟨rest, rfl⟩ := List.head?_eq_some_iff.mp found
    rfl

section Step

variable {scheme user password word front text host digits : Str} {next : Scan} {ch : UInt8}

/-- A colon behind what may be a user or a host. -/
theorem Opens.colon (opens : Opens scheme text word) :
    Reached (word ++ [58]) (atPortOrPassword scheme text []) := by
  have colon := Reached.portOrPassword opens (List.forall_mem_nil _)
  rw [List.append_nil] at colon
  exact colon

/-- The place of a host. -/
theorem HasUser.opensHost (has : HasUser scheme user password word) :
    Reached word (atHost scheme user password []) := by
  have host := Reached.hostname has (List.forall_mem_nil _)
  rw [List.append_nil] at host
  exact host

/-- The colon behind a host. -/
theorem HasUser.colon (has : HasUser scheme user password front)
    (wf : ∀ ch ∈ host, isHostChar ch) :
    Reached (front ++ host ++ [58]) (atPort scheme user password host []) := by
  have colon := Reached.port has wf (List.forall_mem_nil _)
  rw [List.append_nil] at colon
  exact colon

theorem atScheme_step (wf : ∀ ch ∈ scheme, isSchemeChar ch)
    (step : (atScheme scheme).step ch = .next next) : Reached (scheme ++ [ch]) next := by
  simp only [Scan.step, atScheme] at step
  split at step
  · cases step
    exact .scheme (forall_snoc wf ‹_›)
  · split at step
    · cases step
      subst ch
      exact .slashAfterScheme1 wf
    · cases step

/-- The character behind the colon of the scheme. -/
theorem slashAfterScheme1_step (wf : ∀ ch ∈ scheme, isSchemeChar ch)
    (step : ({ atScheme scheme with state := .slashAfterScheme1 } : Scan).step ch =
      .next next) : Reached (scheme ++ [58, ch]) next := by
  simp only [Scan.step, atScheme] at step
  split at step
  · cases step
    subst ch
    exact .slashAfterScheme2 wf
  · split at step
    · next alnum =>
      cases step
      have host := (isalnum_isHostChar ch alnum).1
      have opens : Opens scheme [ch] (scheme ++ [58] ++ [ch]) :=
        ⟨wf, fun other member => List.mem_singleton.mp member ▸ host,
          .inr ⟨⟨ch, rfl, alnum⟩, rfl⟩⟩
      rw [List.append_assoc] at opens
      exact .usernameOrHostname opens
    · cases step

theorem atUser_step (opens : Opens scheme text word)
    (step : (atUser scheme text).step ch = .next next) : Reached (word ++ [ch]) next := by
  simp only [Scan.step, atUser] at step
  split at step
  · cases step
    exact .usernameOrHostname (opens.snoc ‹_›)
  · split at step
    · cases step
      subst ch
      exact opens.colon
    · split at step
      · cases step
        subst ch
        have has : HasUser scheme text [] (word ++ [64]) := ⟨word, opens, .inl ⟨rfl, rfl⟩⟩
        exact has.opensHost
      · split at step
        · cases step
          exact .path (.inl rfl) rfl (.inl rfl)
        · cases step

theorem atPortOrPassword_step (opens : Opens scheme text front)
    (all : ∀ ch ∈ digits, isDigit ch)
    (step : (atPortOrPassword scheme text digits).step ch = .next next) :
    Reached (front ++ [58] ++ digits ++ [ch]) next := by
  simp only [Scan.step, atPortOrPassword] at step
  split at step
  · cases step
    rw [List.append_assoc]
    exact .portOrPassword opens (forall_snoc all ‹_›)
  · split at step
    · cases step
      subst ch
      have written : PortFront digits (front ++ [58] ++ digits) :=
        ⟨all, .inl ⟨scheme, text, front, opens, rfl⟩⟩
      exact .path (.inl rfl) rfl (.inr ⟨_, [], written, rfl, rfl⟩)
    · split at step
      · next digit slash accepted =>
        cases step
        rw [List.append_assoc]
        have chars : ∀ other ∈ digits, isPasswordChar other := fun other member =>
          isDigit_isPasswordChar other (all other member)
        exact .password opens ⟨forall_snoc chars accepted, ch,
          List.mem_append_right _ List.mem_cons_self, Bool.eq_false_iff.mpr digit⟩
      · cases step

theorem atPassword_step (opens : Opens scheme user front) (wf : IsPassword password)
    (step : (atPassword scheme user password).step ch = .next next) :
    Reached (front ++ [58] ++ password ++ [ch]) next := by
  simp only [Scan.step, atPassword] at step
  split at step
  · cases step
    obtain ⟨chars, other, member, letter⟩ := wf
    rw [List.append_assoc]
    exact .password opens
      ⟨forall_snoc chars ‹_›, other, List.mem_append_left _ member, letter⟩
  · split at step
    · cases step
      subst ch
      have has : HasUser scheme user password (front ++ [58] ++ password ++ [64]) :=
        ⟨front, opens, .inr ⟨wf, rfl⟩⟩
      exact has.opensHost
    · cases step

theorem atHost_step (has : HasUser scheme user password front)
    (wf : ∀ ch ∈ host, isHostChar ch)
    (step : (atHost scheme user password host).step ch = .next next) :
    Reached (front ++ host ++ [ch]) next := by
  by_cases bracket : ch = 91 ∧ host = []
  · obtain ⟨rfl, rfl⟩ := bracket
    cases step
    rw [List.append_nil]
    exact .ipv6Hostname has
  · simp only [Scan.step, atHost, bracket, if_false] at step
    split at step
    · cases step
      rw [List.append_assoc]
      exact .hostname has (forall_snoc wf ‹_›)
    · split at step
      · cases step
        subst ch
        exact has.colon wf
      · split at step
        · cases step
          exact .path (.inl rfl) rfl (.inl rfl)
        · cases step

theorem atPort_step (has : HasUser scheme user password front)
    (wf : ∀ ch ∈ host, isHostChar ch) (all : ∀ ch ∈ digits, isDigit ch)
    (step : (atPort scheme user password host digits).step ch = .next next) :
    Reached (front ++ host ++ [58] ++ digits ++ [ch]) next := by
  simp only [Scan.step, atPort] at step
  split at step
  · cases step
    rw [List.append_assoc]
    exact .port has wf (forall_snoc all ‹_›)
  · split at step
    · cases step
      subst ch
      have written : PortFront digits (front ++ host ++ [58] ++ digits) :=
        ⟨all, .inr ⟨scheme, user, password, host, front, has, wf, rfl⟩⟩
      exact .path (.inl rfl) rfl (.inr ⟨_, [], written, rfl, rfl⟩)
    · cases step

/-- One more character. -/
theorem Reached.step {s : Scan} (reached : Reached word s) (step : s.step ch = .next next) :
    Reached (word ++ [ch]) next := by
  cases reached with
  | scheme wf => exact atScheme_step wf step
  | slashAfterScheme1 wf =>
      rw [List.append_assoc]
      exact slashAfterScheme1_step wf step
  | slashAfterScheme2 wf =>
      simp only [Scan.step, atScheme] at step
      split at step
      · cases step
        subst ch
        exact .usernameOrHostname ⟨wf, List.forall_mem_nil _, .inl (by simp)⟩
      · cases step
  | usernameOrHostname opens => exact atUser_step opens step
  | portOrPassword opens all => exact atPortOrPassword_step opens all step
  | password opens wf => exact atPassword_step opens wf step
  | hostname has wf => exact atHost_step has wf step
  | ipv6Hostname has => cases step
  | port has wf all => exact atPort_step has wf all step
  | path begun settled written =>
      obtain ⟨later, taken, begun, port, number, aside⟩ := begun.step ch
      obtain rfl : later = next := by
        rw [taken] at step
        cases step
        rfl
      refine .path begun (aside.trans settled) ?_
      rw [port, number]
      refine written.imp id ?_
      rintro ⟨front, rest, digits, rfl, value⟩
      exact ⟨front, rest ++ [ch], digits, List.append_assoc _ _ _, value⟩

end Step

/-- Wherever a run has come to. -/
theorem reached_of_run {text : Str} {s : Scan}
    (run : machine.consume start text = ⟨s, none, []⟩) : Reached text s :=
  machine.run_keeps (fun _ _ _ _ _ reached step => Reached.step reached step)
    (.scheme (List.forall_mem_nil _)) run

end Nicenet.UrlParser
