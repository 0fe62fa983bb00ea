import Mathlib.Tactic.Common
import Mathlib.Data.List.Basic

/-!
# Machines that read one symbol at a time

A machine takes one symbol after the other until its input is used up or one of
its steps stops it. A step also sees how many symbols come behind its own.
`Passes` describes a word that takes the machine from one state to another
whatever comes behind it; words that pass can be put together.
-/

namespace Nicenet.Library

variable {σ τ ρ δ : Type}

/-- What one step does: it goes on in a state, or it stops with a result. -/
inductive Machine.Move (σ ρ : Type) where
  | next (state : σ)
  | stop (state : σ) (result : ρ)
  deriving DecidableEq, Repr

/-- Where a run of the machine ended: without a result the input was used up. -/
structure Machine.Halt (σ τ ρ : Type) where
  state : σ
  result : Option ρ
  rest : List τ
  deriving DecidableEq, Repr

abbrev Machine (σ τ ρ : Type) := σ → τ → Nat → Machine.Move σ ρ

namespace Machine

/-- The run of a machine over its input. -/
def consume (machine : Machine σ τ ρ) : σ → List τ → Halt σ τ ρ
  | state, [] => ⟨state, none, []⟩
  | state, input :: rest =>
      match machine state input rest.length with
      | .next state => consume machine state rest
      | .stop state result => ⟨state, some result, rest⟩

variable (machine : Machine σ τ ρ)

theorem consume_next {state next : σ} {input : τ} {rest : List τ}
    (step : machine state input rest.length = .next next) :
    machine.consume state (input :: rest) = machine.consume next rest := by
  simp only [consume, step]

theorem consume_stop {state next : σ} {input : τ} {rest : List τ} {result : ρ}
    (step : machine state input rest.length = .stop next result) :
    machine.consume state (input :: rest) = ⟨next, some result, rest⟩ := by
  simp only [consume, step]

/-- The rest of the input is a suffix of it. -/
theorem rest_suffix (state : σ) (input : List τ) :
    (machine.consume state input).rest <:+ input := by
  induction input generalizing state with
  | nil => exact List.suffix_rfl
  | cons symbol input ih =>
      rw [consume]
      split
      · next next step => exact (ih next).trans (List.suffix_cons symbol input)
      · exact List.suffix_cons symbol input

/-- A run without a result has used up its input. -/
theorem rest_of_none {state : σ} {input : List τ}
    (running : (machine.consume state input).result = none) :
    (machine.consume state input).rest = [] := by
  induction input generalizing state with
  | nil => rfl
  | cons symbol input ih =>
      rw [consume] at running ⊢
      split at running
      · exact ih running
      · exact absurd running (by simp)

/-- A result is that of the last step. -/
theorem last_step {state : σ} {input : List τ} {result : ρ}
    (stopped : (machine.consume state input).result = some result) :
    ∃ before symbol,
      machine before symbol (machine.consume state input).rest.length =
        .stop (machine.consume state input).state result := by
  induction input generalizing state with
  | nil => simp [consume] at stopped
  | cons symbol input ih =>
      rw [consume] at stopped ⊢
      split at stopped
      · exact ih stopped
      · next next last step =>
        cases stopped
        exact ⟨state, symbol, step⟩

/-- What a step does, apart from the state in which it stops. -/
def Move.outline : Move σ ρ → σ ⊕ ρ
  | .next state => .inl state
  | .stop _ result => .inr result

/-- The symbols that come behind matter at most to the state in which it stops. -/
def Uniform : Prop := ∀ state input left other,
  (machine state input left).outline = (machine state input other).outline

/-- A run that ends in the back of its input is not stopped in the front. -/
theorem Uniform.running {machine : Machine σ τ ρ} (uniform : Uniform machine)
    {state : σ} {front back : List τ}
    (beyond : (machine.consume state (front ++ back)).rest.length < back.length) :
    (machine.consume state front).result = none := by
  induction front generalizing state with
  | nil => rfl
  | cons input front ih =>
      have same := uniform state input front.length (front ++ back).length
      rw [List.cons_append, consume] at beyond
      rw [consume]
      cases step : machine state input front.length with
      | stop next result =>
          rw [step] at same
          cases longer : machine state input (front ++ back).length with
          | next other =>
              rw [longer] at same
              cases same
          | stop other result =>
              rw [longer, List.length_append] at beyond
              omega
      | next next =>
          rw [step] at same
          cases longer : machine state input (front ++ back).length with
          | stop other result =>
              rw [longer] at same
              cases same
          | next other =>
              rw [longer] at same beyond
              cases same
              exact ih beyond

/-- A step that goes on does so whatever comes behind it. -/
theorem Uniform.next {machine : Machine σ τ ρ} (uniform : Uniform machine) {state next : σ}
    {input : τ} {left : Nat} (step : machine state input left = .next next) (other : Nat) :
    machine state input other = .next next := by
  have same := uniform state input left other
  rw [step] at same
  cases taken : machine state input other with
  | next state =>
      rw [taken] at same
      cases same
      rfl
  | stop state result =>
      rw [taken] at same
      cases same

/-- A front that does not stop the machine takes it to where the back starts. -/
theorem Uniform.consume_append {machine : Machine σ τ ρ} (uniform : Uniform machine)
    {state : σ} {front : List τ} (running : (machine.consume state front).result = none)
    (back : List τ) :
    machine.consume state (front ++ back) =
      machine.consume (machine.consume state front).state back := by
  induction front generalizing state with
  | nil => rfl
  | cons input front ih =>
      rw [consume] at running ⊢
      cases step : machine state input front.length with
      | stop next result =>
          rw [step] at running
          cases running
      | next next =>
          rw [step] at running
          rw [List.cons_append, machine.consume_next (uniform.next step _)]
          exact ih running

/-- The last symbol of a run that goes on was taken behind the others. -/
theorem Uniform.consume_snoc {machine : Machine σ τ ρ} (uniform : Uniform machine)
    {state next : σ} {front : List τ} {symbol : τ}
    (run : machine.consume state (front ++ [symbol]) = ⟨next, none, []⟩) :
    ∃ before, machine.consume state front = ⟨before, none, []⟩ ∧
      ∀ left, machine before symbol left = .next next := by
  have running : (machine.consume state front).result = none := by
    apply uniform.running
    rw [run]
    exact Nat.zero_lt_one
  refine ⟨(machine.consume state front).state, ?_, ?_⟩
  · rw [← running, ← machine.rest_of_none running]
  · rw [uniform.consume_append running, consume] at run
    cases step : machine (machine.consume state front).state symbol 0 with
    | stop last result =>
        rw [List.length_nil, step] at run
        cases run
    | next last =>
        rw [List.length_nil, step] at run
        cases run
        exact uniform.next step

/-- A result comes from a step behind a front that did not stop the machine. -/
theorem Uniform.last_step {machine : Machine σ τ ρ} (uniform : Uniform machine)
    {state : σ} {input : List τ} {result : ρ}
    (stopped : (machine.consume state input).result = some result) :
    ∃ front symbol before,
      input = front ++ symbol :: (machine.consume state input).rest ∧
      machine.consume state front = ⟨before, none, []⟩ ∧
      machine before symbol (machine.consume state input).rest.length =
        .stop (machine.consume state input).state result := by
  induction input generalizing state with
  | nil => simp [consume] at stopped
  | cons symbol input ih =>
      rw [consume] at stopped ⊢
      cases step : machine state symbol input.length with
      | stop next other =>
          rw [step] at stopped
          cases stopped
          exact ⟨[], symbol, state, rfl, rfl, step⟩
      | next next =>
          rw [step] at stopped
          obtain ⟨front, last, before, split, run, moved⟩ := ih stopped
          refine ⟨symbol :: front, last, before, congrArg (symbol :: ·) split, ?_, moved⟩
          rw [machine.consume_next (uniform.next step front.length)]
          exact run

/-- What holds of the start and, with the symbols taken so far, is kept by every step
that goes on, holds wherever a run has come to. -/
theorem run_keeps {property : List τ → σ → Prop}
    (keep : ∀ done state input left next, property done state →
      machine state input left = .next next → property (done ++ [input]) next)
    {state next : σ} (start : property [] state) {text : List τ}
    (run : machine.consume state text = ⟨next, none, []⟩) : property text next := by
  suffices from_ : ∀ (done : List τ) (state : σ), property done state →
      machine.consume state text = ⟨next, none, []⟩ → property (done ++ text) next by
    exact from_ [] state start run
  clear start run
  induction text with
  | nil =>
      intro done state holds run
      cases run
      rw [List.append_nil]
      exact holds
  | cons symbol text ih =>
      intro done state holds run
      rw [consume] at run
      cases step : machine state symbol text.length with
      | stop last result =>
          rw [step] at run
          cases run
      | next after =>
          rw [step] at run
          have later := ih (done ++ [symbol]) after (keep done state symbol _ after holds step) run
          rw [List.append_assoc, List.singleton_append] at later
          exact later

/-- Calls that follow each other: each goes on where the one before it has used up its
input, and none follows a result. -/
def calls (machine : Machine σ τ ρ) : σ → List (List τ) → List (Halt σ τ ρ)
  | _, [] => []
  | state, part :: parts =>
      let halt := machine.consume state part
      halt :: if halt.result.isNone then calls machine halt.state parts else []

theorem calls_singleton (machine : Machine σ τ ρ) (state : σ) (part : List τ) :
    calls machine state [part] = [machine.consume state part] := by
  simp [calls]

/-- The state behind a step. -/
def Move.state : Move σ ρ → σ
  | .next state => state
  | .stop state _ => state

/-- What every step keeps, a run keeps. -/
theorem consume_keeps {property : σ → Prop}
    (keep : ∀ state input left, property state → property (machine state input left).state)
    {state : σ} (start : property state) (input : List τ) :
    property (machine.consume state input).state := by
  induction input generalizing state with
  | nil => exact start
  | cons symbol input ih =>
      have kept := keep state symbol input.length start
      rw [consume]
      split
      · next next step =>
        rw [step] at kept
        exact ih kept
      · next next result step =>
        rw [step] at kept
        exact kept

/-- A quantity that no step raises by more than one grows by no more than the number of
symbols taken. -/
theorem consume_measure (measure : σ → Nat)
    (grows : ∀ state input left,
      measure (machine state input left).state ≤ measure state + 1)
    (state : σ) (input : List τ) :
    measure (machine.consume state input).state + (machine.consume state input).rest.length ≤
      measure state + input.length := by
  induction input generalizing state with
  | nil => exact Nat.le_refl _
  | cons symbol input ih =>
      have grown := grows state symbol input.length
      rw [consume, List.length_cons]
      split
      · next next step =>
        rw [step] at grown
        have later := ih next
        have grown : measure next ≤ measure state + 1 := grown
        omega
      · next next result step =>
        rw [step] at grown
        have grown : measure next ≤ measure state + 1 := grown
        simp only
        omega

/-- The word takes the machine from one state to the other. -/
def Passes (state : σ) (word : List τ) (next : σ) : Prop :=
  ∀ rest, machine.consume state (word ++ rest) = machine.consume next rest

namespace Passes

variable {machine}

theorem nil (state : σ) : machine.Passes state [] state := fun _ => rfl

theorem append {first second third : σ} {front back : List τ}
    (left : machine.Passes first front second)
    (right : machine.Passes second back third) :
    machine.Passes first (front ++ back) third := by
  intro rest
  rw [List.append_assoc, left, right]

theorem symbol {state next : σ} {input : τ}
    (step : ∀ left, machine state input left = .next next) :
    machine.Passes state [input] next :=
  fun rest => machine.consume_next (step rest.length)

/-- A step in front of a word. -/
theorem cons {first second third : σ} {input : τ} {word : List τ}
    (step : ∀ left, machine first input left = .next second)
    (passes : machine.Passes second word third) :
    machine.Passes first (input :: word) third :=
  (symbol step).append passes

/-- A loop: the symbols of a word leave the machine in a family of states, and
each of them updates the index. -/
theorem loop (family : δ → σ) {accept : τ → Prop} {update : δ → τ → δ}
    (step : ∀ index input left, accept input →
      machine (family index) input left = .next (family (update index input)))
    (index : δ) {word : List τ} (accepted : ∀ input ∈ word, accept input) :
    machine.Passes (family index) word (family (word.foldl update index)) := by
  induction word generalizing index with
  | nil => exact nil _
  | cons input word ih =>
      apply cons (fun left => step index input left (accepted input List.mem_cons_self))
      exact ih _ fun other member => accepted other (List.mem_cons_of_mem _ member)

/-- Symbols that are collected one after the other. -/
theorem foldl_snoc (text word : List τ) :
    word.foldl (fun text symbol => text ++ [symbol]) text = text ++ word := by
  induction word generalizing text with
  | nil => exact (List.append_nil text).symm
  | cons symbol word ih => rw [List.foldl_cons, ih, List.append_assoc, List.singleton_append]

/-- A loop that collects the symbols of a word. -/
theorem collect (family : List τ → σ) {accept : τ → Prop}
    (step : ∀ text input left, accept input →
      machine (family text) input left = .next (family (text ++ [input])))
    (text : List τ) {word : List τ} (accepted : ∀ input ∈ word, accept input) :
    machine.Passes (family text) word (family (text ++ word)) := by
  rw [← foldl_snoc]
  exact loop family step text accepted

/-- A loop that skips the symbols of a word. -/
theorem skip {state : σ} {accept : τ → Prop}
    (step : ∀ input left, accept input → machine state input left = .next state)
    {word : List τ} (accepted : ∀ input ∈ word, accept input) :
    machine.Passes state word state := by
  induction word with
  | nil => exact nil state
  | cons input word ih =>
      apply cons fun left => step input left (accepted input List.mem_cons_self)
      exact ih fun other member => accepted other (List.mem_cons_of_mem _ member)

/-- A sequence of words, each of which updates the index of a family. -/
theorem each {κ : Type} (family : List κ → σ) {write : κ → List τ}
    {accept : κ → Prop}
    (step : ∀ done item, accept item →
      machine.Passes (family done) (write item) (family (done ++ [item])))
    (done : List κ) {items : List κ} (accepted : ∀ item ∈ items, accept item) :
    machine.Passes (family done) (items.flatMap write) (family (done ++ items)) := by
  induction items generalizing done with
  | nil =>
      rw [List.append_nil]
      exact nil _
  | cons item items ih =>
      have later := ih (done ++ [item])
        fun other member => accepted other (List.mem_cons_of_mem _ member)
      rw [List.append_assoc, List.singleton_append] at later
      rw [List.flatMap_cons]
      exact (step done item (accepted item List.mem_cons_self)).append later

end Passes

/-! ## Reading a run backwards -/

/-- The run ends with a result. -/
def Ends (state : σ) (input : List τ) (result : ρ) (halt : Halt σ τ ρ) : Prop :=
  machine.consume state input = halt ∧ halt.result = some result

namespace Ends

variable {machine} {state : σ} {input : List τ} {result : ρ} {halt : Halt σ τ ρ}

/-- A run that ends with a result takes a step. -/
theorem step (ends : machine.Ends state input result halt) :
    ∃ symbol rest, input = symbol :: rest ∧
      ((∃ next, machine state symbol rest.length = .next next ∧
          machine.Ends next rest result halt) ∨
        (machine state symbol rest.length = .stop halt.state result ∧ halt.rest = rest)) := by
  obtain ⟨run, stopped⟩ := ends
  cases input with
  | nil =>
      rw [← run] at stopped
      simp [consume] at stopped
  | cons symbol rest =>
      refine ⟨symbol, rest, rfl, ?_⟩
      rw [consume] at run
      cases taken : machine state symbol rest.length with
      | next next =>
          rw [taken] at run
          exact .inl ⟨next, rfl, run, stopped⟩
      | stop last other =>
          rw [taken] at run
          rw [← run] at stopped ⊢
          cases stopped
          exact .inr ⟨rfl, rfl⟩

theorem after {symbol : τ} {rest : List τ} {next : σ}
    (ends : machine.Ends state (symbol :: rest) result halt)
    (moved : machine state symbol rest.length = .next next) :
    machine.Ends next rest result halt :=
  ⟨(machine.consume_next moved).symm.trans ends.1, ends.2⟩

theorem stopped {symbol : τ} {rest : List τ} {last : σ} {other : ρ}
    (ends : machine.Ends state (symbol :: rest) result halt)
    (stop : machine state symbol rest.length = .stop last other) :
    other = result ∧ halt = ⟨last, some result, rest⟩ := by
  obtain ⟨run, stopped⟩ := ends
  rw [machine.consume_stop stop] at run
  cases run
  cases stopped
  exact ⟨rfl, rfl⟩

/-- In a loop the run takes all the symbols that the loop does, and then another one. -/
theorem loop {δ : Type} {family : δ → σ} {accept : τ → Bool} {update : δ → τ → δ}
    (stays : ∀ index symbol left, accept symbol →
      machine (family index) symbol left = .next (family (update index symbol)))
    (index : δ) (ends : machine.Ends (family index) input result halt) :
    ∃ word last rest, input = word ++ last :: rest ∧ (∀ symbol ∈ word, accept symbol) ∧
      accept last = false ∧
      machine.Ends (family (word.foldl update index)) (last :: rest) result halt := by
  induction input generalizing index with
  | nil =>
      obtain ⟨_, _, impossible, _⟩ := ends.step
      cases impossible
  | cons symbol input ih =>
      cases accepted : accept symbol with
      | false =>
          exact ⟨[], symbol, input, rfl, fun _ member => absurd member List.not_mem_nil,
            accepted, ends⟩
      | true =>
          obtain ⟨word, last, rest, rfl, all, stop, ends⟩ :=
            ih _ (ends.after (stays index symbol input.length accepted))
          refine ⟨symbol :: word, last, rest, rfl, ?_, stop, ends⟩
          intro other member
          rcases List.mem_cons.mp member with rfl | member
          · exact accepted
          · exact all other member

/-- A loop that skips its symbols. -/
theorem skip {accept : τ → Bool}
    (stays : ∀ symbol left, accept symbol → machine state symbol left = .next state)
    (ends : machine.Ends state input result halt) :
    ∃ word last rest, input = word ++ last :: rest ∧ (∀ symbol ∈ word, accept symbol) ∧
      accept last = false ∧ machine.Ends state (last :: rest) result halt :=
  @loop σ τ ρ machine input result halt Unit (fun _ => state) accept (fun _ _ => ())
    (fun _ => stays) () ends

/-- A loop that collects its symbols. -/
theorem collect {family : List τ → σ} {accept : τ → Bool}
    (stays : ∀ text symbol left, accept symbol →
      machine (family text) symbol left = .next (family (text ++ [symbol])))
    (text : List τ) (ends : machine.Ends (family text) input result halt) :
    ∃ word last rest, input = word ++ last :: rest ∧ (∀ symbol ∈ word, accept symbol) ∧
      accept last = false ∧
      machine.Ends (family (text ++ word)) (last :: rest) result halt := by
  obtain ⟨word, last, rest, split, all, stop, later⟩ := ends.loop stays text
  rw [Passes.foldl_snoc] at later
  exact ⟨word, last, rest, split, all, stop, later⟩

/-- A loop that one symbol leaves, and in which all others stop the run in another way. -/
theorem collect_until {family next : List τ → σ} {accept : τ → Bool} {exit : τ}
    (stays : ∀ text symbol left, accept symbol →
      machine (family text) symbol left = .next (family (text ++ [symbol])))
    (leaves : ∀ text left, machine (family text) exit left = .next (next text))
    (refuses : ∀ text symbol left, accept symbol = false → symbol ≠ exit →
      ∃ last other, machine (family text) symbol left = .stop last other ∧ other ≠ result)
    (text : List τ) (ends : machine.Ends (family text) input result halt) :
    ∃ word rest, input = word ++ exit :: rest ∧ (∀ symbol ∈ word, accept symbol) ∧
      machine.Ends (next (text ++ word)) rest result halt := by
  classical
  obtain ⟨word, last, rest, rfl, all, stop, ends⟩ := ends.collect stays text
  by_cases exits : last = exit
  · subst exits
    exact ⟨word, rest, rfl, all, ends.after (leaves (text ++ word) rest.length)⟩
  · obtain ⟨final, other, refused, differs⟩ := refuses (text ++ word) last rest.length stop exits
    exact absurd (ends.stopped refused).1 differs

/-- A loop that skips its symbols up to the one that leaves it. -/
theorem skip_until {next : σ} {accept : τ → Bool} {exit : τ}
    (stays : ∀ symbol left, accept symbol → machine state symbol left = .next state)
    (leaves : ∀ left, machine state exit left = .next next)
    (refuses : ∀ symbol left, accept symbol = false → symbol ≠ exit →
      ∃ last other, machine state symbol left = .stop last other ∧ other ≠ result)
    (ends : machine.Ends state input result halt) :
    ∃ word rest, input = word ++ exit :: rest ∧ (∀ symbol ∈ word, accept symbol) ∧
      machine.Ends next rest result halt :=
  @collect_until σ τ ρ machine input result halt (fun _ => state) (fun _ => next) accept exit
    (fun _ => stays) (fun _ => leaves) (fun _ => refuses) [] ends

end Ends

end Machine

end Nicenet.Library
