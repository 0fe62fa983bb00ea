import Nicenet.Http.Outgoing

/-!
# Splitting a stream of responses

A client takes the lines of a response up to the first empty one, the length that
they declare and so many bytes, and starts over. `inspect` writes one more line feed
behind the content, so the client is left with it: it takes it for an empty head.
-/

namespace Nicenet.Http

open Library

/-! ## The client -/

/-- A response as the client takes it from the stream. -/
structure Received where
  lines : List Str
  content : Str
  deriving DecidableEq, Repr

/-- A line without the carriage return at its end. -/
def chomp (line : Str) : Str := if line.getLast? = some 13 then line.dropLast else line

/-- The lines up to the first empty one, and what comes behind it; `line` is what has
been read of the first. -/
def headLines (line : Str) : Str → Option (List Str × Str)
  | [] => none
  | c :: stream =>
      if c = 10 then
        if chomp line = [] then some ([], stream)
        else (headLines [] stream).map fun head => (chomp line :: head.1, head.2)
      else headLines (line ++ [c]) stream

/-- The length that a line declares. -/
def declared (line : Str) : Option Nat :=
  let name := line.takeWhile (· ≠ 58)
  let value := (line.drop (name.length + 1)).dropWhile (· = 32)
  if SameWord name contentLength ∧ IsNumeral 10 value then some (numeral 10 value) else none

/-- A head and as many bytes as it declares. -/
def readResponse (stream : Str) : Option (Received × Str) :=
  (headLines [] stream).bind fun head =>
    (head.1.findSome? declared).bind fun size =>
      if size ≤ head.2.length then some (⟨head.1, head.2.take size⟩, head.2.drop size)
      else none

/-- The client splits a stream into responses, with nothing left. -/
inductive Splits : Str → List Received → Prop where
  | done : Splits [] []
  | next {stream rest : Str} {received : Received} {more : List Received} :
      readResponse stream = some (received, rest) → Splits rest more →
      Splits stream (received :: more)

theorem Splits.head {stream : Str} {received : Received} {more : List Received}
    (splits : Splits stream (received :: more)) :
    ∃ rest, readResponse stream = some (received, rest) ∧ Splits rest more := by
  cases splits with
  | next read later => exact ⟨_, read, later⟩

/-- A line is taken up to its line feed. -/
theorem headLines_line {line : Str} (front : Str) (stream : Str)
    (free : ∀ c ∈ line, c ≠ 10) :
    headLines front (line ++ 10 :: stream) = headLines (front ++ line) (10 :: stream) := by
  induction line generalizing front with
  | nil => rw [List.nil_append, List.append_nil]
  | cons c line ih =>
      rw [List.cons_append, headLines, if_neg (free c List.mem_cons_self),
        ih _ fun other member => free other (List.mem_cons_of_mem c member),
        List.append_assoc, List.singleton_append]

theorem chomp_free {line : Str} (free : ∀ c ∈ line, c ≠ 13) : chomp line = line := by
  rw [chomp, if_neg]
  intro last
  exact free 13 (List.mem_of_getLast? last) rfl

/-- Lines without breaks are taken as they are. -/
theorem headLines_lines {lines : List Str} (stream : Str)
    (whole : ∀ line ∈ lines, line ≠ [] ∧ ∀ c ∈ line, c ≠ 10 ∧ c ≠ 13) :
    headLines [] (lines.flatMap (· ++ [10]) ++ 10 :: stream) = some (lines, stream) := by
  induction lines with
  | nil => rfl
  | cons line lines ih =>
      obtain ⟨ne, free⟩ := whole line List.mem_cons_self
      have same : chomp line = line := chomp_free fun c member => (free c member).2
      have later := ih fun other member => whole other (List.mem_cons_of_mem line member)
      rw [List.flatMap_cons, List.append_assoc, List.append_assoc, List.singleton_append,
        headLines_line [] _ fun c member => (free c member).1, List.nil_append, headLines,
        if_pos rfl, same, if_neg ne, later]
      rfl

/-- A stream that starts with a line feed does not start with a response. -/
theorem readResponse_empty (stream : Str) : readResponse (10 :: stream) = none := rfl

/-! ## The responses of the server -/

namespace HttpResponse

/-- The response as it should be received. -/
def received (response : HttpResponse) : Received := ⟨response.lines, response.content⟩

/-- A text on one line. -/
def OneLine (text : Str) : Prop := ∀ c ∈ text, c ≠ 10 ∧ c ≠ 13

instance : DecidablePred OneLine :=
  fun text => List.decidableBAll (fun c => c ≠ 10 ∧ c ≠ 13) text

/-- A response whose status and headers do not break their lines, without headers of
the user that frame the content or the connection. -/
structure LineFree (response : HttpResponse) : Prop where
  status : OneLine response.status
  headers : ∀ item ∈ response.headers, OneLine item.name ∧ OneLine item.value
  userHeaders : ∀ item ∈ response.headers, ¬SameWord item.name contentLength ∧
    ¬SameWord item.name connection ∧ ¬SameWord item.name transferEncoding

theorem oneLine_append {front back : Str} (left : OneLine front) (right : OneLine back) :
    OneLine (front ++ back) := by
  intro c member
  rcases List.mem_append.mp member with member | member
  · exact left c member
  · exact right c member

/-- Without control characters a text stays on its line. -/
theorem oneLine_of_plain {text : Str} (plain : ∀ c ∈ text, isControl c = false) :
    OneLine text := by
  intro c member
  have plain := plain c member
  constructor <;> intro same <;> rw [same] at plain <;> exact absurd plain (by decide)

theorem statusLine_oneLine {response : HttpResponse} (free : OneLine response.status) :
    OneLine response.statusLine := by
  have plain : OneLine (strHttp ++ decimalInt response.versionMajor ++ [46] ++
      decimalInt response.versionMinor ++ [32] ++ decimal response.statusCode.toNat ++
      [32]) := by
    have http : OneLine strHttp := by decide
    have dot : OneLine [46] := by decide
    have blank : OneLine [32] := by decide
    have major : OneLine (decimalInt response.versionMajor) :=
      oneLine_of_plain decimalInt_plain
    have minor : OneLine (decimalInt response.versionMinor) :=
      oneLine_of_plain decimalInt_plain
    have code : OneLine (decimal response.statusCode.toNat) :=
      oneLine_of_plain decimal_plain
    exact oneLine_append (oneLine_append (oneLine_append (oneLine_append (oneLine_append
      (oneLine_append http major) dot) minor) blank) code) blank
  exact oneLine_append plain free

theorem text_oneLine {item : HeaderItem} (name : OneLine item.name)
    (value : OneLine item.value) : OneLine item.text :=
  oneLine_append (oneLine_append name (by decide)) value

theorem ownHeaders_oneLine (response : HttpResponse) :
    ∀ item ∈ response.ownHeaders, OneLine item.name ∧ OneLine item.value := by
  intro item member
  rw [ownHeaders] at member
  rcases List.mem_append.mp member with member | member
  · split at member
    · rw [List.mem_singleton.mp member]
      decide
    · cases member
  · rw [List.mem_singleton.mp member]
    exact ⟨(by decide : OneLine contentLength), oneLine_of_plain decimal_plain⟩

/-- Every line of a written head is one line, and not empty. -/
theorem lines_whole {response : HttpResponse} (free : response.LineFree) :
    ∀ line ∈ response.lines, line ≠ [] ∧ ∀ c ∈ line, c ≠ 10 ∧ c ≠ 13 := by
  intro line member
  rw [lines] at member
  rcases List.mem_cons.mp member with rfl | member
  · exact ⟨by simp [statusLine, strHttp], statusLine_oneLine free.status⟩
  · obtain ⟨item, inside, rfl⟩ := List.mem_map.mp member
    refine ⟨by simp [HeaderItem.text], ?_⟩
    rcases List.mem_append.mp inside with user | own
    · exact text_oneLine (free.headers item user).1 (free.headers item user).2
    · exact text_oneLine (response.ownHeaders_oneLine item own).1
        (response.ownHeaders_oneLine item own).2

/-- The client takes the head of a response, whatever it then makes of it. -/
theorem readResponse_inspect {response : HttpResponse} (free : response.LineFree)
    (more : Str) :
    readResponse (response.inspect ++ more) =
      (response.lines.findSome? declared).bind fun size =>
        if size ≤ (response.content ++ 10 :: more).length then
          some (⟨response.lines, (response.content ++ 10 :: more).take size⟩,
            (response.content ++ 10 :: more).drop size)
        else none := by
  have bytes : response.inspect ++ more =
      response.lines.flatMap (· ++ [10]) ++ 10 :: (response.content ++ 10 :: more) := by
    simp [inspect_eq]
  rw [bytes, readResponse, headLines_lines _ (lines_whole free)]
  rfl

/-- When the client takes the content for what it is, the line feed behind it stays. -/
theorem rest_of_received {response : HttpResponse} (free : response.LineFree) {more rest : Str}
    (read : readResponse (response.inspect ++ more) = some (response.received, rest)) :
    rest = 10 :: more := by
  rw [readResponse_inspect free, Option.bind_eq_some_iff] at read
  obtain ⟨size, _, read⟩ := read
  split at read
  · next within =>
    simp only [received, Option.some.injEq, Prod.mk.injEq, Received.mk.injEq, true_and] at read
    obtain ⟨content, rest⟩ := read
    have length := congrArg List.length content
    rw [List.length_take, Nat.min_eq_left within] at length
    rw [← rest, length, List.drop_left]
  · cases read

/-- The client splits the stream into exactly the responses. -/
def SelfDelimiting (s : Outgoing HttpResponse) : Prop :=
  Splits s.wire (s.posted.map received)

/-- Responses are not split from each other, nor from what comes behind the last. -/
theorem not_splits {response : HttpResponse} (free : response.LineFree) (more : Str)
    (others : List Received) :
    ¬Splits (response.inspect ++ more) (response.received :: others) := by
  intro splits
  obtain ⟨rest, read, later⟩ := splits.head
  rw [rest_of_received free read] at later
  cases others with
  | nil => cases later
  | cons received others =>
      obtain ⟨_, read, _⟩ := later.head
      rw [readResponse_empty] at read
      cases read

/-- Once everything is sent, the stream is split into exactly the responses only if
there are none. -/
theorem selfDelimiting_iff {s : Outgoing HttpResponse}
    (reachable : (Outgoing.system inspect).Reachable s) (idle : s.Idle)
    (free : ∀ response ∈ s.posted, response.LineFree) :
    SelfDelimiting s ↔ s.posted = [] := by
  have wire := (Outgoing.reachable_sound reachable).wire idle
  rw [SelfDelimiting, wire]
  cases posted : s.posted with
  | nil => exact ⟨fun _ => rfl, fun _ => .done⟩
  | cons response responses =>
      rw [List.flatMap_cons, List.map_cons]
      refine ⟨fun splits => ?_, fun none => absurd none (List.cons_ne_nil _ _)⟩
      rw [posted] at free
      exact absurd splits (not_splits (free response List.mem_cons_self) _ _)

/-- A connection on which one response has been sent. -/
def okSent : Outgoing HttpResponse := ⟨[], [], false, [], [ok], [ok], ok.inspect⟩

theorem okSent_reachable : (Outgoing.system inspect).Reachable okSent := by
  have taken : Transition.run (Outgoing.step inspect) .fresh
      [.post ok, .push, .complete 0 ok.inspect.length] = some okSent := by
    decide +kernel
  exact Transition.reachable_run taken

theorem ok_lineFree : ok.LineFree where
  status := by decide
  headers := by decide
  userHeaders := by decide

theorem selfDelimiting_okSent : ¬SelfDelimiting okSent := by
  rw [selfDelimiting_iff okSent_reachable ⟨rfl, rfl⟩
    fun response member => List.mem_singleton.mp member ▸ ok_lineFree]
  exact List.cons_ne_nil ok []

/-- The line feed behind the content of a single response is left over. -/
theorem selfDelimiting_fails :
    ¬∀ s : Outgoing HttpResponse, (Outgoing.system inspect).Reachable s → s.Idle →
      (∀ response ∈ s.posted, response.LineFree) → SelfDelimiting s := by
  intro every
  have splits := every okSent okSent_reachable ⟨rfl, rfl⟩
    fun response member => List.mem_singleton.mp member ▸ ok_lineFree
  obtain ⟨rest, read, later⟩ := Splits.head splits
  have left : readResponse ok.inspect = some (ok.received, [10]) := by decide +kernel
  rw [show okSent.wire = ok.inspect from rfl, left] at read
  cases read
  cases later

end HttpResponse

end Nicenet.Http
