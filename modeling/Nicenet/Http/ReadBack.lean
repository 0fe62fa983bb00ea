import Nicenet.Http.ResponseHead

/-!
# Reading back what the server writes

`inspect` ends its lines with a line feed alone, while the parser of responses takes
every character up to a carriage return for the status text. So it never reads back
the status of a response, nor, therefore, the response.
-/

namespace Nicenet.Http

open Library

namespace HttpResponse

/-- The headers that `inspect` or the framing of a message provide for. -/
def isReserved (item : HeaderItem) : Bool :=
  SameWord item.name contentLength || SameWord item.name connection ||
    SameWord item.name transferEncoding

/-- A response that a handler may fill. -/
structure Legal (response : HttpResponse) : Prop where
  code_low : 100 ≤ response.statusCode.toNat
  code_high : response.statusCode.toNat ≤ 999
  status_ne : response.status ≠ []
  status_plain : ∀ c ∈ response.status, isChar c ∧ isControl c = false
  headers_wf : ∀ item ∈ response.headers, item.WellFormed ∧ isReserved item = false
  keepAlive : response.versionMajor > 1 ∨
    (response.versionMajor = 1 ∧ response.versionMinor = 1) → response.keepAlive = true

/-- The headers of a response without those that `inspect` adds. -/
def userHeaders (response : HttpResponse) : List HeaderItem :=
  response.headers.filter fun item => !isReserved item

/-- A fresh parser completes the written response and returns what was written. -/
def ReadsBack (response : HttpResponse) : Prop :=
  let parsed := Response.consume ⟨.fresh, .empty⟩ response.inspect
  parsed.result = some .parsingCompleted ∧
    parsed.state.resp.versionMajor = response.versionMajor ∧
    parsed.state.resp.versionMinor = response.versionMinor ∧
    parsed.state.resp.statusCode = response.statusCode ∧
    parsed.state.resp.status = response.status ∧
    parsed.state.resp.userHeaders = response.headers ∧
    parsed.state.resp.keepAlive = response.keepAlive ∧
    parsed.state.resp.content = response.content

/-- A status line is followed by a line feed. -/
theorem inspect_line (response : HttpResponse) :
    ∃ rest, response.inspect = response.statusLine ++ 10 :: rest := by
  refine ⟨?_, ?_⟩
  rotate_left
  · simp only [inspect, List.append_assoc, List.singleton_append]
    rfl

/-- A number that is not negative is written as a numeral. -/
theorem decimalInt_isNumeral {value : Int32} (sign : 0 ≤ value.toInt) :
    IsNumeral 10 (decimalInt value) := by
  rw [decimalInt, if_neg (Int.not_lt.mpr sign)]
  exact decimal_isNumeral _

/-- A negative number starts with its sign, which is no digit. -/
theorem decimalInt_negative {value : Int32} (sign : value.toInt < 0) :
    decimalInt value = 45 :: decimal value.toInt.natAbs := by
  rw [decimalInt, if_pos sign]

theorem consume_error {front rest : Str} {parsing : Response.Parsing}
    (passes : Machine.Passes Response.step ⟨.fresh, .empty⟩ front parsing)
    (error : ∀ left, Response.step parsing 45 left = .stop parsing .parsingError) :
    (Response.consume ⟨.fresh, .empty⟩ (front ++ 45 :: rest)).result =
      some .parsingError := by
  rw [Response.consume, passes, Machine.consume_stop Response.step (error rest.length)]

theorem major_error {response : HttpResponse} (sign : response.versionMajor.toInt < 0) :
    (Response.consume ⟨.fresh, .empty⟩ response.inspect).result = some .parsingError := by
  obtain ⟨rest, inspect⟩ := response.inspect_line
  rw [inspect, statusLine, decimalInt_negative sign]
  simp only [List.append_assoc, List.cons_append]
  exact consume_error Response.http_passes fun _ => rfl

theorem minor_error {response : HttpResponse} (major : 0 ≤ response.versionMajor.toInt)
    (sign : response.versionMinor.toInt < 0) :
    (Response.consume ⟨.fresh, .empty⟩ response.inspect).result = some .parsingError := by
  obtain ⟨rest, inspect⟩ := response.inspect_line
  have passes := Response.http_passes.append (Response.major_passes .fresh
    { HttpResponse.empty with versionMajor := 0, versionMinor := 0 }
    (decimalInt_isNumeral major))
  have dot : Machine.Passes Response.step
      ⟨Response.HttpResponseParser.fresh.at .responseHttpVersion_major,
        { HttpResponse.empty with
          versionMajor := Int32.ofNat (numeral 10 (decimalInt response.versionMajor))
          versionMinor := 0 }⟩ [46]
      ⟨Response.HttpResponseParser.fresh.at .responseHttpVersion_minorStart,
        { HttpResponse.empty with
          versionMajor := Int32.ofNat (numeral 10 (decimalInt response.versionMajor))
          versionMinor := 0 }⟩ := fun _ => rfl
  rw [inspect, statusLine, decimalInt_negative sign]
  have text : strHttp ++ decimalInt response.versionMajor ++ [46] ++
      (45 :: decimal response.versionMinor.toInt.natAbs) ++ [32] ++
      decimal response.statusCode.toNat ++ [32] ++ response.status ++ 10 :: rest =
      (strHttp ++ decimalInt response.versionMajor ++ [46]) ++
      (45 :: (decimal response.versionMinor.toInt.natAbs ++ [32] ++
        decimal response.statusCode.toNat ++ [32] ++ response.status ++ 10 :: rest)) := by
    simp
  rw [text]
  exact consume_error (passes.append dot) fun _ => rfl

/-- The line feed behind the status line is read as part of the status text. -/
theorem status_grows {response : HttpResponse} (legal : response.Legal)
    (major : 0 ≤ response.versionMajor.toInt) (minor : 0 ≤ response.versionMinor.toInt) :
    response.status ++ [10] <+:
      (Response.consume ⟨.fresh, .empty⟩ response.inspect).state.resp.status := by
  obtain ⟨rest, inspect⟩ := response.inspect_line
  have code := numeral_decimal response.statusCode.toNat
  have passes := Response.statusLine_passes (decimalInt_isNumeral major)
    (decimalInt_isNumeral minor) (decimal_isNumeral response.statusCode.toNat)
    (code.symm ▸ legal.code_low) (code.symm ▸ legal.code_high) legal.status_ne
    (by
      intro c member
      obtain ⟨char, plain⟩ := legal.status_plain c member
      refine ⟨fun line => ?_, char⟩
      rw [line] at plain
      exact absurd plain (by decide))
  rw [inspect, Response.consume, statusLine, passes,
    Machine.consume_next Response.step rfl]
  exact Response.status_prefix _ rest List.prefix_rfl

/-- No written response is read back: where the status line is read at all, the
status text comes back with a line feed behind it. -/
theorem not_readsBack (response : HttpResponse) (legal : response.Legal) :
    ¬response.ReadsBack := by
  rintro ⟨result, _, _, _, status, _⟩
  by_cases major : response.versionMajor.toInt < 0
  · rw [major_error major] at result
    cases result
  by_cases minor : response.versionMinor.toInt < 0
  · rw [minor_error (Int.not_lt.mp major) minor] at result
    cases result
  · have grows := status_grows legal (Int.not_lt.mp major) (Int.not_lt.mp minor)
    rw [status] at grows
    have longer := grows.length_le
    rw [List.length_append, List.length_singleton] at longer
    exact Nat.not_succ_le_self _ longer

theorem ok_legal : ok.Legal where
  code_low := by decide
  code_high := by decide
  status_ne := by decide
  status_plain := by decide +kernel
  headers_wf := by decide
  keepAlive _ := rfl

theorem not_readsBack_ok : ¬ok.ReadsBack := not_readsBack ok ok_legal

/-- The parser reads the response to its end and wants more. -/
theorem readsBack_fails : ¬∀ response : HttpResponse, response.Legal → response.ReadsBack := by
  intro every
  have incomplete :
      (Response.consume ⟨.fresh, .empty⟩ ok.inspect).result = none := by rfl
  have completed := (every ok ok_legal).1
  rw [incomplete] at completed
  cases completed

end HttpResponse

end Nicenet.Http
