import Nicenet.Http.Head
import Nicenet.Http.ResponseParser

/-!
# The status line of a response

The parts of a status line take the parser of responses from state to state,
whatever comes behind them.
-/

namespace Nicenet.Http.Response

open Library

def HttpResponseParser.at (parser : HttpResponseParser) (state : State) :
    HttpResponseParser :=
  { parser with state := state }

variable (parser : HttpResponseParser) (resp : HttpResponse)

/-- A digit of a status code, as the parser counts it. -/
theorem codeDigit_eq : ∀ c : UInt8, isDigitOf 10 c →
    isDigit c = true ∧ codeDigit c = UInt32.ofNat ((digitValue c).getD 0) := by
  decide +kernel

theorem major_passes {text : Str} (wf : IsNumeral 10 text) :
    Machine.Passes step ⟨parser.at .responseHttpVersion_majorStart, resp⟩ text
      ⟨parser.at .responseHttpVersion_major,
        { resp with versionMajor := Int32.ofNat (numeral 10 text) }⟩ := by
  refine numeral_passes (fun value => Parsing.mk (parser.at .responseHttpVersion_major)
    { resp with versionMajor := Int32.ofNat value }) wf ?_ ?_
  · intro c left digit
    obtain ⟨isDigit, _, _, amount⟩ := digit_eq c digit
    simp [step, HttpResponseParser.at, Parsing.setMajor, Parsing.goto, isDigit, amount]
  · intro value c left digit
    obtain ⟨isDigit, dot, _, amount⟩ := digit_eq c digit
    simp [step, HttpResponseParser.at, Parsing.setMajor, isDigit, dot, amount]

theorem minor_passes {text : Str} (wf : IsNumeral 10 text) :
    Machine.Passes step ⟨parser.at .responseHttpVersion_minorStart, resp⟩ text
      ⟨parser.at .responseHttpVersion_minor,
        { resp with versionMinor := Int32.ofNat (numeral 10 text) }⟩ := by
  refine numeral_passes (fun value => Parsing.mk (parser.at .responseHttpVersion_minor)
    { resp with versionMinor := Int32.ofNat value }) wf ?_ ?_
  · intro c left digit
    obtain ⟨isDigit, _, _, amount⟩ := digit_eq c digit
    simp [step, HttpResponseParser.at, Parsing.setMinor, Parsing.goto, isDigit, amount]
  · intro value c left digit
    obtain ⟨isDigit, _, _, amount⟩ := digit_eq c digit
    have blank : c ≠ 32 := fun same => absurd digit (by rw [same]; decide)
    simp [step, HttpResponseParser.at, Parsing.setMinor, isDigit, blank, amount]

theorem code_passes {text : Str} (wf : IsNumeral 10 text) :
    Machine.Passes step ⟨parser.at .responseHttpVersion_statusCodeStart, resp⟩ text
      ⟨parser.at .responseHttpVersion_statusCode,
        { resp with statusCode := UInt32.ofNat (numeral 10 text) }⟩ := by
  refine numeral_passes (fun value =>
    Parsing.mk (parser.at .responseHttpVersion_statusCode)
      { resp with statusCode := UInt32.ofNat value }) wf ?_ ?_
  · intro c left digit
    obtain ⟨isDigit, amount⟩ := codeDigit_eq c digit
    simp [step, HttpResponseParser.at, Parsing.setCode, Parsing.goto, isDigit, amount]
  · intro value c left digit
    obtain ⟨isDigit, amount⟩ := codeDigit_eq c digit
    simp [step, HttpResponseParser.at, Parsing.setCode, isDigit, amount]

theorem statusText_passes {text : Str} (chars : ∀ c ∈ text, c ≠ 13 ∧ isChar c) :
    Machine.Passes step ⟨parser.at .responseHttpVersion_statusText, resp⟩ text
      ⟨parser.at .responseHttpVersion_statusText,
        { resp with status := resp.status ++ text }⟩ := by
  refine Machine.Passes.collect (fun text =>
    Parsing.mk (parser.at .responseHttpVersion_statusText)
      { resp with status := text }) ?_ resp.status chars
  rintro text input left ⟨line, char⟩
  simp [step, HttpResponseParser.at, Parsing.pushStatus, line, char]

/-- A status text that is not empty. -/
theorem status_passes {text : Str} (ne : text ≠ [])
    (chars : ∀ c ∈ text, c ≠ 13 ∧ isChar c) (empty : resp.status = []) :
    Machine.Passes step ⟨parser.at .responseHttpVersion_statusTextStart, resp⟩ text
      ⟨parser.at .responseHttpVersion_statusText, { resp with status := text }⟩ := by
  obtain ⟨first, rest, rfl⟩ := List.exists_cons_of_ne_nil ne
  have start : ∀ left,
      step ⟨parser.at .responseHttpVersion_statusTextStart, resp⟩ first left =
        .next ⟨parser.at .responseHttpVersion_statusText,
          { resp with status := [first] }⟩ := by
    intro left
    have char := (chars first List.mem_cons_self).2
    simp [step, HttpResponseParser.at, Parsing.pushStatus, Parsing.goto, char, empty]
  exact .cons start (statusText_passes _ _
    fun c member => chars c (List.mem_cons_of_mem first member))

/-- The blank behind a status code of three digits. -/
theorem codeEnd_passes {code : Nat} (statusCode : resp.statusCode = UInt32.ofNat code)
    (low : 100 ≤ code) (high : code ≤ 999) :
    Machine.Passes step ⟨parser.at .responseHttpVersion_statusCode, resp⟩ [32]
      ⟨parser.at .responseHttpVersion_statusTextStart, resp⟩ := by
  apply Machine.Passes.symbol
  intro left
  have inRange : ¬(resp.statusCode < 100 ∨ resp.statusCode > 999) := by
    rw [statusCode, gt_iff_lt, UInt32.lt_iff_toNat_lt, UInt32.lt_iff_toNat_lt,
      UInt32.toNat_ofNat_of_lt' (Nat.lt_of_le_of_lt high (by decide))]
    exact not_or.mpr ⟨Nat.not_lt.mpr low, Nat.not_lt.mpr high⟩
  simp only [step, HttpResponseParser.at, if_neg inRange]
  rfl

/-- The start of a status line up to the number of its version. -/
theorem http_passes :
    Machine.Passes step ⟨.fresh, .empty⟩ strHttp
      ⟨HttpResponseParser.fresh.at .responseHttpVersion_majorStart,
        { HttpResponse.empty with versionMajor := 0, versionMinor := 0 }⟩ :=
  fun _ => rfl

/-- A status line up to its status text. -/
theorem version_passes {major minor code : Str} (majorWf : IsNumeral 10 major)
    (minorWf : IsNumeral 10 minor) (codeWf : IsNumeral 10 code)
    (low : 100 ≤ numeral 10 code) (high : numeral 10 code ≤ 999) :
    Machine.Passes step ⟨.fresh, .empty⟩
      (strHttp ++ major ++ [46] ++ minor ++ [32] ++ code ++ [32])
      ⟨HttpResponseParser.fresh.at .responseHttpVersion_statusTextStart,
        ⟨Int32.ofNat (numeral 10 major), Int32.ofNat (numeral 10 minor), [], [], false,
          UInt32.ofNat (numeral 10 code), []⟩⟩ := by
  have majorPasses := http_passes.append (major_passes .fresh
    { HttpResponse.empty with versionMajor := 0, versionMinor := 0 } majorWf)
  have dot : Machine.Passes step
      ⟨HttpResponseParser.fresh.at .responseHttpVersion_major, { HttpResponse.empty with
        versionMajor := Int32.ofNat (numeral 10 major), versionMinor := 0 }⟩ [46]
      ⟨HttpResponseParser.fresh.at .responseHttpVersion_minorStart,
        { HttpResponse.empty with
          versionMajor := Int32.ofNat (numeral 10 major), versionMinor := 0 }⟩ :=
    fun _ => rfl
  have minorPasses := minor_passes .fresh { HttpResponse.empty with
    versionMajor := Int32.ofNat (numeral 10 major), versionMinor := 0 } minorWf
  have blank : Machine.Passes step
      ⟨HttpResponseParser.fresh.at .responseHttpVersion_minor, { HttpResponse.empty with
        versionMajor := Int32.ofNat (numeral 10 major)
        versionMinor := Int32.ofNat (numeral 10 minor) }⟩ [32]
      ⟨HttpResponseParser.fresh.at .responseHttpVersion_statusCodeStart,
        { HttpResponse.empty with
          versionMajor := Int32.ofNat (numeral 10 major)
          versionMinor := Int32.ofNat (numeral 10 minor)
          statusCode := 0 }⟩ := fun _ => rfl
  have codePasses := code_passes .fresh { HttpResponse.empty with
    versionMajor := Int32.ofNat (numeral 10 major)
    versionMinor := Int32.ofNat (numeral 10 minor)
    statusCode := 0 } codeWf
  have ended := codeEnd_passes .fresh { HttpResponse.empty with
    versionMajor := Int32.ofNat (numeral 10 major)
    versionMinor := Int32.ofNat (numeral 10 minor)
    statusCode := UInt32.ofNat (numeral 10 code) } rfl low high
  exact ((((majorPasses.append dot).append minorPasses).append blank).append
    codePasses).append ended

/-- A status line whose status text does not hold a carriage return. -/
theorem statusLine_passes {major minor code status : Str} (majorWf : IsNumeral 10 major)
    (minorWf : IsNumeral 10 minor) (codeWf : IsNumeral 10 code)
    (low : 100 ≤ numeral 10 code) (high : numeral 10 code ≤ 999) (ne : status ≠ [])
    (chars : ∀ c ∈ status, c ≠ 13 ∧ isChar c) :
    Machine.Passes step ⟨.fresh, .empty⟩
      (strHttp ++ major ++ [46] ++ minor ++ [32] ++ code ++ [32] ++ status)
      ⟨HttpResponseParser.fresh.at .responseHttpVersion_statusText,
        ⟨Int32.ofNat (numeral 10 major), Int32.ofNat (numeral 10 minor), [], [], false,
          UInt32.ofNat (numeral 10 code), status⟩⟩ := by
  have text := status_passes .fresh { HttpResponse.empty with
    versionMajor := Int32.ofNat (numeral 10 major)
    versionMinor := Int32.ofNat (numeral 10 minor)
    statusCode := UInt32.ofNat (numeral 10 code) } ne chars rfl
  exact (version_passes majorWf minorWf codeWf low high).append text

end Nicenet.Http.Response
