import Mathlib.Data.List.Find
import Nicenet.Http.Completes

/-!
# Parsing inverts writing

What `WrittenRequest.completes` says of the parser's fields, in terms of the
request that was written: its numbers as numbers, and whether it keeps the
connection alive by its first `Connection` header or its version.
-/

namespace Nicenet.Http

/-! ## Numbers -/

theorem toInt_ofNat {value : Nat} (fits : value < 2 ^ 31) :
    (Int32.ofNat value).toInt = value :=
  Int32.toInt_ofNat_of_lt fits

namespace WrittenRequest

/-- Whether the client asks for the connection to stay open: by its first
`Connection` header, or by its version when it has none. -/
def KeepsAlive (request : WrittenRequest) : Prop :=
  match request.headers.find? fun item => SameWord item.name connection with
  | some item => SameWord item.value strKeepAlive
  | none =>
      (numeral 10 request.major = 1 ∧ numeral 10 request.minor = 1) ∨
        1 < numeral 10 request.major

theorem isWord_connection {headers : List HeaderItem}
    (wf : ∀ item ∈ headers, item.WellFormed) :
    (headers.find? fun item => isWord item.name connection) =
      headers.find? fun item => SameWord item.name connection := by
  apply List.find?_congr
  intro item member
  rw [Bool.eq_iff_iff, (wf item member).isWord_name, decide_eq_true_iff]

/-- The version of a request without a `Connection` header. -/
theorem version_keepAlive {major minor : Nat} (majorFits : major < 2 ^ 31)
    (minorFits : minor < 2 ^ 31) :
    (Int32.ofNat major > 1 ∨ (Int32.ofNat major = 1 ∧ Int32.ofNat minor = 1)) ↔
      (major = 1 ∧ minor = 1) ∨ 1 < major := by
  have one : ((1 : Int32)).toInt = 1 := by decide
  rw [gt_iff_lt, Int32.lt_iff_toInt_lt, ← Int32.toInt_inj, ← Int32.toInt_inj, one,
    toInt_ofNat majorFits, toInt_ofNat minorFits]
  omega

theorem keepAlive_iff (request : WrittenRequest) (left : Nat) :
    (request.parsed left).keepAlive = true ↔ request.KeepsAlive := by
  simp only [parsed, keepAlive, KeepsAlive, isWord_connection request.headers_wf]
  cases first : request.headers.find? fun item => SameWord item.name connection with
  | some item =>
      have member := List.mem_of_find?_eq_some first
      exact (request.headers_wf item member).isWord_value strKeepAlive
  | none =>
      rw [← version_keepAlive request.major_fits request.minor_fits]
      simp

/-- The parser inverts the serialization of a request, whatever comes behind it. -/
theorem parse_inverts (request : WrittenRequest) (rest : Str)
    (short : rest.length < 2 ^ 31) :
    let parse := HttpRequestParser.fresh.parse (request.bytes ++ rest)
    parse.result = some .parsingCompleted ∧
      parse.request.method = request.method ∧
      parse.request.uri = request.uri ∧
      parse.request.versionMajor.toInt = numeral 10 request.major ∧
      parse.request.versionMinor.toInt = numeral 10 request.minor ∧
      parse.request.headers = request.headers ∧
      parse.request.content = request.body.content ∧
      parse.request.remainSize.toInt = rest.length ∧
      parse.rest = rest ∧
      (parse.request.keepAlive = true ↔ request.KeepsAlive) := by
  intro parse
  have completes : parse =
      ⟨request.body.parserAfter, request.parsed rest.length, some .parsingCompleted,
        rest⟩ := by
    simp only [parse, HttpRequestParser.parse, request.completes rest]
  rw [completes]
  exact ⟨rfl, rfl, rfl, toInt_ofNat request.major_fits, toInt_ofNat request.minor_fits,
    rfl, rfl, toInt_ofNat short, rfl, request.keepAlive_iff rest.length⟩

/-- A `GET` with a rest behind it. -/
theorem parse_inverts_getRoot :
    ((HttpRequestParser.fresh.parse (getRoot.bytes ++ [71])).result =
        some .parsingCompleted ∧
      (HttpRequestParser.fresh.parse (getRoot.bytes ++ [71])).rest = [71]) ∧
      getRoot.KeepsAlive := by
  have inverts := getRoot.parse_inverts [71] (by decide)
  refine ⟨⟨inverts.1, inverts.2.2.2.2.2.2.2.2.1⟩, ?_⟩
  exact inverts.2.2.2.2.2.2.2.2.2.mp (by decide +kernel)

end WrittenRequest

end Nicenet.Http
