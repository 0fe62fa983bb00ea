import Nicenet.Http.Numeral
import Nicenet.Http.Parser

/-!
# Responses

`HttpResponseBase` and the text that its `inspect` writes, which is what a destroyed
`HttpResponse` sends.
-/

namespace Nicenet.Http

/-! ## Numbers in a stream -/

/-- A number written to a stream. -/
def decimal (value : Nat) : Str :=
  (Nat.toDigits 10 value).map fun digit => UInt8.ofNat digit.toNat

/-- An `int` written to a stream. -/
def decimalInt (value : Int32) : Str :=
  if value.toInt < 0 then 45 :: decimal value.toInt.natAbs else decimal value.toInt.toNat

theorem decimal_digit : ∀ value < 10,
    isDigitOf 10 (48 + UInt8.ofNat value) = true ∧
      digitValue (48 + UInt8.ofNat value) = some value ∧
      UInt8.ofNat (Nat.digitChar value).toNat = 48 + UInt8.ofNat value := by
  decide +kernel

theorem decimal_eq (value : Nat) :
    decimal value =
      if value < 10 then [48 + UInt8.ofNat value]
      else decimal (value / 10) ++ [48 + UInt8.ofNat (value % 10)] := by
  rw [decimal, Nat.toDigits_eq_if (by decide)]
  split
  · next small => simp [(decimal_digit value small).2.2]
  · simp [decimal, (decimal_digit (value % 10) (Nat.mod_lt value (by decide))).2.2]

theorem decimal_isNumeral (value : Nat) : IsNumeral 10 (decimal value) := by
  induction value using Nat.strongRecOn with
  | ind value ih =>
      rw [decimal_eq]
      split
      · next small => simp [IsNumeral, (decimal_digit value small).1]
      · next large =>
        obtain ⟨ne, digits⟩ := ih (value / 10) (by omega)
        have last := (decimal_digit (value % 10) (Nat.mod_lt value (by decide))).1
        refine ⟨List.append_ne_nil_of_left_ne_nil ne _, ?_⟩
        intro c member
        rcases List.mem_append.mp member with front | back
        · exact digits c front
        · rw [List.mem_singleton.mp back]
          exact last

/-- A number is read back from its decimal digits. -/
theorem numeral_decimal (value : Nat) : numeral 10 (decimal value) = value := by
  rw [numeral, leadingValue_eq_foldl 0 (decimal_isNumeral value).2]
  induction value using Nat.strongRecOn with
  | ind value ih =>
      rw [decimal_eq]
      split
      · next small => simp [(decimal_digit value small).2.1]
      · next large =>
        have last := (decimal_digit (value % 10) (Nat.mod_lt value (by decide))).2.1
        rw [List.foldl_append, ih (value / 10) (by omega), List.foldl_cons, List.foldl_nil,
          last, Option.getD_some]
        omega

/-- Digits are no control characters. -/
theorem digit_not_isControl : ∀ c : UInt8, isDigitOf 10 c → isControl c = false := by
  decide +kernel

theorem decimal_plain {value : Nat} : ∀ c ∈ decimal value, isControl c = false :=
  fun c member => digit_not_isControl c ((decimal_isNumeral value).2 c member)

theorem decimalInt_plain {value : Int32} : ∀ c ∈ decimalInt value, isControl c = false := by
  intro c member
  rw [decimalInt] at member
  split at member
  · rcases List.mem_cons.mp member with sign | member
    · rw [sign]
      decide
    · exact decimal_plain c member
  · exact decimal_plain c member

/-! ## The response -/

/-- `HttpResponseBase`. -/
structure HttpResponse where
  versionMajor : Int32
  versionMinor : Int32
  headers : List HeaderItem
  content : Str
  keepAlive : Bool
  statusCode : UInt32
  status : Str
  deriving DecidableEq, Repr

/-- A response that has just been constructed. -/
def HttpResponse.empty : HttpResponse := ⟨1, 1, [], [], false, 404, []⟩

def strHttp : Str := [72, 84, 84, 80, 47]
def strKeep : Str := [107, 101, 101, 112, 45, 97, 108, 105, 118, 101]

/-- A header as `inspect` writes it, without the end of its line. -/
def HeaderItem.text (item : HeaderItem) : Str := item.name ++ [58, 32] ++ item.value

namespace HttpResponse

/-- The status line, without its end. -/
def statusLine (response : HttpResponse) : Str :=
  strHttp ++ decimalInt response.versionMajor ++ [46] ++
    decimalInt response.versionMinor ++ [32] ++ decimal response.statusCode.toNat ++
    [32] ++ response.status

/-- The headers that `inspect` adds to those of the user. -/
def ownHeaders (response : HttpResponse) : List HeaderItem :=
  (if response.keepAlive then [⟨connection, strKeep⟩] else []) ++
    [⟨contentLength, decimal response.content.length⟩]

/-- The lines in front of the empty one. -/
def lines (response : HttpResponse) : List Str :=
  response.statusLine :: (response.headers ++ response.ownHeaders).map HeaderItem.text

/-- `inspect()`. -/
def inspect (response : HttpResponse) : Str :=
  response.statusLine ++ [10] ++
    response.headers.flatMap (fun it => it.name ++ [58, 32] ++ it.value ++ [10]) ++
    (if response.keepAlive then connection ++ [58, 32] ++ strKeep ++ [10] else []) ++
    contentLength ++ [58, 32] ++ decimal response.content.length ++ [10] ++
    [10] ++
    response.content ++ [10]

/-- Every line ends with a line feed alone, and so does the content. -/
theorem inspect_eq (response : HttpResponse) :
    response.inspect =
      response.lines.flatMap (· ++ [10]) ++ [10] ++ response.content ++ [10] := by
  rw [inspect, lines, ownHeaders]
  split <;> simp [HeaderItem.text, List.flatMap_map]

/-- `HTTP/1.1 200 OK` without headers and content. -/
def ok : HttpResponse := ⟨1, 1, [], [], true, 200, [79, 75]⟩

end HttpResponse

end Nicenet.Http
