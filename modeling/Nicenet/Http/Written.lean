import Nicenet.Http.Numeral
import Nicenet.Http.Parser

/-!
# Well-formed requests

A `WrittenRequest` is a request as a client writes it: a request line, header
lines and, for `POST` and `PUT`, a body that a `Content-Length` header or a
`Transfer-Encoding: chunked` header announces. `bytes` are what is sent.
-/

namespace Nicenet.Http

def crlf : Str := [13, 10]

/-- The characters of chunk extensions and of trailer values. -/
def isPlain (c : UInt8) : Bool := isalnum c || c = 32

theorem isPlain_spec : ∀ c : UInt8, isPlain c →
    (isalnum c = true ∨ c = 32) := by
  decide +kernel

/-- Without a NUL, `c_str()` is the whole text. -/
theorem isWord_iff {text : Str} (whole : ∀ c ∈ text, c ≠ 0) (literal : Str) :
    isWord text literal = true ↔ SameWord text literal := by
  have cStr : cStr text = text := by
    rw [Http.cStr, List.takeWhile_eq_self_iff]
    exact fun c member => decide_eq_true (whole c member)
  rw [isWord, cStr, decide_eq_true_iff, strCaseCmp_eq_zero]

theorem isControl_zero : isControl 0 = true := by decide

theorem ne_zero_of_not_isControl {c : UInt8} (plain : isControl c = false) : c ≠ 0 := by
  intro zero
  rw [zero, isControl_zero] at plain
  cases plain

theorem isToken_not_isControl {c : UInt8} (token : isToken c) : isControl c = false := by
  simp only [isToken, Bool.and_eq_true, Bool.not_eq_true'] at token
  exact token.1.2

/-- A header line: a name and a value free of control characters. -/
structure HeaderItem.WellFormed (item : HeaderItem) : Prop where
  name_ne : item.name ≠ []
  name_token : ∀ c ∈ item.name, isToken c
  value_plain : ∀ c ∈ item.value, isControl c = false

instance : DecidablePred HeaderItem.WellFormed := fun item =>
  decidable_of_iff
    (item.name ≠ [] ∧ (∀ c ∈ item.name, isToken c) ∧
      ∀ c ∈ item.value, isControl c = false)
    ⟨fun ⟨ne, token, plain⟩ => ⟨ne, token, plain⟩,
      fun wf => ⟨wf.name_ne, wf.name_token, wf.value_plain⟩⟩

def HeaderItem.bytes (item : HeaderItem) : Str :=
  item.name ++ [58, 32] ++ item.value ++ crlf

def HeaderItem.isContentLength (item : HeaderItem) : Bool :=
  isWord item.name contentLength

def HeaderItem.isChunked (item : HeaderItem) : Bool :=
  isWord item.name transferEncoding && isWord item.value strChunked

namespace HeaderItem

variable {item : HeaderItem}

theorem WellFormed.isWord_name (wf : item.WellFormed) (literal : Str) :
    isWord item.name literal = true ↔ SameWord item.name literal :=
  isWord_iff (fun c member =>
    ne_zero_of_not_isControl (isToken_not_isControl (wf.name_token c member))) literal

theorem WellFormed.isWord_value (wf : item.WellFormed) (literal : Str) :
    isWord item.value literal = true ↔ SameWord item.value literal :=
  isWord_iff (fun c member => ne_zero_of_not_isControl (wf.value_plain c member)) literal

end HeaderItem

/-- A chunk extension: a name and perhaps a value. -/
structure Extension where
  name : Str
  value : Option Str
  name_plain : ∀ c ∈ name, isPlain c
  value_plain : ∀ text ∈ value, ∀ c ∈ text, isPlain c

def Extension.bytes (extension : Extension) : Str :=
  59 :: extension.name ++
    match extension.value with
    | none => []
    | some value => 61 :: value

/-- A chunk: its size in hexadecimal and its data. -/
structure Chunk where
  size : Str
  extension : Option Extension
  data : Str
  size_numeral : IsNumeral 16 size
  size_eq : numeral 16 size = data.length

/-- The line with the size of a chunk. -/
def Chunk.line (chunk : Chunk) : Str :=
  chunk.size ++ (chunk.extension.elim [] Extension.bytes) ++ crlf

def Chunk.bytes (chunk : Chunk) : Str := chunk.line ++ chunk.data ++ crlf

structure Trailer where
  name : Str
  value : Str
  name_alpha : ∃ c ∈ name.head?, isalpha c
  name_alnum : ∀ c ∈ name, isalnum c
  value_plain : ∀ c ∈ value, isPlain c

def Trailer.bytes (trailer : Trailer) : Str :=
  trailer.name ++ [58] ++ trailer.value ++ crlf

/-- A chunked body: chunks with data, the chunk without, and trailers. -/
structure Chunked where
  chunks : List Chunk
  last : Chunk
  trailers : List Trailer
  data_ne : ∀ chunk ∈ chunks, chunk.data ≠ []
  last_empty : last.data = []
  fits : (chunks.flatMap Chunk.data).length < 2 ^ 63

def Chunked.bytes (body : Chunked) : Str :=
  body.chunks.flatMap Chunk.bytes ++ body.last.line ++
    body.trailers.flatMap Trailer.bytes ++ crlf

inductive Body where
  | none
  | sized (content : Str)
  | chunked (body : Chunked)

def Body.bytes : Body → Str
  | .none => []
  | .sized content => content
  | .chunked body => body.bytes

def Body.content : Body → Str
  | .none => []
  | .sized content => content
  | .chunked body => body.chunks.flatMap Chunk.data

/-- The methods whose requests may have a body. -/
def HasBody (method : Str) : Prop := method = strPost ∨ method = strPut

instance : DecidablePred HasBody := fun _ => inferInstanceAs (Decidable (_ ∨ _))

/-- The headers that announce a body: none, one with its length below 2³¹ in
decimal, or one that says chunked. -/
def Body.Announced (method : Str) (headers : List HeaderItem) : Body → Prop
  | .none => ¬HasBody method ∨ ∀ item ∈ headers,
      item.isContentLength = false ∧ item.isChunked = false
  | .sized content => HasBody method ∧ (∀ item ∈ headers, item.isChunked = false) ∧
      ∃ item, headers.filter HeaderItem.isContentLength = [item] ∧
        IsNumeral 10 item.value ∧ numeral 10 item.value = content.length ∧
        content.length < 2 ^ 31
  | .chunked _ => HasBody method ∧ (∃ item ∈ headers, item.isChunked) ∧
      ∀ item ∈ headers, item.isContentLength = false

/-- A well-formed request. -/
structure WrittenRequest where
  method : Str
  uri : Str
  major : Str
  minor : Str
  headers : List HeaderItem
  body : Body
  method_ne : method ≠ []
  method_token : ∀ c ∈ method, isToken c
  uri_ne : uri ≠ []
  uri_plain : ∀ c ∈ uri, c ≠ 32 ∧ isControl c = false
  major_numeral : IsNumeral 10 major
  minor_numeral : IsNumeral 10 minor
  major_fits : numeral 10 major < 2 ^ 31
  minor_fits : numeral 10 minor < 2 ^ 31
  headers_wf : ∀ item ∈ headers, item.WellFormed
  announced : body.Announced method headers

namespace WrittenRequest

def line (request : WrittenRequest) : Str :=
  request.method ++ [32] ++ request.uri ++ [32, 72, 84, 84, 80, 47] ++
    request.major ++ [46] ++ request.minor ++ crlf

def bytes (request : WrittenRequest) : Str :=
  request.line ++ request.headers.flatMap HeaderItem.bytes ++ crlf ++ request.body.bytes

end WrittenRequest

/-- The version number that the examples carry. -/
theorem one_numeral : IsNumeral 10 [49] := by
  decide +kernel

theorem one_fits : numeral 10 [49] < 2 ^ 31 := by
  decide +kernel

/-- The path that the examples ask for. -/
theorem slash_ne : ([47] : Str) ≠ [] :=
  List.cons_ne_nil _ _

theorem slash_plain : ∀ c ∈ ([47] : Str), c ≠ 32 ∧ isControl c = false := by
  decide +kernel

theorem noHeaders_wf : ∀ item ∈ ([] : List HeaderItem), item.WellFormed :=
  List.forall_mem_nil _

/-- `GET / HTTP/1.1` without headers. -/
def getRoot : WrittenRequest where
  method := [71, 69, 84]
  uri := [47]
  major := [49]
  minor := [49]
  headers := []
  body := .none
  method_ne := by decide +kernel
  method_token := by decide +kernel
  uri_ne := slash_ne
  uri_plain := slash_plain
  major_numeral := one_numeral
  minor_numeral := one_numeral
  major_fits := one_fits
  minor_fits := one_fits
  headers_wf := noHeaders_wf
  announced := .inl (by decide)

end Nicenet.Http
