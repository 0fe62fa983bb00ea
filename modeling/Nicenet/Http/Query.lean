import Mathlib.Data.List.Induction
import Nicenet.Http.Connection
import Nicenet.Http.Split

/-!
# Query strings

`start` cuts the URI at every question mark and takes the last piece for the parameters;
of each parameter it takes what is between the first two of its `=`. A handler that is
given a URI sees all of its parameters if and only if there is nothing to be cut twice.
-/

namespace Nicenet.Http

open Library

/-- The last piece that has an `=` with this key in front of it. -/
def lastPiece (pieces : List Str) (key : Str) : Option Str :=
  pieces.reverse.find? fun piece => 61 ∈ piece ∧ Split.before 61 piece = key

/-- What a query says of a key: in its pieces between `&` the text behind the first `=`,
where the last piece with a key counts. -/
def queryValue (query key : Str) : Option Str :=
  (lastPiece (query.splitOn 38) key).map (Split.behind 61)

/-- A request as its handler should see it: with the path, the query and the values that
the query gives to its keys. -/
structure HttpRequest.Decodes (request : HttpRequest) (uri : Str) : Prop where
  path : request.uri = Split.before 63 uri
  query : request.paramsString = Split.behind 63 uri
  values : ∀ key, request.params.lookup key = queryValue (Split.behind 63 uri) key

/-- There is no question mark in the query, and no `=` in a value that counts. -/
def CutOnce (uri : Str) : Prop :=
  63 ∉ Split.behind 63 uri ∧
    ∀ key piece, lastPiece ((Split.behind 63 uri).splitOn 38) key = some piece →
      61 ∉ Split.behind 61 piece

/-! ## The map of parameters -/

theorem lookup_filter_ne {params : List (Str × Str)} {key other : Str} (differs : other ≠ key) :
    (params.filter fun param => param.1 ≠ key).lookup other = params.lookup other := by
  induction params with
  | nil => rfl
  | cons param params ih =>
      obtain ⟨name, value⟩ := param
      by_cases same : name = key
      · subst same
        rw [List.filter_cons_of_neg (by simp), ih, List.lookup_cons, beq_false_of_ne differs]
      · rw [List.filter_cons_of_pos (by simpa using same), List.lookup_cons, List.lookup_cons, ih]

theorem lookup_setParam (params : List (Str × Str)) (key value other : Str) :
    (setParam params key value).lookup other =
      if key = other then some value else params.lookup other := by
  rw [setParam, List.lookup_cons]
  by_cases same : other = key
  · rw [if_pos same.symm, beq_iff_eq.mpr same]
  · rw [if_neg fun equal => same equal.symm, beq_false_of_ne same, lookup_filter_ne same]

/-- A parameter is what is in front of its first `=` and what is between that and the
next one. -/
theorem params_snoc (pieces : List Str) (piece : Str) (start : List (Str × Str)) :
    params (pieces ++ [piece]) start =
      if 61 ∈ piece then
        setParam (params pieces start) (Split.before 61 piece)
          (Split.before 61 (Split.behind 61 piece))
      else params pieces start := by
  rw [params, List.foldl_append, List.foldl_cons, List.foldl_nil, ← params, splitString_eq]
  rcases Split.cases_first 61 piece with none | ⟨key, rest, rfl, none⟩
  · rw [if_neg none, List.splitOn_eq_singleton none]
  · obtain ⟨pieces, value⟩ := Split.splitOn_eq_before 61 rest
    rw [if_pos (by simp), List.splitOn_append_cons_self_of_not_mem none, value,
      Split.before_append none, Split.behind_append none]

theorem lastPiece_snoc (pieces : List Str) (piece key : Str) :
    lastPiece (pieces ++ [piece]) key =
      if 61 ∈ piece ∧ Split.before 61 piece = key then some piece
      else lastPiece pieces key := by
  rw [lastPiece, List.reverse_append, List.reverse_singleton, List.singleton_append,
    List.find?_cons, ← lastPiece]
  by_cases counts : 61 ∈ piece ∧ Split.before 61 piece = key
  · rw [if_pos counts, decide_eq_true counts]
  · rw [if_neg counts, decide_eq_false counts]

/-- The last piece with a key gives its value, cut once more. -/
theorem lookup_params (pieces : List Str) (key : Str) :
    (params pieces []).lookup key =
      (lastPiece pieces key).map fun piece => Split.before 61 (Split.behind 61 piece) := by
  induction pieces using List.reverseRecOn with
  | nil => rfl
  | append_singleton pieces piece ih =>
      rw [params_snoc, lastPiece_snoc]
      by_cases parameter : 61 ∈ piece
      · rw [if_pos parameter, lookup_setParam]
        by_cases same : Split.before 61 piece = key
        · rw [if_pos same, if_pos ⟨parameter, same⟩, Option.map_some]
        · rw [if_neg same, if_neg fun both => same both.2, ih]
      · rw [if_neg parameter, if_neg fun both => parameter both.1, ih]

/-- All values are whole if and only if none of those that count has a further `=`. -/
theorem values_iff (query : Str) :
    (∀ key, (params (splitString query 38) []).lookup key = queryValue query key) ↔
      ∀ key piece, lastPiece (query.splitOn 38) key = some piece →
        61 ∉ Split.behind 61 piece := by
  refine forall_congr' fun key => ?_
  rw [lookup_params, queryValue, splitString_eq]
  cases lastPiece (query.splitOn 38) key with
  | none => simp
  | some piece => simp [Split.before_eq_self_iff]

/-! ## The request -/

theorem splitUri_plain {request : HttpRequest} (none : 63 ∉ request.uri) :
    splitUri request = request := by
  have pieces := splitString_eq request.uri 63
  rw [List.splitOn_eq_singleton none] at pieces
  simp [splitUri, pieces]

theorem splitUri_query {request : HttpRequest} {path query : Str} (none : 63 ∉ path)
    (uri : request.uri = path ++ 63 :: query) :
    splitUri request = { request with
      uri := path
      paramsString := (query.splitOn 63).getLastD []
      params := params (splitString ((query.splitOn 63).getLastD []) 38) request.params } := by
  have pieces := splitString_eq request.uri 63
  rw [uri, List.splitOn_append_cons_self_of_not_mem none] at pieces
  obtain ⟨others, later⟩ := Split.splitOn_eq_before 63 query
  simp only [splitUri, uri, pieces, later]
  simp

/-- The query is taken whole if and only if no further question mark is in it. -/
theorem lastPiece_eq_query (query : Str) :
    (query.splitOn 63).getLastD [] = query ↔ 63 ∉ query := by
  constructor
  · intro whole
    have ne := List.splitOn_ne_nil (63 : UInt8) query
    have member : (query.splitOn 63).getLastD [] ∈ query.splitOn 63 := by
      rw [List.getLastD_eq_getLast?, List.getLast?_eq_some_getLast ne]
      exact List.getLast_mem ne
    rw [whole] at member
    exact Split.not_mem_piece member
  · intro none
    rw [List.splitOn_eq_singleton none]
    rfl

/-- The handler of a fresh request sees what its URI says if and only if nothing in it is
cut twice. -/
theorem splitUri_decodes_iff (request : HttpRequest) (noQuery : request.paramsString = [])
    (noParams : request.params = []) :
    (splitUri request).Decodes request.uri ↔ CutOnce request.uri := by
  rcases Split.cases_first 63 request.uri with none | ⟨path, query, uri, none⟩
  · have behind := Split.behind_eq_nil none
    have whole : ∀ key, queryValue [] key = .none := fun _ => rfl
    rw [splitUri_plain none]
    refine iff_of_true ⟨(Split.before_eq_self none).symm, by rw [noQuery, behind], ?_⟩ ?_
    · intro key
      rw [noParams, behind, whole]
      rfl
    · rw [CutOnce, behind]
      exact ⟨List.not_mem_nil, fun _ _ found => nomatch found⟩
  · have behind : Split.behind 63 request.uri = query := by
      rw [uri, Split.behind_append none]
    rw [splitUri_query none uri, noParams, CutOnce, behind]
    constructor
    · intro decodes
      have taken : (query.splitOn 63).getLastD [] = query := decodes.query.trans behind
      have values := decodes.values
      simp only [taken, behind] at values
      exact ⟨(lastPiece_eq_query query).mp taken, (values_iff query).mp values⟩
    · rintro ⟨once, values⟩
      have taken := (lastPiece_eq_query query).mpr once
      refine ⟨?_, ?_, ?_⟩
      · rw [uri, Split.before_append none]
      · rw [behind, taken]
      · rw [behind, taken]
        exact (values_iff query).mpr values

theorem cutOnce_of_pieces {uri : Str} (once : 63 ∉ Split.behind 63 uri)
    (values : ∀ piece ∈ (Split.behind 63 uri).splitOn 38, 61 ∉ Split.behind 61 piece) :
    CutOnce uri := by
  refine ⟨once, fun key piece found => values piece ?_⟩
  exact List.mem_reverse.mp (List.mem_of_find?_eq_some found)

/-! ## What handlers are given -/

/-- No step touches the parameters of a request. -/
theorem step_params (s : Parsing) (input : UInt8) (left : Nat) :
    (step s input left).state.req.paramsString = s.req.paramsString ∧
      (step s input left).state.req.params = s.req.params := by
  generalize start : s.parser.state = state
  rw [step, start]
  cases state <;> simp only [expect, headerEnd, headersEnd, chunkSizeEnd, Parsing.back,
    Parsing.error, Parsing.completed]
  all_goals
    repeat' split
  all_goals exact ⟨rfl, rfl⟩

theorem parse_params (parser : HttpRequestParser) (text : Str) :
    (parser.parse text).request.paramsString = [] ∧ (parser.parse text).request.params = [] := by
  refine @Machine.consume_keeps _ _ _ step
    (fun s => s.req.paramsString = [] ∧ s.req.params = []) ?_ _ ⟨rfl, rfl⟩ text
  rintro s input left ⟨noQuery, noParams⟩
  obtain ⟨query, params⟩ := step_params s input left
  exact ⟨query.trans noQuery, params.trans noParams⟩

theorem remaining_query (request : HttpRequest) (data : Str) :
    (remaining request data).uri = request.uri ∧
      (remaining request data).paramsString = request.paramsString ∧
      (remaining request data).params = request.params := by
  rw [remaining]
  split <;> exact ⟨rfl, rfl, rfl⟩

/-- In every run of a connection, a handler sees what the URI of its request says if and
only if nothing in it is cut twice. -/
theorem posted_decodes_iff {handles : Str → Bool} {reads : List Str}
    {read : Read HttpRequestParser} {request : HttpRequest}
    (member : read ∈ runFresh requestParser handles reads)
    (posted : read.event = some (.posted request)) :
    request.Decodes read.parsed.request.uri ↔ CutOnce read.parsed.request.uri := by
  obtain ⟨conn, data, rfl⟩ := mem_run member
  obtain ⟨_, answered⟩ := onRead_event posted
  have fresh := parse_params conn.parser (buffered conn data).2
  obtain ⟨uri, query, params⟩ :=
    remaining_query (onRead requestParser handles conn data).parsed.request data
  rw [onRead_parsed] at answered uri query params ⊢
  simp only [answer] at answered
  split at answered
  · rw [← Event.posted.inj answered, ← uri]
    exact splitUri_decodes_iff _ (query.trans fresh.1) (params.trans fresh.2)
  · exact Event.noConfusion answered

/-- The read of a request for a URI, without headers. -/
def sampleRead (uri : Str) : Read HttpRequestParser :=
  onRead requestParser (fun _ => true) ⟨requestParser.fresh, []⟩
    ([71, 69, 84, 32] ++ uri ++ [32, 72, 84, 84, 80, 47, 49, 46, 49, 13, 10, 13, 10])

theorem sampleRead_member (uri : Str) :
    sampleRead uri ∈ runFresh requestParser (fun _ => true) [(sampleRead uri).data] := by
  have data : (sampleRead uri).data = [71, 69, 84, 32] ++ uri ++
      [32, 72, 84, 84, 80, 47, 49, 46, 49, 13, 10, 13, 10] := onRead_data
  rw [data]
  exact List.mem_cons_self

/-- The handler of `/?a=1&b` sees its parameter. -/
theorem posted_decodes_value :
    (splitUri (sampleRead [47, 63, 97, 61, 49, 38, 98]).parsed.request).Decodes
      (sampleRead [47, 63, 97, 61, 49, 38, 98]).parsed.request.uri :=
  (posted_decodes_iff (sampleRead_member _) (by decide +kernel)).mpr
    (cutOnce_of_pieces (by decide +kernel) (by decide +kernel))

/-- `/?t=YQ==` loses the end of its value. -/
theorem posted_decodes_fails :
    ¬∀ (handles : Str → Bool) (reads : List Str) (read : Read HttpRequestParser)
      (request : HttpRequest), read ∈ runFresh requestParser handles reads →
      read.event = some (.posted request) → request.Decodes read.parsed.request.uri := by
  intro every
  have decodes := every _ _ _
    (splitUri (sampleRead [47, 63, 116, 61, 89, 81, 61, 61]).parsed.request)
    (sampleRead_member [47, 63, 116, 61, 89, 81, 61, 61]) (by decide +kernel)
  exact absurd (decodes.values [116]) (by decide +kernel)

end Nicenet.Http
