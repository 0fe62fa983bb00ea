import Nicenet.Library.Split
import Nicenet.Http.Text

/-!
# BSON documents

The accessors of `Bson.hpp` find an element by its path, with the keys on it separated by
dots. libbson is a parameter: its iterators, and what is documented of them. `asObject` reads
the document of the iterator that is left at the first key of the path, not of the one that is
at its end.
-/

namespace Nicenet.Bson

open Library

variable {Double : Type}

/-- The value of an element, as far as the accessors tell them apart. -/
inductive Element (Double : Type) where
  | utf8 (text : Str)
  | int32 (value : Int32)
  | int64 (value : Int64)
  | double (value : Double)
  | document (members : List (Str × Element Double))
  | array (members : List (Str × Element Double))
  | other

/-- A `bson_t` that holds a document. -/
abbrev Document (Double : Type) : Type := List (Str × Element Double)

inductive BsonType where
  | utf8
  | int32
  | int64
  | double
  | document
  | array
  | other
  deriving DecidableEq, Repr

def Element.type : Element Double → BsonType
  | .utf8 _ => .utf8
  | .int32 _ => .int32
  | .int64 _ => .int64
  | .double _ => .double
  | .document _ => .document
  | .array _ => .array
  | .other => .other

/-- The functions of libbson. `bson_iter_find_descendant` changes its first iterator and
sets its third argument; `bson_iter_document` sets a buffer, or NULL. -/
structure Libbson (Double : Type) where
  Iter : Type
  bson_iter_init : Document Double → Option Iter
  bson_iter_find_descendant : Iter → Str → Option (Iter × Iter)
  bson_iter_type : Iter → BsonType
  bson_iter_utf8 : Iter → Str
  bson_iter_as_int64 : Iter → Int64
  bson_iter_as_double : Iter → Double
  bson_iter_document : Iter → Option (Document Double)

/-! ## Paths -/

/-- What an element has below a key, given how a member is found. -/
def Element.child (find : Document Double → Str → Option (Element Double)) :
    Element Double → Str → Option (Element Double)
  | .document members, key => find members key
  | .array members, key => find members key
  | _, _ => none

/-- The element at the end of a path of keys. -/
def Element.walk (find : Document Double → Str → Option (Element Double))
    (element : Element Double) (keys : List Str) : Option (Element Double) :=
  keys.foldlM (Element.child find) element

/-- The element at the end of a dotted path. -/
def lookup (find : Document Double → Str → Option (Element Double)) (doc : Document Double)
    (dotkey : Str) : Option (Element Double) :=
  (Element.document doc).walk find (dotkey.splitOn 46)

/-- What is documented of libbson: an iterator is at an element, whose type and value it
gives; a path is followed from member to member, which leaves the first iterator at its
first key. -/
structure Libbson.Documented (lib : Libbson Double) where
  element : lib.Iter → Element Double
  find : Document Double → Str → Option (Element Double)
  asDouble : Element Double → Double
  find_mem : ∀ {members key element}, find members key = some element → (key, element) ∈ members
  init : ∀ doc, ∃ iter, lib.bson_iter_init doc = some iter
  missing : ∀ {doc iter dotkey}, lib.bson_iter_init doc = some iter →
    lookup find doc dotkey = none → lib.bson_iter_find_descendant iter dotkey = none
  found : ∀ {doc iter dotkey value}, lib.bson_iter_init doc = some iter →
    lookup find doc dotkey = some value →
      ∃ first last, lib.bson_iter_find_descendant iter dotkey = some (first, last) ∧
        find doc (Split.before 46 dotkey) = some (element first) ∧ element last = value
  type : ∀ iter, lib.bson_iter_type iter = (element iter).type
  utf8 : ∀ {iter text}, element iter = .utf8 text → lib.bson_iter_utf8 iter = text
  int64 : ∀ {iter value}, element iter = .int64 value → lib.bson_iter_as_int64 iter = value
  double : ∀ iter, lib.bson_iter_as_double iter = asDouble (element iter)
  document : ∀ {iter members}, element iter = .document members →
    lib.bson_iter_document iter = some members
  no_document : ∀ {iter}, (element iter).type ≠ .document → lib.bson_iter_document iter = none

/-! ## The accessors -/

section Accessors

variable (lib : Libbson Double) (doc : Document Double) (dotkey : Str)

/-- The element at the end of a path: the iterator that every accessor asks for. -/
def descendant : Option (lib.Iter × lib.Iter) :=
  (lib.bson_iter_init doc).bind fun iter => lib.bson_iter_find_descendant iter dotkey

/-- `BSON_ITER_HOLDS_NUMBER`. -/
def holdsNumber (type : BsonType) : Bool := type = .int32 || type = .int64 || type = .double

/-- An accessor: what it reads of the element at the end of a path, if there is one. -/
def readElement {Answer : Type} (absent : Answer) (read : lib.Iter → Answer) : Answer :=
  match descendant lib doc dotkey with
  | none => absent
  | some (_, iter2) => read iter2

def asString : Str :=
  readElement lib doc dotkey [] fun iter2 =>
    if lib.bson_iter_type iter2 = .utf8 then lib.bson_iter_utf8 iter2 else []

def asInt64 : Int64 :=
  readElement lib doc dotkey 0 fun iter2 =>
    if lib.bson_iter_type iter2 = .int64 then lib.bson_iter_as_int64 iter2 else 0

def asNumber [Zero Double] : Double :=
  readElement lib doc dotkey 0 fun iter2 =>
    if holdsNumber (lib.bson_iter_type iter2) then lib.bson_iter_as_double iter2 else 0

/-- A `BsonView`: of nothing, of a document, or with a `bson_t` that `bson_init_static` has
refused to set up. -/
inductive View (Double : Type) where
  | none
  | document (doc : Document Double)
  | unset

def asObject : View Double :=
  match descendant lib doc dotkey with
  | none => .none
  | some (iter, iter2) =>
      if lib.bson_iter_type iter2 = .document then
        match lib.bson_iter_document iter with
        | none => .unset
        | some sub => .document sub
      else .none

/-- An accessor on a view. It can only be called on one of a document. -/
def View.ask {Answer : Type} (accessor : Document Double → Str → Answer) :
    View Double → Str → Option Answer
  | .document doc, dotkey => some (accessor doc dotkey)
  | _, _ => Option.none

end Accessors

/-! ## Elements below elements -/

variable {find : Document Double → Str → Option (Element Double)}

/-- A path that goes on behind a document is a path in it. -/
theorem lookup_append {doc sub : Document Double} {path : Str}
    (leads : lookup find doc path = some (.document sub)) (more : Str) :
    lookup find doc (path ++ 46 :: more) = lookup find sub more := by
  rw [lookup, List.splitOn_append_cons_self, Element.walk, List.foldlM_append]
  rw [lookup, Element.walk] at leads
  rw [leads]
  rfl

theorem child_size (members : ∀ {members key element},
      find members key = some element → (key, element) ∈ members)
    {element member : Element Double} {key : Str}
    (below : element.child find key = some member) : sizeOf member < sizeOf element := by
  have inside : ∀ {list : Document Double}, find list key = some member →
      sizeOf member < sizeOf list := by
    intro list found
    have pair := List.sizeOf_lt_of_mem (members found)
    have part : sizeOf (key, member) = 1 + sizeOf key + sizeOf member := rfl
    omega
  cases element with
  | document list =>
      have small := inside below
      have whole := Element.document.sizeOf_spec list
      omega
  | array list =>
      have small := inside below
      have whole := Element.array.sizeOf_spec list
      omega
  | _ => cases below

/-- What is found on a path is smaller than where the path starts. -/
theorem walk_size (members : ∀ {members key element},
      find members key = some element → (key, element) ∈ members)
    {element last : Element Double} {keys : List Str} (ne : keys ≠ [])
    (walks : element.walk find keys = some last) : sizeOf last < sizeOf element := by
  induction keys generalizing element with
  | nil => exact absurd rfl ne
  | cons key keys ih =>
      obtain ⟨next, step, later⟩ := Option.bind_eq_some_iff.mp walks
      have small := child_size members step
      cases keys with
      | nil =>
          cases later
          exact small
      | cons other keys => exact Nat.lt_trans (ih nofun later) small

/-! ## What the accessors give -/

section Given

variable {lib : Libbson Double} (documented : lib.Documented)

def Element.string : Element Double → Str
  | .utf8 text => text
  | _ => []

def Element.long : Element Double → Int64
  | .int64 value => value
  | _ => 0

def Element.number [Zero Double] (asDouble : Element Double → Double)
    (element : Element Double) : Double :=
  if holdsNumber element.type then asDouble element else 0

/-- The iterators of an accessor stand at the ends of the path. -/
theorem descendant_spec (doc : Document Double) (dotkey : Str) :
    match lookup documented.find doc dotkey with
    | none => descendant lib doc dotkey = none
    | some value => ∃ first last, descendant lib doc dotkey = some (first, last) ∧
        documented.find doc (Split.before 46 dotkey) = some (documented.element first) ∧
        documented.element last = value := by
  obtain ⟨iter, started⟩ := documented.init doc
  rw [descendant, started, Option.bind_some]
  cases leads : lookup documented.find doc dotkey with
  | none => exact documented.missing started leads
  | some value => exact documented.found started leads

/-- What is read of an iterator is the value of its element. -/
theorem readElement_eq {Answer : Type} {absent : Answer} {read : lib.Iter → Answer}
    {value : Element Double → Answer}
    (reads : ∀ iter, read iter = value (documented.element iter)) (doc : Document Double)
    (dotkey : Str) :
    readElement lib doc dotkey absent read =
      ((lookup documented.find doc dotkey).map value).getD absent := by
  have spec := descendant_spec documented doc dotkey
  cases leads : lookup documented.find doc dotkey with
  | none =>
      simp only [leads] at spec
      rw [readElement, spec]
      rfl
  | some element =>
      simp only [leads] at spec
      obtain ⟨first, last, found, _, rfl⟩ := spec
      simp only [readElement, found]
      exact reads last

theorem asString_eq (doc : Document Double) (dotkey : Str) :
    asString lib doc dotkey =
      ((lookup documented.find doc dotkey).map Element.string).getD [] := by
  refine readElement_eq documented (fun iter => ?_) doc dotkey
  rw [documented.type]
  cases kind : documented.element iter with
  | utf8 text => exact documented.utf8 kind
  | _ => rfl

theorem asInt64_eq (doc : Document Double) (dotkey : Str) :
    asInt64 lib doc dotkey =
      ((lookup documented.find doc dotkey).map Element.long).getD 0 := by
  refine readElement_eq documented (fun iter => ?_) doc dotkey
  rw [documented.type]
  cases kind : documented.element iter with
  | int64 value => exact documented.int64 kind
  | _ => rfl

theorem asNumber_eq [Zero Double] (doc : Document Double) (dotkey : Str) :
    asNumber lib doc dotkey =
      ((lookup documented.find doc dotkey).map (Element.number documented.asDouble)).getD 0 := by
  refine readElement_eq documented (fun iter => ?_) doc dotkey
  rw [documented.type, documented.double]
  rfl

/-- For a path that leads to a document, `asObject` gives the one below its first key. -/
theorem asObject_eq {doc sub : Document Double} {dotkey : Str}
    (leads : lookup documented.find doc dotkey = some (.document sub)) :
    ∃ first, documented.find doc (Split.before 46 dotkey) = some first ∧
      asObject lib doc dotkey =
        match first with
        | .document members => .document members
        | _ => .unset := by
  have spec := descendant_spec documented doc dotkey
  simp only [leads] at spec
  obtain ⟨first, last, found, start, document⟩ := spec
  refine ⟨documented.element first, start, ?_⟩
  have type : lib.bson_iter_type last = .document := by
    rw [documented.type, document]
    rfl
  simp only [asObject, found, type, if_true]
  cases kind : documented.element first with
  | document members => rw [documented.document kind]
  | _ => rw [documented.no_document (by rw [kind]; nofun)]

/-- `asObject` gives a document, and the accessors find below it what they find below its
path. -/
structure Finds [Zero Double] (lib : Libbson Double) (doc sub : Document Double) (path : Str) :
    Prop where
  asObject : asObject lib doc path = .document sub
  asString : ∀ more, (Bson.asObject lib doc path).ask (Bson.asString lib) more =
    some (Bson.asString lib doc (path ++ 46 :: more))
  asInt64 : ∀ more, (Bson.asObject lib doc path).ask (Bson.asInt64 lib) more =
    some (Bson.asInt64 lib doc (path ++ 46 :: more))
  asNumber : ∀ more,
    (Bson.asObject lib doc path).ask (fun doc dotkey => Bson.asNumber lib doc dotkey) more =
      some (Bson.asNumber lib doc (path ++ 46 :: more))

/-- A path of one key leads to the document below it. -/
theorem asObject_one {doc sub : Document Double} {path : Str} (one : 46 ∉ path)
    (leads : lookup documented.find doc path = some (.document sub)) :
    asObject lib doc path = .document sub := by
  obtain ⟨first, found, object⟩ := asObject_eq documented leads
  rw [lookup, List.splitOn_eq_singleton one, Element.walk, List.foldlM_cons] at leads
  rw [Split.before_eq_self one] at found
  obtain ⟨last, step, ends⟩ := Option.bind_eq_some_iff.mp leads
  cases ends
  have same : first = .document sub := Option.some_inj.mp (found.symm.trans step)
  rw [object, same]

/-- On a longer path, what is below the first key has more in it. -/
theorem asObject_deep {doc sub : Document Double} {path : Str} (deep : 46 ∈ path)
    (leads : lookup documented.find doc path = some (.document sub)) :
    asObject lib doc path ≠ .document sub := by
  obtain ⟨first, found, object⟩ := asObject_eq documented leads
  obtain ⟨front, back, rfl, none⟩ := List.eq_append_cons_of_mem deep
  rw [Split.before_append none] at found
  rw [lookup, List.splitOn_append_cons_self_of_not_mem none, Element.walk,
    List.foldlM_cons] at leads
  obtain ⟨next, step, walks⟩ := Option.bind_eq_some_iff.mp leads
  obtain rfl : first = next := Option.some_inj.mp (found.symm.trans step)
  have smaller := walk_size documented.find_mem (List.splitOn_ne_nil 46 back) walks
  rw [object]
  intro same
  cases first with
  | document members =>
      cases same
      exact Nat.lt_irrefl _ smaller
  | _ => cases same

end Given

/-- The document at the end of a path is found exactly when the path is one key. -/
theorem finds_iff [Zero Double] {lib : Libbson Double} (documented : lib.Documented)
    {doc sub : Document Double} {path : Str}
    (leads : lookup documented.find doc path = some (.document sub)) :
    Finds lib doc sub path ↔ 46 ∉ path := by
  constructor
  · intro finds deep
    exact asObject_deep documented deep leads finds.asObject
  · intro one
    have object := asObject_one documented one leads
    refine ⟨object, fun more => ?_, fun more => ?_, fun more => ?_⟩
    all_goals rw [object, View.ask]
    · rw [asString_eq documented, asString_eq documented, lookup_append leads]
    · rw [asInt64_eq documented, asInt64_eq documented, lookup_append leads]
    · rw [asNumber_eq documented, asNumber_eq documented, lookup_append leads]

/-! ## Documents as trees -/

/-- An iterator over a tree, or at one of its elements. -/
inductive TreeIter (Double : Type) where
  | fresh (doc : Document Double)
  | on (element : Element Double)

def TreeIter.element : TreeIter Double → Element Double
  | .fresh _ => .other
  | .on element => element

/-- The first member with a key. -/
def treeFind (members : Document Double) (key : Str) : Option (Element Double) :=
  (members.find? (·.1 = key)).map Prod.snd

/-- libbson on trees. -/
def treeLib (asDouble : Element Double → Double) : Libbson Double where
  Iter := TreeIter Double
  bson_iter_init doc := some (.fresh doc)
  bson_iter_find_descendant
    | .fresh doc, dotkey => do
        let first ← treeFind doc (Split.before 46 dotkey)
        let last ← lookup treeFind doc dotkey
        some (.on first, .on last)
    | .on _, _ => none
  bson_iter_type iter := iter.element.type
  bson_iter_utf8 iter := iter.element.string
  bson_iter_as_int64 iter := iter.element.long
  bson_iter_as_double iter := asDouble iter.element
  bson_iter_document iter :=
    match iter.element with
    | .document members => some members
    | _ => none

def treeDocumented (asDouble : Element Double → Double) : (treeLib asDouble).Documented where
  element := TreeIter.element
  find := treeFind
  asDouble := asDouble
  find_mem {members key element} found := by
    obtain ⟨⟨other, member⟩, first, rfl⟩ := Option.map_eq_some_iff.mp found
    have same := List.find?_some first
    have same : other = key := of_decide_eq_true same
    exact same ▸ List.mem_of_find?_eq_some first
  init doc := ⟨_, rfl⟩
  missing {doc iter dotkey} started missing := by
    cases started
    simp only [treeLib, missing]
    cases treeFind doc (Split.before 46 dotkey) <;> rfl
  found {doc iter dotkey value} started leads := by
    cases started
    obtain ⟨pieces, split⟩ := Split.splitOn_eq_before 46 dotkey
    have walks := leads
    rw [lookup, split, Element.walk, List.foldlM_cons] at walks
    obtain ⟨first, step, _⟩ := Option.bind_eq_some_iff.mp walks
    have step : treeFind doc (Split.before 46 dotkey) = some first := step
    exact ⟨.on first, .on value, by simp [treeLib, step, leads], step, rfl⟩
  type _ := rfl
  utf8 {iter text} kind := by
    simp only [treeLib, kind]
    rfl
  int64 {iter value} kind := by
    simp only [treeLib, kind]
    rfl
  double _ := rfl
  document {iter members} kind := by
    simp only [treeLib, kind]
  no_document {iter} other := by
    cases kind : iter.element with
    | document members => exact absurd (by rw [kind]; rfl) other
    | _ => simp only [treeLib, kind]

/-- `{a: {b: {c: "x"}}}`. -/
def sampleDocument : Document Float :=
  [([97], .document [([98], .document [([99], .utf8 [120])])])]

def sampleLib : Libbson Float := treeLib fun _ => 0

theorem finds_one :
    Finds sampleLib sampleDocument [([98], .document [([99], .utf8 [120])])] [97] :=
  (finds_iff (treeDocumented fun _ => 0) rfl).mpr (by decide)

/-- On the path `a.b`, what is below `a` is given. -/
theorem finds_fails :
    ¬∀ (Double : Type) [Zero Double] (lib : Libbson Double) (documented : lib.Documented)
      (doc sub : Document Double) (path : Str),
      lookup documented.find doc path = some (.document sub) → Finds lib doc sub path := by
  intro every
  have finds := every Float sampleLib (treeDocumented fun _ => 0) sampleDocument
    [([99], .utf8 [120])] [97, 46, 98] rfl
  have lost := finds.asString [99]
  have found : asString sampleLib sampleDocument ([97, 46, 98] ++ 46 :: [99]) = [120] := rfl
  have empty : (asObject sampleLib sampleDocument [97, 46, 98]).ask (asString sampleLib) [99] =
      some [] := rfl
  rw [empty, found] at lost
  cases lost

end Nicenet.Bson
