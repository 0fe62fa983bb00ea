import Nicenet.Handshake.Honest

/-!
# The check of a challenge

`checkServerSign` as it is written: two loops that compare, the hash, the signature and the
window around the time of the server. The two copies differ in the offsets at which they
read. Near both ends of the range of a `ui64` one side of the window wraps, and a clock that
is right is taken for one that is off.
-/

namespace Nicenet

open Library

namespace ServerSign

variable (transport : Transport) (crypto : Crypto)

/-- The first loop: whether the bytes of two keys agree, up to the first that do not. -/
def sameKey (m_publicKey data_ : List UInt8) : Bool :=
  (List.range publicKeySize).all fun i => m_publicKey[i]? == data_[i]?

/-- The second loop: whether the words of two hashes agree. -/
def sameHash (checkHash data_ : List UInt8) : Bool :=
  (List.range (hashSize / 8)).foldl (fun allSame i =>
    if readLong checkHash (8 * i) ≠ readLong data_ (transport.headSize + 8 * i) then false
    else allSame) true

/-- `checkServerSign` of a session with the key `m_publicKey`, at the time `nNow`. -/
def checkServerSign (m_publicKey : List UInt8) (nNow : UInt64) (data_ : List UInt8) : Nat :=
  if sameKey m_publicKey data_ then 1
  else
    let serverTime := readLong data_ publicKeySize
    let ret := if nNow > serverTime + 10 ∨ nNow < serverTime - 10 then 2 else 0
    let checkHash := crypto.sha3 (data_.take transport.headSize)
    if ¬sameHash transport checkHash data_ then 1
    else if ¬crypto.verify (data_.take publicKeySize)
        (Bytes.slice data_ transport.headSize hashSize)
        (Bytes.slice data_ (transport.headSize + hashSize) signSize) then 1
    else ret

/-! ## What is expected of it -/

/-- The key is the client's own, the hash is another one or the signature is not one of
the hash. -/
def Refused (m_publicKey data_ : List UInt8) : Prop :=
  m_publicKey = data_.take publicKeySize ∨
    crypto.sha3 (data_.take transport.headSize) ≠
      Bytes.slice data_ transport.headSize hashSize ∨
    ¬crypto.verify (data_.take publicKeySize)
      (Bytes.slice data_ transport.headSize hashSize)
      (Bytes.slice data_ (transport.headSize + hashSize) signSize)

/-- Two times that differ by more than ten seconds. -/
def Apart (serverTime nNow : UInt64) : Prop :=
  10 < (nNow.toNat - serverTime.toNat : Int).natAbs

/-- The window around a time lies within the range of a `ui64`. -/
def Inside (serverTime : UInt64) : Prop :=
  10 ≤ serverTime.toNat ∧ serverTime.toNat + 10 < 2 ^ 64

instance : DecidableRel Apart := fun _ _ => inferInstanceAs (Decidable (_ < _))

instance : DecidablePred Inside := fun _ => inferInstanceAs (Decidable (_ ∧ _))

instance (m_publicKey data_ : List UInt8) :
    Decidable (Refused transport crypto m_publicKey data_) :=
  inferInstanceAs (Decidable (_ ∨ _ ∨ _))

/-- A challenge is answered by 1 when it is refused, else by 2 when the times are apart,
else by 0. -/
def Answers (m_publicKey : List UInt8) (nNow : UInt64) (data_ : List UInt8) (ret : Nat) :
    Prop :=
  (ret = 1 ↔ Refused transport crypto m_publicKey data_) ∧
    (¬Refused transport crypto m_publicKey data_ →
      (ret = 2 ↔ Apart (readLong data_ publicKeySize) nNow) ∧
      (ret = 0 ↔ ¬Apart (readLong data_ publicKeySize) nNow))

variable {transport crypto} {m_publicKey data_ : List UInt8}

/-! ## The loops -/

theorem sameKey_iff (own : m_publicKey.length = publicKeySize)
    (full : publicKeySize ≤ data_.length) :
    sameKey m_publicKey data_ = true ↔ m_publicKey = data_.take publicKeySize := by
  have length : (data_.take publicKeySize).length = publicKeySize := by
    rw [List.length_take, Nat.min_eq_left full]
  rw [Bytes.eq_iff_bytes own length]
  simp only [sameKey, List.all_eq_true, List.mem_range, beq_iff_eq]
  refine forall₂_congr fun i inside => ?_
  rw [List.getElem?_take_of_lt inside]

/-- A flag that is only ever cleared. -/
theorem foldl_cleared {differs : Nat → Prop} [DecidablePred differs] {indices : List Nat}
    (flag : Bool) :
    indices.foldl (fun allSame i => if differs i then false else allSame) flag = true ↔
      flag = true ∧ ∀ i ∈ indices, ¬differs i := by
  induction indices generalizing flag with
  | nil => simp
  | cons i indices ih =>
      rw [List.foldl_cons, ih, List.forall_mem_cons]
      by_cases other : differs i <;> simp [other]

/-- Words read at two places are equal when their bytes are. -/
theorem readLong_inj {first second : List UInt8} {offset offset' : Nat}
    (inside : offset + 8 ≤ first.length) (inside' : offset' + 8 ≤ second.length) :
    readLong first offset = readLong second offset' ↔
      Bytes.slice first offset 8 = Bytes.slice second offset' 8 := by
  have length := Bytes.length_slice inside
  have length' := Bytes.length_slice inside'
  have bound := Bytes.toNat_lt (Bytes.slice first offset 8)
  have bound' := Bytes.toNat_lt (Bytes.slice second offset' 8)
  rw [length] at bound
  rw [length'] at bound'
  rw [← Bytes.toNat_inj (length.trans length'.symm), readLong, readLong, ← UInt64.toNat_inj,
    UInt64.toNat_ofNat_of_lt' bound, UInt64.toNat_ofNat_of_lt' bound']

theorem sameHash_iff {checkHash : List UInt8} (size : checkHash.length = hashSize)
    (full : transport.headSize + hashSize ≤ data_.length) :
    sameHash transport checkHash data_ = true ↔
      checkHash = Bytes.slice data_ transport.headSize hashSize := by
  have length := Bytes.length_slice full
  have words : hashSize = 8 * (hashSize / 8) := by
    decide
  rw [Bytes.eq_iff_slices 8 (size.trans words) (length.trans words), sameHash, foldl_cleared]
  simp only [true_and, List.mem_range, ne_eq, Decidable.not_not]
  refine forall₂_congr fun i inside => ?_
  have within : 8 * i + 8 ≤ hashSize := by
    omega
  rw [readLong_inj (by omega) (by omega)]
  have field : Bytes.slice data_ (transport.headSize + 8 * i) 8 =
      Bytes.slice (Bytes.slice data_ transport.headSize hashSize) (8 * i) 8 := by
    rw [Bytes.slice, Bytes.slice, Bytes.slice, List.drop_take, List.take_take,
      Nat.min_eq_left (by omega), List.drop_drop]
  rw [field]

/-! ## The answer -/

/-- A window that leaves the range of a `ui64` holds no time at all. -/
theorem window_iff {serverTime nNow : UInt64} :
    (nNow > serverTime + 10 ∨ nNow < serverTime - 10) ↔
      ¬Inside serverTime ∨ Apart serverTime nNow := by
  have bound := nNow.toNat_lt
  have bound' := serverTime.toNat_lt
  have ten : (10 : UInt64).toNat = 10 := rfl
  rw [gt_iff_lt, UInt64.lt_iff_toNat_lt, UInt64.lt_iff_toNat_lt, UInt64.toNat_add,
    UInt64.toNat_sub, ten, Inside, Apart]
  omega

/-- On full blocks of memory, the loops compare what they are written to compare. -/
theorem checkServerSign_eq (own : m_publicKey.length = publicKeySize)
    (size : (crypto.sha3 (data_.take transport.headSize)).length = hashSize)
    (full : data_.length = transport.headSize + hashSize + signSize) (nNow : UInt64) :
    checkServerSign transport crypto m_publicKey nNow data_ =
      if Refused transport crypto m_publicKey data_ then 1
      else if ¬Inside (readLong data_ publicKeySize) ∨
          Apart (readLong data_ publicKeySize) nNow then 2
      else 0 := by
  have key : publicKeySize ≤ data_.length := by
    cases transport <;> simp only [full, Transport.headSize] <;> omega
  have hash : transport.headSize + hashSize ≤ data_.length := by
    omega
  simp only [checkServerSign, sameKey_iff own key, sameHash_iff size hash, window_iff]
  by_cases same : m_publicKey = data_.take publicKeySize
  · rw [if_pos same, if_pos (.inl same)]
  · rw [if_neg same]
    by_cases other : crypto.sha3 (data_.take transport.headSize) =
        Bytes.slice data_ transport.headSize hashSize
    · simp only [Refused, same, other, not_true_eq_false, if_false, ne_eq, false_or]
    · rw [if_pos other, if_pos (.inr (.inl other))]

/-- Of a server, the check is the one its handshake makes. -/
theorem checkServerSign_client (genuine : crypto.Genuine) (client : Server crypto)
    (full : data_.length = transport.headSize + hashSize + signSize) (nNow : UInt64) :
    checkServerSign transport crypto client.publicKey nNow data_ =
      Nicenet.checkServerSign transport client nNow data_ := by
  have key : publicKeySize ≤ data_.length := by
    cases transport <;> simp only [full, Transport.headSize] <;> omega
  simp only [checkServerSign, Nicenet.checkServerSign,
    sameKey_iff (client.length_publicKey genuine) key,
    sameHash_iff (genuine.length_sha3 _) (show transport.headSize + hashSize ≤ data_.length by
      omega), ne_eq]

/-- To the challenge of a server with another key, the loops object by the time at most. -/
theorem checkServerSign_honest {server client : Server crypto} {first : Opened}
    (genuine : crypto.Genuine) (wrote : Openings.Wrote transport server first)
    (other : client.publicKey ≠ server.publicKey) (nNow : UInt64) :
    checkServerSign transport crypto client.publicKey nNow first.sent =
      if ¬Inside first.time ∨ Apart first.time nNow then 2 else 0 := by
  obtain ⟨-, _, written⟩ := id wrote
  rw [checkServerSign_client genuine client (length_challenge genuine written),
    Openings.checkServerSign_eq genuine wrote other]
  simp only [window_iff]

/-- A challenge is answered as expected exactly when it is refused anyway, the window around
the time of the server does not wrap, or the times are apart. -/
theorem checkServerSign_answers_iff (transport : Transport) (crypto : Crypto)
    (sizes : ∀ data, (crypto.sha3 data).length = hashSize)
    (m_publicKey data_ : List UInt8) (nNow : UInt64)
    (own : m_publicKey.length = publicKeySize)
    (full : data_.length = transport.headSize + hashSize + signSize) :
    Answers transport crypto m_publicKey nNow data_
        (checkServerSign transport crypto m_publicKey nNow data_) ↔
      Refused transport crypto m_publicKey data_ ∨ Inside (readLong data_ publicKeySize) ∨
        Apart (readLong data_ publicKeySize) nNow := by
  rw [checkServerSign_eq own (sizes _) full]
  by_cases refused : Refused transport crypto m_publicKey data_
  · simp [Answers, refused]
  · by_cases apart : Apart (readLong data_ publicKeySize) nNow
    · simp [Answers, refused, apart]
    · by_cases inside : Inside (readLong data_ publicKeySize)
      · simp [Answers, refused, apart, inside]
      · simp [Answers, refused, apart, inside]

/-- A challenge that the sample server made at some second. -/
def sampleChallenge (time : UInt64) : List UInt8 :=
  (challenge .tcp Openings.sampleServer time 0 0).getD []

/-- A challenge made at second 20 and checked at second 31. -/
theorem answers_late :
    Answers .tcp Openings.sample Openings.sampleClient.publicKey 31 (sampleChallenge 20)
      (checkServerSign .tcp Openings.sample Openings.sampleClient.publicKey 31
        (sampleChallenge 20)) :=
  (checkServerSign_answers_iff .tcp Openings.sample Openings.sample_genuine.length_sha3
    Openings.sampleClient.publicKey (sampleChallenge 20) 31 (by decide +kernel)
    (by decide +kernel)).mpr (.inr (.inl (by decide +kernel)))

/-- At second 3, a challenge made at second 5 is taken for one whose time is off. -/
theorem answers_early_fails :
    ¬∀ (transport : Transport) (crypto : Crypto),
      (∀ data, (crypto.sha3 data).length = hashSize) →
      ∀ (m_publicKey data_ : List UInt8) (nNow : UInt64),
        m_publicKey.length = publicKeySize →
        data_.length = transport.headSize + hashSize + signSize →
        Answers transport crypto m_publicKey nNow data_
          (checkServerSign transport crypto m_publicKey nNow data_) := by
  intro every
  have answers := every .tcp Openings.sample Openings.sample_genuine.length_sha3
    Openings.sampleClient.publicKey (sampleChallenge 5) 3 (by decide +kernel)
    (by decide +kernel)
  have off : checkServerSign .tcp Openings.sample Openings.sampleClient.publicKey 3
      (sampleChallenge 5) = 2 := by
    decide +kernel
  have accepted : ¬Refused .tcp Openings.sample Openings.sampleClient.publicKey
      (sampleChallenge 5) := by
    decide +kernel
  have close : ¬Apart (readLong (sampleChallenge 5) publicKeySize) 3 := by
    decide +kernel
  exact close ((answers.2 accepted).1.mp off)

end ServerSign

end Nicenet
