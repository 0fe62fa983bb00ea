import Nicenet.Message

/-!
# The handshake

A server opens a session with a challenge: its public key, the time and, over KCP,
the conversation number, then the hash of these bytes and its signature of the hash.
The client answers with its own public key and its signature of the same hash.

`sha3` and the functions of `uECC` are parameters. The two transports differ in the
conversation number and in the byte in front of a KCP reply; each function is written
once, with the transport as an argument, and named for both below.
-/

namespace Nicenet

open Library

def publicKeySize : Nat := 64
def hashSize : Nat := 32
def signSize : Nat := 64

/-- `sha3` and `uECC` over `secp256k1`. `sign` draws a random number and may fail. -/
structure Crypto where
  sha3 : List UInt8 → List UInt8
  publicKey : List UInt8 → List UInt8
  sign : List UInt8 → List UInt8 → Nat → Option (List UInt8)
  verify : List UInt8 → List UInt8 → List UInt8 → Bool

/-- Sizes as documented, and signatures that are accepted for the hash they were made
for and for no other. -/
structure Crypto.Genuine (crypto : Crypto) : Prop where
  length_sha3 : ∀ data, (crypto.sha3 data).length = hashSize
  length_publicKey : ∀ privateKey, (crypto.publicKey privateKey).length = publicKeySize
  length_sign : ∀ {privateKey hash nonce signature},
    crypto.sign privateKey hash nonce = some signature → signature.length = signSize
  verify_sign : ∀ {privateKey hash nonce signature other},
    hash.length = hashSize → other.length = hashSize →
    crypto.sign privateKey hash nonce = some signature →
    (crypto.verify (crypto.publicKey privateKey) other signature = true ↔ other = hash)

/-- `Server`: a pair of keys, as `uECC_make_key` makes them. -/
structure Server (crypto : Crypto) where
  privateKey : List UInt8
  publicKey : List UInt8
  paired : publicKey = crypto.publicKey privateKey

/-- The part of a challenge that only KCP has. -/
def Transport.conv : Transport → UInt32 → List UInt8
  | .tcp, _ => []
  | .kcp, conv => wordBytes conv

/-- The bytes of a challenge in front of its hash. -/
def Transport.headSize : Transport → Nat
  | .tcp => publicKeySize + 8
  | .kcp => publicKeySize + 8 + 4

/-- The byte in front of a reply. -/
def Transport.tag : Transport → List UInt8
  | .tcp => []
  | .kcp => [2]

/-- The bytes of a `ui64`. -/
def longBytes (long : UInt64) : List UInt8 := Bytes.ofNat 8 long.toNat

/-- The `ui64` in a block of memory. -/
def readLong (memory : List UInt8) (offset : Nat) : UInt64 :=
  UInt64.ofNat (Bytes.toNat (Bytes.slice memory offset 8))

section Handshake

variable (transport : Transport) {crypto : Crypto}

/-- What the hash of a challenge is taken of. -/
def challengeHead (server : Server crypto) (now : UInt64) (conv : UInt32) : List UInt8 :=
  server.publicKey ++ longBytes now ++ transport.conv conv

def challengeHash (server : Server crypto) (now : UInt64) (conv : UInt32) : List UInt8 :=
  crypto.sha3 (challengeHead transport server now conv)

/-- `init` of a session: the challenge it sends, unless it cannot be signed. -/
def challenge (server : Server crypto) (now : UInt64) (conv : UInt32) (nonce : Nat) :
    Option (List UInt8) :=
  (crypto.sign server.privateKey (challengeHash transport server now conv) nonce).map
    fun signature => challengeHead transport server now conv ++
      challengeHash transport server now conv ++ signature

/-- `checkServerSign`: 0 for a challenge in order, 1 for one that is refused and 2 for
one whose time is off. -/
def checkServerSign (client : Server crypto) (now : UInt64) (data_ : List UInt8) : Nat :=
  if client.publicKey = data_.take publicKeySize then 1
  else
    let serverTime := readLong data_ publicKeySize
    let ret := if now > serverTime + 10 ∨ now < serverTime - 10 then 2 else 0
    let hash := Bytes.slice data_ transport.headSize hashSize
    let signature := Bytes.slice data_ (transport.headSize + hashSize) signSize
    if crypto.sha3 (data_.take transport.headSize) ≠ hash then 1
    else if ¬crypto.verify (data_.take publicKeySize) hash signature then 1
    else ret

/-- `init` of a client: the reply to the challenge it has received. -/
def reply (client : Server crypto) (now : UInt64) (received : List UInt8) (nonce : Nat) :
    Option (List UInt8) :=
  let size := transport.headSize + hashSize + signSize
  if received.length < size then none
  else
    let data_ := received.take size
    if checkServerSign transport client now data_ = 1 then none
    else
      (crypto.sign client.privateKey (Bytes.slice data_ transport.headSize hashSize)
        nonce).map fun signature => transport.tag ++ client.publicKey ++ signature

/-- `checkSign`, and the same test in `TcpSessionS::init2`: a key other than the
server's and a signature of the hash by it. -/
def checkSign (server : Server crypto) (data_ hash_ : List UInt8) : Bool :=
  if server.publicKey = data_.take publicKeySize then false
  else
    crypto.verify (data_.take publicKeySize) hash_
      (Bytes.slice data_ publicKeySize signSize)

/-- What a session with a hash makes of a packet: the uid of the client, when the
packet is long enough and its signature is accepted. -/
def accept (server : Server crypto) (hash_ packet : List UInt8) : Option (List UInt8) :=
  if packet.length < transport.tag.length + publicKeySize + signSize then none
  else if packet.take transport.tag.length ≠ transport.tag then none
  else
    let data_ := packet.drop transport.tag.length
    if checkSign server data_ hash_ then some (data_.take publicKeySize) else none

end Handshake

/-! ## The functions of both transports -/

section Named

variable {crypto : Crypto}

abbrev TcpSessionS.init (server : Server crypto) (now : UInt64) (nonce : Nat) :=
  challenge .tcp server now 0 nonce

abbrev KcpSessionS.init (server : Server crypto) (now : UInt64) (m_conv : UInt32)
    (nonce : Nat) :=
  challenge .kcp server now m_conv nonce

abbrev TcpSessionC.checkServerSign (client : Server crypto) :=
  Nicenet.checkServerSign .tcp client

abbrev KcpSessionC.checkServerSign (client : Server crypto) :=
  Nicenet.checkServerSign .kcp client

abbrev TcpSessionC.init (client : Server crypto) := reply .tcp client

abbrev KcpSessionC.init (client : Server crypto) := reply .kcp client

abbrev TcpSessionS.init2 (server : Server crypto) := accept .tcp server

end Named

/-! ## The layout of a challenge -/

section Layout

variable {transport : Transport} {crypto : Crypto} {server : Server crypto}
variable {now : UInt64} {conv : UInt32}

@[simp] theorem length_longBytes (long : UInt64) : (longBytes long).length = 8 := by
  simp [longBytes]

theorem Server.length_publicKey (genuine : crypto.Genuine) (server : Server crypto) :
    server.publicKey.length = publicKeySize := by
  rw [server.paired, genuine.length_publicKey]

@[simp] theorem length_challengeHead (genuine : crypto.Genuine) :
    (challengeHead transport server now conv).length = transport.headSize := by
  cases transport <;>
    simp [challengeHead, Transport.conv, Transport.headSize, server.length_publicKey genuine]

@[simp] theorem length_challengeHash (genuine : crypto.Genuine) :
    (challengeHash transport server now conv).length = hashSize :=
  genuine.length_sha3 _

/-- A challenge is the head, the hash and a signature of the hash. -/
theorem challenge_eq_some {nonce : Nat} {sent : List UInt8} :
    challenge transport server now conv nonce = some sent ↔
      ∃ signature,
        crypto.sign server.privateKey (challengeHash transport server now conv) nonce =
          some signature ∧
        challengeHead transport server now conv ++
          challengeHash transport server now conv ++ signature = sent := by
  rw [challenge, Option.map_eq_some_iff]

variable {nonce : Nat} {sent : List UInt8}

theorem length_challenge (genuine : crypto.Genuine)
    (written : challenge transport server now conv nonce = some sent) :
    sent.length = transport.headSize + hashSize + signSize := by
  obtain ⟨signature, signed, rfl⟩ := challenge_eq_some.mp written
  rw [List.length_append, List.length_append, length_challengeHead genuine,
    length_challengeHash genuine, genuine.length_sign signed]

theorem challenge_head (genuine : crypto.Genuine)
    (written : challenge transport server now conv nonce = some sent) :
    sent.take transport.headSize = challengeHead transport server now conv := by
  obtain ⟨signature, _, rfl⟩ := challenge_eq_some.mp written
  rw [List.append_assoc, ← length_challengeHead genuine, List.take_left]

theorem challenge_publicKey (genuine : crypto.Genuine)
    (written : challenge transport server now conv nonce = some sent) :
    sent.take publicKeySize = server.publicKey := by
  obtain ⟨signature, _, rfl⟩ := challenge_eq_some.mp written
  simp only [challengeHead, List.append_assoc]
  rw [← server.length_publicKey genuine, List.take_left]

theorem challenge_hash (genuine : crypto.Genuine)
    (written : challenge transport server now conv nonce = some sent) :
    Bytes.slice sent transport.headSize hashSize =
      challengeHash transport server now conv := by
  obtain ⟨signature, _, rfl⟩ := challenge_eq_some.mp written
  exact Bytes.slice_append _ (length_challengeHead genuine) (length_challengeHash genuine)

/-- The signature in a challenge is one of its hash. -/
theorem challenge_signature (genuine : crypto.Genuine)
    (written : challenge transport server now conv nonce = some sent) :
    crypto.sign server.privateKey (challengeHash transport server now conv) nonce =
      some (Bytes.slice sent (transport.headSize + hashSize) signSize) := by
  obtain ⟨signature, signed, rfl⟩ := challenge_eq_some.mp written
  have before : (challengeHead transport server now conv ++
      challengeHash transport server now conv).length = transport.headSize + hashSize := by
    rw [List.length_append, length_challengeHead genuine, length_challengeHash genuine]
  have field := Bytes.slice_append [] before (genuine.length_sign signed)
  rw [List.append_nil] at field
  rw [field, signed]

end Layout

end Nicenet
