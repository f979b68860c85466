import Integris.Effect
import Integris.Sha256

/-! The primitives of `internal/crypto`. HMAC and HKDF are computed from SHA-256;
ChaCha20-Poly1305 lies outside the repository and is a parameter, `Aead`. -/
namespace Integris

/-- The `Error` type the crypto, session and protocol packages each declare. -/
structure Failure where
  code : String
  message : String
  deriving DecidableEq, Repr

def Failure.text (e : Failure) : String := e.code ++ ": " ++ e.message

/-- Refuse with `code` and `message` unless the condition holds. -/
def check (p : Prop) [Decidable p] (code message : String) : Except Failure Unit :=
  demand p ⟨code, message⟩

theorem check_bind_ok {p : Prop} [Decidable p] {code message : String} {rest : Unit → Except Failure α} {r : α} :
    (check p code message >>= rest) = .ok r ↔ p ∧ rest () = .ok r := by
  by_cases h : p <;> simp [check,demand,h,bind,Except.bind]

abbrev SessionID := Fixed 16

namespace Crypto

/-- `cipher.AEAD` keyed: key, nonce, associated data, then the text. -/
structure Aead where
  encrypt : Bytes → Bytes → Bytes → Bytes → Bytes
  decrypt : Bytes → Bytes → Bytes → Bytes → Option Bytes

def suiteIDAEAD : Bytes := ascii "integris-session-aead-chacha20poly1305-v1"
def suiteIDPeerAuth : Bytes := ascii "integris-peer-auth-hmac-sha256-v1"
def suiteIDArchiveAuth : Bytes := ascii "integris-archive-auth-hmac-sha256-v1"

def aeadNonceSize : Nat := 12
def aeadKeySize : Nat := 32
def hashSize : Nat := 32
def hashBlock : Nat := 64

def hmacSHA256 (key msg : Bytes) : Bytes :=
  let short := if hashBlock < key.length then (sha256 key).val else key
  let block := short ++ List.replicate (hashBlock - short.length) 0
  (sha256 (block.map (· ^^^ 0x5c) ++ (sha256 (block.map (· ^^^ 0x36) ++ msg)).val)).val

@[simp] theorem hmacSHA256_length (key msg : Bytes) : (hmacSHA256 key msg).length = 32 := (sha256 _).property

/-- The expansion loop; the one-byte counter is checked after it is advanced. -/
def hkdfExpand (prk info : Bytes) (length : Nat) :
    Nat → UInt8 → Bytes → Bytes → Except Failure Bytes
  | 0, _, _, out => .ok (out.take length)
  | fuel + 1, counter, prev, out =>
    if out.length < length then
      let next := hmacSHA256 prk (prev ++ info ++ [counter])
      if counter + 1 = 0 then .error ⟨"expand", "HKDF counter overflow"⟩
      else hkdfExpand prk info length fuel (counter + 1) next (out ++ next)
    else .ok (out.take length)

/-- `salt = none` is Go's nil salt. At most 255 rounds can run. -/
def hkdfSHA256 (ikm : Bytes) (salt : Option Bytes) (info : Bytes) (length : Nat) :
    Except Failure Bytes :=
  if length = 0 ∨ 255 * hashSize < length then
    .error ⟨"length", "invalid HKDF length " ++ toString length⟩
  else
    let prk := hmacSHA256 (salt.getD (List.replicate hashSize 0)) ikm
    hkdfExpand prk info length 255 1 [] []

private theorem hkdfExpand_block (prk info : Bytes) (fuel : Nat) :
    hkdfExpand prk info 32 (fuel + 2) 1 [] [] = .ok (hmacSHA256 prk (info ++ [1])) := by
  simp [hkdfExpand,List.take_of_length_le]

/-- One block of output never reaches the counter check's failure. -/
theorem hkdfSHA256_block (ikm : Bytes) (salt : Option Bytes) (info : Bytes) : hkdfSHA256 ikm salt info 32 = .ok
      (hmacSHA256 (hmacSHA256 (salt.getD (List.replicate 32 0)) ikm) (info ++ [1])) := by
  have range : ¬(32 = 0 ∨ 255 * hashSize < 32) := by decide
  rw [hkdfSHA256,if_neg range]
  exact hkdfExpand_block _ info 253

variable (rootKey info : Bytes)

/-- `TrafficKey`, `PeerAuthKey`, `ArchiveAuthKey` and `ChannelMACKey` all derive 32
bytes from a root key and a purpose string. -/
def deriveKey : Except Failure Bytes :=
  if rootKey.length < 16 then .error ⟨"key", "root key must be at least 16 bytes"⟩
  else hkdfSHA256 rootKey none info 32

def derived : Bytes :=
  hmacSHA256 (hmacSHA256 (List.replicate 32 0) rootKey) (info ++ [1])

@[simp] theorem derived_length : (derived rootKey info).length = 32 := hmacSHA256_length _ _

theorem deriveKey_ok {rootKey : Bytes} (long : 16 ≤ rootKey.length) (info : Bytes) :
    deriveKey rootKey info = .ok (derived rootKey info) := by
  simp [deriveKey,hkdfSHA256_block,derived,Nat.not_lt.mpr long]

theorem deriveKey_length {rootKey info key : Bytes} (h : deriveKey rootKey info = .ok key) : key.length = 32 := by
  unfold deriveKey at h
  split at h
  · contradiction
  · rw [hkdfSHA256_block] at h
    cases h
    exact hmacSHA256_length _ _

def channelMACKey (rootKey roleA roleB : Bytes) : Except Failure Bytes :=
  if rootKey.length < 16 then .error ⟨"key", "root key must be at least 16 bytes"⟩
  else if roleA = [] ∨ roleB = [] then .error ⟨"role", "empty role"⟩
  else if roleA = roleB then .error ⟨"role", "roles must differ"⟩
  else
    let lo := if roleB < roleA then roleB else roleA
    let hi := if roleB < roleA then roleA else roleB
    deriveKey rootKey (ascii "integris-ipc-mac-v1" ++ 0 :: lo ++ 0 :: hi)

def peerAuthKey (rootKey : Bytes) (sessionID : SessionID) : Except Failure Bytes :=
  deriveKey rootKey (suiteIDPeerAuth ++ 0 :: sessionID.val)

def archiveAuthKey (rootKey : Bytes) (sessionID : SessionID) : Except Failure Bytes :=
  deriveKey rootKey (suiteIDArchiveAuth ++ 0 :: sessionID.val)

def trafficKey (rootKey : Bytes) (transcriptDig : Digest) (sessionID : SessionID)
    (suite : Bytes) : Except Failure Bytes :=
  if suite ≠ suiteIDAEAD then .error ⟨"suite", "unsupported suite " ++ text suite⟩
  else deriveKey rootKey (suite ++ 0 :: sessionID.val ++ transcriptDig.val)

def i2r : Bytes := ascii "i2r"
def r2i : Bytes := ascii "r2i"

variable (authKey : Bytes) (transcriptDig : Digest) (sessionID : SessionID)

def peerAuthProof (direction : Bytes) : Except Failure Bytes :=
  if authKey.length < 16 then .error ⟨"key", "auth key too short"⟩
  else if direction ≠ i2r ∧ direction ≠ r2i then
    .error ⟨"direction", "direction must be i2r or r2i"⟩
  else .ok (hmacSHA256 authKey
    (suiteIDPeerAuth ++ 0 :: sessionID.val ++ transcriptDig.val ++ direction))

def verifyPeerAuthProof (direction proof : Bytes) : Except Failure Unit := do
  let want ← peerAuthProof authKey transcriptDig sessionID direction
  if want ≠ proof then .error ⟨"auth", "peer auth proof mismatch"⟩ else .ok ()

def archiveAuthProof :
    Except Failure Bytes :=
  if authKey.length < 16 then .error ⟨"key", "auth key too short"⟩
  else .ok (hmacSHA256 authKey (suiteIDArchiveAuth ++ 0 :: sessionID.val ++ transcriptDig.val))

def verifyArchiveAuthProof (proof : Bytes) : Except Failure Unit := do
  let want ← archiveAuthProof authKey transcriptDig sessionID
  if want ≠ proof then .error ⟨"auth", "archive auth proof mismatch"⟩ else .ok ()

/-- Four zero bytes, then the sequence number big-endian. -/
def sequenceNonce (seq : Nat) : Bytes := List.replicate 4 0 ++ beBytes 8 seq

@[simp] theorem sequenceNonce_length (seq : Nat) : (sequenceNonce seq).length = aeadNonceSize := by
  simp [sequenceNonce,aeadNonceSize]

theorem sequenceNonce_injective {a b : Nat} (ha : a < 2 ^ 64) (hb : b < 2 ^ 64)
    (same : sequenceNonce a = sequenceNonce b) : a = b :=
  beBytes_injective ha hb (List.append_cancel_left same)

def sealBody (aead : Aead) (key nonce aad plaintext : Bytes) : Except Failure Bytes :=
  if key.length ≠ aeadKeySize then .error ⟨"key", "AEAD key must be 32 bytes"⟩
  else if nonce.length ≠ aeadNonceSize then .error ⟨"nonce", "want 12 bytes"⟩
  else if 2 ^ 20 < plaintext.length then .error ⟨"limit", "plaintext too large"⟩
  else .ok (aead.encrypt key nonce aad plaintext)

def openBody (aead : Aead) (key nonce aad ciphertext : Bytes) : Except Failure Bytes :=
  if key.length ≠ aeadKeySize then .error ⟨"key", "AEAD key must be 32 bytes"⟩
  else if nonce.length ≠ aeadNonceSize then .error ⟨"nonce", "want 12 bytes"⟩
  else match aead.decrypt key nonce aad ciphertext with
    | none => .error ⟨"auth", "AEAD open failed"⟩
    | some plaintext => .ok plaintext

/-- The running hash is determined by the bytes written to it. -/
structure Transcript where
  written : Bytes
  deriving DecidableEq, Repr

namespace Transcript

def new : Transcript := ⟨[]⟩

def append (t : Transcript) (label data : Bytes) : Except Failure Transcript :=
  if label = [] then .error ⟨"label", "empty label"⟩
  else if 65535 < label.length ∨ 2 ^ 20 < data.length then
    .error ⟨"limit", "label or data too large"⟩
  else .ok ⟨t.written ++ leBytes 4 label.length ++ label ++ leBytes 4 data.length ++ data⟩

def digest (t : Transcript) : Digest := sha256 t.written

end Transcript

end Crypto

end Integris
