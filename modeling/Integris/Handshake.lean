import Integris.Driver

/-! The key handshake of `internal/remotesync`: both ends over a byte stream. A run is
given everything the peer or the network will ever send; running past the end of
it is a transport error. Deadlines and write errors are left out: they only abort. -/
namespace Integris.Remote

open Session Crypto Protocol Prog

inductive Kind where
  | invalidArgument
  | handshake
  | transport
  | protocol
  | auth
  | apply
  | internal
  deriving DecidableEq, Repr

structure RemoteError where
  kind : Kind
  message : String
  cause : Option Failure := none
  deriving DecidableEq, Repr

/-- One end of the connection. -/
structure Conn where
  inbound : Bytes
  outbound : Bytes := []
  deriving DecidableEq, Repr

/-- The cipher and the random session id of one run. -/
structure Env where
  aead : Aead
  sessionID : SessionID

abbrev Exchange := Prog Env Conn RemoteError

def rootKeySize : Nat := 32
def offeredVersions : List Version := [3, 2]

def readFull (n : Nat) (what : String) : Exchange Bytes := do
  let c ← get
  require (n ≤ c.inbound.length) { kind := .transport, message := what }
  modify fun c => { c with inbound := c.inbound.drop n }
  pure (c.inbound.take n)

/-- `ReadFrame`, given `io.ReadFull` on the connection. -/
def readFrameBy (readFull : Nat → String → Prog ρ σ RemoteError Bytes) : Prog ρ σ RemoteError Bytes := do
  let hdr ← readFull headerBytes "read header"
  require (slice hdr 0 8 = frameMagic) { kind := .protocol, message := "bad frame magic" }
  let bodyLen := leNat (slice hdr 14 18)
  require (bodyLen ≤ maxBodyBytes)
    { kind := .protocol, message := "body_length exceeds MaxBodyBytes" }
  let needMAC := leNat (slice hdr 12 14) % 2 = 1
  let rest ← readFull (bodyLen + if needMAC then authBytes else 0) "read body"
  pure (hdr ++ rest)

def readFrame : Exchange Bytes := readFrameBy readFull

def writeFrame (raw : Bytes) : Exchange Unit := do
  require (headerBytes ≤ raw.length) { kind := .protocol, message := "short frame write" }
  modify fun c => { c with outbound := c.outbound ++ raw }

/-- Call a method of the driver; its error is wrapped. -/
def drive (kind : Kind) (message : String) (m : Driver.Op α) (d : Driver) :
    Exchange (α × Driver) := fun env c =>
  match m env.aead d with
  | (.ok a, d') => (.ok (a, d'), c)
  | (.error e, _) => (.error { kind := kind, message := message, cause := some e }, c)
  | (.crashed, _) => (.crashed, c)

def wrapped (kind : Kind) (message : String) (x : Except Failure α) : Exchange α :=
  mapError (fun e => { kind := kind, message := message, cause := some e }) (ofExcept x)

def maxPeerIDLen : Nat := 64
def peerPrologueMagic : Bytes := ascii "INTPID01"

def validatePeerID (id : Bytes) : Except RemoteError Unit :=
  if id = [] then .error { kind := .invalidArgument, message := "empty peer id" }
  else if maxPeerIDLen < id.length then
    .error { kind := .invalidArgument, message := "peer id too long" }
  else if id.any fun c => c < 0x21 || 0x7e < c || c = 0x3d then
    .error { kind := .invalidArgument
             message := "peer id must be printable ASCII without '='" }
  else .ok ()

def writePeerPrologue (peerID : Bytes) : Exchange Unit := do
  ofExcept (validatePeerID peerID)
  modify fun c => { c with
    outbound := c.outbound ++ peerPrologueMagic ++ UInt8.ofNat peerID.length :: peerID }

/-- The channel key, bound to the peer selector when there is one. -/
def deriveMACKey (root peerID : Bytes) : Except Failure Bytes := do
  let base ← channelMACKey root (ascii "push") (ascii "serve")
  if peerID = [] then .ok base
  else hkdfSHA256 base none (ascii "integris-peer-id|" ++ peerID) 32

/-- Encode with `m`, then write. -/
def emit (kind : Kind) (message : String) (m : Driver.Op Bytes) (d : Driver) : Exchange Driver := do
  let (raw, d) ← drive kind message m d
  writeFrame raw
  pure d

/-- `send` of the source. -/
def sendFrame (typ : MessageType) (body : Bytes) (d : Driver) : Exchange Driver :=
  emit .protocol "encode" (Driver.encodeFrame typ body) d

/-- Call a method for its effect on the driver only. -/
def advance (kind : Kind) (message : String) (m : Driver.Op Unit) (d : Driver) : Exchange Driver := do
  let (_, d) ← drive kind message m d
  pure d

/-- Read one frame and handle it. -/
def await (kind : Kind) (message : String) (d : Driver) : Exchange Driver := do
  let raw ← readFrame
  let (_, d) ← drive kind message (Driver.decodeAndHandle raw) d
  pure d

def withAuthKeys (root dir : Bytes) (d : Driver) : Exchange Driver := do
  let authKey ← wrapped .auth "peer key" (peerAuthKey root d.sessionID)
  let archKey ← wrapped .auth "archive key" (archiveAuthKey root d.sessionID)
  pure { d with authKey := authKey, archiveKey := archKey, authDir := dir }

/-- `DialHandshake` up to the answer to its offer. -/
def dialNegotiation (root peerID : Bytes) : Exchange Driver := do
  require (root.length = rootKeySize)
    { kind := .invalidArgument, message := "root key must be 32 bytes" }
  when (peerID ≠ []) (writePeerPrologue peerID)
  let macKey ← wrapped .auth "mac key" (deriveMACKey root peerID)
  let env ← ask
  let alice := Driver.newWithSuites offeredVersions [suiteIDAEAD] env.sessionID macKey true
  let alice ← advance .handshake "negotiate local" (Driver.onSession negotiate) alice
  let alice ← emit .handshake "offer" (Driver.encodeNegotiateOffer offeredVersions) alice
  await .handshake "accept" alice

/-- The rest of `DialHandshake`. -/
def dialProofs (root : Bytes) (alice : Driver) : Exchange Driver := do
  let alice ← withAuthKeys root i2r alice
  let alice ← emit .auth "peer auth i2r" Driver.encodePeerAuth alice
  let alice ← await .auth "peer auth r2i" alice
  let alice ← emit .auth "archive auth" Driver.encodeArchiveAuth alice
  let alice ← advance .handshake "activate local" (Driver.onSession activate) alice
  let alice ← sendFrame .activate [] alice
  advance .auth "traffic key" (Driver.installTrafficKey root) alice

def dialHandshake (root peerID : Bytes) : Exchange Driver := dialNegotiation root peerID >>= dialProofs root

/-- `acceptHandshake` up to its answer to the offer. -/
def acceptNegotiation (root peerID : Bytes) : Exchange Driver := do
  require (root.length = rootKeySize)
    { kind := .invalidArgument, message := "root key must be 32 bytes" }
  let macKey ← wrapped .auth "mac key" (deriveMACKey root peerID)
  let raw ← readFrame
  let f ← wrapped .handshake "decode offer" (decode raw macKey true)
  let bob := Driver.newWithSuites offeredVersions [suiteIDAEAD] f.sessionID macKey true
  let bob ← advance .handshake "offer" (Driver.handle f) bob
  emit .handshake "accept" Driver.encodeNegotiateAccept bob

/-- The last frame and the traffic key. -/
def acceptLast (root : Bytes) (bob : Driver) : Exchange Driver := do
  let bob ← await .handshake "activate" bob
  advance .auth "traffic key" (Driver.installTrafficKey root) bob

/-- The rest of `acceptHandshake`. -/
def acceptProofs (root : Bytes) (bob : Driver) : Exchange Driver := do
  let bob ← withAuthKeys root r2i bob
  let bob ← await .auth "peer auth i2r" bob
  let bob ← emit .auth "peer auth r2i" Driver.encodePeerAuth bob
  let bob ← await .auth "archive auth" bob
  acceptLast root bob

def acceptHandshake (root peerID : Bytes) : Exchange Driver := acceptNegotiation root peerID >>= acceptProofs root

variable {d : Driver} {kind : Kind} {m : Driver.Op α} {message : String} {Q : Driver → Prop}

theorem wp_drive {env : Env} {c : Conn} {Q : α × Driver → Conn → Prop} {E : RemoteError → Conn → Prop} {C : Conn → Prop} :
    wp (drive kind message m d) env c Q E C ↔ wp m env.aead d (fun a d' => Q (a,d') c)
        (fun e _ => E { kind := kind, message := message, cause := some e } c) (fun _ => C c) := by
  simp only [wp,drive]
  rcases m env.aead d with ⟨_ | _ | _,_⟩ <;> rfl

theorem drive_ensures (h : ∀ aead, wlp m aead d (fun _ => Q)) :
    Ensures (drive kind message m d) fun r => Q r.2 :=
  fun env _ => wp_drive.mpr (h env.aead)

open Driver (SameLink)

theorem emit_ensures {m : Driver.Op Bytes} (emits : ∀ aead, Driver.Emits aead m) (d : Driver) :
    Ensures (emit kind message m d) (SameLink d.spend) := by
  refine (drive_ensures fun aead => ?_).bind fun r link => Ensures.after fun _ => Ensures.pure link
  exact (emits aead d).imp (fun _ _ h => h.link)

theorem await_ensures (kind : Kind) (message : String) (d : Driver) : Ensures (await kind message d) (SameLink d) := by
  refine Ensures.after fun raw => (drive_ensures fun aead => ?_).bind fun r link => Ensures.pure link
  exact (Driver.keeps_decodeAndHandle d raw d (.refl d)).imp (fun _ _ => id)

theorem withAuthKeys_ensures (root dir : Bytes) (d : Driver) : Ensures (withAuthKeys root dir d) (SameLink d) :=
  Ensures.after fun _ => Ensures.after fun _ => Ensures.pure ⟨rfl,rfl,rfl,rfl⟩

theorem advance_ensures {m : Driver.Op Unit} (h : ∀ aead, wlp m aead d (fun _ => Q)) :
    Ensures (advance kind message m d) Q :=
  (drive_ensures h).bind fun _ held => Ensures.pure held

theorem onSession_ensures (kind : Kind) (message : String) (m : Prog Aead Session Failure Unit)
    (d : Driver) : Ensures (advance kind message (Driver.onSession m) d) (SameLink d) :=
  advance_ensures fun _ => Driver.wp_onSession (fun _ s => .session d s) (fun _ _ => trivial)
    (fun _ => trivial)

/-- A driver whose traffic key is installed, with its next sequence. -/
structure Keyed (seq : Nat) (d : Driver) : Prop where
  sendSeq : d.sendSeq = seq
  key : d.aeadKey.length = aeadKeySize

theorem install_ensures (installed : d.session.state = .active → ∀ key : Bytes, key.length = aeadKeySize →
    Q { d with aeadKey := key }) (kind : Kind) (message : String) (root : Bytes) :
    Ensures (advance kind message (Driver.installTrafficKey root) d) Q := by
  refine advance_ensures fun aead => ?_
  simp only [Driver.installTrafficKey,wp_bind,wp_get,wp_require]
  refine ⟨fun active => ?_,fun _ => trivial⟩
  split
  · trivial
  · simp only [wp_bind,wp_require]
    refine ⟨fun _ => ?_,fun _ => trivial⟩
    split
    · trivial
    · simp only [Driver.setAEADKey,wp_bind,wp_require,wp_modify]
      exact ⟨installed active _,fun _ => trivial⟩

theorem install_keyed (root : Bytes) (d : Driver) :
    Ensures (advance .auth "traffic key" (Driver.installTrafficKey root) d) (Keyed d.sendSeq) :=
  install_ensures (fun _ _ size => ⟨rfl,size⟩) _ _ _

private theorem advanced {d d' : Driver} {n : Nat} (link : SameLink d.spend d') (at' : d.sendSeq = n)
    (small : n + 1 < 2 ^ 64) : d'.sendSeq = n + 1 := by
  rw [link.sendSeq,Driver.spend,at',Nat.mod_eq_of_lt small]

theorem dialHandshake_keyed (root peerID : Bytes) : Ensures (dialHandshake root peerID) (Keyed 5) := by
  simp only [dialHandshake,dialNegotiation,bind_bind]
  refine Ensures.after fun _ => Ensures.after fun _ => Ensures.after fun macKey => Ensures.after fun env => ?_
  refine (onSession_ensures _ _ _ _).bind fun d1 h1 => ?_
  refine (emit_ensures (fun _ => Driver.encodeNegotiateOffer_emits _) _).bind fun d2 h2 => ?_
  refine (await_ensures _ _ _).bind fun d3 h3 => ?_
  refine (withAuthKeys_ensures _ _ _).bind fun d4 h4 => ?_
  refine (emit_ensures (fun _ => Driver.encodeAuth_emits.1) _).bind fun d5 h5 => ?_
  refine (await_ensures _ _ _).bind fun d6 h6 => ?_
  refine (emit_ensures (fun _ => Driver.encodeAuth_emits.2) _).bind fun d7 h7 => ?_
  refine (onSession_ensures _ _ _ _).bind fun d8 h8 => ?_
  refine (emit_ensures (fun _ d => Driver.encodeFrame_emits _ _ (.refl d)) _).bind fun d9 h9 => ?_
  have s1 : d1.sendSeq = 1 := h1.sendSeq
  have s2 := advanced h2 s1 (by decide)
  have s5 := advanced h5 (h4.sendSeq.trans (h3.sendSeq.trans s2)) (by decide)
  have s7 := advanced h7 (h6.sendSeq.trans s5) (by decide)
  have s9 : d9.sendSeq = 5 := advanced h9 (h8.sendSeq.trans s7) (by decide)
  exact s9 ▸ install_keyed _ _

theorem acceptHandshake_keyed (root peerID : Bytes) : Ensures (acceptHandshake root peerID) (Keyed 3) := by
  simp only [acceptHandshake,acceptNegotiation,bind_bind]
  refine Ensures.after fun _ => Ensures.after fun macKey => Ensures.after fun raw => Ensures.after fun f => ?_
  have offer (d : Driver) : Ensures (advance .handshake "offer" (Driver.handle f) d) (SameLink d) :=
    advance_ensures fun _ => (Driver.keeps_handle d f d (.refl d)).imp (fun _ _ => id)
  refine (offer _).bind fun d1 h1 => ?_
  refine (emit_ensures (fun _ => Driver.encodeNegotiateAccept_emits) _).bind fun d2 h2 => ?_
  refine (withAuthKeys_ensures _ _ _).bind fun d3 h3 => ?_
  refine (await_ensures _ _ _).bind fun d4 h4 => ?_
  refine (emit_ensures (fun _ => Driver.encodeAuth_emits.1) _).bind fun d5 h5 => ?_
  refine (await_ensures _ _ _).bind fun d6 h6 => (await_ensures _ _ _).bind fun d7 h7 => ?_
  have s1 : d1.sendSeq = 1 := h1.sendSeq
  have s2 := advanced h2 s1 (by decide)
  have s5 := advanced h5 (h4.sendSeq.trans (h3.sendSeq.trans s2)) (by decide)
  have s7 : d7.sendSeq = 3 := h7.sendSeq.trans (h6.sendSeq.trans s5)
  exact s7 ▸ install_keyed _ _

end Integris.Remote
