import Integris.Frame

/-! `protocol.Driver`: control frames drive the session, data frames are sealed under
the traffic key, and each direction counts its own frames modulo `2 ^ 64`. -/
namespace Integris

open Session Crypto Protocol Prog

structure Driver where
  session : Session
  sessionID : SessionID
  sendSeq : Nat := 1
  recvSeq : Nat := 1
  macKey : Bytes
  aeadKey : Bytes := []
  authKey : Bytes := []
  authDir : Bytes := []
  archiveKey : Bytes := []
  requireMAC : Bool
  lastPlaintext : Bytes := []
  trackDataChunks : Bool := false
  nextDataOffset : Nat := 0
  nextSendOffset : Nat := 0
  deriving DecidableEq, Repr

/-- The two ends of a session. -/
inductive Endpoint where
  | initiator
  | responder
  deriving DecidableEq, Repr

def Endpoint.other : Endpoint → Endpoint
  | .initiator => .responder
  | .responder => .initiator

theorem Endpoint.eq_or_other (e who : Endpoint) : who = e ∨ who = e.other := by cases e <;> cases who <;> simp [other]

namespace Driver

def new (offered : List Version) (sessionID : SessionID) (macKey : Bytes) (requireMAC : Bool) :
    Driver :=
  { session := Session.fresh offered, sessionID := sessionID, macKey := macKey
    requireMAC := requireMAC }

def newWithSuites (offered : List Version) (suites : List Bytes) (sessionID : SessionID)
    (macKey : Bytes) (requireMAC : Bool) : Driver :=
  { new offered sessionID macKey requireMAC with
    session := { Session.newWithSuites offered suites with transcript := some Transcript.new } }

abbrev Op := Prog Aead Driver Failure

def onSession (m : Prog Aead Session Failure α) : Op α :=
  zoom (·.session) (fun s d => { d with session := s }) m

def dataAAD (d : Driver) (typ : MessageType) (seq : Nat) : Bytes :=
  frameMagic ++ leBytes 2 typ.code ++ d.sessionID.val ++ leBytes 8 seq

def setAEADKey (key : Bytes) : Op Unit := do
  require (key.length = aeadKeySize) ⟨"aead", "key must be 32 bytes"⟩
  modify fun d => { d with aeadKey := key }

def installTrafficKey (rootKey : Bytes) : Op Unit := do
  let d ← get
  require (d.session.state = .active) ⟨"state", "InstallTrafficKey requires ACTIVE"⟩
  match d.session.transcript with
  | none => throw ⟨"transcript", "transcript required"⟩
  | some t =>
    require (d.session.selectedSuite ≠ []) ⟨"suite", "no selected suite"⟩
    match trafficKey rootKey t.digest d.sessionID d.session.selectedSuite with
    | .error e => throw ⟨"aead", e.text⟩
    | .ok key => setAEADKey key

/-- A non-empty offer body replaces what this side assumed was offered. -/
def readOffer (body : Bytes) : Op Unit := do
  let (vers, suites) ← ofExcept (parseNegotiateOfferBody body)
  modify fun d => { d with session := { d.session with
    offered := vers
    offeredSuites := if suites ≠ [] then suites else d.session.offeredSuites } }

def handleNegotiateOffer (body : Bytes) : Op Unit := do
  let d ← get
  when (d.session.state = .new) do
    when (body ≠ []) (readOffer body)
    onSession negotiate

def readAccept (body : Bytes) : Except Failure (Option (Version × Bytes)) :=
  if body ≠ [] then some <$> parseNegotiateAcceptBody body else .ok none

def handleNegotiateAccept (body : Bytes) : Op Unit := do
  let wire ← ofExcept (readAccept body)
  let d ← get
  when (d.session.state = .new) (onSession negotiate)
  match wire with
  | some (vers, suite) => onSession (confirmAccept vers suite)
  | none => pure ()

def handlePeerAuth (body : Bytes) : Op Unit := do
  let d ← get
  if d.authKey ≠ [] then
    let (dir, proof) ← ofExcept (parsePeerAuthBody body)
    onSession (authenticateProof d.authKey d.sessionID dir proof)
  else onSession authenticate

def handleArchiveAuth (body : Bytes) : Op Unit := do
  let d ← get
  if d.archiveKey ≠ [] then onSession (authorizeArchiveProof d.archiveKey d.sessionID body)
  else onSession authorizeArchive

/-- The body of a data frame as the receiver reads it. -/
def openData (aead : Aead) (d : Driver) (f : Frame) : Except Failure Bytes :=
  if d.aeadKey ≠ [] then
    match openBody aead d.aeadKey (sequenceNonce f.sequence) (d.dataAAD .data f.sequence)
        f.body with
    | .error e => .error ⟨"aead", e.text⟩
    | .ok plaintext => .ok plaintext
  else .ok f.body

def deliverChunk (body : Bytes) : Op Unit := do
  let d ← get
  let (off, data) ← ofExcept (parseDataChunkBody body)
  require (d.nextDataOffset ≤ off)
    ⟨"chunk", "replay/overlap offset " ++ toString off ++ " want " ++ toString d.nextDataOffset⟩
  require (off = d.nextDataOffset)
    ⟨"chunk", "gap offset " ++ toString off ++ " want " ++ toString d.nextDataOffset⟩
  modify fun d => { d with lastPlaintext := data, nextDataOffset := off + data.length }

/-- The plaintext is stored before the session may refuse the frame. -/
def deliver (body : Bytes) : Op Unit := do
  let d ← get
  if d.trackDataChunks then deliverChunk body
  else modify fun d => { d with lastPlaintext := body }

def handleData (f : Frame) : Op Unit := do
  let d ← get
  let aead ← ask
  let body ← ofExcept (openData aead d f)
  deliver body
  onSession acceptNext

def dispatch (f : Frame) : Op Unit :=
  match f.typ with
  | .negotiateOffer => handleNegotiateOffer f.body
  | .negotiateAccept => handleNegotiateAccept f.body
  | .peerAuth => handlePeerAuth f.body
  | .archiveAuth => handleArchiveAuth f.body
  | .activate => onSession activate
  | .data => handleData f
  | .close => onSession shut
  | .failure => onSession (abort "peer" "peer failure frame")
  | .unknown _ => throw ⟨"type", "unhandled message type"⟩

def handle (f : Frame) : Op Unit := do
  let d ← get
  require (f.sessionID = d.sessionID) ⟨"session", "session id mismatch"⟩
  require (f.sequence = d.recvSeq)
    ⟨"sequence", "expected recv " ++ toString d.recvSeq ++ " got " ++ toString f.sequence⟩
  require (¬criticalUnknown f.typ) ⟨"critical", "unknown message type"⟩
  dispatch f
  modify fun d => { d with recvSeq := (d.recvSeq + 1) % 2 ^ 64 }

def decodeAndHandle (raw : Bytes) : Op Frame := do
  let d ← get
  let f ← ofExcept (decode raw d.macKey d.requireMAC)
  handle f
  pure f

/-- The body that goes on the wire: data is sealed once a traffic key is installed. -/
def sealData (aead : Aead) (d : Driver) (typ : MessageType) (body : Bytes) :
    Except Failure Bytes :=
  if typ = .data ∧ d.aeadKey ≠ [] then
    match sealBody aead d.aeadKey (sequenceNonce d.sendSeq) (d.dataAAD .data d.sendSeq) body with
    | .error e => .error ⟨"aead", e.text⟩
    | .ok sealed => .ok sealed
  else .ok body

/-- The frame `EncodeFrame` builds from a body already sealed. -/
def outbound (d : Driver) (typ : MessageType) (body : Bytes) : Frame :=
  { typ := typ, sessionID := d.sessionID, sequence := d.sendSeq, body := body
    flags := if d.requireMAC ∨ d.macKey ≠ [] then flagRequiresMAC else 0 }

def encodeFrame (typ : MessageType) (body : Bytes) : Op Bytes := do
  let d ← get
  let aead ← ask
  let sealed ← ofExcept (sealData aead d typ body)
  let raw ← ofExcept (encode (d.outbound typ sealed) d.macKey)
  modify fun d => { d with sendSeq := (d.sendSeq + 1) % 2 ^ 64 }
  pure raw

def encodeNegotiateOffer (vers : List Version) : Op Bytes := do
  let d ← get
  let suites := if d.session.offeredSuites ≠ [] then d.session.offeredSuites else localSuites
  let body ← ofExcept (encodeNegotiateOfferBody vers suites)
  encodeFrame .negotiateOffer body

def encodeNegotiateAccept : Op Bytes := do
  let d ← get
  when (d.session.state = .new) (onSession negotiate)
  let d ← get
  require (d.session.state = .negotiated)
    ⟨"state", "EncodeNegotiateAccept requires NEGOTIATED"⟩
  let body ← ofExcept (encodeNegotiateAcceptBody d.session.selected d.session.selectedSuite)
  encodeFrame .negotiateAccept body

def encodeDataChunk (data : Bytes) : Op Bytes := do
  let d ← get
  let body ← ofExcept (encodeDataChunkBody d.nextSendOffset data)
  let raw ← encodeFrame .data body
  modify fun d => { d with nextSendOffset := (d.nextSendOffset + data.length) % 2 ^ 64 }
  pure raw

/-- The sequence is spent even when applying the proof locally fails. -/
def encodePeerAuth : Op Bytes := do
  let d ← get
  require (d.authKey ≠ []) ⟨"auth", "AuthKey required"⟩
  let dir := if d.authDir = [] then i2r else d.authDir
  let proof ← onSession (makeAuthProof d.authKey d.sessionID dir)
  let raw ← encodeFrame .peerAuth (encodePeerAuthBody dir proof)
  onSession (authenticateProof d.authKey d.sessionID dir proof)
  pure raw

def encodeArchiveAuth : Op Bytes := do
  let d ← get
  require (d.archiveKey ≠ []) ⟨"archive", "ArchiveKey required"⟩
  let proof ← onSession (makeArchiveProof d.archiveKey d.sessionID)
  let raw ← encodeFrame .archiveAuth proof
  onSession (authorizeArchiveProof d.archiveKey d.sessionID proof)
  pure raw

/-- What the peer's frames and local session operations never change. -/
structure SameLink (d d' : Driver) : Prop where
  sendSeq : d'.sendSeq = d.sendSeq
  sessionID : d'.sessionID = d.sessionID
  macKey : d'.macKey = d.macKey
  requireMAC : d'.requireMAC = d.requireMAC

theorem SameLink.refl (d : Driver) : SameLink d d := ⟨rfl,rfl,rfl,rfl⟩

theorem SameLink.session (d : Driver) (s : Session) : SameLink d { d with session := s } := ⟨rfl,rfl,rfl,rfl⟩

theorem SameLink.trans {a b c : Driver} (h : SameLink a b) (k : SameLink b c) : SameLink a c :=
  ⟨k.sendSeq.trans h.sendSeq,k.sessionID.trans h.sessionID,k.macKey.trans h.macKey,k.requireMAC.trans h.requireMAC⟩

variable {aead : Aead}

private theorem keeps_modify {d : Driver} {f : Driver → Driver}
    (link : ∀ x, SameLink x (f x)) : Keeps aead (SameLink d) (modify f : Op Unit) :=
  Keeps.modify fun x h => h.trans (link x)

/-- Apart from data, a frame reaches the session only. -/
theorem keeps_control {I : Driver → Prop} (stays : ∀ d s, I d → I { d with session := s }) {f : Frame}
    (control : f.typ ≠ .data) : Keeps aead I (dispatch f) := by
  have acts {α : Type} (m : Prog Aead Session Failure α) : Keeps aead I (onSession m) := Keeps.zoom m fun s d => stays d s
  unfold dispatch
  split
  · refine Keeps.get.bind fun _ => Keeps.when (Keeps.bind (Keeps.when ?_) fun _ => acts _)
    exact (Keeps.ofExcept _).bind fun _ => Keeps.modify fun d => stays d _
  · refine (Keeps.ofExcept _).bind fun wire => Keeps.get.bind fun _ => (acts _).when.bind fun _ => ?_
    cases wire with
    | none => exact Keeps.pure _
    | some choice => exact acts _
  · refine Keeps.get.bind fun d => ?_
    split
    · exact (Keeps.ofExcept _).bind fun _ => acts _
    · exact acts _
  · refine Keeps.get.bind fun d => ?_
    split <;> exact acts _
  · exact acts _
  · rename_i data
    exact absurd data control
  · exact acts _
  · exact acts _
  · exact Keeps.throw _

private theorem keeps_handleData (d : Driver) (f : Frame) : Keeps aead (SameLink d) (handleData f) := by
  have chunk (body) : Keeps aead (SameLink d) (deliverChunk body) :=
    Keeps.get.bind fun _ => (Keeps.ofExcept _).bind fun _ => (Keeps.require _).bind fun _ =>
      (Keeps.require _).bind fun _ => keeps_modify fun _ => ⟨rfl,rfl,rfl,rfl⟩
  have stored (body) : Keeps aead (SameLink d) (deliver body) := by
    refine Keeps.get.bind fun x => ?_
    split
    · exact chunk body
    · exact keeps_modify fun _ => ⟨rfl,rfl,rfl,rfl⟩
  exact Keeps.get.bind fun _ => Keeps.ask.bind fun _ => (Keeps.ofExcept _).bind fun body =>
    (stored body).bind fun _ => Keeps.zoom _ fun _ _ h => ⟨h.1,h.2,h.3,h.4⟩

theorem keeps_dispatch (d : Driver) (f : Frame) : Keeps aead (SameLink d) (dispatch f) := by
  by_cases data : f.typ = .data
  · simp only [dispatch,data]
    exact keeps_handleData d f
  · exact keeps_control (fun _ _ h => ⟨h.1,h.2,h.3,h.4⟩) data

theorem keeps_handle (d : Driver) (f : Frame) : Keeps aead (SameLink d) (handle f) :=
  Keeps.get.bind fun _ => (Keeps.require _).bind fun _ => (Keeps.require _).bind fun _ =>
    (Keeps.require _).bind fun _ => (keeps_dispatch d f).bind fun _ => keeps_modify fun _ => ⟨rfl,rfl,rfl,rfl⟩

theorem keeps_decodeAndHandle (d : Driver) (raw : Bytes) : Keeps aead (SameLink d) (decodeAndHandle raw) :=
  Keeps.get.bind fun _ => (Keeps.ofExcept _).bind fun f => (keeps_handle d f).bind fun _ => Keeps.pure _

variable {raw : Bytes} {d t : Driver}

theorem decodeAndHandle_ok {d d' : Driver} {f : Frame} (accepted : decodeAndHandle raw aead d = (.ok f,d')) :
    decode raw d.macKey d.requireMAC = .ok f ∧ f.sequence = d.recvSeq := by
  have run : wlp (decodeAndHandle raw) aead d fun f _ => decode raw d.macKey d.requireMAC = .ok f ∧ f.sequence = d.recvSeq := by
    simp only [decodeAndHandle,handle,wp_bind,wp_get,wp_ofExcept,wp_require]
    refine ⟨fun f decoded => ⟨fun _ => ⟨fun sequence => ⟨fun _ => ?_,?_⟩,?_⟩,?_⟩,?_⟩
    · have kept : Keeps aead (SameLink d) (dispatch f) := keeps_dispatch d f
      exact (kept d (.refl d)).imp (fun _ _ _ => ⟨decoded,sequence⟩)
    all_goals intros; trivial
  exact run.ok_of accepted

def spend (d : Driver) : Driver := { d with sendSeq := (d.sendSeq + 1) % 2 ^ 64 }

/-- The returned bytes encode a frame with the sequence the driver held, and that
sequence is spent. -/
structure Emitted (d : Driver) (raw : Bytes) (d' : Driver) : Prop where
  frame : ∃ f, encode f d.macKey = .ok raw ∧ f.sequence = d.sendSeq
  link : SameLink d.spend d'

/-- A refused call emits nothing but may have spent the sequence. -/
def Refused (d d' : Driver) : Prop := SameLink d d' ∨ SameLink d.spend d'

/-- The two ends of every encoder. -/
def Emits (aead : Aead) (m : Op Bytes) : Prop :=
  ∀ d, wp m aead d (Emitted d) (fun _ => Refused d) (Refused d)

theorem wp_onSession {m : Prog Aead Session Failure α} {d : Driver} {Q : α → Driver → Prop}
    {E : Failure → Driver → Prop} {C : Driver → Prop} (ok : ∀ a s, Q a { d with session := s })
    (error : ∀ e s, E e { d with session := s }) (crash : ∀ s, C { d with session := s }) :
    wp (onSession m) aead d Q E C := by
  rw [onSession,wp_zoom]
  unfold wp
  rcases m aead d.session with ⟨a | e | _,s⟩
  · exact ok a s
  · exact error e s
  · exact crash s

theorem SameLink.spend (h : SameLink d t) : SameLink d.spend t.spend :=
  ⟨by simp [Driver.spend,h.sendSeq],h.sessionID,h.macKey,h.requireMAC⟩

theorem encodeFrame_emits (typ : MessageType) (body : Bytes) (same : SameLink d t) :
    wp (encodeFrame typ body) aead t (Emitted d) (fun _ => Refused d) (Refused d) := by
  simp only [encodeFrame,wp_bind,wp_get,wp_ask,wp_ofExcept,wp_modify,wp_pure]
  refine ⟨fun sealed _ => ⟨fun raw encoded => ?_,fun _ _ => .inl same⟩,fun _ _ => .inl same⟩
  rw [same.macKey] at encoded
  exact ⟨⟨_,encoded,same.sendSeq⟩,same.spend⟩

theorem encodeNegotiateOffer_emits (vers : List Version) : Emits aead (encodeNegotiateOffer vers) := by
  intro d
  simp only [encodeNegotiateOffer,wp_bind,wp_get,wp_ofExcept]
  exact ⟨fun body _ => encodeFrame_emits _ body (.refl d),fun _ _ => .inl (.refl d)⟩

theorem encodeDataChunk_emits (data : Bytes) : Emits aead (encodeDataChunk data) := by
  intro d
  simp only [encodeDataChunk,wp_bind,wp_get,wp_ofExcept,wp_modify,wp_pure]
  refine ⟨fun body _ => ?_,fun _ _ => .inl (.refl d)⟩
  refine (encodeFrame_emits _ body (.refl d)).imp (fun raw t h => ?_)
  exact ⟨h.frame,h.link.trans ⟨rfl,rfl,rfl,rfl⟩⟩

/-- An accept is the frame of a NEGOTIATED driver, which a new one becomes first. -/
theorem wp_encodeNegotiateAccept {I : Driver → Prop} {Q : Bytes → Driver → Prop} {E : Failure → Driver → Prop}
    {C : Driver → Prop} (now : I d) (negotiates : wp (onSession negotiate) aead d (fun _ => I) E C)
    (refuses : ∀ e t, I t → E e t) (sends : ∀ body t, I t → t.session.state = .negotiated →
      wp (encodeFrame .negotiateAccept body) aead t Q E C) : wp encodeNegotiateAccept aead d Q E C := by
  have rest (t : Driver) (h : I t) : wp (do
      require (t.session.state = .negotiated) ⟨"state","EncodeNegotiateAccept requires NEGOTIATED"⟩
      let body ← ofExcept (encodeNegotiateAcceptBody t.session.selected t.session.selectedSuite)
      encodeFrame .negotiateAccept body) aead t Q E C := by
    simp only [wp_bind,wp_require,wp_ofExcept]
    exact ⟨fun state => ⟨fun body _ => sends body t h state,fun _ _ => refuses _ t h⟩,fun _ => refuses _ t h⟩
  simp only [encodeNegotiateAccept,wp_bind,wp_get,wp_when]
  simp only [wp_bind] at rest
  exact ⟨fun _ => negotiates.imp fun _ => rest,fun _ => rest d now⟩

theorem encodeNegotiateAccept_emits : Emits aead encodeNegotiateAccept := by
  intro d
  refine wp_encodeNegotiateAccept (I := SameLink d) (.refl d) (wp_onSession ?_ ?_ ?_) (fun _ _ => .inl)
    fun body _ same _ => encodeFrame_emits _ body same
  · exact fun _ s => .session d s
  · exact fun _ s => .inl (.session d s)
  · exact fun s => .inl (.session d s)

/-- Applying the proof locally comes after the sequence is spent. -/
private theorem applied_emits {m : Prog Aead Session Failure Unit}
    (h : Emitted d raw t) : wp (onSession m) aead t (fun _ => Emitted d raw) (fun _ => Refused d) (Refused d) := by
  apply wp_onSession
  · exact fun _ s => ⟨h.frame,h.link.trans (.session t s)⟩
  · exact fun _ s => .inr (h.link.trans (.session t s))
  · exact fun s => .inr (h.link.trans (.session t s))

theorem encodeAuth_emits : Emits aead encodePeerAuth ∧ Emits aead encodeArchiveAuth := by
  constructor
  all_goals
    intro d
    simp only [encodePeerAuth,encodeArchiveAuth,wp_bind,wp_get,wp_require,wp_pure]
    refine ⟨fun _ => wp_onSession (fun proof s => ?_) ?_ ?_,fun _ => .inl (.refl d)⟩
    · exact (encodeFrame_emits _ _ (.session d s)).imp (fun _ _ h => applied_emits h)
    · exact fun _ s => .inl (.session d s)
    · exact fun s => .inl (.session d s)

end Driver

end Integris
