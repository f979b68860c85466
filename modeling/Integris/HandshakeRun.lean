import Integris.Handshake

/-! An undisturbed handshake, for every root key and session id: it completes at both
ends, and both hold one session, one traffic key and counters that differ. -/
namespace Integris.Remote

open Session Crypto Protocol Prog

section pieces

variable {ρ : Type} {aead : Aead} {d d' : Driver}

variable {s : Session} {body : Bytes} {dir : Bytes} {a : α} {typ : MessageType}

theorem onSession_run {m : Prog Aead Session Failure α} (run : m aead d.session = (.ok a,s)) :
    Driver.onSession m aead d = (.ok a,{ d with session := s }) := by
  simp only [Driver.onSession,zoom,run]

theorem outbound_encodable (d : Driver) (known : typ.known = true)
    (small : body.length ≤ maxBodyBytes) : (d.outbound typ body).Encodable := by
  refine ⟨.inl rfl,known,?_,small⟩
  by_cases marked : d.requireMAC = true ∨ d.macKey ≠ []
  · exact .inr (by simp only [Driver.outbound,if_pos marked])
  · exact .inl (by simp only [Driver.outbound,if_neg marked])

theorem encodeFrame_run (control : typ ≠ .data)
    (known : typ.known = true) (small : body.length ≤ maxBodyBytes) (long : 16 ≤ d.macKey.length) :
    Driver.encodeFrame typ body aead d = (.ok ((d.outbound typ body).wire d.macKey),d.spend) := by
  have nonempty : d.macKey ≠ [] := by
    intro empty
    simp [empty] at long
  have encoded := (encode_ok_iff nonempty).mpr ⟨outbound_encodable d known small,long,rfl⟩
  apply wp.run_eq
  simp [Driver.encodeFrame,wp_bind,wp_get,wp_ask,wp_ofExcept,wp_modify,wp_pure,Driver.sealData,control,encoded,Driver.spend]

theorem handle_run {f : Frame} (known : f.typ.known = true) (id : f.sessionID = d.sessionID)
    (next : f.sequence = d.recvSeq) (run : Driver.dispatch f aead d = (.ok (),d')) :
    Driver.handle f aead d = (.ok (),{ d' with recvSeq := (d'.recvSeq + 1) % 2 ^ 64 }) := by
  have allowed : criticalUnknown f.typ = false := by simp [criticalUnknown,known]
  apply wp.run_eq
  simp [Driver.handle,wp_bind,wp_get,wp_require,wp_of_run run,wp_modify,id,next,allowed]

theorem decodeAndHandle_run {f : Frame} (ok : f.Encodable) (fits : f.sequence < 2 ^ 64)
    (long : 16 ≤ d.macKey.length) (id : f.sessionID = d.sessionID) (next : f.sequence = d.recvSeq)
    (run : Driver.dispatch f.stamped aead d = (.ok (),d')) :
    Driver.decodeAndHandle (f.wire d.macKey) aead d = (.ok f.stamped,{ d' with recvSeq := (d'.recvSeq + 1) % 2 ^ 64 }) := by
  have decoded := decode_wire long ok fits d.requireMAC
  have handled : Driver.handle f.stamped aead d = _ := handle_run ok.typ id next run
  apply wp.run_eq
  simp [Driver.decodeAndHandle,wp_bind,wp_get,wp_ofExcept,decoded,wp_of_run handled,wp_pure]

variable {env : Env} {kind : Kind} {message : String}

theorem drive_run {m : Driver.Op α} (c : Conn) (run : m env.aead d = (.ok a,d')) :
    drive kind message m d env c = (.ok (a,d'),c) := by
  simp only [drive,run]

theorem advance_run {m : Driver.Op Unit} (c : Conn) (run : m env.aead d = (.ok (),d')) :
    advance kind message m d env c = (.ok d',c) := by
  apply wp.run_eq
  simp [advance,wp_bind,wp_of_run (drive_run _ run),wp_pure]

theorem wrapped_run {x : Except Failure α} (h : x = .ok a) (env : Env) (c : Conn) :
    wrapped kind message x env c = (.ok a,c) := by
  rw [h]
  rfl

theorem emit_run {m : Driver.Op Bytes} {raw inbound outbound : Bytes}
    (run : m env.aead d = (.ok raw,d')) (size : headerBytes ≤ raw.length) :
    emit kind message m d env ⟨inbound,outbound⟩ = (.ok d',⟨inbound,outbound ++ raw⟩) := by
  apply wp.run_eq
  simp [emit,wp_bind,wp_of_run (drive_run _ run),writeFrame,wp_require,size,wp_modify,wp_pure]

/-- The first frame of a stream as `ReadFrame` cuts it, and what follows. -/
def nextFrame (stream : Bytes) : Option (Bytes × Bytes) :=
  let hdr := stream.take headerBytes
  let bodyLen := leNat (slice hdr 14 18)
  let size := headerBytes + (bodyLen + if leNat (slice hdr 12 14) % 2 = 1 then authBytes else 0)
  if headerBytes ≤ stream.length ∧ slice hdr 0 8 = frameMagic ∧ bodyLen ≤ maxBodyBytes ∧
      size ≤ stream.length then some (stream.take size, stream.drop size)
  else none

/-- A reader of `n` bytes of a stream that leaves alone what it keeps. -/
def ReadsFull {σ κ : Type} (stream : σ → Bytes) (kept : σ → κ) (read : Nat → String → Prog ρ σ RemoteError Bytes) : Prop :=
  ∀ n what env s, wp (read n what) env s (fun got t => got.length = n ∧ got ++ stream t = stream s ∧ kept t = kept s)
    (fun _ t => (stream s).length < n ∧ kept t = kept s) (fun _ => False)

theorem readFrameBy_spec {σ κ : Type} (stream : σ → Bytes) (kept : σ → κ) {read : Nat → String → Prog ρ σ RemoteError Bytes}
    (reads : ReadsFull stream kept read) (env : ρ) (s : σ) : wp (readFrameBy read) env s
      (fun raw t => nextFrame (stream s) = some (raw,stream t) ∧ kept t = kept s)
      (fun _ t => nextFrame (stream s) = none ∧ kept t = kept s) (fun _ => False) := by
  rw [readFrameBy,wp_bind]
  refine (reads _ _ env s).ends (fun hdr t first => ?_) (fun _ t short =>
    ⟨if_neg fun all => Nat.not_le.mpr short.1 all.1,short.2⟩)
  obtain ⟨size,whole,same⟩ := first
  have head : (stream s).take headerBytes = hdr := by rw [← whole,List.take_left' size]
  have long := congrArg List.length whole
  rw [List.length_append,size] at long
  simp only [wp_bind,wp_require,nextFrame,head]
  refine ⟨fun magic => ⟨fun small => ?_,fun large => ⟨if_neg fun all => large all.2.2.1,same⟩⟩,
    fun other => ⟨if_neg fun all => other all.2.1,same⟩⟩
  refine (reads _ _ env t).ends (fun body u second => ?_) (fun _ u short =>
    ⟨if_neg fun all => ?_,short.2.trans same⟩)
  · obtain ⟨bodySize,rest,kept⟩ := second
    rw [← rest,← List.append_assoc] at whole
    rw [← rest,List.length_append] at long
    have length : (hdr ++ body).length = hdr.length + body.length := List.length_append
    rw [size,bodySize] at length
    rw [if_pos ⟨by omega,magic,small,by omega⟩,← length,← whole,List.take_left,List.drop_left]
    exact ⟨rfl,kept.trans same⟩
  · have := all.2.2.2
    have := short.1
    omega

theorem readFrame_spec (env : Env) (c : Conn) : wp readFrame env c
    (fun raw c' => nextFrame c.inbound = some (raw,c'.inbound) ∧ c'.outbound = c.outbound)
    (fun _ c' => nextFrame c.inbound = none ∧ c'.outbound = c.outbound) (fun _ => False) := by
  refine readFrameBy_spec Conn.inbound Conn.outbound (fun n what env c => ?_) env c
  simp only [readFull,wp_bind,wp_get,wp_require,wp_modify,wp_pure]
  exact ⟨fun room => ⟨List.length_take_of_le room,List.take_append_drop _ _,trivial⟩,fun short => ⟨Nat.lt_of_not_le short,trivial⟩⟩

/-- The size of a frame by its own header. -/
def frameSize (f : Frame) : Nat := headerBytes + (f.body.length + if f.flags % 2 = 1 then authBytes else 0)

theorem nextFrame_headed {f : Frame} {stream : Bytes} (small : f.body.length ≤ maxBodyBytes)
    (flags : f.flags < 256 ^ 2) (head : stream.take headerBytes = f.header) :
    nextFrame stream = if frameSize f ≤ stream.length then
      some (stream.take (frameSize f),stream.drop (frameSize f)) else none := by
  have fields := f.header_fields []
  rw [List.append_nil] at fields
  have length : leNat (slice f.header 14 18) = f.body.length := by
    rw [fields.length,leNat_leBytes_of_lt]
    simp only [maxBodyBytes] at small
    omega
  have marks : leNat (slice f.header 12 14) = f.flags := by rw [fields.flags,leNat_leBytes_of_lt flags]
  have whole : headerBytes ≤ stream.length := by
    rw [← f.header_length,← head,List.length_take]
    exact Nat.min_le_right _ _
  simp only [nextFrame,head,length,marks,fields.magic,whole,small,true_and,frameSize]
  exact if_congr Iff.rfl rfl rfl

/-- A header, and as many bytes after it as it announces. -/
def Headed (raw : Bytes) : Prop :=
  ∃ f : Frame, f.body.length ≤ maxBodyBytes ∧ f.flags < 256 ^ 2 ∧ raw.take headerBytes = f.header ∧
    raw.length = frameSize f

theorem headed_parts {f : Frame} {tag : Bytes} (small : f.body.length ≤ maxBodyBytes) (flags : f.flags < 256 ^ 2)
    (tagged : tag.length = if f.flags % 2 = 1 then authBytes else 0) : Headed (f.header ++ f.body ++ tag) := by
  refine ⟨f,small,flags,?_,?_⟩
  · rw [List.append_assoc]
    exact List.take_left' f.header_length
  · rw [List.length_append,List.length_append,f.header_length,tagged,frameSize,Nat.add_assoc]

theorem Headed.next {raw : Bytes} (framed : Headed raw) (rest : Bytes) : nextFrame (raw ++ rest) = some (raw,rest) := by
  obtain ⟨f,small,flags,head,size⟩ := framed
  have whole : headerBytes ≤ raw.length := by
    rw [size]
    exact Nat.le_add_right _ _
  have same : (raw ++ rest).take headerBytes = f.header := by rw [List.take_append_of_le_length whole,head]
  rw [nextFrame_headed small flags same,← size,if_pos (by simp),List.take_left,List.drop_left]

theorem nextFrame_wire {f : Frame} (small : f.body.length ≤ maxBodyBytes) (key rest : Bytes) :
    nextFrame (f.wire key ++ rest) = some (f.wire key,rest) :=
  (headed_parts (f := f.stamped) small (by decide : flagRequiresMAC < 256 ^ 2) (hmacSHA256_length _ _)).next rest

theorem readFrame_run {f : Frame} (ok : f.body.length ≤ maxBodyBytes) (key rest outbound : Bytes) :
    readFrame env ⟨f.wire key ++ rest,outbound⟩ = (.ok (f.wire key),⟨rest,outbound⟩) := by
  have cut := nextFrame_wire ok key rest
  apply wp.run_eq
  refine (readFrame_spec env _).mono ?_ ?_ ?_
  · rintro raw ⟨inbound,o⟩ ⟨next,rfl⟩
    cases cut.symm.trans next
    exact ⟨rfl,rfl⟩
  · rintro e c ⟨next,-⟩
    cases cut.symm.trans next
  · exact fun _ => id

theorem await_run {f : Frame} {g : Frame} {key rest outbound : Bytes} (ok : f.body.length ≤ maxBodyBytes)
    (run : Driver.decodeAndHandle (f.wire key) env.aead d = (.ok g,d')) :
    await kind message d env ⟨f.wire key ++ rest,outbound⟩ = (.ok d',⟨rest,outbound⟩) := by
  apply wp.run_eq
  simp [await,wp_bind,wp_of_run (readFrame_run ok key rest outbound),wp_of_run (drive_run _ run),wp_pure]

end pieces

section sessions

variable {ρ : Type}

/-- The session both ends start from. -/
def opened : Session :=
  { Session.newWithSuites offeredVersions [suiteIDAEAD] with transcript := some Transcript.new }

def negotiated : Session := ((negotiate : Prog Unit Session Failure Unit) () opened).2

theorem negotiate_opened (env : ρ) : negotiate env opened = (.ok (),negotiated) := rfl

/-- The session after one direction's proof was verified. -/
def proved (s : Session) (key dir proof : Bytes) : Session :=
  let s := bind "peer_auth" (hmacSHA256 key (ascii "proof-tag:" ++ proof)) s
  let s := bind "peer_auth_dir" dir s
  let s := if dir = i2r then { s with authI2R := true } else { s with authR2I := true }
  if s.authI2R ∧ s.authR2I then
    freezeArchiveBase { s with peerAuthenticated := true, state := .peerAuthenticated }
  else s

/-- The proof of `dir` against the digest frozen at negotiation. -/
def peerProof (key : Bytes) (sid : SessionID) (s : Session) (dir : Bytes) : Bytes :=
  hmacSHA256 key (suiteIDPeerAuth ++ 0 :: sid.val ++ s.authBaseDigest.val ++ dir)

structure AwaitsProof (s : Session) (dir : Bytes) : Prop where
  state : s.state = .negotiated
  base : s.authBaseSet = true
  highest : s.downgraded = false
  dir : dir = i2r ∧ s.authI2R = false ∨ dir = r2i ∧ s.authR2I = false

variable {key : Bytes} {sid : SessionID}

theorem peerAuthProof_ok (long : 16 ≤ key.length) (ready : AwaitsProof s dir) :
    peerAuthProof key s.authBaseDigest sid dir = .ok (peerProof key sid s dir) := by
  have known : ¬(dir ≠ i2r ∧ dir ≠ r2i) := by
    rcases ready.dir with ⟨h,-⟩ | ⟨h,-⟩ <;> simp [h]
  simp [peerAuthProof,Nat.not_lt.mpr long,known,peerProof]

theorem makeAuthProof_run (env : ρ) (long : 16 ≤ key.length) (ready : AwaitsProof s dir) :
    makeAuthProof key sid dir env s = (.ok (peerProof key sid s dir),s) := by
  apply wp.run_eq
  simp [makeAuthProof,wp_bind,wp_get,wp_require,wp_ofExcept,ready.state,ready.base,ready.highest,
    peerAuthProof_ok long ready]

theorem authenticateProof_run (env : ρ) (long : 16 ≤ key.length) (ready : AwaitsProof s dir) :
    authenticateProof key sid dir (peerProof key sid s dir) env s =
      (.ok (),proved s key dir (peerProof key sid s dir)) := by
  have verified : verifyPeerAuthProof key s.authBaseDigest sid dir (peerProof key sid s dir) = .ok () := by
    simp [verifyPeerAuthProof,peerAuthProof_ok long ready,Bind.bind,Except.bind]
  apply wp.run_eq
  rcases ready.dir with ⟨rfl,first⟩ | ⟨rfl,first⟩
  · have other : ¬(i2r = r2i) := by decide
    simp [authenticateProof,wp_bind,wp_get,wp_require,ready.state,ready.base,ready.highest,first,
      other,verified,wp_modify,proved]
  · have other : ¬(r2i = i2r) := by decide
    simp [authenticateProof,wp_bind,wp_get,wp_require,ready.state,ready.base,ready.highest,first,
      other,verified,wp_modify,proved]

def archived (s : Session) (key proof : Bytes) : Session :=
  { bind "archive_auth" (hmacSHA256 key (ascii "archive-tag:" ++ proof)) s with
    archiveAuthorized := true, state := .archiveAuthorized }

def archiveProof (key : Bytes) (sid : SessionID) (s : Session) : Bytes :=
  hmacSHA256 key (suiteIDArchiveAuth ++ 0 :: sid.val ++ s.archiveBaseDigest.val)

structure AwaitsArchive (s : Session) : Prop where
  state : s.state = .peerAuthenticated
  peer : s.peerAuthenticated = true
  base : s.archiveBaseSet = true

theorem makeArchiveProof_run (env : ρ) (long : 16 ≤ key.length) (ready : AwaitsArchive s) :
    makeArchiveProof key sid env s = (.ok (archiveProof key sid s),s) := by
  apply wp.run_eq
  simp [makeArchiveProof,wp_bind,wp_get,wp_require,wp_ofExcept,ready.state,ready.peer,ready.base,
    archiveAuthProof,Nat.not_lt.mpr long,archiveProof]

theorem authorizeArchiveProof_run (env : ρ) (long : 16 ≤ key.length) (ready : AwaitsArchive s) :
    authorizeArchiveProof key sid (archiveProof key sid s) env s = (.ok (),archived s key (archiveProof key sid s)) := by
  have verified : verifyArchiveAuthProof key s.archiveBaseDigest sid (archiveProof key sid s) = .ok () := by
    simp [verifyArchiveAuthProof,archiveAuthProof,Nat.not_lt.mpr long,archiveProof,Bind.bind,Except.bind]
  apply wp.run_eq
  simp [authorizeArchiveProof,wp_bind,wp_get,wp_require,ready.state,ready.peer,ready.base,verified,wp_modify,archived]

def activated (s : Session) : Session :=
  let s' := bind "activate" [s.selected] { s with state := .active }
  if s.selectedSuite ≠ [] then bind "suite_active" s.selectedSuite s' else s'

structure AwaitsActivate (s : Session) : Prop where
  state : s.state = .archiveAuthorized
  peer : s.peerAuthenticated = true
  archive : s.archiveAuthorized = true
  highest : s.downgraded = false

theorem activate_run (env : ρ) (ready : AwaitsActivate s) : activate env s = (.ok (),activated s) := by
  apply wp.run_eq
  by_cases suite : s.selectedSuite = [] <;>
    simp [activate,wp_bind,wp_get,wp_require,ready.state,ready.peer,ready.archive,ready.highest,
      wp_modify,wp_pure,activated,suite]

variable (root : Bytes) (sid : SessionID)

def authKey : Bytes := derived root (suiteIDPeerAuth ++ 0 :: sid.val)
def archiveKey : Bytes := derived root (suiteIDArchiveAuth ++ 0 :: sid.val)

/-! The session after each proof, from the one the offer negotiated, and the proofs. -/

def proofI2R (s : Session) : Bytes := peerProof (authKey root sid) sid s i2r
def halfProved (s : Session) : Session := proved s (authKey root sid) i2r (proofI2R root sid s)
def proofR2I (s : Session) : Bytes := peerProof (authKey root sid) sid (halfProved root sid s) r2i
def fullyProved (s : Session) : Session :=
  proved (halfProved root sid s) (authKey root sid) r2i (proofR2I root sid s)
def proofArchive (s : Session) : Bytes := archiveProof (archiveKey root sid) sid (fullyProved root sid s)
def authorized (s : Session) : Session :=
  archived (fullyProved root sid s) (archiveKey root sid) (proofArchive root sid s)
def running (s : Session) : Session := activated (authorized root sid s)

theorem negotiated_awaits : AwaitsProof negotiated i2r := ⟨rfl,rfl,rfl,.inl ⟨rfl,rfl⟩⟩

theorem halfProved_awaits : AwaitsProof (halfProved root sid negotiated) r2i := ⟨rfl,rfl,rfl,.inr ⟨rfl,rfl⟩⟩

theorem fullyProved_awaits : AwaitsArchive (fullyProved root sid negotiated) := ⟨rfl,rfl,rfl⟩

theorem authorized_awaits : AwaitsActivate (authorized root sid negotiated) := ⟨rfl,rfl,rfl,rfl⟩

end sessions

section exchange

variable (root : Bytes) (sid : SessionID)

def channelKey : Bytes :=
  derived root (ascii "integris-ipc-mac-v1" ++ 0 :: ascii "push" ++ 0 :: ascii "serve")

theorem deriveMACKey_run (size : root.length = rootKeySize) : deriveMACKey root [] = .ok (channelKey root) := by
  have long : 16 ≤ root.length := by rw [size]; decide
  have roles : ¬(ascii "push" = [] ∨ ascii "serve" = []) := by decide
  have differ : ¬(ascii "push" = ascii "serve") := by decide
  have order : ¬(ascii "serve" < ascii "push") := by decide
  simp [deriveMACKey,channelMACKey,Nat.not_lt.mpr long,roles,differ,order,deriveKey_ok long,
    channelKey,Bind.bind,Except.bind]

/-- A driver of this session before the proof keys are set, and after. A peer selector changes the MAC key. -/
def bare (key : Bytes) (s : Session) (send recv : Nat) : Driver :=
  { Driver.newWithSuites offeredVersions [suiteIDAEAD] sid key true with
    session := s, sendSeq := send, recvSeq := recv }

def armed (key dir : Bytes) (s : Session) (send recv : Nat) : Driver :=
  { bare sid key s send recv with
    authKey := authKey root sid, archiveKey := archiveKey root sid, authDir := dir }

def offerBody : Bytes := 2 :: 3 :: 2 :: 1 :: 41 :: suiteIDAEAD
def acceptBody : Bytes := 3 :: 41 :: suiteIDAEAD

/-- A frame of this session with an authenticator. -/
def sent (seq : Nat) (typ : MessageType) (body : Bytes) : Frame :=
  { typ := typ, flags := flagRequiresMAC, sessionID := sid, sequence := seq, body := body }

def offerFrame : Frame := sent sid 1 .negotiateOffer offerBody
def acceptFrame : Frame := sent sid 1 .negotiateAccept acceptBody
def i2rFrame (s : Session) : Frame := sent sid 2 .peerAuth (i2r ++ proofI2R root sid s)
def r2iFrame (s : Session) : Frame := sent sid 2 .peerAuth (r2i ++ proofR2I root sid s)
def archiveFrame (s : Session) : Frame := sent sid 3 .archiveAuth (proofArchive root sid s)
def activateFrame : Frame := sent sid 4 .activate []

variable {sid} in
theorem sent_encodable {seq : Nat} (known : typ.known = true) (small : body.length ≤ maxBodyBytes) :
    (sent sid seq typ body).Encodable :=
  ⟨.inl rfl,known,.inr rfl,small⟩

theorem offerFrame_encodable : (offerFrame sid).Encodable := sent_encodable rfl (by decide)

theorem acceptFrame_encodable : (acceptFrame sid).Encodable := sent_encodable rfl (by decide)

theorem i2rFrame_encodable (s : Session) : (i2rFrame root sid s).Encodable :=
  sent_encodable rfl (by simp [proofI2R,peerProof,maxBodyBytes,i2r,ascii])

theorem r2iFrame_encodable (s : Session) : (r2iFrame root sid s).Encodable :=
  sent_encodable rfl (by simp [proofR2I,peerProof,maxBodyBytes,r2i,ascii])

theorem archiveFrame_encodable (s : Session) : (archiveFrame root sid s).Encodable :=
  sent_encodable rfl (by simp [proofArchive,archiveProof,maxBodyBytes])

theorem activateFrame_encodable : (activateFrame sid).Encodable := sent_encodable rfl (by decide)

variable {root sid} {aead : Aead} {key : Bytes}

theorem channelKey_long : 16 ≤ (channelKey root).length := by simp [channelKey]

theorem offer_sent (long : 16 ≤ key.length) :
    Driver.encodeNegotiateOffer offeredVersions aead (bare sid key negotiated 1 1) =
      (.ok ((offerFrame sid).wire key),bare sid key negotiated 2 1) := by
  have body : encodeNegotiateOfferBody offeredVersions [suiteIDAEAD] = .ok offerBody := by decide
  have sent : Driver.encodeFrame .negotiateOffer offerBody aead (bare sid key negotiated 1 1) =
      (.ok ((offerFrame sid).wire key),bare sid key negotiated 2 1) :=
    encodeFrame_run (by decide) rfl (by decide) long
  have suites : (bare sid key negotiated 1 1).session.offeredSuites = [suiteIDAEAD] := rfl
  apply wp.run_eq
  simp [Driver.encodeNegotiateOffer,wp_bind,wp_get,wp_ofExcept,suites,body,wp_of_run sent]

/-- An offer is read and negotiated on. -/
theorem offer_taken {f : Frame} {vs : List Version} {t : Session} (typ : f.typ = .negotiateOffer)
    (id : f.sessionID = sid) (seq : f.sequence = 1) (full : f.body ≠ [])
    (body : parseNegotiateOfferBody f.body = .ok (vs,[suiteIDAEAD]))
    (run : negotiate aead { opened with offered := vs } = (.ok (),t)) :
    Driver.handle f.stamped aead (bare sid key opened 1 1) = (.ok (),bare sid key t 1 2) := by
  have read : Driver.readOffer f.body aead (bare sid key opened 1 1) =
      (.ok (),bare sid key { opened with offered := vs } 1 1) := by
    apply wp.run_eq
    simp [Driver.readOffer,wp_bind,wp_ofExcept,body,wp_modify]
    rfl
  have step : Driver.onSession negotiate aead (bare sid key { opened with offered := vs } 1 1) =
      (.ok (),bare sid key t 1 1) := onSession_run run
  have form : Driver.dispatch f.stamped = Driver.handleNegotiateOffer f.body := by
    simp [Driver.dispatch,Frame.stamped,typ]
  have dispatched : Driver.dispatch f.stamped aead (bare sid key opened 1 1) = (.ok (),bare sid key t 1 1) := by
    apply wp.run_eq
    simp only [form,Driver.handleNegotiateOffer,wp_bind,wp_get,wp_when]
    exact ⟨fun _ => ⟨fun _ => (wp_of_run read).mpr ((wp_of_run step).mpr ⟨trivial,rfl⟩),
      fun empty => absurd full empty⟩,fun old => absurd rfl old⟩
  exact handle_run (by simp [Frame.stamped,typ,MessageType.known]) id seq dispatched

theorem offer_handled : Driver.handle (offerFrame sid).stamped aead (bare sid key opened 1 1) =
    (.ok (),bare sid key negotiated 1 2) :=
  offer_taken rfl rfl rfl (by decide : offerBody ≠ [])
    (by decide : parseNegotiateOfferBody offerBody = .ok (offeredVersions,[suiteIDAEAD])) (negotiate_opened aead)

theorem accept_sent_in (long : 16 ≤ key.length) (state : s.state = .negotiated)
    (encoded : encodeNegotiateAcceptBody s.selected s.selectedSuite = .ok body)
    (small : body.length ≤ maxBodyBytes) :
    Driver.encodeNegotiateAccept aead (bare sid key s 1 2) =
      (.ok (((bare sid key s 1 2).outbound .negotiateAccept body).wire key),bare sid key s 2 2) := by
  have sent : Driver.encodeFrame .negotiateAccept body aead (bare sid key s 1 2) =
      (.ok (((bare sid key s 1 2).outbound .negotiateAccept body).wire key),bare sid key s 2 2) :=
    encodeFrame_run (by decide) rfl small long
  have old : s.state ≠ .new := by rw [state]; decide
  apply wp.run_eq
  simp only [Driver.encodeNegotiateAccept,wp_bind,wp_get,wp_when,wp_require,wp_ofExcept]
  refine ⟨fun new => absurd new old,fun _ => ⟨fun _ => ⟨fun b made => ?_,fun e refused => ?_⟩,
    fun other => absurd state other⟩⟩
  · cases encoded.symm.trans made
    exact (wp_of_run sent).mpr ⟨rfl,rfl⟩
  · cases encoded.symm.trans refused

theorem accept_sent (long : 16 ≤ key.length) : Driver.encodeNegotiateAccept aead (bare sid key negotiated 1 2) =
      (.ok ((acceptFrame sid).wire key),bare sid key negotiated 2 2) :=
  accept_sent_in long rfl (by decide : encodeNegotiateAcceptBody negotiated.selected negotiated.selectedSuite =
    .ok acceptBody) (by decide)

theorem accept_dispatched {s : Session} {m n : Nat}
    (opens : when (s.state = .new) (Driver.onSession negotiate) aead (bare sid key s m n) = (.ok (),bare sid key negotiated m n)) :
    Driver.dispatch (acceptFrame sid).stamped aead (bare sid key s m n) = (.ok (),bare sid key negotiated m n) := by
  have body : Driver.readAccept acceptBody = .ok (some (3,suiteIDAEAD)) := by decide
  have confirmed : confirmAccept 3 suiteIDAEAD aead negotiated = (.ok (),negotiated) := rfl
  have confirms : Driver.onSession (confirmAccept 3 suiteIDAEAD) aead (bare sid key negotiated m n) =
      (.ok (),bare sid key negotiated m n) := onSession_run confirmed
  apply wp.run_eq
  change wp (Driver.handleNegotiateAccept acceptBody) _ _ _ _ _
  simp only [Driver.handleNegotiateAccept,wp_bind,wp_get,wp_ofExcept]
  refine ⟨fun wire parsed => ?_,fun e refused => ?_⟩
  · cases body.symm.trans parsed
    exact (wp_of_run opens).mpr ((wp_of_run confirms).mpr ⟨trivial,rfl⟩)
  · cases body.symm.trans refused

theorem accept_handled (long : 16 ≤ key.length) : Driver.decodeAndHandle ((acceptFrame sid).wire key) aead
      (bare sid key negotiated 2 1) = (.ok (acceptFrame sid).stamped,bare sid key negotiated 2 2) :=
  decodeAndHandle_run (f := acceptFrame sid) (d := bare sid key negotiated 2 1) (acceptFrame_encodable sid)
    (by decide : 1 < 2 ^ 64) long rfl rfl (accept_dispatched rfl)

theorem withAuthKeys_run {env : Env} (size : root.length = rootKeySize) (dir : Bytes) (s : Session)
    (send recv : Nat) (c : Conn) : withAuthKeys root dir (bare sid key s send recv) env c =
      (.ok (armed root sid key dir s send recv),c) := by
  have long : 16 ≤ root.length := by rw [size]; decide
  have id : (bare sid key s send recv).sessionID = sid := rfl
  have auth : peerAuthKey root sid = .ok (authKey root sid) := deriveKey_ok long _
  have archive : archiveAuthKey root sid = .ok (archiveKey root sid) := deriveKey_ok long _
  apply wp.run_eq
  simp [withAuthKeys,wrapped,wp_bind,wp_mapError,wp_ofExcept,wp_pure,id,auth,archive]
  rfl

theorem authKey_long : 16 ≤ (authKey root sid).length := by simp [authKey]

theorem archiveKey_long : 16 ≤ (archiveKey root sid).length := by simp [archiveKey]

theorem ne_nil_of_long {k : Bytes} (long : 16 ≤ k.length) : k ≠ [] := by
  rintro rfl
  simp at long

section drivers

variable {send recv next : Nat} {t : Session}

@[simp] theorem armed_authKey : (armed root sid key dir s send recv).authKey = authKey root sid := rfl
@[simp] theorem armed_archiveKey : (armed root sid key dir s send recv).archiveKey = archiveKey root sid := rfl
@[simp] theorem armed_sessionID : (armed root sid key dir s send recv).sessionID = sid := rfl
@[simp] theorem armed_authDir : (armed root sid key dir s send recv).authDir = dir := rfl

theorem armed_onSession {m : Prog Aead Session Failure α} (run : m aead s = (.ok a,t)) :
    Driver.onSession m aead (armed root sid key dir s send recv) = (.ok a,armed root sid key dir t send recv) :=
  onSession_run run

theorem armed_encodeFrame (control : typ ≠ .data) (known : typ.known = true) (small : body.length ≤ maxBodyBytes)
    (long : 16 ≤ key.length) (count : (send + 1) % 2 ^ 64 = next) :
    Driver.encodeFrame typ body aead (armed root sid key dir s send recv) =
      (.ok (((armed root sid key dir s send recv).outbound typ body).wire key),armed root sid key dir s next recv) := by
  rw [← count]
  exact encodeFrame_run control known small long

theorem armed_decode {f : Frame} (long : 16 ≤ key.length) (count : (recv + 1) % 2 ^ 64 = next) (fits : recv < 2 ^ 64)
    (ok : f.Encodable) (id : f.sessionID = sid) (seq : f.sequence = recv)
    (run : Driver.dispatch f.stamped aead (armed root sid key dir s send recv) =
      (.ok (),armed root sid key dir t send recv)) :
    Driver.decodeAndHandle (f.wire key) aead (armed root sid key dir s send recv) =
      (.ok f.stamped,armed root sid key dir t send next) := by
  rw [← count]
  exact decodeAndHandle_run (d := armed root sid key dir s send recv) ok (seq ▸ fits) long id seq run

end drivers

/-- Sending a proof applies it to the sender's own session. -/
theorem peerAuth_sent (long : 16 ≤ key.length) {send next : Nat}
    (recv : Nat) (ready : AwaitsProof s dir) (count : (send + 1) % 2 ^ 64 = next) :
    Driver.encodePeerAuth aead (armed root sid key dir s send recv) =
      (.ok (((armed root sid key dir s send recv).outbound .peerAuth
          (dir ++ peerProof (authKey root sid) sid s dir)).wire key),
        armed root sid key dir (proved s (authKey root sid) dir (peerProof (authKey root sid) sid s dir)) next recv) := by
  have short : dir ≠ [] ∧ dir.length = 3 := by
    rcases ready.dir with ⟨rfl,-⟩ | ⟨rfl,-⟩ <;> decide
  have small : (dir ++ peerProof (authKey root sid) sid s dir).length ≤ maxBodyBytes := by
    simp [peerProof,short.2,maxBodyBytes]
  apply wp.run_eq
  simp [Driver.encodePeerAuth,wp_bind,wp_get,wp_require,wp_pure,ne_nil_of_long authKey_long,short.1,encodePeerAuthBody,
    wp_of_run (armed_onSession (makeAuthProof_run aead authKey_long ready)),
    wp_of_run (armed_encodeFrame (by decide : MessageType.peerAuth ≠ .data) rfl small long count),
    wp_of_run (armed_onSession (authenticateProof_run aead authKey_long ready))]

theorem peerAuth_dispatched {own dir : Bytes} {f : Frame} {send recv : Nat}
    (ready : AwaitsProof s dir) (typ : f.typ = .peerAuth)
    (body : f.body = dir ++ peerProof (authKey root sid) sid s dir) :
    Driver.dispatch f.stamped aead (armed root sid key own s send recv) =
      (.ok (),armed root sid key own (proved s (authKey root sid) dir
        (peerProof (authKey root sid) sid s dir)) send recv) := by
  have parsed : parsePeerAuthBody f.body = .ok (dir,peerProof (authKey root sid) sid s dir) := by
    have proofSize : (peerProof (authKey root sid) sid s dir).length = 32 := hmacSHA256_length _ _
    rw [body]
    have size : dir.length = 3 := by rcases ready.dir with ⟨rfl,-⟩ | ⟨rfl,-⟩ <;> decide
    have named : dir = i2r ∨ dir = r2i := ready.dir.imp And.left And.left
    simp [parsePeerAuthBody,check,demand,peerAuthDirLen,proofSize,size,named,Bind.bind,Except.bind]
  apply wp.run_eq
  have form : Driver.dispatch f.stamped = Driver.handlePeerAuth f.body := by simp [Driver.dispatch,Frame.stamped,typ]
  simp [form,Driver.handlePeerAuth,wp_bind,wp_get,ne_nil_of_long authKey_long,wp_ofExcept,parsed,
    wp_of_run (armed_onSession (authenticateProof_run aead authKey_long ready))]

variable {send recv next : Nat} {own : Bytes} {peerID : Bytes} {first : Frame}

theorem peerAuth_handled (long : 16 ≤ key.length) {own dir : Bytes} {f : Frame}
    (ready : AwaitsProof s dir) (count : (recv + 1) % 2 ^ 64 = next) (fits : recv < 2 ^ 64)
    (ok : f.Encodable) (typ : f.typ = .peerAuth) (id : f.sessionID = sid)
    (body : f.body = dir ++ peerProof (authKey root sid) sid s dir) (seq : f.sequence = recv) :
    Driver.decodeAndHandle (f.wire key) aead (armed root sid key own s send recv) =
      (.ok f.stamped,armed root sid key own (proved s (authKey root sid) dir
        (peerProof (authKey root sid) sid s dir)) send next) :=
  armed_decode long count fits ok id seq (peerAuth_dispatched ready typ body)

theorem archive_sent (long : 16 ≤ key.length) : Driver.encodeArchiveAuth aead
    (armed root sid key i2r (fullyProved root sid negotiated) 3 3) = (.ok ((archiveFrame root sid negotiated).wire key),
        armed root sid key i2r (authorized root sid negotiated) 4 3) := by
  have small : (archiveProof (archiveKey root sid) sid (fullyProved root sid negotiated)).length ≤ maxBodyBytes := by
    simp [archiveProof,maxBodyBytes]
  have ready := fullyProved_awaits root sid
  apply wp.run_eq
  simp [Driver.encodeArchiveAuth,wp_bind,wp_get,wp_require,wp_pure,ne_nil_of_long archiveKey_long,
    wp_of_run (armed_onSession (makeArchiveProof_run aead archiveKey_long ready)),
    wp_of_run (armed_encodeFrame (by decide : MessageType.archiveAuth ≠ .data) rfl small long rfl),
    wp_of_run (armed_onSession (authorizeArchiveProof_run aead archiveKey_long ready))]
  exact ⟨rfl,rfl⟩

theorem archive_handled_in (long : 16 ≤ key.length) {f : Frame}
    (ready : AwaitsArchive s) (count : (recv + 1) % 2 ^ 64 = next) (fits : recv < 2 ^ 64)
    (ok : f.Encodable) (typ : f.typ = .archiveAuth) (id : f.sessionID = sid)
    (body : f.body = archiveProof (archiveKey root sid) sid s) (seq : f.sequence = recv) :
    Driver.decodeAndHandle (f.wire key) aead (armed root sid key own s send recv) =
      (.ok f.stamped,armed root sid key own (archived s (archiveKey root sid)
        (archiveProof (archiveKey root sid) sid s)) send next) := by
  refine armed_decode long count fits ok id seq ?_
  have form : Driver.dispatch f.stamped = Driver.handleArchiveAuth f.body := by simp [Driver.dispatch,Frame.stamped,typ]
  apply wp.run_eq
  simp [form,body,Driver.handleArchiveAuth,wp_bind,wp_get,ne_nil_of_long archiveKey_long,
    wp_of_run (armed_onSession (authorizeArchiveProof_run aead archiveKey_long ready))]

theorem activate_sent (long : 16 ≤ key.length) : Driver.encodeFrame .activate [] aead
    (armed root sid key i2r (running root sid negotiated) 4 3) = (.ok ((activateFrame sid).wire key),
        armed root sid key i2r (running root sid negotiated) 5 3) :=
  encodeFrame_run (by decide) rfl (by decide) long

theorem activate_handled_in (long : 16 ≤ key.length) {f : Frame}
    (ready : AwaitsActivate s) (count : (recv + 1) % 2 ^ 64 = next) (fits : recv < 2 ^ 64)
    (ok : f.Encodable) (typ : f.typ = .activate) (id : f.sessionID = sid) (seq : f.sequence = recv) :
    Driver.decodeAndHandle (f.wire key) aead (armed root sid key own s send recv) =
      (.ok f.stamped,armed root sid key own (activated s) send next) := by
  refine armed_decode long count fits ok id seq ?_
  have form : Driver.dispatch f.stamped = Driver.onSession activate := by simp [Driver.dispatch,Frame.stamped,typ]
  rw [form]
  exact onSession_run (activate_run aead ready)

/-- The key both ends install: it depends on the root, the id and the transcript. -/
def sessionKey (root : Bytes) (sid : SessionID) : Bytes :=
  derived root (suiteIDAEAD ++ 0 :: sid.val ++
    ((running root sid negotiated).transcript.getD Transcript.new).digest.val)

theorem installTrafficKey_in (size : root.length = rootKeySize) (dir : Bytes) {t : Transcript}
    (send recv : Nat) (active : s.state = .active) (transcript : s.transcript = some t)
    (suite : s.selectedSuite = suiteIDAEAD) :
    Driver.installTrafficKey root aead (armed root sid key dir s send recv) =
      (.ok (),{ armed root sid key dir s send recv with
        aeadKey := derived root (suiteIDAEAD ++ 0 :: sid.val ++ t.digest.val) }) := by
  have long : 16 ≤ root.length := by rw [size]; decide
  have traffic : trafficKey root t.digest sid suiteIDAEAD =
      .ok (derived root (suiteIDAEAD ++ 0 :: sid.val ++ t.digest.val)) := by
    simp [trafficKey,deriveKey_ok long]
  have sized : (derived root (suiteIDAEAD ++ 0 :: sid.val ++ t.digest.val)).length = aeadKeySize := by
    simp [aeadKeySize]
  have session : (armed root sid key dir s send recv).session = s := rfl
  have id : (armed root sid key dir s send recv).sessionID = sid := rfl
  have named : suiteIDAEAD ≠ [] := by decide
  apply wp.run_eq
  simp only [Driver.installTrafficKey,wp_bind,wp_get,wp_require,session,active,transcript,suite,id,traffic]
  refine ⟨fun _ => ⟨fun _ => ?_,fun unnamed => absurd named unnamed⟩,fun idle => absurd trivial idle⟩
  simp only [Driver.setAEADKey,wp_bind,wp_require,wp_modify]
  exact ⟨fun _ => ⟨trivial,rfl⟩,fun other => absurd sized other⟩

theorem installTrafficKey_run (size : root.length = rootKeySize) (dir : Bytes) (send recv : Nat) :
    Driver.installTrafficKey root aead (armed root sid key dir (running root sid negotiated) send recv) =
      (.ok (),{ armed root sid key dir (running root sid negotiated) send recv with
        aeadKey := sessionKey root sid }) := by
  obtain ⟨t,transcript⟩ : ∃ t, (running root sid negotiated).transcript = some t := ⟨_,rfl⟩
  rw [installTrafficKey_in size dir send recv rfl transcript rfl,sessionKey,transcript]
  rfl

variable (root sid)

def dialed (key : Bytes) : Driver :=
  { armed root sid key i2r (running root sid negotiated) 5 3 with aeadKey := sessionKey root sid }

def accepted (key : Bytes) : Driver :=
  { armed root sid key r2i (running root sid negotiated) 3 5 with aeadKey := sessionKey root sid }

def fromInitiator : Bytes :=
  (offerFrame sid).wire (channelKey root) ++ (i2rFrame root sid negotiated).wire (channelKey root) ++
    (archiveFrame root sid negotiated).wire (channelKey root) ++ (activateFrame sid).wire (channelKey root)

def fromResponder : Bytes :=
  (acceptFrame sid).wire (channelKey root) ++ (r2iFrame root sid negotiated).wire (channelKey root)

theorem wire_header (f : Frame) (key : Bytes) : headerBytes ≤ (f.wire key).length := by
  simp [Frame.wire,headerBytes]
  omega

theorem fresh_bare (key : Bytes) :
    Driver.newWithSuites offeredVersions [suiteIDAEAD] sid key true = bare sid key opened 1 1 := rfl

variable {root sid}

section steps

variable {env : Env} (long : 16 ≤ key.length)

theorem negotiate_step (c : Conn) : advance .handshake "negotiate local" (Driver.onSession negotiate)
    (bare sid key opened 1 1) env c = (.ok (bare sid key negotiated 1 1),c) :=
  advance_run c (onSession_run (negotiate_opened env.aead))

include long

variable (i o : Bytes)

theorem offer_step : emit .handshake "offer" (Driver.encodeNegotiateOffer offeredVersions) (bare sid key negotiated 1 1)
      env ⟨i,o⟩ = (.ok (bare sid key negotiated 2 1),⟨i,o ++ (offerFrame sid).wire key⟩) :=
  emit_run (offer_sent long) (wire_header _ _)

theorem i2r_step : emit .auth "peer auth i2r" Driver.encodePeerAuth (armed root sid key i2r negotiated 2 2) env ⟨i,o⟩ =
      (.ok (armed root sid key i2r (halfProved root sid negotiated) 3 2),⟨i,o ++ (i2rFrame root sid negotiated).wire key⟩) :=
  emit_run (peerAuth_sent long 2 negotiated_awaits rfl) (wire_header _ _)

theorem archive_step :
    emit .auth "archive auth" Driver.encodeArchiveAuth (armed root sid key i2r (fullyProved root sid negotiated) 3 3)
      env ⟨i,o⟩ = (.ok (armed root sid key i2r (authorized root sid negotiated) 4 3),⟨i,o ++ (archiveFrame root sid negotiated).wire key⟩) :=
  emit_run (archive_sent long) (wire_header _ _)

theorem activate_step : sendFrame .activate [] (armed root sid key i2r (running root sid negotiated) 4 3) env ⟨i,o⟩ =
      (.ok (armed root sid key i2r (running root sid negotiated) 5 3),⟨i,o ++ (activateFrame sid).wire key⟩) :=
  emit_run (activate_sent long) (wire_header _ _)

theorem accept_step : emit .handshake "accept" Driver.encodeNegotiateAccept (bare sid key negotiated 1 2) env ⟨i,o⟩ =
      (.ok (bare sid key negotiated 2 2),⟨i,o ++ (acceptFrame sid).wire key⟩) :=
  emit_run (accept_sent long) (wire_header _ _)

theorem r2i_step {s : Session} (half : AwaitsProof (halfProved root sid s) r2i) :
    emit .auth "peer auth r2i" Driver.encodePeerAuth (armed root sid key r2i (halfProved root sid s) 2 3)
      env ⟨i,o⟩ = (.ok (armed root sid key r2i (fullyProved root sid s) 3 3),⟨i,o ++ (r2iFrame root sid s).wire key⟩) :=
  emit_run (peerAuth_sent long 3 half rfl) (wire_header _ _)

omit long

theorem activated_step (c : Conn) : advance .handshake "activate local" (Driver.onSession activate)
    (armed root sid key i2r (authorized root sid negotiated) 4 3) env c = (.ok (armed root sid key i2r (running root sid negotiated) 4 3),c) :=
  advance_run c (onSession_run (activate_run env.aead (authorized_awaits root sid)))

theorem dialed_step (size : root.length = rootKeySize) (c : Conn) :
    advance .auth "traffic key" (Driver.installTrafficKey root)
      (armed root sid key i2r (running root sid negotiated) 5 3) env c = (.ok (dialed root sid key),c) :=
  advance_run c (installTrafficKey_run size i2r 5 3)

theorem accepted_step (size : root.length = rootKeySize) (c : Conn) :
    advance .auth "traffic key" (Driver.installTrafficKey root)
      (armed root sid key r2i (running root sid negotiated) 3 5) env c = (.ok (accepted root sid key),c) :=
  advance_run c (installTrafficKey_run size r2i 3 5)

end steps

theorem dialHandshake_completes (size : root.length = rootKeySize) :
    dialHandshake root [] ⟨aead,sid⟩ ⟨fromResponder root sid,[]⟩ =
      (.ok (dialed root sid (channelKey root)),⟨[],fromInitiator root sid⟩) := by
  have long : 16 ≤ (channelKey root).length := channelKey_long
  have accept (i o : Bytes) : await .handshake "accept" (bare sid (channelKey root) negotiated 2 1)
      ⟨aead,sid⟩ ⟨(acceptFrame sid).wire (channelKey root) ++ i,o⟩ =
      (.ok (bare sid (channelKey root) negotiated 2 2),⟨i,o⟩) :=
    await_run (acceptFrame_encodable sid).body (accept_handled long)
  have proof (o : Bytes) : await .auth "peer auth r2i"
      (armed root sid (channelKey root) i2r (halfProved root sid negotiated) 3 2) ⟨aead,sid⟩
      ⟨(r2iFrame root sid negotiated).wire (channelKey root) ++ [],o⟩ =
      (.ok (armed root sid (channelKey root) i2r (fullyProved root sid negotiated) 3 3),⟨[],o⟩) :=
    await_run (r2iFrame_encodable root sid negotiated).body (peerAuth_handled long (halfProved_awaits root sid) rfl
      (by decide) (r2iFrame_encodable root sid negotiated) rfl rfl rfl rfl)
  rw [fromResponder,← List.append_nil ((r2iFrame root sid negotiated).wire (channelKey root)),dialHandshake]
  simp only [dialNegotiation,bind_bind]
  rw [require_bind size,bind_run (when_skipped (by simp) _ _ _),
    bind_run (wrapped_run (deriveMACKey_run root size) _ _),bind_run (ask_run _ _)]
  simp only [fresh_bare]
  rw [bind_run (negotiate_step _),bind_run (offer_step long _ _),bind_run (accept _ _),
    dialProofs,bind_run (withAuthKeys_run size i2r negotiated 2 2 _),bind_run (i2r_step long _ _),
    bind_run (proof _),bind_run (archive_step long _ _),bind_run (activated_step _),
    bind_run (activate_step long _ _),dialed_step size,List.nil_append,fromInitiator]

theorem deriveMACKey_length (derives : deriveMACKey root peerID = .ok key) : key.length = 32 := by
  have block : ∀ {ikm info k : Bytes}, hkdfSHA256 ikm none info 32 = .ok k → k.length = 32 := by
    intro ikm info k h
    rw [hkdfSHA256_block] at h
    cases h
    exact hmacSHA256_length _ _
  obtain ⟨base,channel,rest⟩ := except_bind_ok.mp derives
  split at rest
  · cases rest
    unfold channelMACKey at channel
    split at channel
    · cases channel
    · split at channel
      · cases channel
      · split at channel
        · cases channel
        · exact deriveKey_length channel
  · exact block rest

theorem deriveMACKey_long (derives : deriveMACKey root peerID = .ok key) : 16 ≤ key.length := by
  rw [deriveMACKey_length derives]
  decide

theorem opened_by (opens : first = offerFrame sid ∨ first = acceptFrame sid) :
    Driver.handle first.stamped aead (bare sid key opened 1 1) = (.ok (),bare sid key negotiated 1 2) := by
  rcases opens with rfl | rfl
  · exact offer_handled
  · have negotiates : when (opened.state = .new) (Driver.onSession negotiate) aead (bare sid key opened 1 1) =
        (.ok (),bare sid key negotiated 1 1) := onSession_run (negotiate_opened aead)
    exact handle_run rfl rfl rfl (accept_dispatched negotiates)

section responder

variable (root : Bytes) (sid : SessionID) (s : Session)

/-- A negotiated session that the right proofs take to ACTIVE. -/
structure Serves : Prop where
  negotiated : AwaitsProof s i2r
  half : AwaitsProof (halfProved root sid s) r2i
  full : AwaitsArchive (fullyProved root sid s)
  authorized : AwaitsActivate (authorized root sid s)
  active : (running root sid s).state = .active
  transcript : ∃ t, (running root sid s).transcript = some t
  suite : (running root sid s).selectedSuite = suiteIDAEAD

variable {root sid s}

/-- Four frames complete the responder, whatever version the first one offers and whatever follows. -/
theorem acceptHandshake_runs (size : root.length = rootKeySize) (derives : deriveMACKey root peerID = .ok key)
    {body : Bytes} (env : Env)
    (encodable : first.Encodable) (id : first.stamped.sessionID = sid) (early : first.sequence < 2 ^ 64)
    (opens : Driver.handle first.stamped env.aead (bare sid key opened 1 1) = (.ok (),bare sid key s 1 2))
    (accept : encodeNegotiateAcceptBody s.selected s.selectedSuite = .ok body)
    (small : body.length ≤ maxBodyBytes) (serves : Serves root sid s) {t : Transcript}
    (transcript : (running root sid s).transcript = some t) (more : Bytes) :
    acceptHandshake root peerID env ⟨first.wire key ++ ((i2rFrame root sid s).wire key ++
        ((archiveFrame root sid s).wire key ++ ((activateFrame sid).wire key ++ more))),[]⟩ =
      (.ok { armed root sid key r2i (running root sid s) 3 5 with
        aeadKey := derived root (suiteIDAEAD ++ 0 :: sid.val ++ t.digest.val) },
      ⟨more,((bare sid key s 1 2).outbound .negotiateAccept body).wire key ++ (r2iFrame root sid s).wire key⟩) := by
  have long := deriveMACKey_long derives
  have decoded : decode (first.wire key) key true = .ok first.stamped := decode_wire long encodable early true
  have proof (i o : Bytes) : await .auth "peer auth i2r" (armed root sid key r2i s 2 2) env
      ⟨(i2rFrame root sid s).wire key ++ i,o⟩ =
      (.ok (armed root sid key r2i (halfProved root sid s) 2 3),⟨i,o⟩) :=
    await_run (i2rFrame_encodable root sid s).body (peerAuth_handled long serves.negotiated rfl
      (by decide) (i2rFrame_encodable root sid s) rfl rfl rfl rfl)
  have archive (i o : Bytes) : await .auth "archive auth" (armed root sid key r2i (fullyProved root sid s) 3 3) env
      ⟨(archiveFrame root sid s).wire key ++ i,o⟩ =
      (.ok (armed root sid key r2i (authorized root sid s) 3 4),⟨i,o⟩) :=
    await_run (archiveFrame_encodable root sid s).body (archive_handled_in long serves.full rfl (by decide)
      (archiveFrame_encodable root sid s) rfl rfl rfl rfl)
  have activate (i o : Bytes) : await .handshake "activate"
      (armed root sid key r2i (authorized root sid s) 3 4) env ⟨(activateFrame sid).wire key ++ i,o⟩ =
      (.ok (armed root sid key r2i (running root sid s) 3 5),⟨i,o⟩) :=
    await_run (activateFrame_encodable sid).body (activate_handled_in long serves.authorized rfl
      (by decide) (activateFrame_encodable sid) rfl rfl rfl)
  simp only [acceptHandshake,acceptNegotiation,bind_bind]
  rw [require_bind size,bind_run (wrapped_run derives _ _),
    bind_run (readFrame_run encodable.body _ _ _),bind_run (wrapped_run decoded _ _)]
  simp only [id,fresh_bare]
  rw [bind_run (advance_run _ opens),
    bind_run (emit_run (accept_sent_in long serves.negotiated.state accept small) (wire_header _ _)),
    acceptProofs,bind_run (withAuthKeys_run size r2i s 2 2 _),bind_run (proof _ _),bind_run (r2i_step long _ _ serves.half),
    bind_run (archive _ _),acceptLast,bind_run (activate _ _),
    advance_run _ (installTrafficKey_in size r2i 3 5 serves.active transcript serves.suite),List.nil_append]

end responder

theorem negotiated_serves : Serves root sid negotiated :=
  ⟨negotiated_awaits,halfProved_awaits root sid,fullyProved_awaits root sid,authorized_awaits root sid,rfl,⟨_,rfl⟩,rfl⟩

/-- Four frames complete the responder, whoever sends them and whatever follows. -/
theorem acceptHandshake_serves (size : root.length = rootKeySize) (derives : deriveMACKey root peerID = .ok key)
    (opens : first = offerFrame sid ∨ first = acceptFrame sid) (env : Env) (more : Bytes) :
    acceptHandshake root peerID env ⟨first.wire key ++ ((i2rFrame root sid negotiated).wire key ++
        ((archiveFrame root sid negotiated).wire key ++ ((activateFrame sid).wire key ++ more))),[]⟩ =
      (.ok (accepted root sid key),⟨more,(acceptFrame sid).wire key ++ (r2iFrame root sid negotiated).wire key⟩) := by
  have encodable : first.Encodable := by
    rcases opens with rfl | rfl
    · exact offerFrame_encodable sid
    · exact acceptFrame_encodable sid
  have id : first.stamped.sessionID = sid := by rcases opens with rfl | rfl <;> rfl
  have early : first.sequence < 2 ^ 64 := by rcases opens with rfl | rfl <;> exact (by decide : 1 < 2 ^ 64)
  exact acceptHandshake_runs size derives env encodable id early (opened_by opens)
    (by decide : encodeNegotiateAcceptBody negotiated.selected negotiated.selectedSuite = .ok acceptBody)
    (by decide) negotiated_serves rfl more

theorem acceptHandshake_completes (size : root.length = rootKeySize) (unused : SessionID) :
    acceptHandshake root [] ⟨aead,unused⟩ ⟨fromInitiator root sid,[]⟩ =
      (.ok (accepted root sid (channelKey root)),⟨[],fromResponder root sid⟩) := by
  have served := acceptHandshake_serves size (deriveMACKey_run root size)
    (.inl (rfl : offerFrame sid = _)) ⟨aead,unused⟩ []
  rw [List.append_nil,← List.append_assoc,← List.append_assoc] at served
  exact served

end exchange

end Integris.Remote
