import Integris.Lockstep
import Integris.SessionSafety

/-! The sealed handoff of a session: the role that ran the handshake confers what the
next role needs to carry the session on, never the root key. -/
namespace Integris.Remote

open Session Crypto Protocol Prog

structure SessionSeal where
  sessionID : SessionID
  macKey : Bytes
  aeadKey : Bytes
  sendSeq : Nat
  recvSeq : Nat
  selected : Version
  suite : Bytes
  deriving DecidableEq

def sealFromDriver (d : Driver) : Except RemoteError SessionSeal := do
  demand (d.session.state = .active) { kind := .handshake, message := "seal requires ACTIVE" }
  demand (d.aeadKey.length = aeadKeySize ∧ 16 ≤ d.macKey.length)
    { kind := .auth, message := "incomplete sealed keys" }
  .ok ⟨d.sessionID,d.macKey,d.aeadKey,d.sendSeq,d.recvSeq,d.session.selected,d.session.selectedSuite⟩

/-- One byte of length, then the field. -/
def sealField (b : Bytes) : Bytes := UInt8.ofNat b.length :: b

def encodeSeal (s : SessionSeal) : Except RemoteError Bytes := do
  demand (s.macKey.length ≤ 255 ∧ s.aeadKey.length ≤ 255 ∧ s.suite.length ≤ 255)
    { kind := .protocol, message := "seal field too long" }
  .ok (s.sessionID.val ++ sealField s.macKey ++ sealField s.aeadKey ++ leBytes 8 s.sendSeq ++
    leBytes 8 s.recvSeq ++ [s.selected] ++ sealField s.suite)

def decodeSeal (p : Bytes) : Except RemoteError SessionSeal := do
  demand (16 + 1 + 1 + 8 + 8 + 1 + 1 ≤ p.length) { kind := .protocol, message := "short seal" }
  let sessionID := Fixed.ofBytes 16 (p.take 16)
  let p := p.drop 16
  let n := (p.headD 0).toNat
  let p := p.drop 1
  demand (n ≤ p.length) { kind := .protocol, message := "short seal mac" }
  let macKey := p.take n
  let p := p.drop n
  demand (1 ≤ p.length) { kind := .protocol, message := "short seal aead len" }
  let n := (p.headD 0).toNat
  let p := p.drop 1
  demand (n + 8 + 8 + 1 + 1 ≤ p.length) { kind := .protocol, message := "short seal aead" }
  let aeadKey := p.take n
  let p := p.drop n
  let sendSeq := leNat (p.take 8)
  let p := p.drop 8
  let recvSeq := leNat (p.take 8)
  let p := p.drop 8
  let selected := p.headD 0
  let p := p.drop 1
  let n := (p.headD 0).toNat
  let p := p.drop 1
  demand (p.length = n) { kind := .protocol, message := "seal suite length" }
  .ok ⟨sessionID,macKey,aeadKey,sendSeq,recvSeq,selected,p⟩

/-- The driver of the rebuilt session. The versions on offer are this role's own. -/
def unsealed (s : SessionSeal) : Driver :=
  let d := Driver.newWithSuites offeredVersions (if s.suite = [] then [suiteIDAEAD] else [s.suite])
    s.sessionID s.macKey true
  { d with
    session := { d.session with
      state := .active
      selected := s.selected
      selectedSuite := s.suite
      peerAuthenticated := true
      authI2R := true
      authR2I := true
      archiveAuthorized := true }
    sendSeq := s.sendSeq
    recvSeq := s.recvSeq }

def sessionFromSeal (sealRaw : Bytes) : Exchange Driver := do
  let s ← ofExcept (decodeSeal sealRaw)
  advance .auth "aead" (Driver.setAEADKey s.aeadKey) (unsealed s)

/-! ## The seal on the wire -/

structure SessionSeal.Fits (s : SessionSeal) : Prop where
  macKey : s.macKey.length ≤ 255
  aeadKey : s.aeadKey.length ≤ 255
  suite : s.suite.length ≤ 255
  sendSeq : s.sendSeq < 2 ^ 64
  recvSeq : s.recvSeq < 2 ^ 64

theorem sealField_length {b : Bytes} (short : b.length ≤ 255) : (UInt8.ofNat b.length).toNat = b.length := by
  rw [UInt8.toNat_ofNat']
  exact Nat.mod_eq_of_lt (by omega)

theorem decodeSeal_encode {s : SessionSeal} (fits : s.Fits) : ∃ raw, encodeSeal s = .ok raw ∧ decodeSeal raw = .ok s := by
  refine ⟨_,demand_bind_ok.mpr ⟨⟨fits.macKey,fits.aeadKey,fits.suite⟩,rfl⟩,?_⟩
  have id : s.sessionID.val.length = 16 := s.sessionID.property
  have mac := sealField_length fits.macKey
  have aead := sealField_length fits.aeadKey
  have suite := sealField_length fits.suite
  have send : leNat (leBytes 8 s.sendSeq) = s.sendSeq := leNat_leBytes_of_lt (by exact fits.sendSeq)
  have recv : leNat (leBytes 8 s.recvSeq) = s.recvSeq := leNat_leBytes_of_lt (by exact fits.recvSeq)
  have sid : Fixed.ofBytes 16 s.sessionID.val = s.sessionID := Fixed.ofBytes_of_val _
  have take8 (n : Nat) (rest : Bytes) : (leBytes 8 n ++ rest).take 8 = leBytes 8 n := List.take_left' (leBytes_length 8 n)
  have drop8 (n : Nat) (rest : Bytes) : (leBytes 8 n ++ rest).drop 8 = rest := List.drop_left' (leBytes_length 8 n)
  simp only [decodeSeal,sealField,List.append_assoc,List.cons_append,List.nil_append,List.take_left' id,
    List.drop_left' id,List.headD_cons,List.drop_succ_cons,List.drop_zero,mac,aead,suite,List.take_left,
    List.drop_left,take8,drop8,send,recv,sid]
  refine demand_bind_ok.mpr ⟨?_,demand_bind_ok.mpr ⟨?_,demand_bind_ok.mpr ⟨?_,demand_bind_ok.mpr ⟨?_,
    demand_bind_ok.mpr ⟨trivial,rfl⟩⟩⟩⟩⟩
  all_goals
    simp only [List.length_append,List.length_cons,leBytes_length,id]
    omega

/-! ## The same session twice -/

/-- Past the handshake: nothing but data, close and failure frames moves it. -/
def Late (s : State) : Prop := s = .active ∨ s = .closed ∨ s = .failed

/-- Two drivers no traffic can tell apart: what the handshake leaves behind besides the link, the
data stream and the session's state is never looked at again. -/
structure Twin (d e : Driver) : Prop where
  link : d.SameLink e
  recvSeq : e.recvSeq = d.recvSeq
  aeadKey : e.aeadKey = d.aeadKey
  lastPlaintext : e.lastPlaintext = d.lastPlaintext
  trackDataChunks : e.trackDataChunks = d.trackDataChunks
  nextDataOffset : e.nextDataOffset = d.nextDataOffset
  state : e.session.state = d.session.state
  late : Late d.session.state
  receiveSequence : e.session.receiveSequence = d.session.receiveSequence
  maxAccept : e.session.maxAccept = d.session.maxAccept

section twins

variable {aead : Aead} {d e : Driver}

/-- Both accept with the same result, or both refuse; no traffic can tell them apart after. -/
abbrev Mirrors (aead : Aead) (m n : Driver.Op α) (d e : Driver) : Prop :=
  Lockstep aead (fun _ => False) m n d e (fun a b d e => a = b ∧ Twin d e) (fun _ _ => Twin) fun _ _ => False

variable {m n : Driver.Op α}

theorem Mirrors.bind {f g : α → Driver.Op β} (first : Mirrors aead m n d e)
    (rest : ∀ a d e, Twin d e → Mirrors aead (f a) (g a) d e) : Mirrors aead (m >>= f) (n >>= g) d e := by
  refine Lockstep.bind (first.mono ?_ (fun _ _ _ _ => id) (fun _ _ => id)) fun _ _ => False.elim
  rintro a _ d e ⟨rfl,twin⟩
  exact rest a d e twin

theorem Mirrors.refused (twin : Twin d e) (left : wp m aead d (fun _ _ => False) (fun _ t => t = d) (fun _ => False))
    (right : wp n aead e (fun _ _ => False) (fun _ t => t = e) (fun _ => False)) : Mirrors aead m n d e := by
  refine Lockstep.of_wp left right (fun _ _ _ _ => False.elim) ?_ (fun _ _ _ _ => False.elim) fun _ _ _ _ => False.elim
  rintro _ _ _ _ rfl rfl
  exact twin

section

variable (late : Late d.session.state)
include late

theorem Late.not_new : d.session.state ≠ .new := by
  rcases late with h | h | h <;> rw [h] <;> decide

theorem Late.not_negotiated : d.session.state ≠ .negotiated := by
  rcases late with h | h | h <;> rw [h] <;> decide

theorem Late.not_authenticated : d.session.state ≠ .peerAuthenticated := by
  rcases late with h | h | h <;> rw [h] <;> decide

theorem Late.not_authorized : d.session.state ≠ .archiveAuthorized := by
  rcases late with h | h | h <;> rw [h] <;> decide

end

theorem Twin.later (twin : Twin d e) : Late e.session.state := by
  rw [twin.state]
  exact twin.late

section

variable (late : Late d.session.state) (body : Bytes)
include late body

theorem late_offer : Driver.handleNegotiateOffer body aead d = (.ok (),d) := by
  apply wp.run_eq
  simp only [Driver.handleNegotiateOffer,wp_bind,wp_get,wp_when]
  exact ⟨fun new => absurd new late.not_new,fun _ => ⟨trivial,trivial⟩⟩

/-- An accept is read for its form only. -/
theorem late_accept : wp (Driver.handleNegotiateAccept body) aead d (fun _ t => Driver.readAccept body = .ok none ∧ t = d)
    (fun _ t => Driver.readAccept body ≠ .ok none ∧ t = d) (fun _ => False) := by
  simp only [Driver.handleNegotiateAccept,wp_bind,wp_ofExcept,wp_get,wp_when]
  refine ⟨fun wire read => ⟨fun new => absurd new late.not_new,fun _ => ?_⟩,fun _ read => ⟨by simp [read],trivial⟩⟩
  cases wire with
  | none => exact ⟨read,rfl⟩
  | some choice =>
    simp only [Driver.onSession,wp_zoom,confirmAccept,wp_bind,wp_get,wp_require]
    exact ⟨fun negotiated => absurd negotiated late.not_negotiated,fun _ => ⟨by simp [read],trivial⟩⟩

theorem late_peerAuth : wp (Driver.handlePeerAuth body) aead d (fun _ _ => False) (fun _ t => t = d) (fun _ => False) := by
  simp only [Driver.handlePeerAuth,wp_bind,wp_get]
  split
  · simp only [wp_bind,wp_ofExcept,Driver.onSession,wp_zoom,authenticateProof,wp_get,wp_require]
    exact ⟨fun _ _ => ⟨fun negotiated => absurd negotiated late.not_negotiated,fun _ => trivial⟩,fun _ _ => trivial⟩
  · simp only [Driver.onSession,wp_zoom,authenticate,wp_bind,wp_get,wp_require]
    exact ⟨fun negotiated => absurd negotiated late.not_negotiated,fun _ => trivial⟩

theorem late_archiveAuth :
    wp (Driver.handleArchiveAuth body) aead d (fun _ _ => False) (fun _ t => t = d) (fun _ => False) := by
  simp only [Driver.handleArchiveAuth,wp_bind,wp_get]
  split
  · simp only [Driver.onSession,wp_zoom,authorizeArchiveProof,wp_bind,wp_get,wp_require]
    exact ⟨fun ready => absurd ready.1 late.not_authenticated,fun _ => trivial⟩
  · simp only [Driver.onSession,wp_zoom,authorizeArchive,wp_bind,wp_get,wp_require]
    exact ⟨fun ready => absurd ready.1 late.not_authenticated,fun _ => trivial⟩

end

theorem late_activate (late : Late d.session.state) :
    wp (Driver.onSession activate) aead d (fun _ _ => False) (fun _ t => t = d) (fun _ => False) := by
  simp only [Driver.onSession,wp_zoom,activate,wp_bind,wp_get,wp_require]
  exact ⟨fun ready => absurd ready late.not_authorized,fun _ => trivial⟩

section

variable (twin : Twin d e)
include twin

theorem Twin.session {s t : Session} (state : t.state = s.state) (late : Late s.state)
    (received : t.receiveSequence = s.receiveSequence) (limit : t.maxAccept = s.maxAccept) :
    Twin { d with session := s } { e with session := t } :=
  { twin with link := ⟨twin.link.sendSeq,twin.link.sessionID,twin.link.macKey,twin.link.requireMAC⟩
              state := state, late := late, receiveSequence := received, maxAccept := limit }

theorem Twin.keep (p : Bytes × Nat) : Twin (d.keep p) (e.keep p) :=
  { twin with link := ⟨twin.link.sendSeq,twin.link.sessionID,twin.link.macKey,twin.link.requireMAC⟩
              lastPlaintext := rfl, nextDataOffset := rfl }

theorem Twin.carried (f : Frame) : e.carried aead f = d.carried aead f := by
  have opened : Driver.openData aead e f = Driver.openData aead d f := by
    simp only [Driver.openData,Driver.dataAAD,twin.aeadKey,twin.link.sessionID]
  have stored (body : Bytes) : e.stored body = d.stored body := by
    simp only [Driver.stored,twin.trackDataChunks,twin.nextDataOffset]
  simp only [Driver.carried,opened,stored]

theorem Twin.accepts : e.session.Accepts ↔ d.session.Accepts := by
  simp only [Session.Accepts,acceptLimit,twin.state,twin.receiveSequence,twin.maxAccept]

theorem mirrors_data (f : Frame) : Mirrors aead (Driver.handleData f) (Driver.handleData f) d e := by
  refine Lockstep.of_wp (Driver.handleData_ends d f) (Driver.handleData_ends e f) ?_ ?_ ?_ ?_
  · rintro _ _ _ _ ⟨p,carried,accepts,rfl⟩ ⟨q,carried',-,rfl⟩
    rw [twin.carried,carried] at carried'
    cases carried'
    refine ⟨rfl,(twin.keep p).session twin.state twin.late ?_ twin.maxAccept⟩
    exact congrArg (· + 1) twin.receiveSequence
  · rintro _ _ _ _ (⟨none,rfl⟩ | ⟨p,some_,-,rfl⟩) (⟨none',rfl⟩ | ⟨q,some',-,rfl⟩)
    · exact twin
    · rw [twin.carried,none] at some'
      cases some'
    · rw [twin.carried,some_] at none'
      cases none'
    · rw [twin.carried,some_] at some'
      cases some'
      exact twin.keep p
  · rintro _ _ _ _ ⟨p,carried,accepts,-⟩ (⟨none,-⟩ | ⟨q,-,refuses,-⟩)
    · rw [twin.carried,carried] at none
      cases none
    · exact refuses (twin.accepts.mpr accepts)
  · rintro _ _ _ _ ⟨p,carried,accepts,-⟩ (⟨none,-⟩ | ⟨q,-,refuses,-⟩)
    · rw [twin.carried,none] at carried
      cases carried
    · exact refuses (twin.accepts.mp accepts)

theorem mirrors_shut : Mirrors aead (Driver.onSession shut) (Driver.onSession shut) d e := by
  have ends (d : Driver) : wp (Driver.onSession shut) aead d
      (fun _ t => d.session.state = .active ∧ t = { d with session := { d.session with state := .closed } })
      (fun _ t => d.session.state ≠ .active ∧ t = d) (fun _ => False) := by
    simp only [Driver.onSession,wp_zoom,shut,wp_bind,wp_get,wp_require,wp_modify]
    exact ⟨fun active => ⟨active,trivial⟩,fun idle => ⟨idle,trivial⟩⟩
  refine Lockstep.of_wp (ends d) (ends e) ?_ ?_ ?_ ?_
  · rintro _ _ _ _ ⟨-,rfl⟩ ⟨-,rfl⟩
    exact ⟨rfl,twin.session rfl (.inr (.inl rfl)) twin.receiveSequence twin.maxAccept⟩
  · rintro _ _ _ _ ⟨-,rfl⟩ ⟨-,rfl⟩
    exact twin
  · rintro _ _ _ _ ⟨active,-⟩ ⟨idle,-⟩
    exact idle (twin.state.trans active)
  · rintro _ _ _ _ ⟨active,-⟩ ⟨idle,-⟩
    exact idle (twin.state.symm.trans active)

theorem mirrors_dispatch (f : Frame) : Mirrors aead (Driver.dispatch f) (Driver.dispatch f) d e := by
  unfold Driver.dispatch
  split
  · intro _
    rw [late_offer twin.late,late_offer twin.later]
    exact ⟨rfl,twin⟩
  · refine Lockstep.of_wp (late_accept twin.late _) (late_accept twin.later _) ?_ ?_ ?_ ?_
    · rintro _ _ _ _ ⟨-,rfl⟩ ⟨-,rfl⟩
      exact ⟨rfl,twin⟩
    · rintro _ _ _ _ ⟨-,rfl⟩ ⟨-,rfl⟩
      exact twin
    · exact fun _ _ _ _ fine bad => bad.1 fine.1
    · exact fun _ _ _ _ fine bad => bad.1 fine.1
  · exact .refused twin (late_peerAuth twin.late _) (late_peerAuth twin.later _)
  · exact .refused twin (late_archiveAuth twin.late _) (late_archiveAuth twin.later _)
  · exact .refused twin (late_activate twin.late) (late_activate twin.later)
  · exact mirrors_data twin f
  · exact mirrors_shut twin
  · intro _
    exact twin.session rfl (.inr (.inr rfl)) twin.receiveSequence twin.maxAccept
  · exact .refused twin rfl rfl

theorem mirrors_require {p q : Prop} [Decidable p] [Decidable q] (same : p ↔ q)
    (err err' : Failure) : Mirrors aead (require p err) (require q err') d e := by
  have ends (r : Prop) [Decidable r] (x : Failure) (t : Driver) :
      wp (require r x : Driver.Op Unit) aead t (fun _ u => r ∧ u = t) (fun _ u => ¬r ∧ u = t) (fun _ => False) :=
    wp_require.mpr ⟨fun h => ⟨h,rfl⟩,fun h => ⟨h,rfl⟩⟩
  refine Lockstep.of_wp (ends p err d) (ends q err' e) ?_ ?_ ?_ ?_
  · rintro _ _ _ _ ⟨-,rfl⟩ ⟨-,rfl⟩
    exact ⟨rfl,twin⟩
  · rintro _ _ _ _ ⟨-,rfl⟩ ⟨-,rfl⟩
    exact twin
  · exact fun _ _ _ _ yes no => no.1 (same.mp yes.1)
  · exact fun _ _ _ _ yes no => no.1 (same.mpr yes.1)

theorem mirrors_handle (f : Frame) : Mirrors aead (Driver.handle f) (Driver.handle f) d e := by
  refine Lockstep.left_run rfl (Lockstep.right_run rfl ?_)
  refine (mirrors_require twin (by rw [twin.link.sessionID]) _ _).bind fun _ _ _ same => ?_
  refine (mirrors_require same (by rw [twin.recvSeq]) _ _).bind fun _ _ _ same => ?_
  refine (mirrors_require same Iff.rfl _ _).bind fun _ _ _ same => ?_
  refine (mirrors_dispatch same f).bind fun _ d e same _ => ⟨rfl,?_⟩
  exact { same with
    link := ⟨same.link.sendSeq,same.link.sessionID,same.link.macKey,same.link.requireMAC⟩
    recvSeq := congrArg (fun n => (n + 1) % 2 ^ 64) same.recvSeq }

theorem mirrors_ofExcept {x y : Except Failure α} (same : y = x) : Mirrors aead (ofExcept x) (ofExcept y) d e := by
  rw [same]
  cases x with
  | ok a => exact fun _ => ⟨rfl,twin⟩
  | error e => exact fun _ => twin

theorem mirrors_decodeAndHandle (raw : Bytes) :
    Mirrors aead (Driver.decodeAndHandle raw) (Driver.decodeAndHandle raw) d e := by
  refine Lockstep.left_run rfl (Lockstep.right_run rfl ?_)
  refine (mirrors_ofExcept twin (by rw [twin.link.macKey,twin.link.requireMAC])).bind fun f _ _ same => ?_
  exact (mirrors_handle same f).bind fun _ _ _ same _ => ⟨rfl,same⟩

theorem mirrors_encodeFrame (typ : MessageType) (body : Bytes) :
    Mirrors aead (Driver.encodeFrame typ body) (Driver.encodeFrame typ body) d e := by
  have sealed : Driver.sealData aead e typ body = Driver.sealData aead d typ body := by
    simp only [Driver.sealData,Driver.dataAAD,twin.aeadKey,twin.link.sendSeq,twin.link.sessionID]
  refine Lockstep.left_run rfl (Lockstep.right_run rfl (Lockstep.left_run rfl (Lockstep.right_run rfl ?_)))
  refine (mirrors_ofExcept twin sealed).bind fun wire _ _ same => ?_
  have framed : encode (e.outbound typ wire) e.macKey = encode (d.outbound typ wire) d.macKey := by
    simp only [Driver.outbound,twin.link.sendSeq,twin.link.sessionID,twin.link.macKey,twin.link.requireMAC]
  refine (mirrors_ofExcept same framed).bind fun raw d e same _ => ⟨rfl,?_⟩
  exact { same with
    link := ⟨congrArg (fun n => (n + 1) % 2 ^ 64) same.link.sendSeq,same.link.sessionID,same.link.macKey,
      same.link.requireMAC⟩ }

end

end twins

/-! ## Traffic -/

/-- What may happen to a session that is past its handshake. -/
inductive Transit where
  | inbound (raw : Bytes)
  | outbound (typ : MessageType) (body : Bytes)

/-- What its peer and its caller get to see of it. -/
inductive Seen where
  | accepted (f : Frame) (plaintext : Bytes)
  | emitted (raw : Bytes)
  | refused
  deriving DecidableEq

def observe (aead : Aead) (d : Driver) : Transit → Seen × Driver
  | .inbound raw =>
    match Driver.decodeAndHandle raw aead d with
    | (.ok f, d) => (.accepted f d.lastPlaintext,d)
    | (_, d) => (.refused,d)
  | .outbound typ body =>
    match Driver.encodeFrame typ body aead d with
    | (.ok raw, d) => (.emitted raw,d)
    | (_, d) => (.refused,d)

def observeAll (aead : Aead) : Driver → List Transit → List Seen
  | _, [] => []
  | d, event :: rest => (observe aead d event).1 :: observeAll aead (observe aead d event).2 rest

theorem Twin.observe (aead : Aead) {d e : Driver} (twin : Twin d e) (event : Transit) :
    (Remote.observe aead d event).1 = (Remote.observe aead e event).1 ∧
      Twin (Remote.observe aead d event).2 (Remote.observe aead e event).2 := by
  cases event with
  | inbound raw =>
    have both := (mirrors_decodeAndHandle twin raw : Mirrors aead _ _ d e) id
    simp only [Remote.observe]
    refine both.cases ?_ (fun _ _ _ _ same => ⟨rfl,same⟩) fun _ _ => False.elim
    rintro a _ d e ⟨rfl,same⟩
    exact ⟨congrArg (Seen.accepted a) same.lastPlaintext.symm,same⟩
  | outbound typ body =>
    have both := (mirrors_encodeFrame twin typ body : Mirrors aead _ _ d e) id
    simp only [Remote.observe]
    refine both.cases ?_ (fun _ _ _ _ same => ⟨rfl,same⟩) fun _ _ => False.elim
    rintro a _ d e ⟨rfl,same⟩
    exact ⟨rfl,same⟩

theorem Twin.observeAll {aead : Aead} {d e : Driver} (twin : Twin d e) (events : List Transit) :
    Remote.observeAll aead d events = Remote.observeAll aead e events := by
  induction events generalizing d e with
  | nil => rfl
  | cons event rest ih =>
    obtain ⟨same,next⟩ := twin.observe aead event
    rw [Remote.observeAll,Remote.observeAll,same,ih next]

/-! ## What a handshake leaves -/

/-- A driver that has stored no data. -/
structure Quiet (d : Driver) : Prop where
  lastPlaintext : d.lastPlaintext = []
  trackDataChunks : d.trackDataChunks = false
  nextDataOffset : d.nextDataOffset = 0
  recvSeq : d.recvSeq < 2 ^ 64

section quiet

variable {aead : Aead}

theorem quiet_onSession (m : Prog Aead Session Failure α) : Keeps aead Quiet (Driver.onSession m) :=
  Keeps.zoom m fun _ _ quiet => ⟨quiet.1,quiet.2,quiet.3,quiet.4⟩

variable {d : Driver} {key : Bytes}

/-- Before the session is ACTIVE no data frame is accepted. -/
theorem quiet_handle (quiet : Quiet d) (early : d.session.state ≠ .active) (f : Frame) :
    wlp (Driver.handle f) aead d fun _ => Quiet := by
  simp only [Driver.handle,wp_bind,wp_get,wp_require,wp_modify]
  refine ⟨fun _ => ⟨fun _ => ⟨fun _ => ?_,fun _ => trivial⟩,fun _ => trivial⟩,fun _ => trivial⟩
  have counts (t : Driver) (h : Quiet t) : Quiet { t with recvSeq := (t.recvSeq + 1) % 2 ^ 64 } :=
    { h with recvSeq := Nat.mod_lt _ (by decide) }
  by_cases data : f.typ = .data
  · simp only [Driver.dispatch,data]
    refine (Driver.handleData_ends d f).imp (fun _ t h => ?_)
    obtain ⟨p,-,accepts,-⟩ := h
    exact absurd accepts.1 early
  · exact (Driver.keeps_control (fun _ _ h => ⟨h.1,h.2,h.3,h.4⟩) data d quiet).imp (fun _ => counts)

theorem quiet_encodeFrame (typ : MessageType) (body : Bytes) : Keeps aead Quiet (Driver.encodeFrame typ body) :=
  Keeps.get.bind fun _ => Keeps.ask.bind fun _ => (Keeps.ofExcept _).bind fun _ => (Keeps.ofExcept _).bind fun _ =>
    Keeps.bind (Keeps.modify fun _ quiet => ⟨quiet.1,quiet.2,quiet.3,quiet.4⟩) fun _ => Keeps.pure _

theorem quiet_encodeNegotiateAccept : Keeps aead Quiet Driver.encodeNegotiateAccept :=
  Keeps.get.bind fun _ => (quiet_onSession _).when.bind fun _ => Keeps.get.bind fun _ =>
    (Keeps.require _).bind fun _ => (Keeps.ofExcept _).bind fun _ => quiet_encodeFrame _ _

theorem quiet_encodePeerAuth : Keeps aead Quiet Driver.encodePeerAuth :=
  Keeps.get.bind fun _ => (Keeps.require _).bind fun _ => (quiet_onSession _).bind fun _ =>
    (quiet_encodeFrame _ _).bind fun _ => (quiet_onSession _).bind fun _ => Keeps.pure _

/-- The responder on its way to ACTIVE. -/
structure Handshaking (key : Bytes) (d : Driver) : Prop where
  quiet : Quiet d
  blank : d.session.Blank
  safe : Safe d.session
  macKey : d.macKey = key
  requireMAC : d.requireMAC = true
  sendSeq : d.sendSeq < 2 ^ 64

theorem Handshaking.linked {d t : Driver} (h : Handshaking key d) (link : d.SameLink t)
    (quiet : Quiet t) (session : t.session.Blank ∧ Safe t.session) : Handshaking key t :=
  ⟨quiet,session.1,session.2,link.macKey.trans h.macKey,link.requireMAC.trans h.requireMAC,by rw [link.sendSeq]; exact h.sendSeq⟩

theorem Handshaking.spend (h : Handshaking key d) : Handshaking key d.spend :=
  ⟨⟨h.quiet.1,h.quiet.2,h.quiet.3,h.quiet.4⟩,h.blank,
    h.safe,h.macKey,h.requireMAC,Nat.mod_lt _ (by decide)⟩

theorem handshaking_handle (h : Handshaking key d) (early : d.session.state ≠ .active) (f : Frame) :
    wlp (Driver.handle f) aead d fun _ t => Handshaking key t ∧ d.session.state.Follows t.session.state := by
  refine (((quiet_handle h.quiet early f).and (Driver.handle_steps f d)).and
    (Driver.keeps_handle d f d (.refl d))).imp (fun _ t all => ?_)
  obtain ⟨⟨quiet,moved⟩,link⟩ := all
  exact ⟨h.linked link quiet ⟨moved.session.blank early h.blank,moved.session.safe h.safe⟩,moved.session.follows⟩

theorem handshaking_await (h : Handshaking key d) (early : d.session.state ≠ .active)
    (kind : Kind) (message : String) : Ensures (await kind message d) fun t =>
      Handshaking key t ∧ d.session.state.Follows t.session.state := by
  refine Ensures.after fun raw => Ensures.bind (drive_ensures (Q := fun t =>
    Handshaking key t ∧ d.session.state.Follows t.session.state) fun aead => ?_) fun _ held => Ensures.pure held
  simp only [Driver.decodeAndHandle,wp_bind,wp_get,wp_ofExcept,wp_pure]
  exact ⟨fun f _ => handshaking_handle h early f,fun _ _ => trivial⟩

theorem negotiateAccept_state (d : Driver) : wlp Driver.encodeNegotiateAccept aead d
    (fun _ t => t.session.state = .negotiated) := by
  refine Driver.wp_encodeNegotiateAccept (I := fun _ => True) trivial (wp_always fun _ => trivial)
    (fun _ _ _ => trivial) fun body t _ negotiated => ?_
  refine (Driver.encodeFrame_keeps _ body t).imp (fun _ u h => ?_)
  rw [← h.session]
  exact negotiated

end quiet

theorem emit_handshaking {m : Driver.Op Bytes} {P : State → Prop} (h : Handshaking key d)
    (emits : ∀ aead, Driver.Emits aead m) (quiet : ∀ aead, Keeps aead Quiet m)
    (steps : ∀ aead, wlp m aead d (fun _ t => (t.session.Blank ∧ Safe t.session) ∧ P t.session.state))
    (kind : Kind) (message : String) :
    Ensures (emit kind message m d) fun t => Handshaking key t ∧ P t.session.state := by
  refine Ensures.bind (drive_ensures (Q := fun t => Handshaking key t ∧ P t.session.state) fun aead => ?_)
    fun _ held => Ensures.after fun _ => Ensures.pure held
  have sent : wlp m aead d fun _ t => d.spend.SameLink t :=
    (emits aead d).imp (fun _ _ h => h.link)
  have silent : wlp m aead d fun _ => Quiet :=
    (quiet aead d h.quiet).imp (fun _ _ => id)
  refine ((sent.and silent).and (steps aead)).imp (fun _ t all => ?_)
  obtain ⟨⟨link,silent⟩,session,state⟩ := all
  exact ⟨h.spend.linked link silent session,state⟩

theorem emit_accept (h : Handshaking key d) : Ensures (emit .handshake "accept" Driver.encodeNegotiateAccept d) fun t =>
      Handshaking key t ∧ t.session.state = .negotiated := by
  refine emit_handshaking (P := fun s => s = .negotiated) h (fun _ => Driver.encodeNegotiateAccept_emits)
    (fun _ => quiet_encodeNegotiateAccept) (fun aead => ?_) _ _
  have moves := (Driver.encodeNegotiateAccept_moves d : wp Driver.encodeNegotiateAccept aead d _ _ _)
  refine (moves.and (negotiateAccept_state d)).imp (fun _ t both => ⟨⟨?_,both.1.session.safe h.safe⟩,both.2⟩)
  exact both.1.session.blank (fun _ => by rw [both.2]; decide) h.blank

theorem emit_peerAuth (h : Handshaking key d) : Ensures (emit .auth "peer auth r2i" Driver.encodePeerAuth d) fun t =>
      Handshaking key t ∧ (t.session.state = .peerAuthenticated ∨ t.session.state = .negotiated) := by
  refine emit_handshaking (P := fun s => s = .peerAuthenticated ∨ s = .negotiated) h
    (fun _ => Driver.encodeAuth_emits.1) (fun _ => quiet_encodePeerAuth) (fun aead => ?_) _ _
  refine (Driver.encodePeerAuth_proves d).imp (fun _ t proven => ?_)
  obtain ⟨proof,-,proven⟩ := proven
  refine ⟨⟨proven.moved.session.blank h.blank,proven.moved.session.safe h.safe⟩,?_⟩
  rcases proven.moved.session.entered with ⟨state,-⟩ | ⟨state,-⟩
  · exact .inl state
  · exact .inr state

/-- What a completed handshake hands over. -/
structure Settled (d : Driver) : Prop where
  active : d.session.state = .active
  quiet : Quiet d
  blank : d.session.Blank
  safe : Safe d.session
  requireMAC : d.requireMAC = true
  macKey : 16 ≤ d.macKey.length ∧ d.macKey.length ≤ 255
  aeadKey : d.aeadKey.length = aeadKeySize
  sendSeq : d.sendSeq < 2 ^ 64

theorem install_settles (h : Handshaking key d) (long : 16 ≤ key.length)
    (short : key.length ≤ 255) (kind : Kind) (message : String) (root : Bytes) :
    Ensures (advance kind message (Driver.installTrafficKey root) d) Settled := by
  refine install_ensures (fun active _ size => ⟨active,?_,h.blank,h.safe,h.requireMAC,by rw [h.macKey]; exact ⟨long,short⟩,
    size,h.sendSeq⟩) _ _ _
  exact ⟨h.quiet.1,h.quiet.2,h.quiet.3,h.quiet.4⟩

theorem State.Follows.early {s t : State} (follows : s.Follows t)
    (before : s = .negotiated ∨ s = .peerAuthenticated) : t ≠ .active := by
  rintro rfl
  rcases before with rfl | rfl <;> rcases follows with h | h | h <;> cases h

theorem start_handshaking (key : Bytes) (sid : SessionID) :
    Handshaking key (Driver.newWithSuites offeredVersions [suiteIDAEAD] sid key true) := by
  have one : 1 < 2 ^ 64 := by decide
  refine ⟨⟨rfl,rfl,rfl,one⟩,⟨rfl,rfl,Nat.zero_le 255⟩,?_,rfl,rfl,one⟩
  constructor <;> simp [Driver.newWithSuites,Session.newWithSuites,Session.fresh]

theorem withAuthKeys_handshaking (h : Handshaking key d) (root dir : Bytes) :
    Ensures (withAuthKeys root dir d) fun t => Handshaking key t ∧ t.session = d.session :=
  Ensures.after fun _ => Ensures.after fun _ => Ensures.pure
    ⟨⟨⟨h.quiet.1,h.quiet.2,h.quiet.3,h.quiet.4⟩,h.blank,h.safe,h.macKey,h.requireMAC,h.sendSeq⟩,rfl⟩

/-- Whatever frames a peer sends, a handshake that completes has taken no data on the way. -/
theorem acceptHandshake_settles (root peerID : Bytes) : Ensures (acceptHandshake root peerID) Settled := by
  simp only [acceptHandshake,acceptNegotiation,bind_bind]
  refine Ensures.after fun _ => ?_
  intro env c
  rw [wp_bind,wrapped,wp_mapError,wp_ofExcept]
  refine ⟨fun key derives => ?_,fun _ _ => trivial⟩
  have size := deriveMACKey_length derives
  refine (Ensures.after fun raw => Ensures.after fun f => ?_ : Ensures _ Settled) env c
  refine Ensures.bind (advance_ensures (Q := Handshaking key) fun aead => ?_) fun d1 h1 => ?_
  · exact (handshaking_handle (start_handshaking key f.sessionID) (show State.new ≠ .active by decide) f).imp (fun _ _ h => h.1)
  refine (emit_accept h1).bind fun d2 h2 => (withAuthKeys_handshaking h2.1 _ _).bind fun d3 h3 => ?_
  have third : d3.session.state = .negotiated := by rw [h3.2]; exact h2.2
  refine (handshaking_await h3.1 (by rw [third]; decide) _ _).bind fun d4 h4 => ?_
  refine (emit_peerAuth h4.1).bind fun d5 h5 => ?_
  have fifth : d5.session.state ≠ .active := by rcases h5.2 with h | h <;> rw [h] <;> decide
  refine (handshaking_await h5.1 fifth _ _).bind fun d6 h6 => ?_
  have sixth : d6.session.state ≠ .active := State.Follows.early h6.2 h5.2.symm
  refine (handshaking_await h6.1 sixth _ _).bind fun d7 h7 => ?_
  exact install_settles h7.1 (by rw [size]; decide) (by rw [size]; decide) _ _ _

end Integris.Remote
