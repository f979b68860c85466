import Integris.HandshakeTrace

/-! What one operation may do to a session and what one frame may do to a driver. An
operation that answers moves the session in one of a few ways; one that refuses leaves it
as it was, or FAILED. Authentication is kept apart, since which proofs were accepted is
told from a whole run. -/
namespace Integris.Session

open Crypto Prog

/-- The order of a session's life. -/
def State.next : State → Option State
  | .new => some .negotiated
  | .negotiated => some .peerAuthenticated
  | .peerAuthenticated => some .archiveAuthorized
  | .archiveAuthorized => some .active
  | .active => some .closed
  | .closed => none
  | .failed => none

/-- One place forward, or into FAILED, or not at all. -/
def State.Follows (before after : State) : Prop :=
  after = before ∨ after = .failed ∨ before.next = some after

theorem State.Follows.of_failed {after : State} (h : State.failed.Follows after) : after = .failed := by
  rcases h with h | h | h
  · exact h
  · exact h
  · cases h

/-- The propositions that `invariants` checks. -/
structure Safe (s : Session) : Prop where
  authorized : s.state = .active → s.peerAuthenticated ∧ s.archiveAuthorized
  highest : s.state = .active → s.downgraded = false
  replay : s.replayAccepted = false
  mutation : s.productMutation → s.peerAuthenticated ∧ s.archiveAuthorized
  bothWays : s.state = .peerAuthenticated ∨ s.peerAuthenticated → s.authI2R ∧ s.authR2I

theorem Safe.invariants {s : Session} (safe : Safe s) : s.invariants = .ok () := by
  have replay : ¬s.replayAccepted = true := by simp [safe.replay]
  have highest (active : s.state = .active) : ¬s.downgraded = true := by simp [safe.highest active]
  simp only [Session.invariants]
  split <;> simp only [except_unit_bind_ok,demand_ok]
  · rename_i active
    exact ⟨safe.authorized active,highest active,replay,safe.mutation,safe.bothWays⟩
  · exact ⟨replay,safe.mutation,safe.bothWays⟩

theorem fresh_safe (offered : List Version) : Safe (fresh offered) := by constructor <;> simp [fresh]

/-- No data has been counted and the suite is one this build knows. -/
def Blank (s : Session) : Prop := s.receiveSequence = 0 ∧ s.maxAccept = 0 ∧ s.selectedSuite.length ≤ 255

/-- What a session has been granted so far. -/
structure SameGrants (s t : Session) : Prop where
  peer : t.peerAuthenticated = s.peerAuthenticated
  i2r : t.authI2R = s.authI2R
  r2i : t.authR2I = s.authR2I
  archive : t.archiveAuthorized = s.archiveAuthorized
  mutation : t.productMutation = s.productMutation
  received : t.receiveSequence = s.receiveSequence
  blank : s.Blank → t.Blank
  replay : s.replayAccepted = false → t.replayAccepted = false
  base : s.state ≠ .new → t.authBaseDigest = s.authBaseDigest

theorem SameGrants.trans {s t u : Session} (h : SameGrants s t) (k : SameGrants t u)
    (later : t.state ≠ .new) : SameGrants s u :=
  ⟨k.peer.trans h.peer,k.i2r.trans h.i2r,k.r2i.trans h.r2i,k.archive.trans h.archive,
    k.mutation.trans h.mutation,k.received.trans h.received,k.blank ∘ h.blank,k.replay ∘ h.replay,
    fun old => (k.base later).trans (h.base old)⟩

/-- Everything an operation can do to a session short of authenticating the peer. -/
inductive Change (s t : Session) : Prop where
  | kept (same : t = s)
  | failed (state : t.state = .failed) (grants : SameGrants s t)
  | negotiated (before : s.state = .new) (state : t.state = .negotiated) (grants : SameGrants s t)
  | authorized (before : s.state = .peerAuthenticated) (peer : s.peerAuthenticated)
      (state : t.state = .archiveAuthorized) (archive : t.archiveAuthorized)
      (grants : SameGrants s { t with archiveAuthorized := s.archiveAuthorized })
  | activated (before : s.state = .archiveAuthorized) (peer : s.peerAuthenticated)
      (archive : s.archiveAuthorized) (highest : t.downgraded = false) (state : t.state = .active)
      (grants : SameGrants s t)
  | accepted (before : s.state = .active)
      (same : t = { s with receiveSequence := s.receiveSequence + 1, productMutation := true })
  | closed (before : s.state = .active) (same : t = { s with state := .closed })

variable {s t : Session} {dir : Bytes}

theorem Change.follows (h : Change s t) : s.state.Follows t.state := by
  cases h with
  | kept same => exact .inl (by rw [same])
  | failed state => exact .inr (.inl state)
  | negotiated before state => exact .inr (.inr (by rw [before,state]; rfl))
  | authorized before _ state => exact .inr (.inr (by rw [before,state]; rfl))
  | activated before _ _ _ state => exact .inr (.inr (by rw [before,state]; rfl))
  | accepted before same => exact .inl (by rw [same])
  | closed before same => exact .inr (.inr (by rw [before,same]; rfl))

/-- With the grants kept and no claim on ACTIVE or PEER_AUTHENTICATED, nothing can break. -/
theorem SameGrants.safe (grants : SameGrants s t) (safe : Safe s)
    (active : t.state ≠ .active) (peer : t.state ≠ .peerAuthenticated) : Safe t where
  authorized h := absurd h active
  highest h := absurd h active
  replay := grants.replay safe.replay
  mutation h := by
    rw [grants.peer,grants.archive]
    exact safe.mutation (by rw [← grants.mutation]; exact h)
  bothWays h := by
    rw [grants.i2r,grants.r2i]
    rcases h with h | h
    · exact absurd h peer
    · exact safe.bothWays (.inr (by rw [← grants.peer]; exact h))

theorem Change.safe (h : Change s t) (safe : Safe s) : Safe t := by
  cases h with
  | kept same => rw [same]; exact safe
  | failed state grants => exact grants.safe safe (by simp [state]) (by simp [state])
  | negotiated _ state grants => exact grants.safe safe (by simp [state]) (by simp [state])
  | authorized _ peer state archive grants =>
    have held := grants.safe safe (by simp [state]) (by simp [state])
    have keeps : t.peerAuthenticated := grants.peer.trans peer
    exact ⟨by simp [state],by simp [state],held.replay,fun _ => ⟨keeps,archive⟩,held.bothWays⟩
  | activated before peer archive highest state grants =>
    have both : t.peerAuthenticated ∧ t.archiveAuthorized := ⟨grants.peer.trans peer,grants.archive.trans archive⟩
    refine ⟨fun _ => both,fun _ => highest,grants.replay safe.replay,fun _ => both,fun _ => ?_⟩
    rw [grants.i2r,grants.r2i]
    exact safe.bothWays (.inr peer)
  | accepted before same =>
    subst same
    exact ⟨safe.authorized,safe.highest,safe.replay,fun _ => safe.authorized before,safe.bothWays⟩
  | closed before same =>
    subst same
    refine ⟨nofun,nofun,safe.replay,safe.mutation,fun h => safe.bothWays ?_⟩
    exact h.elim nofun .inr

/-- Which proofs are held, and against which digest, is decided elsewhere. -/
theorem Change.proofs (h : Change s t) : t.authI2R = s.authI2R ∧
    t.authR2I = s.authR2I ∧ (s.state ≠ .new → t.authBaseDigest = s.authBaseDigest) ∧
    (t.state = .new → s.state = .new) := by
  cases h with
  | kept same => rw [same]; exact ⟨rfl,rfl,fun _ => rfl,id⟩
  | failed state grants => exact ⟨grants.i2r,grants.r2i,grants.base,by simp [state]⟩
  | negotiated _ state grants => exact ⟨grants.i2r,grants.r2i,grants.base,by simp [state]⟩
  | authorized _ _ state _ grants => exact ⟨grants.i2r,grants.r2i,grants.base,by simp [state]⟩
  | activated _ _ _ _ state grants => exact ⟨grants.i2r,grants.r2i,grants.base,by simp [state]⟩
  | accepted _ same => rw [same]; exact ⟨rfl,rfl,fun _ => rfl,id⟩
  | closed _ same => rw [same]; exact ⟨rfl,rfl,fun _ => rfl,nofun⟩

theorem Change.blank (h : Change s t) (early : s.state = .active → t.state ≠ .active) (blank : s.Blank) : t.Blank := by
  cases h with
  | kept same => rwa [same]
  | failed _ grants | negotiated _ _ grants | authorized _ _ _ _ grants | activated _ _ _ _ _ grants => exact grants.blank blank
  | accepted before same => exact absurd (by rw [same]; exact before) (early before)
  | closed _ same => rwa [same]

/-- Authentication by proof: `dir` was still open, and with the second direction the
peer is authenticated. -/
structure Proved (dir : Bytes) (s t : Session) : Prop where
  before : s.state = .negotiated
  pending : dir = Crypto.i2r ∧ s.authI2R = false ∨ dir = Crypto.r2i ∧ s.authR2I = false
  i2r : t.authI2R = (s.authI2R || dir = Crypto.i2r)
  r2i : t.authR2I = (s.authR2I || dir = Crypto.r2i)
  archive : t.archiveAuthorized = s.archiveAuthorized
  mutation : t.productMutation = s.productMutation
  replay : t.replayAccepted = s.replayAccepted
  base : t.authBaseDigest = s.authBaseDigest
  blank : s.Blank → t.Blank
  entered : t.state = .peerAuthenticated ∧ (t.authI2R ∧ t.authR2I) ∧ t.peerAuthenticated ∨
    t.state = .negotiated ∧ t.peerAuthenticated = s.peerAuthenticated

/-- Authentication without a proof key. -/
structure Trusted (s t : Session) : Prop where
  before : s.state = .negotiated
  state : t.state = .peerAuthenticated
  both : t.authI2R ∧ t.authR2I
  peer : t.peerAuthenticated
  archive : t.archiveAuthorized = s.archiveAuthorized
  mutation : t.productMutation = s.productMutation
  replay : t.replayAccepted = s.replayAccepted
  blank : s.Blank → t.Blank

/-- One operation of a session, whatever it answers. -/
def Step (s t : Session) : Prop := Change s t ∨ Trusted s t ∨ ∃ dir, Proved dir s t

theorem Trusted.follows (h : Trusted s t) : s.state.Follows t.state := .inr (.inr (by rw [h.before,h.state]; rfl))

theorem Trusted.safe (h : Trusted s t) (safe : Safe s) : Safe t where
  authorized active := by simp [h.state] at active
  highest active := by simp [h.state] at active
  replay := h.replay.trans safe.replay
  mutation done := by
    rw [h.archive]
    exact ⟨h.peer,(safe.mutation (by rw [← h.mutation]; exact done)).2⟩
  bothWays _ := h.both

theorem Proved.follows (h : Proved dir s t) : s.state.Follows t.state := by
  rcases h.entered with ⟨state,-⟩ | ⟨state,-⟩
  · exact .inr (.inr (by rw [h.before,state]; rfl))
  · exact .inl (by rw [h.before,state])

theorem Proved.safe (h : Proved dir s t) (safe : Safe s) :
    Safe t := by
  have idle : t.state ≠ .active := by rcases h.entered with ⟨state,-⟩ | ⟨state,-⟩ <;> simp [state]
  have earlier (done : t.productMutation) := safe.mutation (by rw [← h.mutation]; exact done)
  refine ⟨fun active => absurd active idle,fun active => absurd active idle,
    h.replay.trans safe.replay,fun done => ⟨?_,by rw [h.archive]; exact (earlier done).2⟩,
    fun peer => ?_⟩
  · rcases h.entered with ⟨-,-,peer⟩ | ⟨-,peer⟩
    · exact peer
    · exact peer.trans (earlier done).1
  · rcases h.entered with ⟨-,both,-⟩ | ⟨state,same⟩
    · exact both
    · -- authenticated before: both directions were proved, and no direction is withdrawn
      have held := safe.bothWays (.inr (by
        rcases peer with peer | peer
        · simp [state] at peer
        · exact same.symm.trans peer))
      simp [h.i2r,h.r2i,held]

theorem Step.follows (h : Step s t) : s.state.Follows t.state := by
  rcases h with h | h | ⟨dir,h⟩
  · exact h.follows
  · exact h.follows
  · exact h.follows

theorem Step.safe (h : Step s t) (safe : Safe s) : Safe t := by
  rcases h with h | h | ⟨dir,h⟩
  · exact h.safe safe
  · exact h.safe safe
  · exact h.safe safe

theorem Step.blank (h : Step s t) (early : s.state ≠ .active) : s.Blank → t.Blank := by
  rcases h with h | h | ⟨dir,h⟩
  · exact h.blank fun active => absurd active early
  · exact h.blank
  · exact h.blank

/-- The bound `AcceptNext` applies. -/
def acceptLimit (s : Session) : Nat := if s.maxAccept = 0 then defaultMaxAccept else s.maxAccept

/-- Whether `AcceptNext` takes one more message. -/
def Accepts (s : Session) : Prop := s.state = .active ∧ s.receiveSequence < s.acceptLimit

instance (s : Session) : Decidable s.Accepts := inferInstanceAs (Decidable (_ ∧ _))

/-- One more message accepted. -/
def counted (s : Session) : Session :=
  { s with receiveSequence := s.receiveSequence + 1, productMutation := true }

/-- A refusal leaves the session as it was, or FAILED with what it had been granted. -/
def Declined (s t : Session) : Prop := t = s ∨ t.state = .failed ∧ SameGrants s t

theorem Declined.change (h : Declined s t) : Change s t := by
  rcases h with same | ⟨state,grants⟩
  · exact .kept same
  · exact .failed state grants

theorem declined_kept (s : Session) : Declined s s := .inl rfl

theorem declined_failed (s : Session) : Declined s { s with state := .failed } :=
  .inr ⟨rfl,rfl,rfl,rfl,rfl,rfl,rfl,id,id,fun _ => rfl⟩

section operations

variable {ρ : Type} {env : ρ}

/-- An operation that moves the session by `R`, or refuses. -/
def Acts (env : ρ) (R : Session → Session → Prop) (m : Prog ρ Session Failure α) : Prop :=
  ∀ s, wp m env s (fun _ => R s) (fun _ => Declined s) (fun _ => False)

variable {R S : Session → Session → Prop}

theorem Acts.relates {m : Prog ρ Session Failure α}
    (h : Acts env R m) (moves : ∀ s t, R s t → S s t) (refuses : ∀ s t, Change s t → S s t) :
    Relates env S m := fun s =>
  (h s).ends (fun _ => moves s) (fun _ t refused => refuses s t refused.change)

/-- Whatever is bound to the transcript on the way, negotiation grants nothing. -/
theorem negotiate_new {s : Session} (new : s.state = .new) : wp negotiate env s
    (fun _ t => t.state = .negotiated ∧ SameGrants s t)
    (fun _ t => t.state = .failed ∧ SameGrants s t) (fun _ => False) := by
  have early (t : Session) : s.state ≠ .new → t.authBaseDigest = s.authBaseDigest := fun old => absurd new old
  simp only [negotiate,wp_bind,wp_get,wp_require]
  refine ⟨fun _ => ?_,fun old => absurd new old⟩
  split
  · exact ⟨rfl,rfl,rfl,rfl,rfl,rfl,rfl,id,id,early _⟩
  · simp only [wp_bind,wp_modify]
    split
    · split
      · exact ⟨rfl,rfl,rfl,rfl,rfl,rfl,rfl,id,id,early _⟩
      · rename_i suite chosen
        have listed : suite ∈ localSuites := List.mem_of_find?_eq_some chosen
        have known : suite.length ≤ 255 := by
          rw [List.mem_singleton.mp listed]
          decide
        exact ⟨rfl,rfl,rfl,rfl,rfl,rfl,rfl,fun h => ⟨h.1,h.2.1,known⟩,id,early _⟩
    · exact ⟨rfl,rfl,rfl,rfl,rfl,rfl,rfl,id,id,early _⟩

theorem negotiate_acts : Acts env Change (negotiate : Prog ρ Session Failure Unit) := by
  intro s
  by_cases new : s.state = .new
  · exact (negotiate_new new).ends (fun _ _ h => .negotiated new h.1 h.2) (fun _ _ h => .inr h)
  · simp only [negotiate,wp_bind,wp_get,wp_require]
    exact ⟨fun h => absurd h new,fun _ => declined_kept s⟩

/-- A wrong accept fails a session that was negotiated; a right one changes nothing. -/
theorem confirmAccept_ends (vers : Version) (suite : Bytes) (s : Session) :
    wp (confirmAccept vers suite) env s (fun _ t => t = s)
      (fun _ t => Declined s t ∧ (s.state = .negotiated → t.state = .failed)) (fun _ => False) := by
  simp only [confirmAccept,wp_bind,wp_get,wp_require]
  refine ⟨fun _ => ?_,fun other => ⟨declined_kept s,fun h => absurd h other⟩⟩
  have failed : Declined s { s with state := .failed } ∧ (s.state = .negotiated → State.failed = .failed) :=
    ⟨declined_failed s,fun _ => rfl⟩
  split
  · exact failed
  · split
    · split
      · exact failed
      · rfl
    · split
      · exact failed
      · rfl

theorem authenticate_acts : Acts env Trusted (authenticate : Prog ρ Session Failure Unit) := by
  intro s
  simp only [authenticate,wp_bind,wp_get,wp_require]
  refine ⟨fun before => ?_,fun _ => declined_kept s⟩
  split
  · exact declined_failed s
  · exact ⟨before,rfl,⟨rfl,rfl⟩,rfl,rfl,rfl,rfl,id⟩

theorem makeAuthProof_acts (key : Bytes) (sid : SessionID) (dir : Bytes) :
    Acts env Eq (makeAuthProof key sid dir : Prog ρ Session Failure Bytes) := by
  intro s
  simp [makeAuthProof,wp_bind,wp_get,wp_require,wp_ofExcept,declined_kept]

theorem proved_proves {s : Session} (key proof : Bytes)
    (ready : Remote.AwaitsProof s dir) : Proved dir s (Remote.proved s key dir proof) := by
  have apart : Crypto.i2r ≠ Crypto.r2i := by decide
  have marked : ∃ m : Session, SameGrants s { m with authI2R := s.authI2R,authR2I := s.authR2I } ∧
      m.state = .negotiated ∧ m.replayAccepted = s.replayAccepted ∧
      m.authI2R = (s.authI2R || dir = Crypto.i2r) ∧ m.authR2I = (s.authR2I || dir = Crypto.r2i) ∧
      Remote.proved s key dir proof = if m.authI2R ∧ m.authR2I then
        freezeArchiveBase { m with peerAuthenticated := true, state := .peerAuthenticated }
      else m := by
    refine ⟨_,?_,?_,?_,?_,?_,rfl⟩
    all_goals rcases ready.dir with ⟨rfl,-⟩ | ⟨rfl,-⟩
    all_goals simp [apart,apart.symm,Session.bind,ready.state]
    all_goals exact ⟨rfl,rfl,rfl,rfl,rfl,rfl,id,id,fun _ => rfl⟩
  obtain ⟨m,grants,state,replay,first,second,eq⟩ := marked
  have base : m.authBaseDigest = s.authBaseDigest := grants.base (by simp [ready.state])
  rw [eq]
  split
  · rename_i both
    exact ⟨ready.state,ready.dir,first,second,grants.archive,grants.mutation,replay,base,grants.blank,.inl ⟨rfl,both,rfl⟩⟩
  · exact ⟨ready.state,ready.dir,first,second,grants.archive,grants.mutation,replay,base,grants.blank,.inr ⟨state,grants.peer⟩⟩

theorem authenticateProof_acts (key : Bytes) (sid : SessionID) (dir proof : Bytes) : Acts env (fun s t => Proved dir s t ∧
      verifyPeerAuthProof key s.authBaseDigest sid dir proof = .ok ())
      (authenticateProof key sid dir proof : Prog ρ Session Failure Unit) := by
  intro s
  have refused : wp (authenticateProof key sid dir proof) env s
      (fun _ _ => verifyPeerAuthProof key s.authBaseDigest sid dir proof = .ok ())
      (fun _ => Declined s) (fun _ => False) := by
    simp only [authenticateProof,wp_bind,wp_get,wp_require]
    refine ⟨fun _ => ⟨fun _ => ?_,fun _ => declined_kept s⟩,fun _ => declined_kept s⟩
    split
    · exact declined_failed s
    · split
      · exact declined_failed s
      · split
        · exact declined_failed s
        · split
          · exact declined_kept s
          · split
            · exact declined_failed s
            · rename_i verified
              exact verified
  refine (refused.and (wp_self _ env s)).mono (fun _ t h => ?_) (fun _ _ h => h.1) (fun _ h => h.1)
  obtain ⟨ready,-,rfl⟩ := Remote.authenticateProof_ok h.2
  exact ⟨proved_proves key proof ready,h.1⟩

theorem authorizeArchive_acts : Acts env Change (authorizeArchive : Prog ρ Session Failure Unit) := by
  intro s
  simp only [authorizeArchive,wp_bind,wp_get,wp_require]
  refine ⟨fun before => ?_,fun _ => declined_kept s⟩
  exact .authorized before.1 before.2 rfl rfl ⟨rfl,rfl,rfl,rfl,rfl,rfl,id,id,fun _ => rfl⟩

theorem makeArchiveProof_acts (key : Bytes) (sid : SessionID) :
    Acts env Eq (makeArchiveProof key sid : Prog ρ Session Failure Bytes) := by
  intro s
  simp [makeArchiveProof,wp_bind,wp_get,wp_require,wp_ofExcept,declined_kept]

theorem authorizeArchiveProof_acts (key : Bytes) (sid : SessionID) (proof : Bytes) :
    Acts env Change (authorizeArchiveProof key sid proof : Prog ρ Session Failure Unit) := by
  intro s
  simp only [authorizeArchiveProof,wp_bind,wp_get,wp_require]
  refine ⟨fun before => ⟨fun _ => ?_,fun _ => declined_kept s⟩,fun _ => declined_kept s⟩
  split
  · exact declined_failed s
  · exact .authorized before.1 before.2 rfl rfl ⟨rfl,rfl,rfl,rfl,rfl,rfl,id,id,fun _ => rfl⟩

theorem activate_acts : Acts env Change (activate : Prog ρ Session Failure Unit) := by
  intro s
  simp only [activate,wp_bind,wp_get,wp_require]
  refine ⟨fun before => ?_,fun _ => declined_kept s⟩
  split
  · exact declined_failed s
  · rename_i granted
    obtain ⟨peer,archive⟩ : s.peerAuthenticated ∧ s.archiveAuthorized := by simpa using granted
    split
    · exact declined_failed s
    · rename_i highest
      have top : s.downgraded = false := by simpa using highest
      simp only [wp_bind,wp_modify]
      split
      · exact .activated before peer archive top rfl ⟨rfl,rfl,rfl,rfl,rfl,rfl,id,id,fun _ => rfl⟩
      · exact .activated before peer archive top rfl ⟨rfl,rfl,rfl,rfl,rfl,rfl,id,id,fun _ => rfl⟩

theorem acceptNext_acts : Acts env Change (acceptNext : Prog ρ Session Failure Unit) := by
  intro s
  simp only [acceptNext,wp_bind,wp_get,wp_require,wp_modify]
  exact ⟨fun before => ⟨fun _ => .accepted before rfl,fun _ => declined_kept s⟩,
    fun _ => declined_kept s⟩

theorem rejectReplay_acts : Acts env Change (rejectReplay : Prog ρ Session Failure Unit) := by
  intro s
  simp only [rejectReplay,wp_bind,wp_get,wp_require,wp_modify]
  exact ⟨fun _ => .failed rfl ⟨rfl,rfl,rfl,rfl,rfl,rfl,id,fun _ => rfl,fun _ => rfl⟩,
    fun _ => declined_kept s⟩

theorem shut_acts : Acts env Change (shut : Prog ρ Session Failure Unit) := by
  intro s
  simp only [shut,wp_bind,wp_get,wp_require,wp_modify]
  exact ⟨fun before => .closed before rfl,fun _ => declined_kept s⟩

theorem abort_acts (code message : String) :
    Acts env Change (abort code message : Prog ρ Session Failure Unit) := declined_failed

end operations

end Integris.Session

namespace Integris.Driver

open Session Crypto Protocol Prog

/-- What neither a frame nor an encoder touches. -/
structure SameKeys (d t : Driver) : Prop where
  authKey : t.authKey = d.authKey
  sessionID : t.sessionID = d.sessionID

theorem SameKeys.refl (d : Driver) : SameKeys d d := ⟨rfl,rfl⟩

theorem SameKeys.trans {d t u : Driver} (h : SameKeys d t) (k : SameKeys t u) : SameKeys d u :=
  ⟨k.authKey.trans h.authKey,k.sessionID.trans h.sessionID⟩

/-- The keys stay and the session moves by `R`. -/
structure Moved (R : Session → Session → Prop) (d t : Driver) : Prop where
  session : R d.session t.session
  keys : SameKeys d t

theorem Moved.kept {d t : Driver} (same : t.session = d.session) (keys : SameKeys d t) :
    Moved Change d t := ⟨.kept same,keys⟩

theorem Moved.weaken {d t : Driver} (h : Moved R d t)
    (weaker : R d.session t.session → S d.session t.session) : Moved S d t :=
  ⟨weaker h.session,h.keys⟩

/-- Nothing but the session shows that a frame was refused. -/
def Rejected (d t : Driver) : Prop := ∃ s, Declined d.session s ∧ t = { d with session := s }

theorem rejected_kept (d : Driver) : Rejected d d := ⟨_,declined_kept _,rfl⟩

theorem Rejected.moved {d t : Driver} (h : Rejected d t) : Moved Change d t := by
  obtain ⟨s,refused,rfl⟩ := h
  exact ⟨refused.change,rfl,rfl⟩

/-- A proof of the direction that was still open, valid under the driver's own key. -/
structure Proven (d : Driver) (dir proof : Bytes) (t : Driver) : Prop where
  moved : Moved (Proved dir) d t
  valid : verifyPeerAuthProof d.authKey d.session.authBaseDigest d.sessionID dir proof = .ok ()

variable {aead : Aead}

/-- A handler that moves the session by `R`, or rejects the frame. -/
def Handles (aead : Aead) (R : Session → Session → Prop) (m : Op α) : Prop :=
  ∀ d, wp m aead d (fun _ => Moved R d) (fun _ => Rejected d) (fun _ => False)

theorem onSession_handles {R : Session → Session → Prop} {m : Prog Aead Session Failure α}
    (h : Acts aead R m) : Handles aead R (onSession m) := by
  intro d
  rw [onSession,wp_zoom]
  exact (h d.session).ends (fun _ _ moved => ⟨moved,rfl,rfl⟩) (fun _ s refused => ⟨s,refused,rfl⟩)

theorem onSession_proves (d : Driver) (dir proof : Bytes) :
    wp (onSession (authenticateProof d.authKey d.sessionID dir proof)) aead d
      (fun _ => Proven d dir proof) (fun _ => Rejected d) (fun _ => False) :=
  (onSession_handles (authenticateProof_acts d.authKey d.sessionID dir proof) d).imp
    (fun _ _ h => ⟨h.weaken And.left,h.session.2⟩)

theorem negotiate_moves {d t : Driver} (new : d.session.state = .new)
    (offers : ∃ vers suites, t = { d with session := { d.session with
      offered := vers, offeredSuites := suites } }) :
    wp (onSession negotiate) aead t
      (fun _ u => ∃ s, s.state = .negotiated ∧ SameGrants d.session s ∧ u = { d with session := s })
      (fun _ => Rejected d) (fun _ => False) := by
  obtain ⟨vers,suites,rfl⟩ := offers
  have same {u : Session} (h : SameGrants { d.session with
      offered := vers, offeredSuites := suites } u) : SameGrants d.session u :=
    ⟨h.peer,h.i2r,h.r2i,h.archive,h.mutation,h.received,h.blank,h.replay,h.base⟩
  have settled : wp negotiate aead { d.session with offered := vers, offeredSuites := suites } _ _ _ := negotiate_new new
  rw [onSession,wp_zoom]
  refine settled.ends (fun _ s h => ?_) (fun _ s h => ?_)
  · exact ⟨s,h.1,same h.2,rfl⟩
  · exact ⟨s,.inr ⟨h.1,same h.2⟩,rfl⟩

/-- The offers are replaced while the session is NEW, where they decide nothing yet. -/
theorem handleNegotiateOffer_handles (body : Bytes) : Handles aead Change (handleNegotiateOffer body) := by
  intro d
  simp only [handleNegotiateOffer,wp_bind,wp_get,wp_when]
  refine ⟨fun new => ?_,fun _ => .kept rfl (.refl d)⟩
  have settles (t : Driver) (offers : ∃ vers suites, t = { d with session := { d.session with
      offered := vers, offeredSuites := suites } }) :
      wp (onSession negotiate) aead t (fun _ => Moved Change d) (fun _ => Rejected d) (fun _ => False) := by
    refine (negotiate_moves new offers).imp (fun _ u h => ?_)
    obtain ⟨s,state,grants,rfl⟩ := h
    exact ⟨.negotiated new state grants,rfl,rfl⟩
  refine ⟨fun _ => ?_,fun _ => settles d ⟨_,_,rfl⟩⟩
  simp only [readOffer,wp_bind,wp_ofExcept,wp_modify]
  exact ⟨fun offer _ => settles _ ⟨_,_,rfl⟩,fun _ _ => rejected_kept d⟩

/-- An accept negotiates first if it has to; its body can only fail the session then. -/
theorem handleNegotiateAccept_handles (body : Bytes) : Handles aead Change (handleNegotiateAccept body) := by
  intro d
  simp only [handleNegotiateAccept,wp_bind,wp_ofExcept,wp_get,wp_when]
  refine ⟨fun wire _ => ?_,fun _ _ => rejected_kept d⟩
  have still : Moved Change d d := .kept rfl (.refl d)
  cases wire with
  | none =>
    refine ⟨fun new => (negotiate_moves new ⟨_,_,rfl⟩).imp (fun _ t h => ?_),fun old => still⟩
    obtain ⟨s,state,grants,rfl⟩ := h
    exact ⟨.negotiated new state grants,rfl,rfl⟩
  | some choice =>
    have confirms (t : Driver) (held : Moved Change d t)
        (fails : ∀ s, Declined t.session s → (t.session.state = .negotiated → s.state = .failed) →
          Rejected d { t with session := s }) :
        wp (onSession (confirmAccept choice.1 choice.2)) aead t (fun _ => Moved Change d) (fun _ => Rejected d)
          (fun _ => False) := by
      simp only [onSession,wp_zoom]
      refine (confirmAccept_ends _ _ t.session).ends (fun _ s same => ?_) (fun _ s h => fails s h.1 h.2)
      exact ⟨by rw [same]; exact held.session,held.keys.trans ⟨rfl,rfl⟩⟩
    refine ⟨fun new => ?_,fun old => confirms d still fun s declined _ => ⟨s,declined,rfl⟩⟩
    refine (negotiate_moves new ⟨_,_,rfl⟩).imp (fun _ t h => ?_)
    obtain ⟨s,state,grants,rfl⟩ := h
    refine confirms _ ⟨.negotiated new state grants,rfl,rfl⟩ fun u declined fails => ?_
    have failed := fails state
    rcases declined with rfl | ⟨-,kept⟩
    · rw [state] at failed
      cases failed
    · exact ⟨u,.inr ⟨failed,grants.trans kept (by simp [state])⟩,rfl⟩

variable {d : Driver} {f : Frame}

theorem handlePeerAuth_proves (keyed : d.authKey ≠ []) (body : Bytes) : wp (handlePeerAuth body) aead d
      (fun _ t => ∃ dir proof, parsePeerAuthBody body = .ok (dir,proof) ∧ Proven d dir proof t)
      (fun _ => Rejected d) (fun _ => False) := by
  simp only [handlePeerAuth,wp_bind,wp_get,if_pos keyed,wp_ofExcept]
  refine ⟨fun parsed read => ?_,fun _ _ => rejected_kept d⟩
  exact (onSession_proves d parsed.1 parsed.2).imp (fun _ _ h => ⟨_,_,read,h⟩)

theorem Moved.step {d t : Driver} (h : Moved Change d t) : Moved Session.Step d t := h.weaken .inl

theorem Proven.step {d t : Driver} {dir proof : Bytes} (h : Proven d dir proof t) : Moved Session.Step d t :=
  h.moved.weaken fun proved => .inr (.inr ⟨dir,proved⟩)

theorem handlePeerAuth_handles (body : Bytes) : Handles aead Session.Step (handlePeerAuth body) := by
  intro d
  by_cases keyed : d.authKey ≠ []
  · refine (handlePeerAuth_proves keyed body).imp (fun _ t h => ?_)
    obtain ⟨dir,proof,-,proven⟩ := h
    exact proven.step
  · simp only [handlePeerAuth,wp_bind,wp_get,if_neg keyed]
    exact (onSession_handles authenticate_acts d).imp (fun _ _ h => h.weaken fun trusted => .inr (.inl trusted))

theorem handleArchiveAuth_handles (body : Bytes) : Handles aead Change (handleArchiveAuth body) := by
  intro d
  simp only [handleArchiveAuth,wp_bind,wp_get]
  split
  · exact onSession_handles (authorizeArchiveProof_acts _ _ _) d
  · exact onSession_handles authorizeArchive_acts d

theorem dispatch_handles (auth : f.typ ≠ .peerAuth) (data : f.typ ≠ .data) : Handles aead Change (dispatch f) := by
  unfold dispatch
  split
  · exact handleNegotiateOffer_handles _
  · exact handleNegotiateAccept_handles _
  · rename_i typ
    exact absurd typ auth
  · exact handleArchiveAuth_handles _
  · exact onSession_handles activate_acts
  · rename_i typ
    exact absurd typ data
  · exact onSession_handles shut_acts
  · exact onSession_handles (abort_acts _ _)
  · exact rejected_kept

theorem wp_handle {P M : Driver → Prop}
    (dispatched : wp (dispatch f) aead d (fun _ => P) (fun _ => M) (fun _ => False)) (refused : M d)
    (next : ∀ (t : Driver) (n : Nat), P t → P { t with recvSeq := n }) :
    wp (handle f) aead d (fun _ => P) (fun _ => M) (fun _ => False) := by
  simp only [handle,wp_bind,wp_get,wp_require,wp_modify]
  refine ⟨fun _ => ⟨fun _ => ⟨fun _ => ?_,fun _ => refused⟩,fun _ => refused⟩,fun _ => refused⟩
  exact dispatched.imp (fun _ t h => next t _ h)

theorem Moved.sequenced {R : Session → Session → Prop} {d t : Driver} (n : Nat) (h : Moved R d t) :
    Moved R d { t with recvSeq := n } := ⟨h.session,h.keys.authKey,h.keys.sessionID⟩

theorem handle_proves (typ : f.typ = .peerAuth) (keyed : d.authKey ≠ []) : wp (handle f) aead d
      (fun _ t => ∃ dir proof, parsePeerAuthBody f.body = .ok (dir,proof) ∧ Proven d dir proof t)
      (fun _ => Rejected d) (fun _ => False) := by
  refine wp_handle ?_ (rejected_kept d) ?_
  · simp only [dispatch,typ]
    exact handlePeerAuth_proves keyed f.body
  · rintro t n ⟨dir,proof,read,h⟩
    exact ⟨dir,proof,read,h.moved.sequenced n,h.valid⟩

/-- The bytes a data frame would store and where the next chunk would begin. -/
def stored (d : Driver) (body : Bytes) : Option (Bytes × Nat) :=
  if d.trackDataChunks then
    match parseDataChunkBody body with
    | .ok (off, data) => if off = d.nextDataOffset then some (data, off + data.length) else none
    | .error _ => none
  else some (body, d.nextDataOffset)

theorem deliver_ends (d : Driver) (body : Bytes) : wp (deliver body) aead d (fun _ t => ∃ p, d.stored body = some p ∧
      t = { d with lastPlaintext := p.1, nextDataOffset := p.2 })
    (fun _ t => d.stored body = none ∧ t = d) (fun _ => False) := by
  simp only [deliver,wp_bind,wp_get]
  split
  · rename_i track
    simp only [deliverChunk,wp_bind,wp_get,wp_ofExcept,wp_require,wp_modify,stored,if_pos track]
    refine ⟨fun chunk read => ?_,fun e read => ?_⟩
    · simp only [read]
      refine ⟨fun low => ⟨fun same => ⟨(chunk.2,chunk.1 + chunk.2.length),by rw [if_pos same],rfl⟩,
        fun other => ⟨by rw [if_neg other],trivial⟩⟩,fun beyond => ⟨if_neg fun same => ?_,trivial⟩⟩
      exact beyond (by omega)
    · simp only [read]
      exact ⟨trivial,trivial⟩
  · rename_i track
    exact ⟨_,by rw [stored,if_neg track],rfl⟩

/-- What a data frame carries for this driver, once opened and read. -/
def carried (aead : Aead) (d : Driver) (f : Frame) : Option (Bytes × Nat) :=
  match openData aead d f with
  | .ok body => d.stored body
  | .error _ => none

def keep (d : Driver) (p : Bytes × Nat) : Driver :=
  { d with lastPlaintext := p.1, nextDataOffset := p.2 }

/-- The session's last word comes after the plaintext is stored: a refusal by
`acceptNext` keeps it. -/
theorem handleData_ends (d : Driver) (f : Frame) : wp (handleData f) aead d
    (fun _ t => ∃ p, d.carried aead f = some p ∧ d.session.Accepts ∧
      t = { d.keep p with session := d.session.counted })
    (fun _ t => (d.carried aead f = none ∧ t = d) ∨
      ∃ p, d.carried aead f = some p ∧ ¬d.session.Accepts ∧ t = d.keep p) (fun _ => False) := by
  simp only [handleData,wp_bind,wp_get,wp_ask,wp_ofExcept]
  refine ⟨fun body opened => ?_,fun _ sealed => .inl ⟨by simp only [carried,sealed],trivial⟩⟩
  have carries : d.carried aead f = d.stored body := by simp only [carried,opened]
  refine (deliver_ends d body).ends (fun _ t h => ?_) (fun _ t h => .inl ⟨carries.trans h.1,h.2⟩)
  obtain ⟨p,reads,rfl⟩ := h
  rw [onSession,wp_zoom]
  simp only [acceptNext,wp_bind,wp_get,wp_require,wp_modify]
  refine ⟨fun active => ⟨fun room => ?_,fun full => .inr ?_⟩,fun idle => .inr ?_⟩
  · exact ⟨p,carries.trans reads,⟨active,room⟩,rfl⟩
  · exact ⟨p,carries.trans reads,fun accepts => full accepts.2,rfl⟩
  · exact ⟨p,carries.trans reads,fun accepts => idle accepts.1,rfl⟩

theorem handle_moves (other : f.typ ≠ .peerAuth) (d : Driver) :
    wp (handle f) aead d (fun _ => Moved Change d) (fun _ => Moved Change d) (fun _ => False) := by
  refine wp_handle ?_ (.kept rfl (.refl d)) fun _ n => Moved.sequenced n
  by_cases data : f.typ = .data
  · simp only [dispatch,data]
    refine (handleData_ends d f).ends (fun _ t h => ?_) (fun _ t h => ?_)
    · obtain ⟨p,-,accepts,rfl⟩ := h
      exact ⟨.accepted accepts.1 rfl,rfl,rfl⟩
    · rcases h with ⟨-,rfl⟩ | ⟨p,-,-,rfl⟩
      · exact .kept rfl (.refl _)
      · exact .kept rfl ⟨rfl,rfl⟩
  · exact (dispatch_handles other data d).ends (fun _ _ => id) (fun _ _ => Rejected.moved)

theorem handle_steps (f : Frame) (d : Driver) :
    wp (handle f) aead d (fun _ => Moved Session.Step d) (fun _ => Moved Session.Step d) (fun _ => False) := by
  by_cases typ : f.typ = .peerAuth
  · refine wp_handle ?_ (Moved.step (.kept rfl (.refl d))) fun _ n => Moved.sequenced n
    simp only [dispatch,typ]
    exact (handlePeerAuth_handles f.body d).ends (fun _ _ => id) (fun _ _ h => h.moved.step)
  · exact (handle_moves typ d).ends (fun _ _ => Moved.step) (fun _ _ => Moved.step)

end Integris.Driver
