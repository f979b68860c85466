import Integris.SessionSteps
import Integris.FrameOrigin

/-! The session's safety invariants over whole runs of a driver: any inbound frames, any
encoder calls and any local session operations, in any order, refused or not. -/
namespace Integris.Driver

open Session Crypto Protocol Prog

variable {aead : Aead}

theorem encodeFrame_keeps (typ : MessageType) (body : Bytes) : Relates aead (Moved Eq) (encodeFrame typ body) := by
  intro d
  have kept : Moved Eq d d := ⟨rfl,.refl d⟩
  simp only [encodeFrame,wp_bind,wp_get,wp_ask,wp_ofExcept,wp_modify,wp_pure]
  exact ⟨fun _ _ => ⟨fun _ _ => ⟨rfl,rfl,rfl⟩,fun _ _ => kept⟩,fun _ _ => kept⟩

theorem encodeFrame_after {d t : Driver} (typ : MessageType) (body : Bytes)
    (h : Moved Change d t) : wp (encodeFrame typ body) aead t (fun _ => Moved Change d)
      (fun _ => Moved Change d) (Moved Change d) := by
  have ends (u : Driver) (kept : Moved Eq t u) : Moved Change d u :=
    ⟨by rw [← kept.session]; exact h.session,h.keys.trans kept.keys⟩
  exact (encodeFrame_keeps typ body t).stops (fun _ => ends) ends

theorem encodeNegotiateOffer_moves (vers : List Version) : Relates aead (Moved Change) (encodeNegotiateOffer vers) := by
  intro d
  have kept : Moved Change d d := .kept rfl (.refl d)
  simp only [encodeNegotiateOffer,wp_bind,wp_get,wp_ofExcept]
  exact ⟨fun _ _ => encodeFrame_after _ _ kept,fun _ _ => kept⟩

theorem encodeNegotiateAccept_moves : Relates aead (Moved Change) encodeNegotiateAccept := fun d =>
  wp_encodeNegotiateAccept (.kept rfl (.refl d))
    ((onSession_handles negotiate_acts d).ends (fun _ _ => id) fun _ _ => Rejected.moved)
    (fun _ _ => id) fun body _ h _ => encodeFrame_after _ body h

theorem encodeDataChunk_moves (data : Bytes) : Relates aead (Moved Change) (encodeDataChunk data) := by
  intro d
  have kept : Moved Change d d := .kept rfl (.refl d)
  simp only [encodeDataChunk,wp_bind,wp_get,wp_ofExcept,wp_modify,wp_pure]
  refine ⟨fun _ _ => ?_,fun _ _ => kept⟩
  exact (encodeFrame_after _ _ kept).imp (fun _ _ h => ⟨h.session,h.keys.authKey,h.keys.sessionID⟩)

/-- The direction `EncodePeerAuth` proves. -/
def direction (d : Driver) : Bytes := if d.authDir = [] then i2r else d.authDir

theorem encodePeerAuth_proves (d : Driver) : wp encodePeerAuth aead d
    (fun _ t => ∃ proof, peerAuthProof d.authKey d.session.authBaseDigest d.sessionID d.direction =
      .ok proof ∧ Proven d d.direction proof t)
    (fun _ => Moved Change d) (Moved Change d) := by
  have kept : Moved Change d d := .kept rfl (.refl d)
  simp only [encodePeerAuth,wp_bind,wp_get,wp_require,wp_pure]
  refine ⟨fun _ => ?_,fun _ => kept⟩
  have makes : wp (onSession (makeAuthProof d.authKey d.sessionID d.direction)) aead d
      (fun proof t => t = d ∧ peerAuthProof d.authKey d.session.authBaseDigest d.sessionID
        d.direction = .ok proof) (fun _ => Moved Change d) (Moved Change d) := by
    simp only [onSession,wp_zoom,makeAuthProof,wp_bind,wp_get,wp_require,wp_ofExcept]
    exact ⟨fun _ => ⟨fun _ => ⟨fun _ => ⟨fun _ made => ⟨trivial,made⟩,fun _ _ => kept⟩,fun _ => kept⟩,
      fun _ => kept⟩,fun _ => kept⟩
  refine makes.imp (fun proof t h => ?_)
  obtain ⟨rfl,made⟩ := h
  have framed (u : Driver) (h : Moved Eq t u) : Moved Change t u :=
    h.weaken fun same => .kept same.symm
  refine (encodeFrame_keeps _ _ t).stops (fun raw u h => ?_) framed
  -- the frame left session and keys alone, so the proof is checked against what it was made from
  have applied : wp (onSession (authenticateProof u.authKey u.sessionID t.direction proof)) aead u
    _ _ _ := onSession_proves u t.direction proof
  rw [h.keys.authKey,h.keys.sessionID] at applied
  refine applied.ends (fun _ v proven => ?_) (fun _ v rejected => ?_)
  · refine ⟨proof,made,⟨?_,h.keys.trans proven.moved.keys⟩,?_⟩
    · rw [h.session]; exact proven.moved.session
    · have valid := proven.valid
      rw [h.keys.authKey,h.keys.sessionID,← h.session] at valid
      exact valid
  · exact ⟨by rw [h.session]; exact rejected.moved.session,h.keys.trans rejected.moved.keys⟩

theorem encodeArchiveAuth_moves : Relates aead (Moved Change) encodeArchiveAuth := by
  intro d
  have kept : Moved Change d d := .kept rfl (.refl d)
  simp only [encodeArchiveAuth,wp_bind,wp_get,wp_require,wp_pure]
  refine ⟨fun _ => ?_,fun _ => kept⟩
  refine (onSession_handles (makeArchiveProof_acts _ _) d).ends (fun proof t made => ?_) (fun _ _ => Rejected.moved)
  have framed (u : Driver) (h : Moved Eq t u) : Moved Change d u :=
    ⟨.kept (h.session.symm.trans made.session.symm),made.keys.trans h.keys⟩
  refine (encodeFrame_keeps _ _ t).stops (fun raw u sent => ?_) framed
  have applied (v : Driver) (h : Moved Change u v) : Moved Change d v :=
    ⟨by rw [made.session,sent.session]; exact h.session,(framed u sent).keys.trans h.keys⟩
  exact (onSession_handles (authorizeArchiveProof_acts _ _ _) u).ends (fun _ => applied) (fun _ v h => applied v h.moved)

end Integris.Driver

namespace Integris.Safety

open Session Crypto Protocol Prog Driver Origin

variable {aead : Aead}

theorem encoder_moves {m : Encoder} (other : m ≠ .peerAuth) : Relates aead (Moved Change) m.run := by
  cases m with
  | negotiateOffer vers => exact encodeNegotiateOffer_moves vers
  | negotiateAccept => exact encodeNegotiateAccept_moves
  | peerAuth => exact absurd rfl other
  | archiveAuth => exact encodeArchiveAuth_moves
  | dataChunk data => exact encodeDataChunk_moves data
  | frame typ body => exact fun d => encodeFrame_after typ body (.kept rfl (.refl d))

theorem encoder_steps (m : Encoder) : Relates aead (Moved Session.Step) m.run := by
  by_cases own : m = .peerAuth
  · subst own
    intro d
    refine (encodePeerAuth_proves d).stops (fun _ t h => ?_) (fun _ => Moved.step)
    obtain ⟨proof,-,proven⟩ := h
    exact proven.step
  · exact (encoder_moves own).mono fun _ _ => Moved.step

/-- The operations a session offers to its owner. -/
inductive Operation where
  | negotiate
  | confirmAccept (vers : Version) (suite : Bytes)
  | authenticate
  | makeAuthProof (authKey : Bytes) (sessionID : SessionID) (direction : Bytes)
  | authenticateProof (authKey : Bytes) (sessionID : SessionID) (direction proof : Bytes)
  | authorizeArchive
  | makeArchiveProof (authKey : Bytes) (sessionID : SessionID)
  | authorizeArchiveProof (authKey : Bytes) (sessionID : SessionID) (proof : Bytes)
  | activate
  | acceptNext
  | rejectReplay
  | close

def Operation.run : Operation → Prog Aead Session Failure Unit
  | negotiate => Session.negotiate
  | confirmAccept vers suite => Session.confirmAccept vers suite
  | authenticate => Session.authenticate
  | makeAuthProof key sid dir => do let _ ← Session.makeAuthProof key sid dir; pure ()
  | authenticateProof key sid dir proof => Session.authenticateProof key sid dir proof
  | authorizeArchive => Session.authorizeArchive
  | makeArchiveProof key sid => do let _ ← Session.makeArchiveProof key sid; pure ()
  | authorizeArchiveProof key sid proof => Session.authorizeArchiveProof key sid proof
  | activate => Session.activate
  | acceptNext => Session.acceptNext
  | rejectReplay => Session.rejectReplay
  | close => Session.shut

theorem operation_steps (op : Operation) : Relates aead Session.Step op.run := by
  have change {m : Prog Aead Session Failure Unit} (h : Acts aead Change m) :
      Relates aead Session.Step m := h.relates (fun _ _ => .inl) fun _ _ => .inl
  have nothing {m : Prog Aead Session Failure Bytes} (h : Acts aead Eq m) :
      Relates aead Session.Step m := h.relates (fun _ _ same => .inl (.kept same.symm)) fun _ _ => .inl
  cases op with
  | negotiate => exact change negotiate_acts
  | confirmAccept vers suite =>
    exact fun s => (confirmAccept_ends vers suite s).ends (fun _ _ same => .inl (.kept same))
      (fun _ _ h => .inl h.1.change)
  | authenticate => exact authenticate_acts.relates (fun _ _ h => .inr (.inl h)) fun _ _ => .inl
  | makeAuthProof key sid dir => exact (nothing (makeAuthProof_acts key sid dir)).ignoring
  | authenticateProof key sid dir proof =>
    exact (authenticateProof_acts key sid dir proof).relates (fun _ _ h => .inr (.inr ⟨dir,h.1⟩)) fun _ _ => .inl
  | authorizeArchive => exact change authorizeArchive_acts
  | makeArchiveProof key sid => exact (nothing (makeArchiveProof_acts key sid)).ignoring
  | authorizeArchiveProof key sid proof => exact change (authorizeArchiveProof_acts key sid proof)
  | activate => exact change activate_acts
  | acceptNext => exact change acceptNext_acts
  | rejectReplay => exact change rejectReplay_acts
  | close => exact change shut_acts

/-- What can happen to a driver: `assign` covers the fields a caller sets directly. -/
inductive Act where
  | receive (f : Frame)
  | encode (m : Encoder)
  | operate (op : Operation)
  | setAEADKey (key : Bytes)
  | installTrafficKey (rootKey : Bytes)
  | assign (authKey authDir archiveKey : Bytes) (trackDataChunks : Bool)

def Act.run : Act → Op Unit
  | receive f => handle f
  | encode m => do let _ ← m.run; pure ()
  | operate op => onSession op.run
  | setAEADKey key => Driver.setAEADKey key
  | installTrafficKey rootKey => Driver.installTrafficKey rootKey
  | assign authKey authDir archiveKey track => modify fun d => { d with
      authKey := authKey, authDir := authDir, archiveKey := archiveKey, trackDataChunks := track }

theorem act_steps (a : Act) : Relates aead (fun d t => Session.Step d.session t.session) a.run := by
  have kept (d : Driver) : Session.Step d.session d.session := .inl (.kept rfl)
  have installs (key : Bytes) : Relates aead (fun d t => Session.Step d.session t.session) (Driver.setAEADKey key) := by
    intro d
    simp only [Driver.setAEADKey,wp_bind,wp_require,wp_modify]
    exact ⟨fun _ => kept d,fun _ => kept d⟩
  cases a with
  | receive f =>
    exact fun d => (handle_steps f d).ends (fun _ _ h => h.session) (fun _ _ h => h.session)
  | encode m => exact ((encoder_steps m).mono fun _ _ h => h.session).ignoring
  | operate op =>
    intro d
    simp only [Act.run,onSession,wp_zoom]
    exact operation_steps op d.session
  | setAEADKey key => exact installs key
  | installTrafficKey rootKey =>
    intro d
    simp only [Act.run,Driver.installTrafficKey,wp_bind,wp_get,wp_require]
    refine ⟨fun _ => ?_,fun _ => kept d⟩
    split
    · exact kept d
    · simp only [wp_bind,wp_require]
      refine ⟨fun _ => ?_,fun _ => kept d⟩
      split
      · exact kept d
      · exact installs _ d
  | assign => exact fun d => kept d

def step (aead : Aead) (d : Driver) (a : Act) : Driver := (a.run aead d).2

def run (aead : Aead) (acts : List Act) (d : Driver) : Driver := acts.foldl (step aead) d

/-- Made by `NewDriver` or `NewDriverWithSuites`. -/
inductive Built : Driver → Prop where
  | new (offered : List Version) (sid : SessionID) (macKey : Bytes) (requireMAC : Bool) :
      Built (Driver.new offered sid macKey requireMAC)
  | newWithSuites (offered : List Version) (suites : List Bytes) (sid : SessionID)
      (macKey : Bytes) (requireMAC : Bool) :
      Built (Driver.newWithSuites offered suites sid macKey requireMAC)

variable {d : Driver} {key : Bytes} {sid : SessionID} {a : Act} {proofs : List (Bytes × Bytes)}
  {acts : List Act}

theorem Built.fresh (built : Built d) : Safe d.session ∧ d.session.state = .new ∧
    d.session.authI2R = false ∧ d.session.authR2I = false := by
  cases built with
  | new offered => exact ⟨fresh_safe offered,rfl,rfl,rfl⟩
  | newWithSuites offered suites =>
    refine ⟨?_,rfl,rfl,rfl⟩
    constructor <;> simp [Driver.newWithSuites,Session.newWithSuites,Session.fresh]

theorem step_step (d : Driver) (a : Act) : Session.Step d.session (step aead d a).session := (act_steps a).reached d

theorem run_safe (acts : List Act) (safe : Safe d.session) : Safe (run aead acts d).session := by
  induction acts generalizing d with
  | nil => exact safe
  | cons a rest ih => exact ih ((step_step d a).safe safe)

theorem run_failed (acts : List Act) (failed : d.session.state = .failed) : (run aead acts d).session.state = .failed := by
  induction acts generalizing d with
  | nil => exact failed
  | cons a rest ih =>
    have follows : d.session.state.Follows (step aead d a).session.state := (step_step d a).follows
    rw [failed] at follows
    exact ih follows.of_failed

/-- The proof an act puts before the session: the peer's in a frame, or the driver's own. -/
def presented (d : Driver) : Act → Option (Bytes × Bytes)
  | .receive f => if f.typ = .peerAuth then (parsePeerAuthBody f.body).toOption else none
  | .encode .peerAuth =>
    (peerAuthProof d.authKey d.session.authBaseDigest d.sessionID d.direction).toOption.map
      (d.direction, ·)
  | _ => none

/-- The proof one act has accepted, and all of them in order. -/
def taken (aead : Aead) (d : Driver) (a : Act) : List (Bytes × Bytes) :=
  if (a.run aead d).1 = .ok () then (presented d a).toList else []

def accepted (aead : Aead) : List Act → Driver → List (Bytes × Bytes)
  | [], _ => []
  | a :: rest, d => taken aead d a ++ accepted aead rest (step aead d a)

/-- Only frames and encoders act. -/
def Act.remote : Act → Bool
  | .receive _ => true
  | .encode _ => true
  | _ => false

/-- A peer-authentication frame, in or out. -/
def Act.authenticates : Act → Bool
  | .receive f => f.typ = .peerAuth
  | .encode .peerAuth => true
  | _ => false

/-- Still free to set keys: no authentication frame yet, no local session operation. -/
def Act.preparing : Act → Bool
  | .assign .. => true
  | a => a.remote && !a.authenticates

/-- The accepted proofs are one per direction the session holds, each valid. -/
structure Backed (key : Bytes) (sid : SessionID) (proofs : List (Bytes × Bytes)) (s : Session) :
    Prop where
  once : (proofs.map Prod.fst).Nodup
  known : ∀ dir ∈ proofs.map Prod.fst, dir = i2r ∨ dir = r2i
  i2r : s.authI2R = true ↔ Crypto.i2r ∈ proofs.map Prod.fst
  r2i : s.authR2I = true ↔ Crypto.r2i ∈ proofs.map Prod.fst
  valid : ∀ p ∈ proofs, verifyPeerAuthProof key s.authBaseDigest sid p.1 p.2 = .ok ()
  early : s.state = .new → proofs = []

theorem Backed.empty {s : Session} (i2r : s.authI2R = false) (r2i : s.authR2I = false) : Backed key sid [] s :=
  ⟨List.nodup_nil,nofun,by simp [i2r],by simp [r2i],nofun,fun _ => rfl⟩

section backed

variable {key : Bytes} {sid : SessionID} {proofs : List (Bytes × Bytes)} {s t : Session}

theorem Backed.change (h : Backed key sid proofs s) (changed : Change s t) : Backed key sid proofs t := by
  obtain ⟨first,second,base,early⟩ := changed.proofs
  refine ⟨h.once,h.known,by rw [first]; exact h.i2r,by rw [second]; exact h.r2i,fun p member => ?_,
    fun new => h.early (early new)⟩
  have old : s.state ≠ .new := fun new => by
    rw [h.early new] at member
    cases member
  rw [base old]
  exact h.valid p member

theorem Backed.prove {dir proof : Bytes} (h : Backed key sid proofs s) (proved : Proved dir s t)
    (valid : verifyPeerAuthProof key s.authBaseDigest sid dir proof = .ok ()) :
    Backed key sid (proofs ++ [(dir,proof)]) t := by
  have unproved : dir ∉ proofs.map Prod.fst := by
    rcases proved.pending with ⟨rfl,open_⟩ | ⟨rfl,open_⟩
    · rw [← h.i2r]; simp [open_]
    · rw [← h.r2i]; simp [open_]
  constructor
  · simp only [List.map_append,List.map_cons,List.map_nil]
    exact List.nodup_append.mpr ⟨h.once,by simp,
      fun a member b last => by
        rintro rfl
        rw [List.mem_singleton.mp last] at member
        exact unproved member⟩
  · simp only [List.map_append,List.mem_append,List.map_cons,List.map_nil,List.mem_singleton]
    rintro a (member | rfl)
    · exact h.known a member
    · exact proved.pending.imp And.left And.left
  · rw [proved.i2r,Bool.or_eq_true,decide_eq_true_eq,h.i2r,List.map_append,List.mem_append]
    exact or_congr_right (eq_comm.trans List.mem_singleton.symm)
  · rw [proved.r2i,Bool.or_eq_true,decide_eq_true_eq,h.r2i,List.map_append,List.mem_append]
    exact or_congr_right (eq_comm.trans List.mem_singleton.symm)
  · rw [proved.base]
    intro p member
    rcases List.mem_append.mp member with member | member
    · exact h.valid p member
    · rw [List.mem_singleton.mp member]
      exact valid
  · intro new
    rcases proved.entered with ⟨state,-⟩ | ⟨state,-⟩ <;> simp [state] at new

theorem Backed.both (h : Backed key sid proofs s) (both : s.authI2R ∧ s.authR2I) :
    (proofs.map Prod.fst).Perm [Crypto.i2r,Crypto.r2i] := by
  refine (List.perm_ext_iff_of_nodup h.once (by decide)).mpr fun dir => ⟨fun member => ?_,?_⟩
  · simpa using h.known dir member
  · intro member
    rcases List.mem_pair.mp member with rfl | rfl
    · exact h.i2r.mp both.1
    · exact h.r2i.mp both.2

end backed

theorem taken_none (silent : presented d a = none) : taken aead d a = [] := by simp [taken,silent]

theorem handle_reached {f : Frame} (other : f.typ ≠ .peerAuth) (d : Driver) : Moved Change d (step aead d (.receive f)) :=
  ((handle_moves other d).imp (fun _ _ => id)).reached

theorem backed_of_ends (backed : Backed d.authKey d.sessionID proofs d.session)
    (ends : wp a.run aead d (fun _ t => ∃ dir proof, presented d a = some (dir,proof) ∧
      Proven d dir proof t) (fun _ => Moved Change d) (Moved Change d))
    (keys : d.authKey = key ∧ d.sessionID = sid) :
    Backed key sid (proofs ++ taken aead d a) (step aead d a).session ∧ SameKeys d (step aead d a) := by
  obtain ⟨rfl,rfl⟩ := keys
  simp only [wp] at ends
  rcases run : a.run aead d with ⟨answer | why | _,t⟩
  · rw [run] at ends
    obtain ⟨dir,proof,shown,proven⟩ := ends
    simp only [taken,step,run,shown,if_true]
    exact ⟨backed.prove proven.moved.session proven.valid,proven.moved.keys⟩
  all_goals
    rw [run] at ends
    simp only [taken,step,run,reduceCtorEq,if_false,List.append_nil]
    exact ⟨backed.change ends.session,ends.keys⟩

theorem backed_of_change (backed : Backed key sid proofs d.session) (silent : presented d a = none)
    (moves : Moved Change d (step aead d a)) :
    Backed key sid (proofs ++ taken aead d a) (step aead d a).session ∧ SameKeys d (step aead d a) := by
  rw [taken_none silent,List.append_nil]
  exact ⟨backed.change moves.session,moves.keys⟩

theorem step_backed (remote : a.remote) (keyed : d.authKey ≠ []) (keys : d.authKey = key ∧ d.sessionID = sid)
    (backed : Backed key sid proofs d.session) :
    Backed key sid (proofs ++ taken aead d a) (step aead d a).session ∧ SameKeys d (step aead d a) := by
  have own : Backed d.authKey d.sessionID proofs d.session := by rw [keys.1,keys.2]; exact backed
  cases a with
  | receive f =>
    by_cases typ : f.typ = .peerAuth
    · refine backed_of_ends own ((handle_proves typ keyed).ends (fun _ t h => ?_) (fun _ _ => Rejected.moved)) keys
      obtain ⟨dir,proof,read,proven⟩ := h
      exact ⟨dir,proof,by simp [presented,typ,read,Except.toOption],proven⟩
    · exact backed_of_change backed (by simp [presented,typ]) (handle_reached typ d)
  | encode m =>
    by_cases peer : m = .peerAuth
    · subst peer
      refine backed_of_ends own (wp_bind.mpr ((encodePeerAuth_proves d).imp (fun _ t h => ?_))) keys
      obtain ⟨proof,made,proven⟩ := h
      exact ⟨d.direction,proof,by simp [presented,made,Except.toOption],proven⟩
    · have silent : presented d (.encode m) = none := by cases m <;> first | rfl | exact absurd rfl peer
      exact backed_of_change backed silent ((encoder_moves peer).ignoring.reached d)
  | operate | setAEADKey | installTrafficKey | assign => cases remote

theorem run_backed (nonempty : key ≠ []) (remote : ∀ a ∈ acts, a.remote)
    (keys : d.authKey = key ∧ d.sessionID = sid) (backed : Backed key sid proofs d.session) :
    Backed key sid (proofs ++ accepted aead acts d) (run aead acts d).session := by
  induction acts generalizing proofs d with
  | nil =>
    rw [accepted,List.append_nil]
    exact backed
  | cons a rest ih =>
    have keyed : d.authKey ≠ [] := by rw [keys.1]; exact nonempty
    obtain ⟨stepped,same⟩ : Backed key sid (proofs ++ taken aead d a) (step aead d a).session ∧
      SameKeys d (step aead d a) := step_backed (remote a (by simp)) keyed keys backed
    have later := ih (fun b member => remote b (by simp [member]))
      ⟨same.authKey.trans keys.1,same.sessionID.trans keys.2⟩ stepped
    rw [List.append_assoc] at later
    exact later

/-- While the driver is being set up nothing is proved. -/
theorem prepare_step (preparing : a.preparing) : taken aead d a = [] ∧ Change d.session (step aead d a).session ∧
      (step aead d a).sessionID = d.sessionID := by
  cases a with
  | receive f =>
    have other : f.typ ≠ .peerAuth := by simpa [Act.preparing,Act.remote,Act.authenticates] using preparing
    have moved : Moved Change d (step aead d (.receive f)) := handle_reached other d
    exact ⟨taken_none (by simp [presented,other]),moved.session,moved.keys.sessionID⟩
  | encode m =>
    have other : m ≠ .peerAuth := by
      rintro rfl
      simp [Act.preparing,Act.remote,Act.authenticates] at preparing
    have silent : presented d (.encode m) = none := by cases m <;> first | rfl | exact absurd rfl other
    have moved : Moved Change d (step aead d (.encode m)) := (encoder_moves other).ignoring.reached d
    exact ⟨taken_none silent,moved.session,moved.keys.sessionID⟩
  | assign => exact ⟨taken_none rfl,.kept rfl,rfl⟩
  | operate | setAEADKey | installTrafficKey => cases preparing

theorem prepare_run (preparing : ∀ a ∈ acts, a.preparing)
    (backed : Backed key sid [] d.session) : accepted aead acts d = [] ∧
      Backed key sid [] (run aead acts d).session ∧ (run aead acts d).sessionID = d.sessionID := by
  induction acts generalizing d with
  | nil => exact ⟨rfl,backed,rfl⟩
  | cons a rest ih =>
    obtain ⟨none_,changed,same⟩ : taken aead d a = [] ∧ Change d.session (step aead d a).session ∧
      (step aead d a).sessionID = d.sessionID := prepare_step (preparing a (by simp))
    obtain ⟨later,held,kept⟩ := ih (fun b member => preparing b (by simp [member])) (backed.change changed)
    exact ⟨List.append_eq_nil_iff.mpr ⟨none_,later⟩,held,kept.trans same⟩

theorem accepted_append (first second : List Act) (d : Driver) : accepted aead (first ++ second) d =
      accepted aead first d ++ accepted aead second (run aead first d) := by
  induction first generalizing d with
  | nil => rfl
  | cons a rest ih =>
    simp only [List.cons_append,accepted,ih,List.append_assoc]
    rfl

theorem run_append (first second : List Act) (d : Driver) :
    run aead (first ++ second) d = run aead second (run aead first d) :=
  List.foldl_append

/-- For every driver and everything that happens to it: the invariants hold at every
point, the state moves forward one place or fails, FAILED is final; and when the proof
key is set before the first authentication frame and from then on only frames and
encoders act, an authenticated peer has had exactly one proof of each direction
accepted, each valid for this session. -/
theorem session_safety (aead : Aead) (d : Driver) (built : Built d) (acts : List Act) :
    (run aead acts d).session.invariants = .ok () ∧
    (∀ a, (run aead acts d).session.state.Follows (run aead (acts ++ [a]) d).session.state) ∧
    ((run aead acts d).session.state = .failed →
      ∀ more, (run aead (acts ++ more) d).session.state = .failed) ∧
    ∀ before after, acts = before ++ after → (∀ a ∈ before, a.preparing) →
      (run aead before d).authKey ≠ [] → (∀ a ∈ after, a.remote) →
      (run aead acts d).session.state = .peerAuthenticated ∨
        (run aead acts d).session.peerAuthenticated →
      ((accepted aead acts d).map Prod.fst).Perm [i2r, r2i] ∧
      ∀ p ∈ accepted aead acts d, verifyPeerAuthProof (run aead before d).authKey
        (run aead acts d).session.authBaseDigest d.sessionID p.1 p.2 = .ok () := by
  obtain ⟨start,new,first,second⟩ := built.fresh
  have safe : Safe (run aead acts d).session := run_safe acts start
  refine ⟨safe.invariants,fun a => ?_,fun failed more => ?_,?_⟩
  · rw [run_append]
    exact (step_step _ a).follows
  · rw [run_append]
    exact run_failed more failed
  · rintro before after rfl preparing keyed remote peer
    have unproved : Backed (run aead before d).authKey d.sessionID [] d.session :=
      .empty first second
    obtain ⟨none_,held,sid⟩ : accepted aead before d = [] ∧ _ ∧ _ := prepare_run preparing unproved
    have backed : Backed _ _ ([] ++ accepted aead after (run aead before d)) _ :=
      run_backed keyed remote ⟨rfl,sid⟩ held
    rw [List.nil_append,← run_append] at backed
    rw [accepted_append,none_,List.nil_append]
    exact ⟨backed.both (safe.bothWays peer),backed.valid⟩

section sample

open Remote

variable (root : Bytes) (sid : SessionID)

/-- A responder: the initiator's offer arrives, the keys are set, the initiator's proof
arrives and the responder sends its own. -/
def preparation : List Act :=
  [.receive (offerFrame sid).stamped,
    .assign (Remote.authKey root sid) r2i (Remote.archiveKey root sid) false]

def exchange : List Act := [.receive (i2rFrame root sid negotiated).stamped, .encode .peerAuth]

def responder : Driver :=
  Driver.newWithSuites offeredVersions [suiteIDAEAD] sid (channelKey root) true

theorem prepared : run aead (preparation root sid) (responder root sid) =
    armed root sid (channelKey root) r2i negotiated 1 2 := by
  have offered : step aead (responder root sid) (.receive (offerFrame sid).stamped) =
      bare sid (channelKey root) negotiated 1 2 := congrArg Prod.snd offer_handled
  rw [preparation,run,List.foldl_cons,offered]
  rfl

theorem proof_received : Driver.handle (i2rFrame root sid negotiated).stamped aead
    (armed root sid (channelKey root) r2i negotiated 1 2) =
      (.ok (),armed root sid (channelKey root) r2i (halfProved root sid negotiated) 1 3) :=
  handle_run (d := armed root sid (channelKey root) r2i negotiated 1 2) rfl rfl rfl
    (peerAuth_dispatched negotiated_awaits rfl rfl)

theorem proof_sent : ∃ raw, Driver.encodePeerAuth aead (armed root sid (channelKey root) r2i (halfProved root sid negotiated) 1 3) =
      (.ok raw,armed root sid (channelKey root) r2i (fullyProved root sid negotiated) 2 3) :=
  ⟨_,peerAuth_sent channelKey_long 3 (halfProved_awaits root sid) rfl⟩

theorem exchanged : run aead (exchange root sid) (armed root sid (channelKey root) r2i negotiated 1 2) =
    armed root sid (channelKey root) r2i (fullyProved root sid negotiated) 2 3 := by
  obtain ⟨raw,sent⟩ : ∃ raw, Driver.encodePeerAuth aead _ = (.ok raw,_) := proof_sent root sid
  have answered : Act.run (.encode .peerAuth) aead (armed root sid (channelKey root) r2i (halfProved root sid negotiated) 1 3) =
        (.ok (),armed root sid (channelKey root) r2i (fullyProved root sid negotiated) 2 3) := bind_run sent
  have received : Act.run (.receive (i2rFrame root sid negotiated).stamped) aead
    (armed root sid (channelKey root) r2i negotiated 1 2) = _ := proof_received root sid
  rw [exchange,run,List.foldl_cons,step,received,List.foldl_cons,step,answered,List.foldl_nil]

theorem preparation_prepares : ∀ a ∈ preparation root sid, a.preparing :=
  List.forall_mem_cons.mpr ⟨rfl,List.forall_mem_singleton.mpr rfl⟩

theorem exchange_remote : ∀ a ∈ exchange root sid, a.remote :=
  List.forall_mem_cons.mpr ⟨rfl,List.forall_mem_singleton.mpr rfl⟩

theorem session_safety_sample : Built (responder (List.replicate 32 7) (Fixed.zero 16)) ∧
    (run ChaCha20Poly1305.aead (preparation (List.replicate 32 7) (Fixed.zero 16) ++
      exchange (List.replicate 32 7) (Fixed.zero 16))
      (responder (List.replicate 32 7) (Fixed.zero 16))).session.state = .peerAuthenticated ∧
    ((accepted ChaCha20Poly1305.aead (preparation (List.replicate 32 7) (Fixed.zero 16) ++
      exchange (List.replicate 32 7) (Fixed.zero 16))
      (responder (List.replicate 32 7) (Fixed.zero 16))).map Prod.fst).Perm [i2r, r2i] := by
  have entered (root : Bytes) (sid : SessionID) : (run ChaCha20Poly1305.aead (preparation root sid ++
      exchange root sid) (responder root sid)).session.state = .peerAuthenticated := by
    rw [run_append,prepared,exchanged]
    rfl
  have built (root : Bytes) (sid : SessionID) : Built (responder root sid) := .newWithSuites ..
  have safe := session_safety ChaCha20Poly1305.aead (responder (List.replicate 32 7) (Fixed.zero 16))
    (built _ _) (preparation (List.replicate 32 7) (Fixed.zero 16) ++
      exchange (List.replicate 32 7) (Fixed.zero 16))
  refine ⟨built _ _,entered _ _,(safe.2.2.2 _ _ rfl (preparation_prepares _ _) ?_
    (exchange_remote _ _) (.inl (entered _ _))).1⟩
  rw [prepared]
  exact ne_nil_of_long authKey_long

end sample

end Integris.Safety
