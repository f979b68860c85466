import Integris.HandshakeTrace
import Integris.ChaCha20Poly1305
import Mathlib.Data.Set.Insert

/-! Any number of handshake runs over a network that belongs to the attacker: each run is
given whatever the network hands to it. The frame authenticator is ideal: a frame that is
valid under a key was written by a run that holds the key. -/
namespace Integris.Remote

open Session Crypto Protocol Prog

/-- One run of either end, with everything that comes in. -/
structure Run where
  role : Endpoint
  root : Bytes
  peerID : Bytes
  env : Env
  inbound : Bytes

/-- What a session is negotiated with. -/
structure Parameters where
  sessionID : SessionID
  offered : List Version
  selected : Version
  suite : Bytes
  deriving DecidableEq, Repr

def parametersOf (d : Driver) : Parameters :=
  ⟨d.sessionID,d.session.offered,d.session.selected,d.session.selectedSuite⟩

/-- What an offer of this code leads to. -/
def standard (sid : SessionID) : Parameters := ⟨sid,offeredVersions,3,suiteIDAEAD⟩

namespace Run

variable (r : Run)

def macKey : Except Failure Bytes := deriveMACKey r.root r.peerID

def negotiation : Outcome RemoteError Driver × Conn :=
  match r.role with
  | .initiator => dialNegotiation r.root r.peerID r.env ⟨r.inbound, []⟩
  | .responder => acceptNegotiation r.root r.peerID r.env ⟨r.inbound, []⟩

def result : Outcome RemoteError Driver × Conn :=
  match r.role with
  | .initiator => dialHandshake r.root r.peerID r.env ⟨r.inbound, []⟩
  | .responder => acceptHandshake r.root r.peerID r.env ⟨r.inbound, []⟩

def Completes (d : Driver) : Prop := r.result.1 = .ok d

/-- The parameters of a run past its negotiation, whether or not it completed. -/
def parameters : Option Parameters :=
  match r.negotiation.1 with
  | .ok d => some (parametersOf d)
  | _ => none

/-- The frames a handshake can read; it reads at most four. -/
def received : List Bytes := framesOf 4 r.inbound

/-- The bytes before an end's first frame. -/
def selector : Bytes :=
  match r.role with
  | .initiator => prologue r.peerID
  | .responder => []

def written : List Bytes :=
  framesOf r.result.2.outbound.length (r.result.2.outbound.drop r.selector.length)

end Run

/-- Valid under a key only if a holder tagged it: in a handshake of the system, or as a data
or close frame of an established session. -/
def Authentic (S : Set Run) (key raw : Bytes) : Prop :=
  ∀ f, decode raw key true = .ok f → f.typ = .data ∨ f.typ = .close ∨
    ∃ r ∈ S, r.macKey = .ok key ∧ raw ∈ r.written

def Unforgeable (S : Set Run) : Prop :=
  ∀ r ∈ S, ∀ key, r.macKey = .ok key → ∀ raw ∈ r.received, Authentic S key raw

/-- No two root keys of the system derive one MAC key. -/
def KeysApart (S : Set Run) : Prop :=
  ∀ r ∈ S, ∀ r' ∈ S, ∀ key, r.macKey = .ok key → r'.macKey = .ok key → r.root = r'.root

section writing

variable {key : Bytes} {fs : List Frame}

theorem written_stream (small : ∀ f ∈ fs, f.Encodable) (selector : Bytes) :
    framesOf (selector ++ stream key fs).length ((selector ++ stream key fs).drop selector.length) =
      fs.map (·.wire key) := by
  rw [List.drop_left]
  refine framesOf_stream (fun f hf => (small f hf).body) ?_
  have each : fs.length ≤ (stream key fs).length := by
    clear small
    induction fs with
    | nil => exact Nat.zero_le _
    | cons f fs ih =>
      have := wire_header f key
      rw [stream,List.map_cons,List.flatten_cons,List.length_append,← stream,List.length_cons]
      simp only [headerBytes] at this
      omega
  rw [List.length_append]
  omega

/-- What the encoders of a responder write. -/
def Answers (f : Frame) : Prop := f.Encodable ∧ (f.typ = .negotiateAccept ∨ f.typ = .peerAuth)

def Wrote (key : Bytes) (c : Conn) : Prop := ∃ fs, (∀ f ∈ fs, Answers f) ∧ c.outbound = stream key fs

theorem Wrote.same {c c' : Conn} (h : Wrote key c) (same : c'.outbound = c.outbound) : Wrote key c' := by
  obtain ⟨fs,answers,out⟩ := h
  exact ⟨fs,answers,same.trans out⟩

theorem Wrote.more {c c' : Conn} {f : Frame} (h : Wrote key c) (answers : Answers f)
    (more : c'.outbound = c.outbound ++ f.wire key) : Wrote key c' := by
  obtain ⟨fs,all,out⟩ := h
  refine ⟨fs ++ [f],?_,by simp [more,out,stream]⟩
  intro g hg
  rcases List.mem_append.mp hg with hg | hg
  · exact all g hg
  · rw [List.mem_singleton.mp hg]
    exact answers

variable {aead : Aead} {env : Env} {d : Driver} {kind : Kind} {message : String}

/-- An encoder under the key, whose frames are answers. -/
def Answering (key : Bytes) (m : Driver.Op Bytes) : Prop :=
  ∀ aead d, d.macKey = key → wlp m aead d
    (fun raw d' => d'.macKey = key ∧ ∃ f, Answers f ∧ raw = f.wire key)

theorem answering_frame (keyed : key ≠ []) {typ : MessageType}
    (answer : typ = .negotiateAccept ∨ typ = .peerAuth) (body : Bytes) :
    Answering key (Driver.encodeFrame typ body) := by
  intro aead d same
  simp only [Driver.encodeFrame,wp_bind,wp_get,wp_ask,wp_ofExcept,wp_modify,wp_pure]
  refine ⟨fun sealed _ => ⟨fun raw encoded => ?_,fun _ _ => trivial⟩,fun _ _ => trivial⟩
  rw [same] at encoded
  obtain ⟨ok,-,rfl⟩ := (encode_ok_iff keyed).mp encoded
  exact ⟨same,_,⟨ok,answer⟩,rfl⟩

theorem answering_accept (keyed : key ≠ []) : Answering key Driver.encodeNegotiateAccept := by
  intro aead d same
  exact Driver.wp_encodeNegotiateAccept (I := (·.macKey = key)) same
    (Driver.wp_onSession (fun _ _ => same) (fun _ _ => trivial) fun _ => trivial) (fun _ _ _ => trivial)
    fun body t same _ => answering_frame keyed (.inl rfl) body aead t same

theorem answering_proof (keyed : key ≠ []) : Answering key Driver.encodePeerAuth := by
  intro aead d same
  simp only [Driver.encodePeerAuth,wp_bind,wp_get,wp_require,wp_pure]
  refine ⟨fun _ => Driver.wp_onSession (fun proof s => ?_) (fun _ _ => trivial) (fun _ => trivial),
    fun _ => trivial⟩
  refine (answering_frame keyed (.inr rfl) _ aead { d with session := s } same).imp (fun raw t h => ?_)
  exact Driver.wp_onSession (fun _ s => h) (fun _ _ => trivial) (fun _ => trivial)

theorem yields_emit {m : Driver.Op Bytes} (answering : Answering key m) (same : d.macKey = key) :
    Yields env (Wrote key) (emit kind message m d) fun d' => d'.macKey = key := by
  intro c wrote
  unfold emit
  rw [wp_bind,wp_drive]
  refine (answering env.aead d same).stops (fun raw d' h => ?_) (fun _ _ => wrote)
  obtain ⟨same,f,answer,rfl⟩ := h
  simp only [writeFrame,wp_bind,wp_require,wp_modify,wp_pure]
  exact ⟨fun _ => ⟨wrote.more answer rfl,same⟩,fun _ => wrote⟩

theorem yields_await (same : d.macKey = key) : Yields env (Wrote key) (await kind message d) fun d' => d'.macKey = key := by
  intro c wrote
  unfold await
  rw [wp_bind]
  refine (readFrame_spec env c).ends (fun raw c' read => ?_) (fun _ _ h => wrote.same h.2)
  have wrote := wrote.same read.2
  rw [wp_bind,wp_drive]
  exact (Driver.keeps_decodeAndHandle d raw d (.refl d)).stops
    (fun _ _ link => ⟨wrote,link.macKey.trans same⟩) (fun _ _ => wrote)

/-- Whatever it is given, a responder writes nothing but accepts and proofs. -/
theorem acceptHandshake_answers {root peerID inbound : Bytes} (derives : deriveMACKey root peerID = .ok key) :
    wp (acceptHandshake root peerID) env ⟨inbound,[]⟩ (fun _ => Wrote key) (fun _ => Wrote key) (Wrote key) := by
  have keyed := ne_nil_of_long (deriveMACKey_long derives)
  have wrapping {α : Type} (kind : Kind) (message : String) (x : Except Failure α) :
      Yields env (Wrote key) (wrapped kind message x) fun _ => True :=
    (Keeps.ofExcept x).mapError.yields
  have kept : Keeps env (Wrote key) (acceptHandshake root peerID) := by
    simp only [acceptHandshake,acceptNegotiation,bind_bind]
    refine (Keeps.require _).bind fun _ => ?_
    rw [derives]
    intro c wrote
    rw [wp_bind_of_run (wrapped_run rfl env c),wp_bind]
    refine (readFrame_spec env c).ends (fun raw c' read => ?_) (fun _ _ h => wrote.same h.2)
    refine ((wrapping _ _ _).bindKeeps fun f _ => ?_) c' (wrote.same read.2)
    have offer : Yields env (Wrote key) (advance .handshake "offer" (Driver.handle f)
        (Driver.newWithSuites offeredVersions [suiteIDAEAD] f.sessionID key true))
        fun d => d.macKey = key := by
      intro c wrote
      unfold advance
      rw [wp_bind,wp_drive]
      exact (Driver.keeps_handle _ f _ (.refl _)).stops (fun _ _ link => ⟨wrote,link.macKey⟩) (fun _ _ => wrote)
    have keys (d : Driver) (same : d.macKey = key) : Yields env (Wrote key) (withAuthKeys root r2i d)
        fun d => d.macKey = key :=
      (wrapping _ _ _).bind fun _ _ => (wrapping _ _ _).bind fun _ _ => Yields.pure same
    have install (d : Driver) : Keeps env (Wrote key) (advance .auth "traffic key" (Driver.installTrafficKey root) d) := by
      intro c wrote
      unfold advance
      rw [wp_bind,wp_drive]
      unfold wp
      rcases Driver.installTrafficKey root env.aead d with ⟨_ | _ | _,_⟩ <;> exact wrote
    refine offer.bindKeeps fun d1 h1 => ?_
    refine (yields_emit (answering_accept keyed) h1).bindKeeps fun d2 h2 => ?_
    refine (keys d2 h2).bindKeeps fun d3 h3 => (yields_await h3).bindKeeps fun d4 h4 => ?_
    refine (yields_emit (answering_proof keyed) h4).bindKeeps fun d5 h5 => ?_
    exact (yields_await h5).bindKeeps fun d6 h6 => (yields_await h6).bindKeeps fun d7 _ => install d7
  exact kept _ ⟨[],by simp,rfl⟩

end writing

section runs

variable {S : Set Run} {r : Run} {key raw : Bytes} {d : Driver} {f : Frame}

theorem completes_size (done : r.Completes d) : r.root.length = rootKeySize := by
  have guarded (m : Exchange Driver) (rest : Driver → Exchange Driver) :
      Ensures ((Prog.require (r.root.length = rootKeySize)
        { kind := .invalidArgument, message := "root key must be 32 bytes" } >>= fun _ => m) >>= rest)
        fun _ => r.root.length = rootKeySize := by
    intro env c
    rw [bind_bind,wp_bind,wp_require]
    exact ⟨fun size => (Ensures.trivial (m >>= rest) env c).imp (fun _ _ _ => size),fun _ => trivial⟩
  unfold Run.Completes Run.result at done
  cases role : r.role with
  | initiator =>
    rw [role] at done
    exact (guarded _ _).ok_of (run_eq done)
  | responder =>
    rw [role] at done
    exact (guarded _ _).ok_of (run_eq done)

theorem completes_derives (done : r.Completes d) : ∃ key, r.macKey = .ok key := by
  have base := deriveMACKey_run r.root (completes_size done)
  unfold Run.macKey deriveMACKey
  rw [deriveMACKey] at base
  obtain ⟨k,channel,-⟩ := except_bind_ok.mp base
  rw [channel,except_ok_bind]
  split
  · exact ⟨k,rfl⟩
  · exact ⟨_,hkdfSHA256_block _ _ _⟩

theorem frame_sequences (root : Bytes) (sid : SessionID) : (∀ g ∈ initiatorFrames root sid, g.sequence < 2 ^ 64) ∧
      ∀ g ∈ responderFrames root sid, g.sequence < 2 ^ 64 := by
  constructor
  · intro g mem
    simp only [initiatorFrames,List.mem_cons,List.not_mem_nil,or_false] at mem
    rcases mem with rfl | rfl | rfl | rfl
    · exact (by decide : 1 < 2 ^ 64)
    · exact (by decide : 2 < 2 ^ 64)
    · exact (by decide : 3 < 2 ^ 64)
    · exact (by decide : 4 < 2 ^ 64)
  · intro g mem
    simp only [responderFrames,List.mem_cons,List.not_mem_nil,or_false] at mem
    rcases mem with rfl | rfl
    · exact (by decide : 1 < 2 ^ 64)
    · exact (by decide : 2 < 2 ^ 64)

theorem negotiated_parameters {sid : SessionID} {c : Conn} (run : r.negotiation = (.ok (bare sid key negotiated 2 2),c)) :
    r.parameters = some (standard sid) := by
  unfold Run.parameters
  rw [run]
  rfl

theorem initiator_wrote (role : r.role = .initiator) (derives : r.macKey = .ok key) :
    ∃ n, r.written = ((initiatorFrames r.root r.env.sessionID).take n).map (·.wire key) ∧
      (2 ≤ n → r.parameters = some (standard r.env.sessionID)) := by
  have wrote : DialWrote r.root r.peerID key r.env r.inbound _ :=
    wp.reached ((dialHandshake_trace derives r.env).imp fun _ _ h => h.1)
  simp only [Run.written,Run.result,Run.selector,role]
  rcases wrote with empty | ⟨n,out,past⟩
  · refine ⟨0,?_,nofun⟩
    rw [empty,List.drop_nil,framesOf_empty]
    rfl
  · refine ⟨n,?_,fun many => ?_⟩
    · rw [out]
      exact written_stream (fun f hf => initiatorFrames_encodable f (List.mem_of_mem_take hf)) _
    · obtain ⟨c,run⟩ := past many
      exact negotiated_parameters (by unfold Run.negotiation; rw [role]; exact run)

theorem initiator_frame (role : r.role = .initiator) (derives : r.macKey = .ok key)
    (wrote : raw ∈ r.written) (decoded : decode raw key true = .ok f) :
    ∃ g ∈ initiatorFrames r.root r.env.sessionID, raw = g.wire key ∧ f = g.stamped ∧
      (g ≠ offerFrame r.env.sessionID → r.parameters = some (standard r.env.sessionID)) := by
  obtain ⟨n,all,past⟩ := initiator_wrote role derives
  rw [all] at wrote
  obtain ⟨g,mem,rfl⟩ := List.mem_map.mp wrote
  have known := List.mem_of_mem_take mem
  have read := decode_wire (deriveMACKey_long derives) (initiatorFrames_encodable g known)
    ((frame_sequences _ _).1 g known) true
  refine ⟨g,known,rfl,Except.ok.inj (decoded.symm.trans read),fun later => past ?_⟩
  -- the offer is the first frame, so with another one more than it was written
  by_contra few
  have one : n ≤ 1 := by omega
  have : g ∈ (initiatorFrames r.root r.env.sessionID).take 1 :=
    List.take_subset_take_left _ one mem
  simp only [initiatorFrames,List.take_succ_cons,List.take_zero,List.mem_singleton] at this
  exact later this

theorem responder_typ (role : r.role = .responder) (derives : r.macKey = .ok key)
    (wrote : raw ∈ r.written) (decoded : decode raw key true = .ok f) :
    f.typ = .negotiateAccept ∨ f.typ = .peerAuth := by
  have answers : Wrote key (acceptHandshake r.root r.peerID r.env ⟨r.inbound,[]⟩).2 :=
    wp.reached (acceptHandshake_answers derives)
  obtain ⟨fs,all,out⟩ := answers
  simp only [Run.written,Run.result,Run.selector,role] at wrote
  rw [out,← List.nil_append (stream key fs),written_stream fun f hf => (all f hf).1] at wrote
  obtain ⟨g,mem,rfl⟩ := List.mem_map.mp wrote
  rw [decode_typ decoded,Frame.wire_typ (all g mem).1.typ]
  exact (all g mem).2

theorem Hears.received {rest : Bytes} (h : Hears key r.inbound raw f rest) : raw ∈ r.received := by
  unfold Run.received
  rw [framesOf_next h.next]
  exact List.mem_cons_self

/-- Every offer that reaches a responder is that of this code. -/
theorem opens_genuine (authentic : ∀ raw ∈ r.received, Authentic S key raw) : Opens key r.inbound := by
  intro raw f rest hears offer
  rcases authentic raw hears.received f hears.decoded with data | close | ⟨r',mem',derives',wrote⟩
  · rw [offer] at data
    cases data
  · rw [offer] at close
    cases close
  · cases role : r'.role with
    | initiator =>
      obtain ⟨g,mem,-,rfl,-⟩ := initiator_frame role derives' wrote hears.decoded
      simp only [initiatorFrames,List.mem_cons,List.not_mem_nil,or_false] at mem
      rcases mem with rfl | rfl | rfl | rfl
      · rfl
      all_goals cases offer
    | responder =>
      rcases responder_typ role derives' wrote hears.decoded with accept | proof
      · rw [offer] at accept
        cases accept
      · rw [offer] at proof
        cases proof

theorem responder_wrote (ideal : Unforgeable S) (mem : r ∈ S) (role : r.role = .responder) (derives : r.macKey = .ok key) :
    ∃ sid n, r.written = ((responderFrames r.root sid).take n).map (·.wire key) ∧
      (1 ≤ n → r.parameters = some (standard sid)) := by
  have wrote : AcceptWrote r.root r.peerID key r.env r.inbound _ :=
    wp.reached ((acceptHandshake_trace derives (opens_genuine (ideal r mem key derives)) r.env).imp fun _ _ h => h.1)
  obtain ⟨sid,n,out,past⟩ := wrote
  refine ⟨sid,n,?_,fun many => ?_⟩
  · simp only [Run.written,Run.result,Run.selector,role]
    rw [out,← List.nil_append (stream key _),written_stream]
    exact fun f hf => responderFrames_encodable f (List.mem_of_mem_take hf)
  · obtain ⟨c,run⟩ := past many
    exact negotiated_parameters (by unfold Run.negotiation; rw [role]; exact run)

theorem responder_frame (ideal : Unforgeable S) (mem : r ∈ S) (role : r.role = .responder)
    (derives : r.macKey = .ok key) (wrote : raw ∈ r.written) (decoded : decode raw key true = .ok f) :
    ∃ sid, ∃ g ∈ responderFrames r.root sid, raw = g.wire key ∧ f = g.stamped ∧ r.parameters = some (standard sid) := by
  obtain ⟨sid,n,all,past⟩ := responder_wrote ideal mem role derives
  rw [all] at wrote
  obtain ⟨g,inside,rfl⟩ := List.mem_map.mp wrote
  have known := List.mem_of_mem_take inside
  have read := decode_wire (deriveMACKey_long derives) (responderFrames_encodable g known)
    ((frame_sequences _ _).2 g known) true
  refine ⟨sid,g,known,rfl,Except.ok.inj (decoded.symm.trans read),past ?_⟩
  by_contra none_
  obtain rfl : n = 0 := by omega
  simp at inside

/-- A frame that opens with the initiator's direction is not the responder's. -/
theorem directions_differ (x y : Bytes) : i2r ++ x ≠ r2i ++ y := by
  intro same
  have := congrArg (List.take 3) same
  rw [List.take_left' (by decide),List.take_left' (by decide)] at this
  exact absurd this (by decide)

section

variable (ideal : Unforgeable S) (authentic : Authentic S key raw) (decoded : decode raw key true = .ok f)
include ideal authentic decoded

theorem handshake_frame (data : f.typ ≠ .data) (close : f.typ ≠ .close) :
    ∃ r ∈ S, r.macKey = .ok key ∧ ∃ g, raw = g.wire key ∧ f = g.stamped ∧
      ((r.role = .initiator ∧ g ∈ initiatorFrames r.root r.env.sessionID ∧
          (g ≠ offerFrame r.env.sessionID → r.parameters = some (standard r.env.sessionID))) ∨
        (r.role = .responder ∧ ∃ sid, g ∈ responderFrames r.root sid ∧ r.parameters = some (standard sid))) := by
  rcases authentic f decoded with is | is | ⟨r,mem,derives,wrote⟩
  · exact absurd is data
  · exact absurd is close
  · cases role : r.role with
    | initiator =>
      obtain ⟨g,known,wire,same,past⟩ := initiator_frame role derives wrote decoded
      exact ⟨r,mem,derives,g,wire,same,.inl ⟨role,known,past⟩⟩
    | responder =>
      obtain ⟨sid,g,known,wire,same,past⟩ := responder_frame ideal mem role derives wrote decoded
      exact ⟨r,mem,derives,g,wire,same,.inr ⟨role,sid,known,past⟩⟩

/-- Of the proofs of a session one is the initiator's and one the responder's. -/
theorem proof_origin (typ : f.typ = .peerAuth) : ∃ r ∈ S, r.macKey = .ok key ∧ r.parameters = some (standard f.sessionID) ∧
    (r.role = .initiator ∧ r.env.sessionID = f.sessionID ∧ (∃ x, f.body = i2r ++ x) ∨
      r.role = .responder ∧ ∃ x, f.body = r2i ++ x) := by
  obtain ⟨r,mem,derives,g,-,rfl,⟨role,known,past⟩ | ⟨role,sid,known,past⟩⟩ :=
    handshake_frame ideal authentic decoded (by rw [typ]; decide) (by rw [typ]; decide)
  · simp only [initiatorFrames,List.mem_cons,List.not_mem_nil,or_false] at known
    rcases known with rfl | rfl | rfl | rfl
    case inr.inl =>
      have other : i2rFrame r.root r.env.sessionID negotiated ≠ offerFrame r.env.sessionID := fun same => by
        have : MessageType.peerAuth = .negotiateOffer := congrArg Frame.typ same
        cases this
      exact ⟨r,mem,derives,past other,.inl ⟨role,rfl,_,rfl⟩⟩
    all_goals cases typ
  · simp only [responderFrames,List.mem_cons,List.not_mem_nil,or_false] at known
    rcases known with rfl | rfl
    · cases typ
    · exact ⟨r,mem,derives,past,.inr ⟨role,_,rfl⟩⟩

end

theorem initiator_completed (role : r.role = .initiator) (derives : r.macKey = .ok key) (done : r.Completes d) :
    d = dialed r.root r.env.sessionID key ∧ ∃ raw ∈ r.received, ∃ f, decode raw key true = .ok f ∧
      f.typ = .peerAuth ∧ f.sessionID = r.env.sessionID ∧ f.body = r2i ++ proofR2I r.root r.env.sessionID negotiated := by
  unfold Run.Completes Run.result at done
  rw [role] at done
  obtain ⟨-,same,raw1,mid,raw2,f,next,hears,typ,id,body⟩ := (dialHandshake_trace derives r.env).ok_of (run_eq done)
  refine ⟨same,raw2,?_,f,hears.decoded,typ,id,body⟩
  unfold Run.received
  rw [framesOf_next next,framesOf_next hears.next]
  simp

theorem responder_completed (authentic : ∀ raw ∈ r.received, Authentic S key raw)
    (role : r.role = .responder) (derives : r.macKey = .ok key) (done : r.Completes d) :
    ∃ sid raw f, d = accepted r.root sid key ∧ Served key r.inbound sid raw f ∧
      (f 1).body = i2r ++ proofI2R r.root sid negotiated ∧ r.parameters = some (standard sid) := by
  unfold Run.Completes Run.result at done
  rw [role] at done
  obtain ⟨-,sid,raw,f,same,served,body,c,run⟩ :=
    (acceptHandshake_trace derives (opens_genuine authentic) r.env).ok_of (run_eq done)
  exact ⟨sid,raw,f,same,served,body,negotiated_parameters (by unfold Run.negotiation; rw [role]; exact run)⟩

theorem dialed_parameters (root : Bytes) (sid : SessionID) (key : Bytes) :
    parametersOf (dialed root sid key) = standard sid := rfl

theorem accepted_parameters (root : Bytes) (sid : SessionID) (key : Bytes) :
    parametersOf (accepted root sid key) = standard sid := rfl

/-- The best of the offered versions that are allowed here. -/
def Highest (offered : List Version) (selected : Version) : Prop :=
  selected ∈ offered ∧ selected ∈ localAllowed ∧ ∀ v ∈ offered, v ∈ localAllowed → v ≤ selected

theorem standard_highest (sid : SessionID) : Highest (standard sid).offered (standard sid).selected := by
  have best : Highest offeredVersions 3 := by refine ⟨?_,?_,?_⟩ <;> simp [offeredVersions,localAllowed]
  exact best

/-- Whoever completes has a partner with the same root key that negotiated the same
parameters, the best possible ones; if the partner completes too, the traffic keys agree. -/
theorem handshake_agreement (ideal : Unforgeable S) (apart : KeysApart S) (mem : r ∈ S)
    (done : r.Completes d) :
    Highest (parametersOf d).offered (parametersOf d).selected ∧
    ∃ r' ∈ S, r'.role = r.role.other ∧ r'.root = r.root ∧ r'.parameters = some (parametersOf d) ∧
      ∀ d', r'.Completes d' → d'.aeadKey = d.aeadKey := by
  obtain ⟨key,derives⟩ := completes_derives done
  cases role : r.role with
  | initiator =>
    obtain ⟨rfl,raw,received,f,decoded,typ,id,body⟩ := initiator_completed role derives done
    obtain ⟨r',mem',derives',used,⟨-,-,_,own⟩ | ⟨role',-⟩⟩ :=
      proof_origin ideal (ideal r mem key derives raw received) decoded typ
    · exact absurd (own.symm.trans body) (directions_differ _ _)
    have root := apart r' mem' r mem key derives' derives
    refine ⟨standard_highest _,r',mem',role',root,?_,fun d' done' => ?_⟩
    · rw [used,id,dialed_parameters]
    · obtain ⟨sid,-,-,rfl,-,-,used'⟩ :=
        responder_completed (ideal r' mem' key derives') role' derives' done'
      have same : sid = r.env.sessionID :=
        (congrArg Parameters.sessionID (Option.some.inj (used'.symm.trans used))).trans id
      rw [same,root]
      rfl
  | responder =>
    have authentic := ideal r mem key derives
    obtain ⟨sid,raw,f,rfl,served,body,-⟩ := responder_completed authentic role derives done
    have received : raw 1 ∈ r.received := by
      unfold Run.received
      rw [served.frames]
      simp
    obtain ⟨r',mem',derives',used,⟨role',id,-⟩ | ⟨-,_,other⟩⟩ :=
      proof_origin ideal (authentic _ received) (served.decoded 1) served.proof
    case inr => exact absurd (body.symm.trans other) (directions_differ _ _)
    have root := apart r' mem' r mem key derives' derives
    refine ⟨standard_highest _,r',mem',role',root,?_,fun d' done' => ?_⟩
    · rw [used,served.id,accepted_parameters]
    · obtain ⟨rfl,-⟩ := initiator_completed role' derives' done'
      rw [id,served.id,root]
      rfl

end runs

section undisturbed

open ChaCha20Poly1305 (aead)

variable (root : Bytes) (sid : SessionID)

/-- The two runs of an undisturbed session. -/
def undisturbed : Endpoint → Run
  | .initiator => ⟨.initiator,root,[],⟨aead,sid⟩,fromResponder root sid⟩
  | .responder => ⟨.responder,root,[],⟨aead,sid⟩,fromInitiator root sid⟩

variable {root sid}

theorem undisturbed_dials (size : root.length = rootKeySize) : (undisturbed root sid .initiator).result =
    (.ok (dialed root sid (channelKey root)),⟨[],fromInitiator root sid⟩) := dialHandshake_completes size

theorem undisturbed_accepts (size : root.length = rootKeySize) : (undisturbed root sid .responder).result =
    (.ok (accepted root sid (channelKey root)),⟨[],fromResponder root sid⟩) := acceptHandshake_completes size sid

theorem fromInitiator_eq : fromInitiator root sid = stream (channelKey root) (initiatorFrames root sid) := by
  simp [fromInitiator,stream,initiatorFrames]

theorem fromResponder_eq : fromResponder root sid = stream (channelKey root) (responderFrames root sid) := by
  simp [fromResponder,stream,responderFrames]

theorem undisturbed_written (size : root.length = rootKeySize) :
    (undisturbed root sid .initiator).written = (initiatorFrames root sid).map (·.wire (channelKey root)) ∧
    (undisturbed root sid .responder).written = (responderFrames root sid).map (·.wire (channelKey root)) := by
  unfold Run.written
  rw [undisturbed_dials size,undisturbed_accepts size,fromInitiator_eq,fromResponder_eq,
    ← List.nil_append (stream _ (initiatorFrames _ _)),← List.nil_append (stream _ (responderFrames _ _))]
  exact ⟨written_stream initiatorFrames_encodable [],written_stream responderFrames_encodable []⟩

theorem undisturbed_received : (undisturbed root sid .initiator).received =
      (responderFrames root sid).map (·.wire (channelKey root)) ∧
    (undisturbed root sid .responder).received = (initiatorFrames root sid).map (·.wire (channelKey root)) := by
  unfold Run.received
  change framesOf 4 (fromResponder root sid) = _ ∧ framesOf 4 (fromInitiator root sid) = _
  rw [fromInitiator_eq,fromResponder_eq]
  exact ⟨framesOf_stream (fun f hf => (responderFrames_encodable f hf).body) (by simp [responderFrames]),
    framesOf_stream (fun f hf => (initiatorFrames_encodable f hf).body) (by simp [initiatorFrames])⟩

theorem undisturbed_unforgeable (size : root.length = rootKeySize) : Unforgeable (Set.range (undisturbed root sid)) := by
  rintro r ⟨_ | _,rfl⟩ key derives raw mem f -
  · refine .inr (.inr ⟨_,⟨.responder,rfl⟩,derives,?_⟩)
    rw [(undisturbed_written size).2]
    rwa [undisturbed_received.1] at mem
  · refine .inr (.inr ⟨_,⟨.initiator,rfl⟩,derives,?_⟩)
    rw [(undisturbed_written size).1]
    rwa [undisturbed_received.2] at mem

theorem undisturbed_apart : KeysApart (Set.range (undisturbed root sid)) := by
  rintro r ⟨_ | _,rfl⟩ r' ⟨_ | _,rfl⟩ key - - <;> rfl

end undisturbed

def exampleRoot : Bytes := List.replicate 32 0x22
def exampleID : SessionID := Fixed.zero 16

theorem exampleRoot_size : exampleRoot.length = rootKeySize := rfl

theorem handshake_agreement_sample :
    Highest (parametersOf (dialed exampleRoot exampleID (channelKey exampleRoot))).offered
      (parametersOf (dialed exampleRoot exampleID (channelKey exampleRoot))).selected ∧
    ∃ r' ∈ Set.range (undisturbed exampleRoot exampleID), r'.role = .responder ∧ r'.root = exampleRoot ∧
      r'.parameters = some (parametersOf (dialed exampleRoot exampleID (channelKey exampleRoot))) ∧
      ∀ d', r'.Completes d' → d'.aeadKey = (dialed exampleRoot exampleID (channelKey exampleRoot)).aeadKey :=
  handshake_agreement (r := undisturbed exampleRoot exampleID .initiator)
    (undisturbed_unforgeable exampleRoot_size) undisturbed_apart ⟨.initiator,rfl⟩
    (congrArg Prod.fst (undisturbed_dials exampleRoot_size))

end Integris.Remote
