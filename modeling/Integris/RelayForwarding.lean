import Integris.RelayIsolation

/-! What the network role asks of the apply role on a peer's behalf. It never makes up a
message but its own abort, and never asks that while the peer still speaks; but where it
waits for a chunk or for the end of a file it passes on whatever comes, the opcodes the
roles use among themselves included. -/
namespace Integris.RemoteSync

open Posix LocalSync Prog Ipc

/-- A well-formed message of the protocol between peers. -/
def PeerMessage (p : Bytes) : Prop :=
  (decodeManifest p).isOk ∨ (decodeFile p).isOk ∨ (decodeFileBegin p).isOk ∨ (decodeFileChunk p).isOk ∨
    (decodeFileEnd p).isOk ∨ p = encodeCommit

instance (p : Bytes) : Decidable (PeerMessage p) := by
  unfold PeerMessage
  infer_instance

/-- Everything the client may ever say, whatever it is told. -/
def Client.KeepsTo (P : Bytes → Prop) : Client → Prop
  | .stop _ => True
  | .say raw next => P raw ∧ next.KeepsTo P
  | .await next => ∀ reply, (next reply).KeepsTo P

/-- The peer has nothing more to say. -/
def Conn.Silent (c : Conn) : Prop := ∀ raw next, (c.client.settle c.waiting).1 ≠ .say raw next

/-- The role behind `call` has no part in the peer's session. -/
def Apart (host : Host) (call : Bytes → RP Bytes) : Prop :=
  ∀ p, Relates host (fun r t => t.conn = r.conn) (call p)

/-- Roles that answer alike whatever satisfies `P`, and the abort sent when a peer is gone. -/
structure AnswerAlike (host : Host) (P : Bytes → Prop) (call other : Bytes → RP Bytes) : Prop where
  message : ∀ p r, P p → call p host r = other p host r
  abort : ∀ r, r.conn.Silent → call [msgIPCAbort] host r = other [msgIPCAbort] host r

section session

variable {P : Bytes → Prop} {host : Host}

theorem Client.KeepsTo.settle {client : Client} (keeps : client.KeepsTo P) (waiting : List Bytes) :
    (client.settle waiting).1.KeepsTo P := by
  induction client generalizing waiting with
  | stop reset => exact keeps
  | say raw next ih => exact keeps
  | await next ih =>
    cases waiting with
    | nil => exact keeps
    | cons reply rest => exact ih reply (keeps reply) rest

theorem recvData_keeps {c : Conn} (keeps : c.client.KeepsTo P) :
    wp Conn.recvData host c (fun raw t => P raw ∧ t.client.KeepsTo P) (fun _ t => t = c ∧ c.Silent) fun _ => False := by
  have settled := keeps.settle c.waiting
  unfold Conn.recvData
  rw [wp_bind,wp_get]
  split
  · next raw next waiting is =>
    rw [is] at settled
    exact settled
  · next quiet => exact ⟨rfl,fun raw next is => quiet raw next _ (Prod.ext is rfl)⟩

theorem sendData_client (raw : Bytes) (c : Conn) :
    wp (Conn.sendData raw) host c (fun _ t => t.client = c.client) (fun _ t => t.client = c.client) fun _ => False := by
  unfold Conn.sendData
  rw [wp_bind,wp_get]
  split
  · exact wp_require.mpr ⟨fun _ => rfl,fun _ => rfl⟩
  · rfl

end session

/-! The network role with one of two such roles behind it. -/

section network

variable {P : Bytes → Prop} {host : Host} {out : Outside} {call other : Bytes → RP Bytes}

/-- The peer keeps to `P`. -/
abbrev Roles.KeepsTo (P : Bytes → Prop) (r : Roles) : Prop := r.conn.client.KeepsTo P

theorem Roles.KeepsTo.send {r : Roles} (keeps : r.KeepsTo P) (raw : Bytes) :
    wlp (onSession (Conn.sendData raw)) host r fun _ t => t.KeepsTo P := by
  rw [wlp,onSession,wp_zoom]
  exact (sendData_client raw r.conn).imp (fun _ t same => by rw [Roles.KeepsTo,same]; exact keeps)

theorem hear_concurs {E : Roles → Prop} (quiet : ∀ r : Roles, r.conn.Silent → E r) :
    Steady host (fun _ => False) (fun s t => s = t ∧ s.KeepsTo P) (fun raw s t => P raw ∧ s = t ∧ s.KeepsTo P)
      (fun s t => s = t ∧ E s) (onSession Conn.recvData) (onSession Conn.recvData) := by
  refine (steady_same (Q := fun raw t => P raw ∧ t.KeepsTo P).mpr fun r keeps => ⟨rfl,?_⟩).mono (fun _ _ => id)
    fun _ _ _ h => ⟨h.2.1,h.1,h.2.2⟩
  rw [onSession,wp_zoom]
  exact (recvData_keeps keeps).ends (fun _ _ => id) fun e t h => quiet _ (h.1 ▸ h.2)

variable (apart : Apart host call) (alike : AnswerAlike host P call other)

include alike

theorem recv_concurs : Steady host (fun _ => False) (fun s t => s = t ∧ s.KeepsTo P)
    (fun raw s t => P raw ∧ s = t ∧ s.KeepsTo P) (fun s t => s = t ∧ True) (aborting call (onSession Conn.recvData))
    (aborting other (onSession Conn.recvData)) := by
  have told : Steady host (fun _ => False) (fun s t => s = t ∧ s.conn.Silent) (fun _ s t => s = t ∧ True)
      (fun s t => s = t ∧ True) (call [msgIPCAbort]) (other [msgIPCAbort]) :=
    steady_same.mpr fun r silent => ⟨alike.abort r silent,wp_always (I := fun _ => True) fun _ => trivial⟩
  refine ⟨fun _ never => never.elim,fun s t related => ?_⟩
  refine Together.onError ((hear_concurs fun _ => id).pair s t related) (fun _ never => never.elim) ?_ fun _ _ h =>
    ⟨h.1,trivial⟩
  exact (told.bind fun _ => .pure ()).pair

include apart

theorem call_concurs (p : Bytes) : Steady host (fun _ => False) (fun s t => P p ∧ s = t ∧ s.KeepsTo P)
    (fun _ s t => s = t ∧ s.KeepsTo P) (fun s t => s = t ∧ True) (call p) (other p) := by
  refine (steady_same.mpr fun r (h : P p ∧ r.KeepsTo P) => ⟨alike.message p r h.1,?_⟩).mono
    (fun _ _ h => ⟨h.2.1,h.1,h.2.2⟩) fun _ _ _ => id
  exact (apart p r).imp fun _ t same => by rw [Roles.KeepsTo,same]; exact h.2

/-- While the peer keeps to `P`, the role behind the network role is asked nothing else. -/
theorem relaySteps_concur : RelaySteps host out (fun _ => False) P (fun _ s t => s = t ∧ s.KeepsTo P)
    (fun s t => s = t ∧ True) call other where
  conn _ s t h := by rw [h.1]
  ended _ _ _ h := ⟨h.1,trivial⟩
  weaken _ _ _ := id
  hear _ := hear_concurs fun _ _ => trivial
  recv _ := recv_concurs alike
  send _ raw := steady_same.mpr fun _ keeps => ⟨rfl,keeps.send raw⟩
  report _ e := steady_same.mpr fun _ _ => ⟨rfl,wp_always (I := fun _ => True) fun _ => trivial⟩
  ask _ p _ := call_concurs apart alike p
  start _ p _ := call_concurs apart alike p

end network

/-! What such a peer can bring the apply role to do. -/

section index

variable {host : Host} {out : Outside} {held : Option (List Entry)}

theorem isOk_iff {x : Except ε α} : x.isOk ↔ ∃ a, x = .ok a := by cases x <;> simp [Except.isOk,Except.toBool]

theorem PeerMessage.op {p : Bytes} (h : PeerMessage p) : p.head? ≠ some msgDestManifest := by
  have other {op : UInt8} (is : p.head? = some op) (ne : op ≠ msgDestManifest) :
      p.head? ≠ some msgDestManifest := fun dest => ne (Option.some.inj (is.symm.trans dest))
  simp only [PeerMessage,isOk_iff] at h
  rcases h with ⟨_,h⟩ | ⟨_,h⟩ | ⟨_,h⟩ | ⟨_,h⟩ | ⟨_,h⟩ | rfl
  · exact other (demand_bind_ok.mp h).1.2 (by decide)
  · exact other (demand_bind_ok.mp h).1 (by decide)
  · exact other (demand_bind_ok.mp h).1 (by decide)
  · exact other (demand_bind_ok.mp h).1.2 (by decide)
  · exact other (demand_bind_ok.mp h).1 (by decide)
  · decide

/-- No index that was not there before. -/
def Apply.NoNewIndex (held : Option (List Entry)) (a : Apply) : Prop := a.destMan = held ∨ a.destMan = none

theorem noNewIndex_inStore (m : SP α) : Keeps host (Apply.NoNewIndex held) (inStore m) := Keeps.zoom m fun _ _ h => h

theorem noNewIndex_leaving (how : Loop) (resp : Bytes) : Keeps host (Apply.NoNewIndex held) (leaving how resp) :=
  Keeps.bind (Keeps.modify fun _ h => h) fun _ => Keeps.pure _

theorem noNewIndex_replying {m : AP Bytes} (h : Keeps host (Apply.NoNewIndex held) m) :
    Keeps host (Apply.NoNewIndex held) (replying out m) := by
  refine h.attempt.bind fun r => ?_
  cases r with
  | ok resp => exact Keeps.pure _
  | error e => exact noNewIndex_leaving _ _

theorem noNewIndex_applyRequest {req : Bytes} (op : req.head? ≠ some msgDestManifest) :
    Keeps host (Apply.NoNewIndex held) (applyRequest out req) := by
  unfold applyRequest
  split
  · exact Keeps.pure _
  · next first rest =>
    have op : first ≠ msgDestManifest := fun is => op (congrArg some is)
    split_ifs
    · exact noNewIndex_replying (Keeps.ofExcept_bind fun _ _ => (noNewIndex_inStore _).bind fun _ => Keeps.pure _)
    · exact noNewIndex_replying (Keeps.ofExcept_bind fun _ _ => (noNewIndex_inStore _).bind fun _ => Keeps.pure _)
    · exact noNewIndex_replying (Keeps.ofExcept_bind fun _ _ => (noNewIndex_inStore _).bind fun _ => Keeps.pure _)
    · exact noNewIndex_replying (Keeps.ofExcept_bind fun _ _ =>
        (noNewIndex_inStore _).bind fun _ => Keeps.get.bind fun _ => Keeps.pure _)
    · refine noNewIndex_replying (Keeps.ofExcept_bind fun _ _ => Keeps.get.bind fun _ => ?_)
      split <;> exact (noNewIndex_inStore _).bind fun _ => Keeps.pure _
    · exact noNewIndex_replying (Keeps.get.bind fun _ => (noNewIndex_inStore _).bind fun _ =>
        Keeps.bind (Keeps.modify fun _ _ => .inr rfl) fun _ => noNewIndex_leaving _ _)
    · exact (noNewIndex_inStore _).bind fun _ => noNewIndex_leaving _ _
    · exact noNewIndex_leaving _ _

/-- The calling end of the channel writes frames whose fields can be read back. -/
def Roles.Framed (r : Roles) : Prop :=
  (r.wire .apply).near.maxFrame = maxFrameBytes ∧ (r.wire .apply).near.nextSendSeq < 2 ^ 64

theorem Wire.InStep.framed {r : Roles} (step : (r.wire .apply).InStep) : r.Framed := by
  refine ⟨step.frame,?_⟩
  rw [step.forth.step]
  exact Nat.mod_lt _ (by decide)

/-- The apply role holds no new index, and the channel to it is sound. -/
structure Roles.Guarded (held : Option (List Entry)) (r : Roles) : Prop where
  index : r.apply.NoNewIndex held
  framed : r.Framed

theorem guarded_quit (hop : Hop) : Keeps host (Roles.Guarded held) (quit hop) := by
  cases hop <;> exact Keeps.modify fun _ h => ⟨h.index,h.framed⟩

theorem guarded_onSession (m : CP α) : Keeps host (Roles.Guarded held) (onSession m) :=
  Keeps.zoom m fun _ _ h => ⟨h.index,h.framed⟩

theorem guarded_onApply {m : AP α} (h : Keeps host (Apply.NoNewIndex held) m) :
    Keeps host (Roles.Guarded held) (onApply m) := by
  intro r guarded
  rw [onApply,wp_zoom]
  exact (h _ guarded.index).stops (fun _ _ index => ⟨index,guarded.framed⟩) fun _ index => ⟨index,guarded.framed⟩

theorem guarded_atFar (m : ChannelState.Op α) : Keeps host (Roles.Guarded held) (atFar .apply m) := by
  refine Keeps.zoom _ fun ch r h => ⟨h.index,?_⟩
  rw [Roles.Framed,Roles.setWire_wire]
  exact h.framed

theorem Roles.Guarded.near {r : Roles} (h : r.Guarded held) {ch : ChannelState}
    (frame : ch.maxFrame = (r.wire .apply).near.maxFrame) (seq : ch.nextSendSeq < 2 ^ 64) :
    (r.setWire .apply { r.wire .apply with near := ch }).Guarded held := by
  refine ⟨h.index,?_⟩
  rw [Roles.Framed,Roles.setWire_wire]
  exact ⟨frame.trans h.framed.1,seq⟩

theorem guarded_decode (raw : Bytes) : Keeps host (Roles.Guarded held) (atNear .apply (ChannelState.decode raw)) := by
  intro r h
  rw [atNear,wp_zoom]
  refine (ChannelState.decode_ends _ raw).mono (fun f ch done => ?_) (fun e ch refused => ?_) fun _ => False.elim
  · rw [done.2.2]
    exact h.near rfl h.framed.2
  · rcases refused.2.2 with ⟨-,rfl⟩ | ⟨-,rfl⟩ <;> exact h.near rfl h.framed.2

theorem guarded_respond (resp : Bytes) : Keeps host (Roles.Guarded held) (respond .apply resp) := by
  refine (guarded_atFar _).attempt.bind fun r => ?_
  cases r with
  | error e => exact (guarded_quit .apply).bind fun _ => Keeps.throw _
  | ok raw => exact (guarded_decode raw).mapError.bind fun _ => (Keeps.require _).bind fun _ => Keeps.pure _

theorem guarded_lost : Keeps host (Roles.Guarded held) (lost out .apply) :=
  guarded_onApply ((noNewIndex_inStore _).bind fun _ => Keeps.modify fun _ h => h)

theorem guarded_toApply {payload : Bytes} (op : payload.head? ≠ some msgDestManifest) :
    Keeps host (Roles.Guarded held) (toApply out payload) := by
  intro r h
  rw [toApply,request,wp_bind,wp_mapError,atNear,wp_zoom,wp_within]
  refine (ChannelState.encode_ends _ .request payload).ends (fun raw ch sent => ?_) (fun e ch refused => ?_)
  · obtain ⟨sends,rfl,rfl⟩ := sent
    have next : (r.setWire .apply { r.wire .apply with near := (r.wire .apply).near.sent .request }).Guarded
        held := h.near rfl (Nat.mod_lt _ (by decide : 0 < 2 ^ 64))
    have small : payload.length < 2 ^ 32 := by
      have small := sends.small
      rw [h.framed.1] at small
      unfold maxFrameBytes at small
      omega
    have reads := ChannelState.wire_reads (ChannelState.known_carried sends.known) small h.framed.2
    rw [wp_bind,wp_get,wp_bind,wp_require]
    refine ⟨fun _ => ?_,fun _ => next⟩
    rw [wp_bind,wp_attempt]
    -- what is decoded, if anything is, is the frame that was written
    have heard : wp (atFar .apply (ChannelState.decode ((r.wire .apply).near.wire .request payload))) host
        (r.setWire .apply { r.wire .apply with near := (r.wire .apply).near.sent .request })
        (fun f t => t.Guarded held ∧ f.payload = payload) (fun _ t => t.Guarded held)
        fun t => t.Guarded held := by
      have kept : Keeps host (Roles.Guarded held) (atFar .apply (ChannelState.decode
        ((r.wire .apply).near.wire .request payload))) := guarded_atFar _
      refine ((kept _ next).and (?_ : wlp _ _ _ (fun f _ => f.payload = payload))).stops
        (fun _ _ both => both) fun _ both => both.1
      rw [wlp,atFar,wp_zoom]
      refine (ChannelState.decode_ends _ _).mono (fun f _ done => ?_) (fun _ _ _ => True.intro) fun _ =>
        False.elim
      rw [done.2.1]
      simp only [ChannelState.frameOf,reads.length,reads.contents]
    refine heard.ends (fun frame t both => ?_) (fun e t guarded => ?_)
    · simp only
      split
      · rw [both.2]
        exact Keeps.bind (guarded_onApply (noNewIndex_applyRequest op)) (fun resp => guarded_respond resp) t
          both.1
      · exact guarded_lost.bind (fun _ => Keeps.throw _) t both.1
    · exact guarded_lost.bind (fun _ => Keeps.throw _) t guarded
  · rw [refused.2]
    exact h.near rfl h.framed.2

/-- The apply role and the channel to it are no part of the session. -/
theorem apart_toApply : Apart host (toApply out) := fun p r =>
  keeps_toApply (I := fun t => t.conn = r.conn) (fun _ _ h => h) (fun _ _ h => h) p r rfl

end index

/-- The apply role behind a filter: it hears messages between peers and, when the peer is gone, the
network role's abort. -/
def filtered (call : Bytes → RP Bytes) (p : Bytes) : RP Bytes :=
  if PeerMessage p ∨ p = [msgIPCAbort] then call p else throw (.fail .protocol "internal opcode")

theorem filtered_alike (host : Host) (call : Bytes → RP Bytes) : AnswerAlike host PeerMessage call (filtered call) where
  message p r h := by rw [filtered,if_pos (.inl h)]
  abort r _ := by rw [filtered,if_pos (.inr rfl)]

/-- A peer that keeps to the protocol's messages has nothing else said to the role behind the network
role: no role that answers these alike can be told from it. In particular the apply role takes no
destination index from that peer. -/
theorem peer_says_messages (out : Outside) (host : Host) (r : Roles) (keeps : r.KeepsTo PeerMessage) :
    (∀ call other, Apart host call → AnswerAlike host PeerMessage call other →
      viaApplyIPC out call host r = viaApplyIPC out other host r) ∧
    ((r.wire .apply).InStep → ∀ entries,
      (viaApplyIPC out (toApply out) host r).2.apply.destMan = some entries →
        r.apply.destMan = some entries) := by
  have same (call other : Bytes → RP Bytes) (apart : Apart host call)
      (alike : AnswerAlike host PeerMessage call other) :
      viaApplyIPC out call host r = viaApplyIPC out other host r :=
    (steady_same.mp ((relaySteps_concur apart alike).viaApplyIPC (b := True)) r keeps).1
  refine ⟨same,fun step entries => ?_⟩
  rw [same _ _ apart_toApply (filtered_alike host (toApply out))]
  have calls (p : Bytes) : Keeps host (Roles.Guarded r.apply.destMan) (filtered (toApply out) p) := by
    unfold filtered
    split
    · next h =>
      refine guarded_toApply ?_
      rcases h with message | rfl
      · exact message.op
      · decide
    · exact Keeps.throw _
  have guarded : Keeps host (Roles.Guarded r.apply.destMan) (viaApplyIPC out (filtered (toApply out))) :=
    keeps_viaApplyIPC guarded_onSession calls
  have ended := (guarded r ⟨.inl rfl,step.framed⟩).reached
  rintro held
  rcases ended.index with same | none
  · exact same.symm.trans held
  · exact absurd (none.symm.trans held) nofun

/-! An honest push keeps to the protocol's messages. -/

theorem saying_keepsTo {x : Except Fault Bytes} {next : Client} {P : Bytes → Prop}
    (message : ∀ raw, x = .ok raw → P raw) (later : next.KeepsTo P) : (saying x next).KeepsTo P := by
  cases x with
  | error e => trivial
  | ok raw => exact ⟨message raw rfl,later⟩

theorem sendPieces_keepsTo (off : UInt64) (pieces : List Bytes) {next : Client}
    (later : next.KeepsTo PeerMessage) : (sendPieces off pieces next).KeepsTo PeerMessage := by
  induction pieces generalizing off with
  | nil => exact later
  | cons piece rest ih =>
    refine saying_keepsTo (fun raw encoded => ?_) (ih _)
    exact .inr (.inr (.inr (.inl (isOk_iff.mpr ⟨_,decodeFileChunk_encode encoded⟩))))

theorem sendFiles_keepsTo {t : SourceTree} {files : List Entry} (modes : ∀ e ∈ files, e.mode < 2 ^ 32) :
    (sendFiles t files).KeepsTo PeerMessage := by
  induction files with
  | nil => exact ⟨.inr (.inr (.inr (.inr (.inr rfl)))),fun _ => trivial⟩
  | cons e rest ih =>
    refine saying_keepsTo (fun raw encoded => ?_) fun ack => ?_
    · exact .inr (.inr (.inl (isOk_iff.mpr ⟨_,decodeFileBegin_encode (modes e List.mem_cons_self) encoded⟩)))
    · dsimp only
      cases decodeFileAck ack with
      | error _ => trivial
      | ok offset =>
        dsimp only
        split
        · trivial
        · refine sendPieces_keepsTo _ _ (saying_keepsTo (fun raw encoded => ?_) (ih fun x hx =>
            modes x (List.mem_cons_of_mem _ hx)))
          exact .inr (.inr (.inr (.inr (.inl (isOk_iff.mpr ⟨_,decodeFileEnd_encode encoded⟩)))))

theorem push_keepsTo {t : SourceTree} (fits : ∀ e ∈ t.entries, Transferable e) : (push t).KeepsTo PeerMessage := by
  refine saying_keepsTo (fun raw encoded => ?_) fun ack => ?_
  · exact .inl (isOk_iff.mpr ⟨_,decodeManifest_encode fits encoded⟩)
  · dsimp only
    split
    · exact sendFiles_keepsTo fun e he => (fits e (List.mem_filter.mp he).1).mode
    · trivial

/-- An honest push, whose file is staged. -/
theorem peer_says_messages_sample :
    (viaApplyIPC sampleOutside (toApply sampleOutside) quietHost
      (sampleRoles.accept (push sampleTree))).2.conn.replies = [encodeManifestOK,encodeFileAck 0,okResult] ∧
    (viaApplyIPC sampleOutside (toApply sampleOutside) quietHost
      (sampleRoles.accept (push sampleTree))).2.apply.destMan = none := by
  have fits : ∀ e ∈ sampleTree.entries, Transferable e := by
    intro e he
    obtain rfl := List.mem_singleton.mp he
    exact ⟨by decide,by decide,nofun⟩
  have keeps : (push sampleTree).KeepsTo PeerMessage := push_keepsTo fits
  refine ⟨by decide +kernel,?_⟩
  have index := (peer_says_messages sampleOutside quietHost (sampleRoles.accept (push sampleTree)) keeps).2 (plainWire_inStep rfl rfl)
  cases found : (viaApplyIPC sampleOutside (toApply sampleOutside) quietHost
      (sampleRoles.accept (push sampleTree))).2.apply.destMan with
  | none => rfl
  | some entries => exact absurd (index entries found) nofun

/-- A file announced and begun; then, in place of its first chunk, a message of the roles. -/
def intruder (raw : Bytes) : Client :=
  saying (encodeManifest sampleTree.entries) (.await fun _ =>
    saying (encodeFileBegin ⟨ascii "f",0o644,sha256 [1,2],2⟩) (.await fun _ => .say raw (.await fun _ => .stop false)))

/-- The manifest of a directory `x`, as the index role would send it. -/
def forgedIndex : Bytes := [0xe0,1,0,0,0,1,1,0,0x78,0xed,1,0,0,0,0,0,0,0,0,0,0]

/-- The apply role takes a destination index from the peer, and an abort: the peer is there to be told
of it. -/
theorem peer_speaks_as_role :
    (viaApplyIPC sampleOutside (toApply sampleOutside) quietHost
      (sampleRoles.accept (intruder forgedIndex))).2.apply.destMan =
        some [⟨ascii "x",.dir,0,0o755,none⟩] ∧
    (viaApplyIPC sampleOutside (toApply sampleOutside) quietHost
      (sampleRoles.accept (intruder [msgIPCAbort]))).2.conn.replies =
        [encodeManifestOK,encodeFileAck 0,mustResult false (ascii "apply: aborted")] := by
  decide +kernel

end Integris.RemoteSync
