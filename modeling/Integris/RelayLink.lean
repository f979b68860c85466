import Integris.Lockstep
import Integris.Relay

/-! The calls between the roles for as long as their channels last: a request reaches its
server and the response its caller, as they were sent. -/
namespace Integris.RemoteSync

open Posix LocalSync Prog Ipc

/-- Both directions open and in step, with the frame limit the roles use. -/
structure Wire.InStep (w : Wire) : Prop where
  forth : Endpoints w.near w.far
  back : Endpoints w.far w.near
  roles : ChannelState.Recognized w.near.localRole ∧ ChannelState.Recognized w.near.remoteRole
  frame : w.near.maxFrame = maxFrameBytes

/-- One end has taken as many frames as it ever will. -/
def Wire.Worn (w : Wire) : Prop :=
  w.near.queueDepth = maxQueueDepth ∨ w.far.queueDepth = maxQueueDepth

def Wire.asked (w : Wire) (payload : Bytes) : Wire :=
  ⟨w.near.sent .request,w.far.received (w.near.wire .request payload)⟩

def Wire.answered (w : Wire) (resp : Bytes) : Wire :=
  ⟨w.near.received (w.far.wire .response resp),w.far.sent .response⟩

variable {typ : MessageType}

/-- A frame one way leaves the other way as it was. -/
theorem reversed {a b : ChannelState} {raw : Bytes} (back : Endpoints b a)
    (forth : Endpoints (a.sent typ) (b.received raw)) : Endpoints (b.received raw) (a.sent typ) where
  peers := forth.peers.symm
  live := forth.live.symm
  step := by
    rw [ChannelState.received_nextSendSeq,ChannelState.sent_lastRecvSeq]
    exact back.step
  frame := back.frame
  queue := back.queue

namespace Wire.InStep

variable {w : Wire} (step : w.InStep) {payload resp : Bytes}

include step

theorem far_frame : w.far.maxFrame = maxFrameBytes := step.forth.peers.maxFrame.trans step.frame

theorem ordinary_request (small : payload.length ≤ maxFrameBytes) : Ordinary w.near (.request,payload) :=
  ⟨.inl rfl,step.frame ▸ small⟩

theorem ordinary_response (small : resp.length ≤ maxFrameBytes) : Ordinary w.far (.response,resp) :=
  ⟨.inr rfl,step.far_frame ▸ small⟩

theorem far_room (room : ¬w.Worn) : w.far.queueDepth < maxQueueDepth :=
  Nat.lt_of_le_of_ne step.forth.queue fun full => room (.inr full)

theorem near_room (room : ¬w.Worn) : w.near.queueDepth < maxQueueDepth :=
  Nat.lt_of_le_of_ne step.back.queue fun full => room (.inl full)

theorem asked (room : w.far.queueDepth < maxQueueDepth) (small : payload.length ≤ maxFrameBytes) :
    (w.asked payload).InStep := by
  have forth := step.forth.delivered (step.ordinary_request small) room
  exact ⟨forth,reversed step.back forth,step.roles,step.frame⟩

theorem answered (room : w.near.queueDepth < maxQueueDepth) (small : resp.length ≤ maxFrameBytes) :
    (w.answered resp).InStep := by
  have back := step.back.delivered (step.ordinary_response small) room
  exact ⟨reversed step.forth back,back,step.roles,step.frame⟩

theorem far_roles : ChannelState.Recognized w.far.localRole ∧ ChannelState.Recognized w.far.remoteRole := by
  rw [step.forth.peers.back,step.forth.peers.out]
  exact step.roles.symm

theorem asked_depth : (w.asked payload).near.queueDepth = w.near.queueDepth ∧
    (w.asked payload).far.queueDepth = w.far.queueDepth + 1 :=
  ⟨rfl,step.forth.depth⟩

theorem answered_depth : (w.answered resp).near.queueDepth = w.near.queueDepth + 1 ∧
    (w.answered resp).far.queueDepth = w.far.queueDepth :=
  ⟨step.back.depth,rfl⟩

theorem hears (room : w.far.queueDepth < maxQueueDepth) (small : payload.length ≤ maxFrameBytes) :
    w.far.Accepts (w.near.wire .request payload) ∧
      Tells w.near .request payload (ChannelState.frameOf (w.near.wire .request payload)) := by
  have ordinary := step.ordinary_request small
  have reads := step.forth.reads (ordinary.sends step.forth.live.1)
  exact ⟨(step.forth.accepts_iff ordinary).mpr ⟨step.roles,room⟩,reads.frame step.roles.1 step.roles.2⟩

theorem learns (room : w.near.queueDepth < maxQueueDepth) (small : resp.length ≤ maxFrameBytes) :
    w.near.Accepts (w.far.wire .response resp) ∧
      Tells w.far .response resp (ChannelState.frameOf (w.far.wire .response resp)) := by
  have ordinary := step.ordinary_response small
  have reads := step.back.reads (ordinary.sends step.back.live.1)
  exact ⟨(step.back.accepts_iff ordinary).mpr ⟨step.far_roles,room⟩,reads.frame step.far_roles.1 step.far_roles.2⟩

end Wire.InStep

namespace Roles

variable (r : Roles) (hop : Hop)

@[simp] theorem setWire_wire (w : Wire) : (r.setWire hop w).wire hop = w := Function.update_self ..

theorem setWire_other {hop other : Hop} (ne : other ≠ hop) (w : Wire) : (r.setWire hop w).wire other = r.wire other :=
  Function.update_of_ne ne ..

@[simp] theorem setWire_setWire (v w : Wire) : (r.setWire hop v).setWire hop w = r.setWire hop w := by simp [setWire]

theorem setWire_self : r.setWire hop (r.wire hop) = r := by simp [setWire]

@[simp] theorem setWire_alive (w : Wire) : (r.setWire hop w).alive = r.alive := by
  funext other
  cases other <;> rfl

/-- A request on its way. -/
def asked (payload : Bytes) : Roles :=
  r.setWire hop ((r.wire hop).asked payload)

def answered (resp : Bytes) : Roles :=
  r.setWire hop ((r.wire hop).answered resp)

end Roles

section calls

variable {out : Outside} {host : Host} {hop : Hop} {c : Roles}

variable {ch : ChannelState} {m : ChannelState.Op α} {r : Outcome Ipc.Error α} {payload : Bytes}
  {serve : Bytes → RP Bytes} {other : Hop}

theorem atNear_run {w : Wire} (now : c.wire hop = w) (run : m () w.near = (r,ch)) :
    atNear hop m host c = (r,c.setWire hop { w with near := ch }) := by
  subst now
  exact zoom_run run

theorem atFar_run {w : Wire} (now : c.wire hop = w) (run : m () w.far = (r,ch)) :
    atFar hop m host c = (r,c.setWire hop { w with far := ch }) := by
  subst now
  exact zoom_run run

theorem encode_long (live : ch.closed = false) (known : typ.known = true) (long : ¬payload.length ≤ ch.maxFrame) :
    ChannelState.encode typ payload () ch = (.error ⟨"limit","payload exceeds MaxFrame",true⟩,ch) := by
  unfold ChannelState.encode
  rw [get_bind,require_bind (by simp [live]),require_bind known,bind_failed (require_failed long _ _ _)]

theorem request_unread (down : c.alive hop = false) (sends : (c.wire hop).near.Sends .request payload) :
    request out hop serve payload host c = (.error unread,
      c.setWire hop { c.wire hop with near := (c.wire hop).near.sent .request }) := by
  unfold request
  rw [bind_run (mapError_run _ (atNear_run rfl (encode_run sends))),get_bind,
    bind_failed (require_failed (by simp [down]) _ _ _)]

theorem request_long (live : (c.wire hop).near.closed = false) (long : ¬payload.length ≤ (c.wire hop).near.maxFrame) :
    request out hop serve payload host c = (.error (ipcFault "ipc encode"
      ⟨"limit","payload exceeds MaxFrame",true⟩),c) := by
  have refused : atNear hop (ChannelState.encode .request payload) host c =
      (.error ⟨"limit","payload exceeds MaxFrame",true⟩,c) := by
    rw [atNear_run rfl (encode_long live rfl long)]
    exact congrArg (Prod.mk _) (Roles.setWire_self c hop)
  unfold request
  rw [bind_failed (mapError_failed _ refused)]

theorem request_eq (up : c.alive hop = true) (step : (c.wire hop).InStep) (room : ¬(c.wire hop).Worn)
    (small : payload.length ≤ maxFrameBytes) :
    request out hop serve payload host c = (serve payload >>= respond hop) host (c.asked hop payload) := by
  have space := step.far_room room
  obtain ⟨accepts,tells⟩ := step.hears space small
  have sends := (step.ordinary_request small).sends step.forth.live.1
  unfold request
  rw [bind_run (mapError_run _ (atNear_run rfl (encode_run sends))),get_bind,require_bind (by simpa using up)]
  have decoded : atFar hop (ChannelState.decode ((c.wire hop).near.wire .request payload)) host
      (c.setWire hop ⟨(c.wire hop).near.sent .request,(c.wire hop).far⟩) =
        (.ok (ChannelState.frameOf ((c.wire hop).near.wire .request payload)),c.asked hop payload) := by
    refine (atFar_run (w := ⟨(c.wire hop).near.sent .request,_⟩) (Roles.setWire_wire ..) (decode_run accepts)).trans ?_
    rw [Roles.setWire_setWire]
    rfl
  rw [bind_run (attempt_run decoded)]
  simp only [tells.typ,tells.payload,if_true]

theorem respond_run {resp : Bytes} (step : (c.wire hop).InStep) (room : ¬(c.wire hop).Worn)
    (small : resp.length ≤ maxFrameBytes) :
    respond hop resp host c = (.ok resp,c.answered hop resp) := by
  have space := step.near_room room
  obtain ⟨accepts,tells⟩ := step.learns space small
  have sends := (step.ordinary_response small).sends step.back.live.1
  unfold respond
  rw [bind_run (attempt_run (atFar_run rfl (encode_run sends)))]
  have decoded : atNear hop (ChannelState.decode ((c.wire hop).far.wire .response resp)) host
      (c.setWire hop ⟨(c.wire hop).near,(c.wire hop).far.sent .response⟩) =
        (.ok (ChannelState.frameOf ((c.wire hop).far.wire .response resp)),c.answered hop resp) := by
    refine (atNear_run (w := ⟨_,(c.wire hop).far.sent .response⟩) (Roles.setWire_wire ..) (decode_run accepts)).trans ?_
    rw [Roles.setWire_setWire]
    rfl
  simp only
  rw [bind_run (mapError_run _ decoded),require_bind tells.typ,tells.payload]
  rfl

/-! Every response of the apply role fits a frame. -/

theorem replying_ensures {m : AP Bytes} {P : Bytes → Prop} (h : Ensures m P)
    (refusal : ∀ msg, P (mustResult false msg)) : Ensures (replying out m) P := by
  intro env a
  rw [replying,wp_bind,wp_attempt]
  exact (h env a).ends (fun _ _ => id) (fun _ _ _ => refusal _)

theorem applyRequest_small (req : Bytes) : Ensures (applyRequest out req) fun resp => resp.length ≤ 65539 := by
  have refusal (msg : Bytes) : (mustResult false msg).length ≤ 65539 := mustResult_length false msg
  have done : okResult.length ≤ 65539 := mustResult_length true _
  have ack (off : UInt64) : (encodeFileAck off).length ≤ 65539 := by simp [encodeFileAck]
  have leaves (how : Loop) {resp : Bytes} (small : resp.length ≤ 65539) :
      Ensures (leaving how resp) fun resp => resp.length ≤ 65539 :=
    Ensures.after fun _ => Ensures.pure small
  unfold applyRequest
  split
  · exact Ensures.pure (refusal _)
  · split_ifs
    · exact replying_ensures (Ensures.after fun _ => Ensures.after fun _ =>
        Ensures.pure (by simp [encodeManifestOK])) refusal
    · exact replying_ensures (Ensures.after fun _ => Ensures.after fun _ => Ensures.pure done) refusal
    · exact replying_ensures (Ensures.after fun _ => Ensures.after fun _ => Ensures.pure (ack _)) refusal
    · exact replying_ensures (Ensures.after fun _ => Ensures.after fun _ => Ensures.after fun _ =>
        Ensures.pure (ack _)) refusal
    · refine replying_ensures (Ensures.after fun _ => Ensures.after fun _ => ?_) refusal
      split <;> exact Ensures.after fun _ => Ensures.pure done
    · exact replying_ensures (Ensures.after fun _ => Ensures.after fun _ => Ensures.pure done) refusal
    · exact replying_ensures (Ensures.after fun _ => Ensures.after fun _ => Ensures.after fun _ =>
        leaves _ done) refusal
    · exact Ensures.after fun _ => leaves _ (refusal _)
    · exact leaves _ (refusal _)

/-! A channel end that is full stays full, whatever the roles do. -/

abbrev KeepsFull (m : ChannelState.Op α) : Prop := Keeps () (fun ch => ch.queueDepth = maxQueueDepth) m

theorem encode_full (typ : MessageType) (payload : Bytes) : KeepsFull (ChannelState.encode typ payload) := by
  intro ch full
  refine (ChannelState.encode_ends ch typ payload).ends (fun _ t h => ?_) (fun _ t h => ?_)
  · rw [h.2.2]
    exact full
  · rw [h.2]
    exact full

theorem decode_full (raw : Bytes) : KeepsFull (ChannelState.decode raw) := by
  intro ch full
  refine (ChannelState.decode_ends ch raw).ends (fun _ t h => ?_) (fun _ t h => ?_)
  · have room := h.1.expected.queue
    rw [full] at room
    exact absurd room (by decide)
  · rcases h.2.2 with ⟨-,rfl⟩ | ⟨-,rfl⟩ <;> exact full

/-- `m` never makes room on the channel to `hop`. -/
abbrev KeepsWorn (host : Host) (hop : Hop) (m : Prog Host Roles ε α) : Prop :=
  Keeps host (fun r => (r.wire hop).Worn) m

theorem keepsWorn_zoom {view : Roles → σ} {update : σ → Roles → Roles} (m : Prog Host σ ε α)
    (same : ∀ s r, (update s r).wire = r.wire) : KeepsWorn host hop (zoom view update m) :=
  Keeps.zoom m fun s r worn => by rw [same]; exact worn

theorem keepsWorn_onApply (m : AP α) : KeepsWorn host hop (onApply m) := keepsWorn_zoom m fun _ _ => rfl

theorem keepsWorn_onSession (m : CP α) : KeepsWorn host hop (onSession m) := keepsWorn_zoom m fun _ _ => rfl

theorem keepsWorn_modify {f : Roles → Roles} (same : ∀ r, (f r).wire = r.wire) :
    KeepsWorn host hop (modify f : Prog Host Roles ε Unit) :=
  Keeps.modify fun r worn => by rw [same]; exact worn

theorem keepsWorn_atNear (full : KeepsFull m) : KeepsWorn host hop (atNear other m) := by
  intro r worn
  rw [atNear,wp_zoom]
  by_cases same : hop = other
  · subst same
    rcases worn with near | far
    · refine (full _ near).stops (fun _ t h => ?_) (fun t h => ?_) <;>
        exact .inl (by rw [Roles.setWire_wire]; exact h)
    · exact wp_always fun t => .inr (by rw [Roles.setWire_wire]; exact far)
  · exact wp_always fun t => by rw [Roles.setWire_other _ same]; exact worn

theorem keepsWorn_atFar (full : KeepsFull m) : KeepsWorn host hop (atFar other m) := by
  intro r worn
  rw [atFar,wp_zoom]
  by_cases same : hop = other
  · subst same
    rcases worn with near | far
    · exact wp_always fun t => .inl (by rw [Roles.setWire_wire]; exact near)
    · refine (full _ far).stops (fun _ t h => ?_) (fun t h => ?_) <;>
        exact .inr (by rw [Roles.setWire_wire]; exact h)
  · exact wp_always fun t => by rw [Roles.setWire_other _ same]; exact worn

theorem keepsWorn_lost (other : Hop) : KeepsWorn host hop (lost out other) := by
  cases other with
  | parser => exact keepsWorn_modify fun _ => rfl
  | plan => exact keepsWorn_modify fun _ => rfl
  | apply => exact keepsWorn_onApply _

theorem keepsWorn_quit (other : Hop) : KeepsWorn host hop (quit other) := by
  cases other <;> exact keepsWorn_modify fun _ => rfl

section ends

/-! What the ends of a channel, its server and the server's leaving keep survives a call. -/

variable {I : Roles → Prop}
  (near : ∀ {α : Type} {m : ChannelState.Op α}, KeepsFull m → Keeps host I (atNear other m))
  (far : ∀ {α : Type} {m : ChannelState.Op α}, KeepsFull m → Keeps host I (atFar other m))
  (quits : Keeps host I (quit other))

include near far quits

theorem keeps_respond (resp : Bytes) : Keeps host I (respond other resp) := by
  refine (far (encode_full _ _)).attempt.bind fun r => ?_
  cases r with
  | error e => exact quits.bind fun _ => Keeps.throw _
  | ok raw => exact (near (decode_full raw)).mapError.bind fun _ => (Keeps.require _).bind fun _ => Keeps.pure _

theorem keeps_request (loses : Keeps host I (lost out other)) (serves : ∀ req, Keeps host I (serve req))
    (payload : Bytes) : Keeps host I (request out other serve payload) := by
  refine (near (encode_full _ _)).mapError.bind fun raw => Keeps.get.bind fun _ =>
    (Keeps.require _).bind fun _ => (far (decode_full raw)).attempt.bind fun r => ?_
  cases r with
  | error e => exact loses.bind fun _ => Keeps.throw _
  | ok frame =>
    simp only
    split
    · exact (serves _).bind fun resp => keeps_respond near far quits resp
    · exact loses.bind fun _ => Keeps.throw _

end ends

theorem keepsWorn_respond (other : Hop) (resp : Bytes) : KeepsWorn host hop (respond other resp) :=
  keeps_respond keepsWorn_atNear keepsWorn_atFar (keepsWorn_quit other) resp

theorem keepsWorn_request (serves : ∀ req, KeepsWorn host hop (serve req)) (payload : Bytes) :
    KeepsWorn host hop (request out other serve payload) :=
  keeps_request keepsWorn_atNear keepsWorn_atFar (keepsWorn_quit other) (keepsWorn_lost other) serves payload

theorem keepsWorn_toApplyRole (reopen : RS Store) (payload : Bytes) : KeepsWorn host hop (toApplyRole out reopen payload) :=
  keepsWorn_request (fun _ => keepsWorn_onApply _) payload

/-- What depends on neither the apply role nor the channel to it survives a call. -/
theorem keeps_toApply {I : Roles → Prop} (wires : ∀ r w, I r → I (r.setWire .apply w))
    (inside : ∀ r a, I r → I { r with apply := a }) (payload : Bytes) :
    Keeps host I (toApply out payload) := by
  have within {α : Type} (m : AP α) : Keeps host I (onApply m) := Keeps.zoom _ fun _ _ h => inside _ _ h
  exact keeps_request (fun _ => Keeps.zoom _ fun _ _ h => wires _ _ h)
    (fun _ => Keeps.zoom _ fun _ _ h => wires _ _ h) (Keeps.modify fun _ h => inside _ _ h) (within _)
    (fun _ => within _) payload

/-- What the network role's programs are made of, with `call` behind it on one side and `other` on the
other. What the peer says satisfies `P`; `R` relates the two sides, `R True` once a file has begun. -/
structure RelaySteps (host : Host) (out : Outside) (Worn : Roles → Prop) (P : Bytes → Prop)
    (R : Prop → Roles → Roles → Prop) (F : Roles → Roles → Prop) (call other : Bytes → RP Bytes) : Prop where
  conn : ∀ b s t, R b s t → s.conn = t.conn
  ended : ∀ b s t, R b s t → F s t
  weaken : ∀ b s t, R True s t → R b s t
  hear : ∀ b, Steady host Worn (R b) (fun raw s t => P raw ∧ R b s t) F (onSession Conn.recvData) (onSession Conn.recvData)
  recv : ∀ b, Steady host Worn (R b) (fun raw s t => P raw ∧ R b s t) F (aborting call (onSession Conn.recvData))
    (aborting other (onSession Conn.recvData))
  send : ∀ b raw, Steady host Worn (R b) (fun _ => R b) F (onSession (Conn.sendData raw)) (onSession (Conn.sendData raw))
  report : ∀ b e, Steady host Worn (R b) (fun _ => F) F (onSession (Conn.report out e)) (onSession (Conn.report out e))
  ask : ∀ b p, (p.head? = some msgFileEnd → b) →
    Steady host Worn (fun s t => P p ∧ R b s t) (fun _ => R b) F (call p) (other p)
  start : ∀ b p, p.head? = some msgFileBegin →
    Steady host Worn (fun s t => P p ∧ R b s t) (fun _ => R True) F (call p) (other p)

namespace RelaySteps

variable {Worn : Roles → Prop} {P : Bytes → Prop} {R : Prop → Roles → Roles → Prop} {F : Roles → Roles → Prop}
  {call other : Bytes → RP Bytes} (steps : RelaySteps host out Worn P R F call other) {b : Prop}

include steps

theorem netReport (e : Fault) {S : α → Roles → Roles → Prop} :
    Steady host Worn (R b) S F (netReport out e : RP α) (netReport out e) :=
  (steps.report b e).bind fun _ => .throw e fun _ _ => id

theorem heed (resp : Bytes) : Steady host Worn (R b) (fun _ => R b) F (heed out resp) (heed out resp) :=
  .when (.ofExcept_bind (steps.ended b) fun _ => .when (steps.netReport _))

/-- Once a file has begun, whatever the peer says. -/
theorem relayChunks (size : UInt64) (n : Nat) (offset : UInt64) : Steady host Worn (R True) (fun _ => R True) F
    (relayChunks out call size n offset) (relayChunks out other size n offset) := by
  induction n generalizing offset with
  | zero => exact .pure ()
  | succ n ih =>
    refine .when ((steps.recv True).bind fun chunk => ?_)
    split
    · exact (steps.netReport _).mono (fun _ _ => And.right) fun _ _ _ => id
    · refine (steps.ask True chunk fun _ => trivial).bind fun resp => ?_
      split
      · exact .ofExcept_bind (steps.ended True) ih
      · exact (steps.heed resp).bind fun _ => .ofExcept_bind (steps.ended True) fun c => ih _

theorem relayEnd : Steady host Worn (R True) (fun _ => R True) F (relayEnd out call) (relayEnd out other) :=
  (steps.recv True).bind fun raw => (steps.ask True raw fun _ => trivial).bind steps.heed

theorem relayBody (raw ack : Bytes) : Steady host Worn (R True) (fun _ => R True) F (relayBody out call raw ack)
    (relayBody out other raw ack) := by
  refine .ofExcept_bind (steps.ended True) fun b => .ofExcept_bind (steps.ended True) fun offset => ?_
  have rest (n : Nat) := (steps.relayChunks b.size n offset).bind fun _ => steps.relayEnd
  -- both sides count what their client may still say
  refine ⟨Keeps.get.bind fun r => (rest _).stays,fun s t agrees => Lockstep.left_run rfl (Lockstep.right_run rfl ?_)⟩
  rw [steps.conn True s t agrees]
  exact (rest _).pair s t agrees

/-- The first thing said about a file is not its end. -/
theorem relayFile (raw : Bytes) : Steady host Worn (fun s t => P raw ∧ R b s t) (fun _ => R b) F
    (relayFile out call raw) (relayFile out other raw) := by
  unfold RemoteSync.relayFile
  split_ifs with file start
  · exact (steps.ask b raw fun h => absurd (file.symm.trans h) (by decide)).bind steps.heed
  · refine (steps.start b raw start).bind fun ack => (steps.send True ack).bind fun _ => ?_
    exact (steps.relayBody raw ack).mono (fun _ _ => id) fun _ => steps.weaken b
  · exact (steps.netReport _).mono (fun _ _ => And.right) fun _ _ _ => id

theorem relayFiles (n : Nat) :
    Steady host Worn (R b) (fun _ => R b) F (relayFiles out call n) (relayFiles out other n) := by
  induction n with
  | zero => exact .pure ()
  | succ n ih => exact (steps.recv b).bind fun raw => (steps.relayFile raw).bind fun _ => ih

theorem relayCommit : Steady host Worn (R b) (fun _ => R b) F (relayCommit call) (relayCommit other) := by
  refine (steps.hear b).bind fun raw => .guarded (fun s t h => steps.ended b s t h.2) fun commit => ?_
  refine (steps.ask b raw fun h => ?_).bind fun resp => steps.send b resp
  rw [commit] at h
  exact absurd h (by decide)

theorem viaApplyIPC : Steady host Worn (R b) (fun _ => R b) F (viaApplyIPC out call) (viaApplyIPC out other) := by
  unfold RemoteSync.viaApplyIPC relayManifest
  rw [bind_bind,bind_bind]
  refine (steps.hear b).bind fun raw => ?_
  rw [bind_bind,bind_bind]
  refine .guarded (fun s t h => steps.ended b s t h.2) fun manifest => ?_
  change Steady host Worn _ _ F (call raw >>= _) (other raw >>= _)
  refine (steps.ask b raw fun h => absurd (manifest.symm.trans h) (by decide)).bind fun resp => ?_
  refine (steps.send b resp).bind fun _ => .ofExcept_bind (steps.ended b) fun entries => ?_
  exact (steps.relayFiles _).bind fun _ => steps.relayCommit

end RelaySteps

section network

variable {I : Roles → Prop} {call : Bytes → RP Bytes}
  (talks : ∀ {α : Type} (m : CP α), Keeps host I (onSession m))
  (calls : ∀ payload, Keeps host I (call payload))

include talks calls

/-! What survives the network role's own session and its calls survives all it does. -/

theorem relaySteps_keeps : RelaySteps host out (fun _ => False) (fun _ => True) (fun _ s t => s = t ∧ I s)
    (fun s t => s = t ∧ I s) call call where
  conn _ s t h := by rw [h.1]
  ended _ _ _ := id
  weaken _ _ _ := id
  hear _ := (steady_keeps.mpr (talks _)).mono (fun _ _ => id) fun _ _ _ => .intro trivial
  recv _ := (steady_keeps.mpr ((talks _).onError ((calls _).bind fun _ => Keeps.pure _))).mono (fun _ _ => id)
    fun _ _ _ => .intro trivial
  send _ _ := steady_keeps.mpr (talks _)
  report _ _ := steady_keeps.mpr (talks _)
  ask _ p _ := (steady_keeps.mpr (calls p)).mono (fun _ _ => And.right) fun _ _ _ => id
  start _ p _ := (steady_keeps.mpr (calls p)).mono (fun _ _ => And.right) fun _ _ _ => id

theorem keeps_relayFiles (n : Nat) : Keeps host I (relayFiles out call n) :=
  steady_keeps.mp ((relaySteps_keeps talks calls).relayFiles (b := True) n)

theorem keeps_relayCommit : Keeps host I (relayCommit call) :=
  (talks _).bind fun raw => (Keeps.require _).bind fun _ => (calls raw).bind fun _ => talks _

theorem keeps_viaApplyIPC : Keeps host I (viaApplyIPC out call) :=
  steady_keeps.mp ((relaySteps_keeps talks calls).viaApplyIPC (b := True))

end network

end calls

end Integris.RemoteSync
