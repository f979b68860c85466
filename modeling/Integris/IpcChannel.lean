import Integris.Ipc

/-! An IPC channel over its lifetime: how many frames it carries, and what a refused frame
leaves behind. The queue depth is raised by every accepted frame and lowered by nothing. -/
namespace Integris.Ipc

open Prog ChannelState

/-- Two open ends in step with each other, as `NewAuthenticatedChannel` makes them and
every delivery keeps them. -/
structure Endpoints (a b : ChannelState) : Prop where
  peers : Peers a b
  live : a.closed = false ∧ b.closed = false
  step : a.nextSendSeq = (b.lastRecvSeq + 1) % 2 ^ 64
  frame : a.maxFrame < 2 ^ 32
  queue : b.queueDepth ≤ maxQueueDepth

/-- A request or a response within the frame limit. -/
structure Ordinary (ch : ChannelState) (m : MessageType × Bytes) : Prop where
  typ : m.1 = .request ∨ m.1 = .response
  small : m.2.length ≤ ch.maxFrame

variable {ch : ChannelState} {m : MessageType × Bytes} {a b : ChannelState} {payload : Bytes}
  {typ : MessageType} {raw : Bytes}

theorem Ordinary.sends (ordinary : Ordinary ch m) (live : ch.closed = false) : ch.Sends m.1 m.2 := by
  refine ⟨live,?_,ordinary.small⟩
  rcases ordinary.typ with typ | typ <;> rw [typ] <;> rfl

theorem Ordinary.open_ (ordinary : Ordinary ch m) : m.1 ≠ .close ∧ m.1 ≠ .critical := by
  rcases ordinary.typ with typ | typ <;> rw [typ] <;> exact ⟨nofun,nofun⟩

theorem Endpoints.carries (ends : Endpoints a b) (carried : Carried typ) (small : payload.length ≤ a.maxFrame) :
    a.Reads typ payload (a.wire typ payload) := by
  have seq : a.nextSendSeq < 2 ^ 64 := by
    rw [ends.step]
    exact Nat.mod_lt _ (by decide)
  exact wire_reads carried (Nat.lt_of_le_of_lt small ends.frame) seq

theorem Endpoints.reads (ends : Endpoints a b) (sends : a.Sends typ payload) : a.Reads typ payload (a.wire typ payload) :=
  ends.carries (known_carried sends.known) sends.small

theorem Endpoints.depth (ends : Endpoints a b) : (b.queueDepth + 1) % 2 ^ 64 = b.queueDepth + 1 := by
  have queue := ends.queue
  simp only [maxQueueDepth] at queue
  exact Nat.mod_eq_of_lt (by omega)

/-- The one thing that stops a frame in step is the queue, if the roles have codes. -/
theorem Endpoints.expected_iff (ends : Endpoints a b) (reads : a.Reads typ payload raw) : b.Expected raw ↔
      (Recognized a.localRole ∧ Recognized a.remoteRole) ∧ b.queueDepth + 1 ≤ maxQueueDepth := by
  constructor
  · intro expected
    have room := expected.queue
    rw [ends.depth] at room
    refine ⟨⟨?_,?_⟩,room⟩
    · exact (reads.sender.symm.trans expected.sender).trans ends.peers.out
    · exact (reads.receiver.symm.trans expected.receiver).trans ends.peers.back
  · rintro ⟨⟨sender,receiver⟩,room⟩
    refine ⟨?_,?_,?_,by rw [ends.depth]; exact room⟩
    · exact (reads.sender.trans sender).trans ends.peers.out.symm
    · exact (reads.receiver.trans receiver).trans ends.peers.back.symm
    · exact reads.sequence.trans ends.step

theorem Endpoints.takes_iff (ends : Endpoints a b) (reads : a.Reads typ payload raw)
    (small : payload.length ≤ a.maxFrame) (ordinary : typ ≠ .critical) : b.Accepts raw ↔
      (Recognized a.localRole ∧ Recognized a.remoteRole) ∧ b.queueDepth + 1 ≤ maxQueueDepth := by
  rw [← ends.expected_iff reads]
  refine ⟨Accepts.expected,fun expected => ?_⟩
  exact ⟨ends.live.2,reads.framed ends.peers small,reads.authentic ends.peers.macKey,expected,by rwa [reads.kind]⟩

theorem Endpoints.accepts_iff (ends : Endpoints a b) (ordinary : Ordinary a m) : b.Accepts (a.wire m.1 m.2) ↔
      (Recognized a.localRole ∧ Recognized a.remoteRole) ∧ b.queueDepth + 1 ≤ maxQueueDepth :=
  ends.takes_iff (ends.reads (ordinary.sends ends.live.1)) ordinary.small ordinary.open_.2

theorem Endpoints.delivered (ends : Endpoints a b) (ordinary : Ordinary a m) (room : b.queueDepth + 1 ≤ maxQueueDepth) :
    Endpoints (a.sent m.1) (b.received (a.wire m.1 m.2)) := by
  have reads := ends.reads (ordinary.sends ends.live.1)
  refine ⟨⟨ends.peers.out,ends.peers.back,ends.peers.nonce,ends.peers.macKey,ends.peers.maxFrame⟩,⟨?_,?_⟩,?_,ends.frame,?_⟩
  · simp [sent,ordinary.open_.1]
  · simp [received,reads.kind,ordinary.open_.1]
  · simp only [sent,received,reads.sequence]
  · simp only [received,ends.depth]
    exact room

/-- Every message is accepted by the other end, in order and as it was sent. -/
def Delivered : List (MessageType × Bytes) → ChannelState → ChannelState → Prop
  | [], _, _ => True
  | m :: rest, a, b => ∃ raw a' f b', encode m.1 m.2 () a = (.ok raw, a') ∧
      decode raw () b = (.ok f, b') ∧ (f.typ, f.payload) = m ∧ Delivered rest a' b'

theorem encode_run (sends : ch.Sends typ payload) : encode typ payload () ch = (.ok (ch.wire typ payload),ch.sent typ) := by
  apply wp.run_eq
  refine (encode_ends ch typ payload).ends (fun _ _ h => h.2) (fun _ _ h => ?_)
  exact absurd sends h.1

theorem decode_run (accepts : ch.Accepts raw) : decode raw () ch = (.ok (frameOf raw),ch.received raw) := by
  apply wp.run_eq
  refine (decode_ends ch raw).ends (fun _ _ h => h.2) (fun _ _ h => ?_)
  exact absurd accepts h.2.1

theorem decode_ok {ch t : ChannelState} {f : Frame}
    (run : decode raw () ch = (.ok f,t)) : ch.Accepts raw ∧ f = frameOf raw ∧ t = ch.received raw :=
  (decode_ends ch raw).ok_of run

/-- The frame says what was sent, by whom and to whom. -/
structure Tells (a : ChannelState) (typ : MessageType) (payload : Bytes) (f : Frame) : Prop where
  sender : f.sender = a.localRole
  receiver : f.receiver = a.remoteRole
  typ : f.typ = typ
  payload : f.payload = payload

theorem ChannelState.Accepts.sender (accepts : ch.Accepts raw) : (frameOf raw).sender = ch.remoteRole :=
  accepts.expected.sender

theorem ChannelState.Accepts.receiver (accepts : ch.Accepts raw) : (frameOf raw).receiver = ch.localRole :=
  accepts.expected.receiver

theorem ChannelState.Reads.frame {a : ChannelState} {payload raw : Bytes}
    (reads : a.Reads typ payload raw) (la : Recognized a.localRole) (lb : Recognized a.remoteRole) :
    Tells a typ payload (frameOf raw) := by
  refine ⟨reads.sender.trans la,reads.receiver.trans lb,reads.kind,?_⟩
  simp only [frameOf,reads.length,reads.contents]

/-- One message at a time: the head is accepted and the ends stay in step. -/
theorem delivered_cons (ends : Endpoints a b)
    {rest : List (MessageType × Bytes)} (ordinary : Ordinary a m) : Delivered (m :: rest) a b ↔
      b.Accepts (a.wire m.1 m.2) ∧ Delivered rest (a.sent m.1) (b.received (a.wire m.1 m.2)) := by
  have sends := encode_run (ordinary.sends ends.live.1)
  have reads := ends.reads (ordinary.sends ends.live.1)
  constructor
  · rintro ⟨raw,a',f,b',encoded,decoded,-,more⟩
    cases sends.symm.trans encoded
    obtain ⟨accepts,-,rfl⟩ := decode_ok decoded
    exact ⟨accepts,more⟩
  · rintro ⟨accepts,more⟩
    refine ⟨_,_,_,_,sends,decode_run accepts,?_,more⟩
    simp only [frameOf,reads.kind,reads.length,reads.contents]

theorem delivered_count (ends : Endpoints a b) {msgs : List (MessageType × Bytes)} (ordinary : ∀ m ∈ msgs, Ordinary a m) :
    Delivered msgs a b ↔ msgs = [] ∨ (Recognized a.localRole ∧ Recognized a.remoteRole) ∧
      b.queueDepth + msgs.length ≤ maxQueueDepth := by
  induction msgs generalizing a b with
  | nil => simp [Delivered]
  | cons m rest ih =>
    have head : Ordinary a m := ordinary m (by simp)
    have tail (n) (member : n ∈ rest) : Ordinary (a.sent m.1) n := by
      have h := ordinary n (by simp [member])
      exact ⟨h.typ,h.small⟩
    have depth : (b.received (a.wire m.1 m.2)).queueDepth = b.queueDepth + 1 := ends.depth
    rw [delivered_cons ends head,ends.accepts_iff head]
    constructor
    · rintro ⟨⟨roles,room⟩,more⟩
      refine .inr ⟨roles,?_⟩
      rcases (ih (ends.delivered head room) tail).mp more with rfl | ⟨-,fits⟩
      · exact room
      · rw [depth] at fits
        simp only [List.length_cons]
        omega
    · rintro (empty | ⟨roles,fits⟩)
      · cases empty
      · simp only [List.length_cons] at fits
        have room : b.queueDepth + 1 ≤ maxQueueDepth := by omega
        refine ⟨⟨roles,room⟩,(ih (ends.delivered head room) tail).mpr (.inr ⟨roles,?_⟩)⟩
        rw [depth]
        omega

/-- Frames go through as long as both roles have codes and the lifetime total of accepted
frames stays within the queue depth. -/
theorem channel_delivers_iff (a b : ChannelState) (ends : Endpoints a b)
    (msgs : List (MessageType × Bytes)) (ordinary : ∀ m ∈ msgs, Ordinary a m) :
    Delivered msgs a b ↔ msgs = [] ∨ (Recognized a.localRole ∧ Recognized a.remoteRole) ∧
      b.queueDepth + msgs.length ≤ maxQueueDepth :=
  delivered_count ends ordinary

theorem newAuthenticatedChannel_ends {x y : ProcessRole} {nonce : Fixed 16} {key : Bytes}
    (left : newAuthenticatedChannel x y nonce key = .ok a)
    (right : newAuthenticatedChannel y x nonce key = .ok b) : Endpoints a b := by
  simp only [newAuthenticatedChannel,demand] at left right
  split at left
  · rename_i long
    simp only [if_pos long] at right
    cases left
    cases right
    exact ⟨⟨rfl,rfl,rfl,rfl,rfl⟩,⟨rfl,rfl⟩,rfl,by simp [newChannel,maxFrameBytes],Nat.zero_le _⟩
  · cases left

/-- The network and parser ends of one channel. -/
def networkEnd : ChannelState :=
  { newChannel .net .parser ⟨List.replicate 16 3,rfl⟩ with macKey := List.replicate 32 7 }

def parserEnd : ChannelState :=
  { newChannel .parser .net ⟨List.replicate 16 3,rfl⟩ with macKey := List.replicate 32 7 }

theorem networkEnd_made : newAuthenticatedChannel .net .parser ⟨List.replicate 16 3,rfl⟩
    (List.replicate 32 7) = .ok networkEnd := rfl

theorem parserEnd_made : newAuthenticatedChannel .parser .net ⟨List.replicate 16 3,rfl⟩
    (List.replicate 32 7) = .ok parserEnd := rfl

theorem sampleEnds : Endpoints networkEnd parserEnd := newAuthenticatedChannel_ends networkEnd_made parserEnd_made

theorem requests_ordinary (n : Nat) :
    ∀ m ∈ List.replicate n ((.request,[]) : MessageType × Bytes), Ordinary networkEnd m := by
  intro m member
  cases List.eq_of_mem_replicate member
  exact ⟨.inl rfl,Nat.zero_le _⟩

theorem channel_delivers_full : Recognized networkEnd.localRole ∧ Recognized networkEnd.remoteRole ∧
    Delivered (List.replicate 1024 (.request, [])) networkEnd parserEnd := by
  have roles : Recognized networkEnd.localRole ∧ Recognized networkEnd.remoteRole := ⟨rfl,rfl⟩
  refine ⟨roles.1,roles.2,?_⟩
  apply (channel_delivers_iff networkEnd parserEnd sampleEnds _ (requests_ordinary 1024)).mpr
  exact .inr ⟨roles,by rw [List.length_replicate]; decide⟩

/-- A fresh channel does not carry its 1025th empty request. -/
theorem channel_wears_out : Endpoints networkEnd parserEnd ∧
    (∀ m ∈ List.replicate 1025 ((.request, []) : MessageType × Bytes), Ordinary networkEnd m) ∧
    ¬Delivered (List.replicate 1025 (.request, [])) networkEnd parserEnd := by
  refine ⟨sampleEnds,requests_ordinary 1025,fun delivered => ?_⟩
  rcases (delivered_count sampleEnds (requests_ordinary 1025)).mp delivered with empty | ⟨-,room⟩
  · exact absurd (congrArg List.length empty) (by rw [List.length_replicate]; decide)
  · rw [List.length_replicate] at room
    exact absurd room (by decide)

inductive Call where
  | decode (raw : Bytes)
  | encode (typ : MessageType) (payload : Bytes)

def Call.Fails (ch : ChannelState) : Call → Prop
  | .decode raw => ∃ e t, ChannelState.decode raw () ch = (.error e, t)
  | .encode typ payload => ∃ e t, ChannelState.encode typ payload () ch = (.error e, t)

def Call.after (ch : ChannelState) : Call → ChannelState
  | .decode raw => (ChannelState.decode raw () ch).2
  | .encode typ payload => (ChannelState.encode typ payload () ch).2

theorem Call.closed_fails (closed : ch.closed = true) (call : Call) : call.Fails ch ∧ (call.after ch).closed = true := by
  cases call with
  | decode raw =>
    have ends := decode_ends ch raw
    simp only [Fails,after]
    rcases run : ChannelState.decode raw () ch with ⟨_ | _ | _,t⟩ <;> simp only [wp,run] at ends
    · exact absurd (closed.symm.trans ends.1.live) (by decide)
    · refine ⟨⟨_,_,rfl⟩,?_⟩
      rcases ends.2.2 with ⟨-,rfl⟩ | ⟨-,rfl⟩
      · rfl
      · exact closed
  | encode typ payload =>
    have ends := encode_ends ch typ payload
    simp only [Fails,after]
    rcases run : ChannelState.encode typ payload () ch with ⟨_ | _ | _,t⟩ <;> simp only [wp,run] at ends
    · exact absurd (closed.symm.trans ends.1.live) (by decide)
    · exact ⟨⟨_,_,rfl⟩,ends.2 ▸ closed⟩

theorem Call.closed_run (closed : ch.closed = true) (later : List Call) : (later.foldl Call.after ch).closed = true := by
  induction later generalizing ch with
  | nil => exact closed
  | cons call rest ih => exact ih (call.closed_fails closed).2

/-- A refusal ends the channel for good exactly when it shut it. -/
theorem refusal_final_iff (ch t : ChannelState) (raw : Bytes) (e : Error)
    (refused : decode raw () ch = (.error e, t)) : e.close = true ∧
      ((∀ (later : List Call) (call : Call), call.Fails (later.foldl Call.after t)) ↔
        ch.Shuts raw) := by
  have ends := decode_ends ch raw
  simp only [wp,refused] at ends
  refine ⟨ends.1,?_⟩
  rcases ends.2.2 with ⟨shuts,rfl⟩ | ⟨stays,rfl⟩
  · refine iff_of_true (fun later call => ?_) shuts
    exact (call.closed_fails (Call.closed_run rfl later)).1
  · refine iff_of_false (fun final => ?_) stays
    have live : t.closed = false := by
      rw [← Bool.not_eq_true]
      exact fun closed => stays (.closed closed)
    obtain ⟨_,_,failed⟩ := final [] (.encode .request [])
    have sends : t.Sends .request [] := ⟨live,rfl,Nat.zero_le _⟩
    cases (encode_run sends).symm.trans failed

theorem decode_refused (refused : ¬ch.Accepts raw) : ∃ e t, decode raw () ch = (.error e,t) := by
  have ends := decode_ends ch raw
  rcases run : decode raw () ch with ⟨_ | e | _,t⟩ <;> simp only [wp,run] at ends
  · exact absurd ends.1 refused
  · exact ⟨e,t,rfl⟩

theorem critical_shuts : parserEnd.Shuts (networkEnd.wire .critical []) := by
  have sends : networkEnd.Sends .critical [] := ⟨rfl,rfl,Nat.zero_le _⟩
  have reads := sampleEnds.reads sends
  refine .critical (reads.framed sampleEnds.peers (Nat.zero_le _)) (reads.authentic sampleEnds.peers.macKey) ?_ reads.kind
  exact (sampleEnds.expected_iff (sampleEnds.reads sends)).mpr ⟨⟨rfl,rfl⟩,by decide⟩

theorem refusal_final_critical : ∃ e t,
    decode (networkEnd.wire .critical []) () parserEnd = (.error e, t) ∧
    ∀ (later : List Call) (call : Call), call.Fails (later.foldl Call.after t) := by
  have sends : networkEnd.Sends .critical [] := ⟨rfl,rfl,Nat.zero_le _⟩
  have reads := sampleEnds.reads sends
  obtain ⟨e,t,run⟩ := decode_refused fun accepts => accepts.ordinary reads.kind
  exact ⟨e,t,run,(refusal_final_iff _ _ _ _ run).2.mpr critical_shuts⟩

/-- A frame that is no frame at all is refused with `Close` set, and the channel sends on. -/
theorem refused_channel_sends : decode [] () parserEnd =
      (.error ⟨"trunc", "frame too short", true⟩, parserEnd) ∧
    ∃ raw t, encode .request [] () parserEnd = (.ok raw, t) := by
  refine ⟨rfl,_,_,encode_run ⟨rfl,rfl,Nat.zero_le _⟩⟩

/-! Which byte strings the receiving end takes. -/

theorem roleFromCode_listed {c : Nat} {r : ProcessRole} (listed : r.listed) (same : roleFromCode c = r) :
    c = roleCode r := by
  unfold roleFromCode at same
  split at same <;> subst same
  all_goals first | rfl | cases listed

/-- The peer's next frame, with a type that is none of the four. -/
def Untyped (a : ChannelState) (raw : Bytes) : Prop :=
  ∃ code payload, code ∉ [1,2,3,4] ∧ code < 2 ^ 16 ∧ payload.length ≤ a.maxFrame ∧ raw = a.wire (.unknown code) payload

theorem Untyped.reads (ends : Endpoints a b) (h : Untyped a raw) :
    ∃ code payload, payload.length ≤ a.maxFrame ∧ a.Reads (.unknown code) payload raw := by
  obtain ⟨code,payload,other,fits,small,rfl⟩ := h
  refine ⟨code,payload,small,ends.carries ⟨fits,?_⟩ small⟩
  simp only [MessageType.code,MessageType.ofCode]
  split <;> simp_all

theorem Untyped.unsent (ends : Endpoints a b) (h : Untyped a raw) : ¬∃ typ payload t, encode typ payload () a = (.ok raw,t) := by
  obtain ⟨code,_,-,reads⟩ := h.reads ends
  rintro ⟨typ,payload,t,run⟩
  obtain ⟨sends,rfl,-⟩ := (encode_ends a _ _).ok_of run
  have known := sends.known
  rw [(ends.reads sends).kind.symm.trans reads.kind] at known
  cases known

theorem listed_recognized {r : ProcessRole} (listed : r.listed) : Recognized r := by
  cases r with
  | other => cases listed
  | _ => rfl

theorem listed_of_recognized {r : ProcessRole} (known : Recognized r) (named : r ≠ .nobody) : r.listed := by
  cases r with
  | other => exact absurd known.symm named
  | _ => rfl

theorem recognized_of_code {c : Nat} {r : ProcessRole} (same : roleFromCode c = r) : Recognized r := by
  unfold roleFromCode at same
  split at same <;> subst same <;> rfl

/-- Some call of this end makes these bytes. -/
def Sendable (a : ChannelState) (raw : Bytes) : Prop :=
  ∃ typ payload t, typ ∈ [.request,.response,.close] ∧ encode typ payload () a = (.ok raw,t)

theorem Untyped.accepted (ends : Endpoints a b) (roles : Recognized a.localRole ∧ Recognized a.remoteRole)
    (room : b.queueDepth < maxQueueDepth) (h : Untyped a raw) : b.Accepts raw := by
  obtain ⟨code,_,small,reads⟩ := h.reads ends
  exact (ends.takes_iff reads small (by simp)).mpr ⟨roles,room⟩

section exact

variable (ends : Endpoints a b) (la : a.localRole.listed) (lb : a.remoteRole.listed)
include ends la lb

/-- Each field of the header is pinned by some check, the type by none but its width. -/
theorem accepts_wire (keyed : b.macKey ≠ []) (accepts : b.Accepts raw) : Carried (typOf raw) ∧
    typOf raw ≠ .critical ∧ (frameOf raw).payload.length ≤ a.maxFrame ∧ raw = a.wire (typOf raw) (frameOf raw).payload := by
  obtain ⟨-,framed,authentic,expected,ordinary⟩ := accepts
  have size : b.macLen = macBytes := if_pos keyed
  have length := framed.length
  have long := framed.long
  rw [size] at length long
  simp only [headerBytes,macBytes] at length long
  have field (i j w : Nat) (inside : j ≤ 44) (width : j - i = w) :
      leBytes w (leNat (slice raw i j)) = slice raw i j := leBytes_slice (by omega) width
  have type : slice raw 10 12 = leBytes 2 (typOf raw).code := by rw [typOf,code_ofCode,field 10 12 2 (by decide) rfl]
  have fits := leNat_lt (slice raw 10 12)
  rw [slice_length (by omega)] at fits
  have payload : (frameOf raw).payload.length = leNat (slice raw 40 44) := by
    simp only [frameOf,headerBytes]
    rw [slice_length (by omega)]
    omega
  have header : a.header (typOf raw) a.nextSendSeq (frameOf raw).payload = slice raw 0 44 := by
    have nonce : (Fixed.ofBytes 16 (slice raw 12 28)).val = slice raw 12 28 := ofBytes_slice (by omega) rfl
    rw [ChannelState.header,← framed.magic,← framed.version,← type,← ends.peers.nonce,← framed.nonce,nonce,
      ends.step,← expected.sequence,← roleFromCode_listed la (expected.sender.trans ends.peers.out),
      ← roleFromCode_listed lb (expected.receiver.trans ends.peers.back),payload,field 8 10 2 (by decide) rfl,
      field 28 36 8 (by decide) rfl,field 36 38 2 (by decide) rfl,field 38 40 2 (by decide) rfl,
      field 40 44 4 (by decide) rfl]
    simp [slice_append_slice]
  have body : a.header (typOf raw) a.nextSendSeq (frameOf raw).payload ++ (frameOf raw).payload =
      raw.take (44 + leNat (slice raw 40 44)) := by
    rw [header]
    exact slice_append_slice (by omega) (by simp [headerBytes])
  refine ⟨⟨by rwa [typOf,code_ofCode],by rw [typOf,code_ofCode]⟩,ordinary,?_,?_⟩
  · rw [payload,← ends.peers.maxFrame]
    exact framed.limit
  · rw [wire,body,tag,← ends.peers.macKey,if_pos keyed]
    rcases authentic with none_ | same
    · exact absurd none_ keyed
    · have last : raw.length - macBytes = 44 + leNat (slice raw 40 44) := by simp only [macBytes]; omega
      rw [last] at same
      exact (List.take_append_drop _ raw).symm.trans (congrArg _ same)

end exact

/-- What is decoded is what the peer can send next, but for the types it cannot send and, if a role has
no code, all it can send. -/
theorem decode_exact_iff (ends : Endpoints a b) (named : a.localRole ≠ .nobody ∧ a.remoteRole ≠ .nobody)
    (keyed : b.macKey ≠ []) (room : b.queueDepth < maxQueueDepth) (raw : Bytes) :
    ((∃ f t, decode raw () b = (.ok f,t)) ↔ Sendable a raw) ↔
      (Sendable a raw → Recognized a.localRole ∧ Recognized a.remoteRole) ∧
        (Recognized a.localRole ∧ Recognized a.remoteRole → ¬Untyped a raw) := by
  have decodes : (∃ f t, decode raw () b = (.ok f,t)) ↔ b.Accepts raw :=
    ⟨fun h => (decode_ok h.choose_spec.choose_spec).1,fun h => ⟨_,_,decode_run h⟩⟩
  rw [decodes]
  by_cases roles : Recognized a.localRole ∧ Recognized a.remoteRole
  swap
  · have refused : ¬b.Accepts raw := fun accepts => roles ⟨ends.peers.out ▸ recognized_of_code accepts.expected.sender,
      ends.peers.back ▸ recognized_of_code accepts.expected.receiver⟩
    simp only [refused,roles,false_iff,imp_false,false_imp_iff,and_true]
  simp only [roles,implies_true,true_and,true_imp_iff]
  constructor
  · intro exact_ untyped
    obtain ⟨typ,payload,t,-,run⟩ := exact_.mp (untyped.accepted ends roles room)
    exact untyped.unsent ends ⟨typ,payload,t,run⟩
  · refine fun typed => ⟨fun accepts => ?_,?_⟩
    · obtain ⟨carried,ordinary,small,same⟩ := accepts_wire ends (listed_of_recognized roles.1 named.1)
        (listed_of_recognized roles.2 named.2) keyed accepts
      generalize typOf raw = typ at carried ordinary same
      have sent (mem : typ ∈ [.request,.response,.close]) (known : typ.known) : Sendable a raw :=
        ⟨typ,_,_,mem,(encode_run ⟨ends.live.1,known,small⟩).trans (by rw [← same])⟩
      cases typ with
      | critical => exact absurd rfl ordinary
      | unknown code =>
        refine absurd ⟨code,_,fun four => ?_,carried.fits,small,same⟩ typed
        have back := carried.back
        simp only [List.mem_cons,List.not_mem_nil,or_false] at four
        rcases four with rfl | rfl | rfl | rfl <;> cases back
      | _ => exact sent (by simp) rfl
    · rintro ⟨typ,payload,t,mem,run⟩
      obtain ⟨sends,rfl,-⟩ := (encode_ends a _ _).ok_of run
      refine (ends.takes_iff (ends.reads sends) sends.small ?_).mpr ⟨roles,room⟩
      rintro rfl
      simp at mem

theorem decode_exact_sample : ∃ f t, decode (networkEnd.wire .request []) () parserEnd = (.ok f,t) := by
  have sent : encode .request [] () networkEnd = _ := encode_run ⟨rfl,rfl,by simp⟩
  have roles : Recognized networkEnd.localRole ∧ Recognized networkEnd.remoteRole := ⟨rfl,rfl⟩
  refine ((decode_exact_iff sampleEnds (by decide) (by decide) (by decide) _).mpr ⟨fun _ => roles,fun _ untyped => ?_⟩).mpr
    ⟨.request,[],_,by simp,sent⟩
  exact untyped.unsent sampleEnds ⟨_,_,_,sent⟩

/-- A frame of type 5 is taken, though no call of the peer makes it. -/
theorem unsent_decoded : Endpoints networkEnd parserEnd ∧
    (∃ f t, decode (networkEnd.wire (.unknown 5) []) () parserEnd = (.ok f,t)) ∧
    ¬∃ typ payload t, encode typ payload () networkEnd = (.ok (networkEnd.wire (.unknown 5) []),t) := by
  have untyped : Untyped networkEnd (networkEnd.wire (.unknown 5) []) := ⟨5,[],by simp,by simp,by simp,rfl⟩
  exact ⟨sampleEnds,⟨_,_,decode_run (untyped.accepted sampleEnds ⟨rfl,rfl⟩ (by decide))⟩,untyped.unsent sampleEnds⟩

end Integris.Ipc
