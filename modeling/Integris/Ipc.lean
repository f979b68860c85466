import Integris.Authority
import Mathlib.Tactic.Simps.Basic

/-! The bounded local IPC channel of `internal/ipc`: role-bound, sequenced frames with an
HMAC trailer. Each end keeps its own state; both `Encode` and `Decode` are translated
with every check in the order of the source. -/
namespace Integris.Ipc

open Crypto Prog

/-- The two dimensions of `resource.Limits` that IPC admits against. -/
structure Limits where
  maxBytes : Nat
  maxQueueDepth : Nat

def defaultLimits : Limits := ⟨16 * 2 ^ 20, 1024⟩

/-- `resource.Error` as its text. -/
def refusal (kind : String) (limit request : Nat) (message : String) : String :=
  kind ++ ": " ++ message ++ " (limit=" ++ toString limit ++ " request=" ++ toString request ++ ")"

/-- The shape `AdmitBytes` and `AdmitQueue` share: a zero limit is a misconfiguration. -/
def budget (kind unset exceeded : String) (limit n : Nat) : Except String Unit := do
  demand (limit ≠ 0) (refusal kind 0 n unset)
  demand (n ≤ limit) (refusal kind limit n exceeded)

def Limits.admitBytes (l : Limits) : Nat → Except String Unit :=
  budget "bytes" "MaxBytes not configured" "byte budget exceeded" l.maxBytes

def Limits.admitQueue (l : Limits) : Nat → Except String Unit :=
  budget "queue" "MaxQueueDepth not configured" "queue budget exceeded" l.maxQueueDepth

theorem budget_ok {kind unset exceeded : String} {limit n : Nat} :
    budget kind unset exceeded limit n = .ok () ↔ limit ≠ 0 ∧ n ≤ limit := by
  rw [budget,demand_bind_ok,demand_ok]

def protocolVersion : Nat := 1
def maxFrameBytes : Nat := 2 ^ 20
def maxQueueDepth : Nat := 1024
def headerBytes : Nat := 44
def macBytes : Nat := 32
def frameMagic : Bytes := ascii "INTIPC01"

/-- A code outside the four is carried as it is; only `critical` is refused for its type. -/
inductive MessageType where
  | request
  | response
  | close
  | critical
  | unknown (code : Nat)
  deriving DecidableEq

def MessageType.code : MessageType → Nat
  | request => 1
  | response => 2
  | close => 3
  | critical => 4
  | unknown c => c

def MessageType.ofCode : Nat → MessageType
  | 1 => request
  | 2 => response
  | 3 => close
  | 4 => critical
  | c => unknown c

def MessageType.known : MessageType → Bool
  | unknown _ => false
  | _ => true

def roleCode : ProcessRole → Nat
  | .supervisor => 1
  | .net => 2
  | .auth => 3
  | .parser => 4
  | .index => 5
  | .plan => 6
  | .apply => 7
  | .journal => 8
  | .audit => 9
  | .other .. => 0

def roleFromCode : Nat → ProcessRole
  | 1 => .supervisor
  | 2 => .net
  | 3 => .auth
  | 4 => .parser
  | 5 => .index
  | 6 => .plan
  | 7 => .apply
  | 8 => .journal
  | 9 => .audit
  | _ => .nobody

structure Frame where
  version : Nat
  typ : MessageType
  sessionNonce : Fixed 16
  sequence : Nat
  sender : ProcessRole
  receiver : ProcessRole
  payload : Bytes

structure Error where
  code : String
  message : String
  close : Bool
  deriving DecidableEq

def Error.text (e : Error) : String := e.code ++ ": " ++ e.message

structure ChannelState where
  localRole : ProcessRole
  remoteRole : ProcessRole
  sessionNonce : Fixed 16
  nextSendSeq : Nat := 1
  lastRecvSeq : Nat := 0
  maxFrame : Nat := maxFrameBytes
  maxQueue : Nat := maxQueueDepth
  queueDepth : Nat := 0
  closed : Bool := false
  macKey : Bytes := []

def newChannel (localRole remoteRole : ProcessRole) (nonce : Fixed 16) : ChannelState :=
  { localRole := localRole, remoteRole := remoteRole, sessionNonce := nonce }

def newAuthenticatedChannel (localRole remoteRole : ProcessRole) (nonce : Fixed 16)
    (macKey : Bytes) : Except Error ChannelState := do
  demand (16 ≤ macKey.length) ⟨"mac", "MAC key must be at least 16 bytes", false⟩
  .ok { newChannel localRole remoteRole nonce with macKey := macKey }

namespace ChannelState

abbrev Op := Prog Unit ChannelState Error

def macLen (ch : ChannelState) : Nat := if ch.macKey ≠ [] then macBytes else 0

def header (ch : ChannelState) (typ : MessageType) (seq : Nat) (payload : Bytes) : Bytes :=
  frameMagic ++ leBytes 2 protocolVersion ++ leBytes 2 typ.code ++ ch.sessionNonce.val ++
    leBytes 8 seq ++ leBytes 2 (roleCode ch.localRole) ++ leBytes 2 (roleCode ch.remoteRole) ++
    leBytes 4 payload.length

/-- The authenticator, if the channel has a key. -/
def tag (ch : ChannelState) (body : Bytes) : Bytes :=
  if ch.macKey ≠ [] then hmacSHA256 ch.macKey body else []

def encode (typ : MessageType) (payload : Bytes) : Op Bytes := do
  let ch ← get
  require (¬ch.closed) ⟨"closed", "channel closed", true⟩
  require typ.known ⟨"type", "invalid message type", true⟩
  require (payload.length ≤ ch.maxFrame) ⟨"limit", "payload exceeds MaxFrame", true⟩
  let limits : Limits := ⟨ch.maxFrame + headerBytes + macBytes, ch.maxQueue⟩
  mapError (⟨"limit", ·, true⟩) (ofExcept
    (limits.admitBytes (headerBytes + payload.length + ch.macLen)))
  let body := ch.header typ ch.nextSendSeq payload ++ payload
  modify fun ch => { ch with nextSendSeq := (ch.nextSendSeq + 1) % 2 ^ 64 }
  when (typ = .close) (modify fun ch => { ch with closed := true })
  pure (body ++ ch.tag body)

/-- A wrong authenticator closes the channel. -/
def verify (raw : Bytes) (payLen : Nat) : Op Unit := do
  let ch ← get
  when (ch.macKey ≠ [] ∧ raw.drop (raw.length - macBytes) ≠
      hmacSHA256 ch.macKey (raw.take (headerBytes + payLen))) do
    modify fun ch => { ch with closed := true }
    throw ⟨"mac", "HMAC verification failed", true⟩

def decode (raw : Bytes) : Op Frame := do
  let ch ← get
  require (¬ch.closed) ⟨"closed", "channel closed", true⟩
  require (headerBytes + ch.macLen ≤ raw.length) ⟨"trunc", "frame too short", true⟩
  require (slice raw 0 8 = frameMagic) ⟨"magic", "bad frame magic", true⟩
  let ver := leNat (slice raw 8 10)
  require (ver = protocolVersion) ⟨"version", "unsupported version " ++ toString ver, true⟩
  let typ := MessageType.ofCode (leNat (slice raw 10 12))
  let nonce := Fixed.ofBytes 16 (slice raw 12 28)
  require (nonce = ch.sessionNonce) ⟨"nonce", "session nonce mismatch", true⟩
  let seq := leNat (slice raw 28 36)
  let sender := roleFromCode (leNat (slice raw 36 38))
  let receiver := roleFromCode (leNat (slice raw 38 40))
  let payLen := leNat (slice raw 40 44)
  require (headerBytes + payLen + ch.macLen = raw.length) ⟨"length", "length mismatch", true⟩
  require (payLen ≤ ch.maxFrame) ⟨"limit", "frame exceeds MaxFrame", true⟩
  verify raw payLen
  require (sender = ch.remoteRole ∧ receiver = ch.localRole) ⟨"role", "peer role mismatch", true⟩
  let next := (ch.lastRecvSeq + 1) % 2 ^ 64
  require (seq = next)
    ⟨"sequence", "expected " ++ toString next ++ " got " ++ toString seq, true⟩
  mapError (fun _ => ⟨"queue", "queue depth exceeded", true⟩) (ofExcept
    (defaultLimits.admitQueue ((ch.queueDepth + 1) % 2 ^ 64)))
  when (typ = .critical) do
    modify fun ch => { ch with closed := true }
    throw ⟨"critical", "unknown critical message", true⟩
  modify fun ch => { ch with lastRecvSeq := seq, queueDepth := (ch.queueDepth + 1) % 2 ^ 64 }
  when (typ = .close) (modify fun ch => { ch with closed := true })
  pure {
    version := ver, typ := typ, sessionNonce := nonce, sequence := seq
    sender := sender, receiver := receiver
    payload := slice raw headerBytes (headerBytes + payLen) }

/-- The header is whole, of this protocol and session, and its length is right. -/
structure Framed (ch : ChannelState) (raw : Bytes) : Prop where
  long : headerBytes + ch.macLen ≤ raw.length
  magic : slice raw 0 8 = frameMagic
  version : leNat (slice raw 8 10) = protocolVersion
  nonce : Fixed.ofBytes 16 (slice raw 12 28) = ch.sessionNonce
  length : headerBytes + leNat (slice raw 40 44) + ch.macLen = raw.length
  limit : leNat (slice raw 40 44) ≤ ch.maxFrame

def Sealed (ch : ChannelState) (raw : Bytes) : Prop :=
  ch.macKey = [] ∨ raw.drop (raw.length - macBytes) =
    hmacSHA256 ch.macKey (raw.take (headerBytes + leNat (slice raw 40 44)))

/-- From the peer to this end, next in sequence, with room in the queue. -/
structure Expected (ch : ChannelState) (raw : Bytes) : Prop where
  sender : roleFromCode (leNat (slice raw 36 38)) = ch.remoteRole
  receiver : roleFromCode (leNat (slice raw 38 40)) = ch.localRole
  sequence : leNat (slice raw 28 36) = (ch.lastRecvSeq + 1) % 2 ^ 64
  queue : (ch.queueDepth + 1) % 2 ^ 64 ≤ maxQueueDepth

def typOf (raw : Bytes) : MessageType := .ofCode (leNat (slice raw 10 12))

def frameOf (raw : Bytes) : Frame where
  version := leNat (slice raw 8 10)
  typ := typOf raw
  sessionNonce := Fixed.ofBytes 16 (slice raw 12 28)
  sequence := leNat (slice raw 28 36)
  sender := roleFromCode (leNat (slice raw 36 38))
  receiver := roleFromCode (leNat (slice raw 38 40))
  payload := slice raw headerBytes (headerBytes + leNat (slice raw 40 44))

structure Accepts (ch : ChannelState) (raw : Bytes) : Prop where
  live : ch.closed = false
  framed : ch.Framed raw
  authentic : ch.Sealed raw
  expected : ch.Expected raw
  ordinary : typOf raw ≠ .critical

/-- The two refusals after which the channel is closed, and a channel closed before. -/
inductive Shuts (ch : ChannelState) (raw : Bytes) : Prop where
  | closed (closed : ch.closed = true)
  | forged (framed : ch.Framed raw) (forged : ¬ch.Sealed raw)
  | critical (framed : ch.Framed raw) (authentic : ch.Sealed raw) (expected : ch.Expected raw)
      (typ : typOf raw = .critical)

/-- The channel after one more frame. -/
@[simps]
def received (ch : ChannelState) (raw : Bytes) : ChannelState :=
  { ch with
    lastRecvSeq := leNat (slice raw 28 36)
    queueDepth := (ch.queueDepth + 1) % 2 ^ 64
    closed := typOf raw = .close }

/-- A refusal closes the channel or leaves it exactly as it was. -/
def Refused (ch : ChannelState) (raw : Bytes) (t : ChannelState) : Prop :=
  (ch.Shuts raw ∧ t = { ch with closed := true }) ∨ (¬ch.Shuts raw ∧ t = ch)

variable {ch : ChannelState} {typ : MessageType} {a b : ChannelState} {payload raw : Bytes}

theorem refused_unframed {raw : Bytes} (live : ch.closed = false) (bad : ¬ch.Framed raw) : ch.Refused raw ch := by
  refine .inr ⟨fun shuts => ?_,rfl⟩
  cases shuts with
  | closed closed => rw [live] at closed; cases closed
  | forged framed => exact bad framed
  | critical framed => exact bad framed

theorem refused_unexpected {raw : Bytes} (live : ch.closed = false)
    (authentic : ch.Sealed raw) (bad : ¬ch.Expected raw) : ch.Refused raw ch := by
  refine .inr ⟨fun shuts => ?_,rfl⟩
  cases shuts with
  | closed closed => rw [live] at closed; cases closed
  | forged _ forged => exact forged authentic
  | critical _ _ expected => exact bad expected

theorem verify_ends (ch : ChannelState) (raw : Bytes) :
    wp (verify raw (leNat (slice raw 40 44))) () ch (fun _ t => ch.Sealed raw ∧ t = ch)
      (fun e t => e.close = true ∧ ¬ch.Sealed raw ∧ t = { ch with closed := true })
      (fun _ => False) := by
  simp only [verify,wp_bind,wp_get,wp_when,wp_modify,wp_throw]
  refine ⟨fun wrong => ⟨trivial,?_,trivial⟩,fun right => ⟨?_,trivial⟩⟩
  · rintro (none_ | same)
    · exact wrong.1 none_
    · exact wrong.2 same
  · by_cases keyed : ch.macKey = []
    · exact .inl keyed
    · exact .inr (by_contra fun other => right ⟨keyed,other⟩)

theorem decode_ends (ch : ChannelState) (raw : Bytes) : wp (decode raw) () ch
    (fun f t => ch.Accepts raw ∧ f = frameOf raw ∧ t = ch.received raw)
    (fun e t => e.close = true ∧ ¬ch.Accepts raw ∧ ch.Refused raw t) (fun _ => False) := by
  simp only [decode,wp_bind,wp_get,wp_require]
  refine ⟨fun live => ?_,fun closed => ?_⟩
  · have live : ch.closed = false := by simpa using live
    have unframed (bad : ¬ch.Framed raw) : True ∧ ¬ch.Accepts raw ∧ ch.Refused raw ch :=
      ⟨trivial,fun accepts => bad accepts.framed,refused_unframed live bad⟩
    refine ⟨fun long => ⟨fun magic => ⟨fun version => ⟨fun nonce => ⟨fun length => ⟨fun limit => ?_,
      fun h => unframed fun f => h f.limit⟩,fun h => unframed fun f => h f.length⟩,
      fun h => unframed fun f => h f.nonce⟩,fun h => unframed fun f => h f.version⟩,
      fun h => unframed fun f => h f.magic⟩,fun h => unframed fun f => h f.long⟩
    have framed : ch.Framed raw := ⟨long,magic,version,nonce,length,limit⟩
    refine (verify_ends ch raw).ends (fun _ t h => ?_) (fun e t h => ?_)
    · obtain ⟨authentic,rfl⟩ := h
      have unexpected (bad : ¬t.Expected raw) : True ∧ ¬t.Accepts raw ∧ t.Refused raw t :=
        ⟨trivial,fun accepts => bad accepts.expected,refused_unexpected live authentic bad⟩
      simp only [wp_mapError,wp_ofExcept,wp_when,wp_bind,wp_modify,wp_throw,wp_pure]
      refine ⟨fun roles => ⟨fun sequence => ⟨fun _ room => ⟨fun critical => ?_,fun ordinary => ?_⟩,
        fun e full => unexpected fun x => ?_⟩,fun h => unexpected fun x => h x.sequence⟩,
        fun h => unexpected fun x => h ⟨x.sender,x.receiver⟩⟩
      · have queue := (budget_ok.mp room).2
        exact ⟨trivial,fun accepts => accepts.ordinary critical,
          .inl ⟨.critical framed authentic ⟨roles.1,roles.2,sequence,queue⟩ critical,rfl⟩⟩
      · have queue := (budget_ok.mp room).2
        have accepts : t.Accepts raw := ⟨live,framed,authentic,⟨roles.1,roles.2,sequence,queue⟩,ordinary⟩
        refine ⟨fun close => ⟨accepts,rfl,?_⟩,fun open_ => ⟨accepts,rfl,?_⟩⟩
        · simp only [received,typOf,close,decide_true]
        · have other : ¬typOf raw = .close := open_
          simp only [received,other,decide_false,live]
      · have room : defaultLimits.admitQueue ((t.queueDepth + 1) % 2 ^ 64) = .ok () := budget_ok.mpr ⟨by decide,x.queue⟩
        cases room.symm.trans full
    · obtain ⟨marked,forged,rfl⟩ := h
      exact ⟨marked,fun accepts => forged accepts.authentic,.inl ⟨.forged framed forged,rfl⟩⟩
  · have closed : ch.closed = true := by simpa using closed
    refine ⟨trivial,fun accepts => ?_,.inl ⟨.closed closed,?_⟩⟩
    · rw [accepts.live] at closed
      cases closed
    · cases ch
      cases closed
      rfl

/-- The bytes `Encode` hands out. -/
def wire (ch : ChannelState) (typ : MessageType) (payload : Bytes) : Bytes :=
  ch.header typ ch.nextSendSeq payload ++ payload ++
    ch.tag (ch.header typ ch.nextSendSeq payload ++ payload)

@[simps]
def sent (ch : ChannelState) (typ : MessageType) : ChannelState :=
  { ch with nextSendSeq := (ch.nextSendSeq + 1) % 2 ^ 64, closed := typ = .close }

/-- `Encode` refuses a closed channel, an unknown type and a long payload, nothing else:
the byte budget is above every frame within the frame limit. -/
structure Sends (ch : ChannelState) (typ : MessageType) (payload : Bytes) : Prop where
  live : ch.closed = false
  known : typ.known = true
  small : payload.length ≤ ch.maxFrame

theorem encode_ends (ch : ChannelState) (typ : MessageType) (payload : Bytes) : wp (encode typ payload) () ch
      (fun raw t => ch.Sends typ payload ∧ raw = ch.wire typ payload ∧ t = ch.sent typ)
      (fun _ t => ¬ch.Sends typ payload ∧ t = ch) (fun _ => False) := by
  simp only [encode,wp_bind,wp_get,wp_require,wp_mapError,wp_ofExcept,wp_modify,wp_when,wp_pure]
  refine ⟨fun live => ⟨fun known => ⟨fun small => ⟨fun _ _ => ?_,fun e excess => ?_⟩,fun h => ?_⟩,
    fun h => ?_⟩,fun h => ?_⟩
  · have live : ch.closed = false := by simpa using live
    refine ⟨fun close => ⟨⟨live,known,small⟩,rfl,?_⟩,fun open_ => ⟨⟨live,known,small⟩,rfl,?_⟩⟩
    · simp [sent,close]
    · simp [sent,open_,live]
  · have fits : ch.macLen ≤ macBytes := by
      simp only [macLen]
      split <;> simp
    have room : Limits.admitBytes ⟨ch.maxFrame + headerBytes + macBytes,ch.maxQueue⟩
        (headerBytes + payload.length + ch.macLen) = .ok () :=
      budget_ok.mpr ⟨by simp [headerBytes],by simp only; omega⟩
    cases room.symm.trans excess
  · exact ⟨fun sends => h sends.small,trivial⟩
  · exact ⟨fun sends => h sends.known,trivial⟩
  · exact ⟨fun sends => h (by simp [sends.live]),trivial⟩

/-- A frame as the peer wrote it: every field at its offset, whatever follows the header. -/
structure Fields (ch : ChannelState) (typ : MessageType) (payload raw : Bytes) : Prop where
  magic : slice raw 0 8 = frameMagic
  version : slice raw 8 10 = leBytes 2 protocolVersion
  typ : slice raw 10 12 = leBytes 2 typ.code
  nonce : slice raw 12 28 = ch.sessionNonce.val
  sequence : slice raw 28 36 = leBytes 8 ch.nextSendSeq
  sender : slice raw 36 38 = leBytes 2 (roleCode ch.localRole)
  receiver : slice raw 38 40 = leBytes 2 (roleCode ch.remoteRole)
  length : slice raw 40 44 = leBytes 4 payload.length

theorem header_length (ch : ChannelState) (typ : MessageType) (seq : Nat) (payload : Bytes) :
    (ch.header typ seq payload).length = headerBytes := by
  have magic : frameMagic.length = 8 := by decide
  simp [header,magic,ch.sessionNonce.property,headerBytes]

theorem header_fields (ch : ChannelState) (typ : MessageType) (payload rest : Bytes) :
    ch.Fields typ payload (ch.header typ ch.nextSendSeq payload ++ rest) := by
  have magic : frameMagic.length = 8 := by decide
  constructor <;> simp [header,slice,List.drop_append,List.drop_eq_nil_of_le,magic,ch.sessionNonce.property]

theorem code_ofCode (c : Nat) : (MessageType.ofCode c).code = c := by
  unfold MessageType.ofCode
  split <;> rfl

/-- The code fits its field and is read back as the type. -/
structure Carried (typ : MessageType) : Prop where
  fits : typ.code < 256 ^ 2
  back : .ofCode typ.code = typ

theorem known_carried (known : typ.known = true) : Carried typ := by
  cases typ with
  | unknown c => cases known
  | _ => exact ⟨by decide,rfl⟩

theorem roleCode_lt (r : ProcessRole) : roleCode r < 256 ^ 2 := by
  cases r with
  | other => exact (by decide : 0 < 256 ^ 2)
  | _ => decide

/-- What a receiver reads out of the bytes an encoder produced. -/
structure Reads (ch : ChannelState) (typ : MessageType) (payload raw : Bytes) : Prop where
  size : raw.length = headerBytes + payload.length + ch.macLen
  magic : slice raw 0 8 = frameMagic
  version : leNat (slice raw 8 10) = protocolVersion
  kind : typOf raw = typ
  nonce : Fixed.ofBytes 16 (slice raw 12 28) = ch.sessionNonce
  sequence : leNat (slice raw 28 36) = ch.nextSendSeq
  sender : roleFromCode (leNat (slice raw 36 38)) = roleFromCode (roleCode ch.localRole)
  receiver : roleFromCode (leNat (slice raw 38 40)) = roleFromCode (roleCode ch.remoteRole)
  length : leNat (slice raw 40 44) = payload.length
  contents : slice raw headerBytes (headerBytes + payload.length) = payload
  body : raw.take (headerBytes + payload.length) =
    ch.header typ ch.nextSendSeq payload ++ payload
  trailer : raw.drop (headerBytes + payload.length) =
    ch.tag (ch.header typ ch.nextSendSeq payload ++ payload)

theorem tag_length (ch : ChannelState) (body : Bytes) : (ch.tag body).length = ch.macLen := by
  simp only [tag,macLen]
  split <;> simp [macBytes]

theorem wire_reads {payload : Bytes}
    (carried : Carried typ) (small : payload.length < 2 ^ 32) (seq : ch.nextSendSeq < 2 ^ 64) :
    ch.Reads typ payload (ch.wire typ payload) := by
  have head := ch.header_length typ ch.nextSendSeq payload
  have fields : ch.Fields typ payload (ch.wire typ payload) := by
    rw [wire,List.append_assoc]
    exact ch.header_fields typ payload _
  have body : (ch.header typ ch.nextSendSeq payload ++ payload).length =
      headerBytes + payload.length := by rw [List.length_append,head]
  constructor
  · rw [wire,List.length_append,body,tag_length]
  · exact fields.magic
  · rw [fields.version]
    exact leNat_leBytes_of_lt (by decide)
  · rw [typOf,fields.typ,leNat_leBytes_of_lt carried.fits,carried.back]
  · rw [fields.nonce,Fixed.ofBytes_of_val]
  · rw [fields.sequence,leNat_leBytes_of_lt seq]
  · rw [fields.sender,leNat_leBytes_of_lt (roleCode_lt _)]
  · rw [fields.receiver,leNat_leBytes_of_lt (roleCode_lt _)]
  · rw [fields.length,leNat_leBytes_of_lt small]
  · rw [wire,List.append_assoc,slice_append_right (by rw [head]),head,Nat.sub_self,Nat.add_sub_cancel_left]
    exact slice_append_left rfl _
  · exact List.take_left' body
  · exact List.drop_left' body

/-- Two ends of one channel. -/
structure Peers (a b : ChannelState) : Prop where
  out : b.remoteRole = a.localRole
  back : b.localRole = a.remoteRole
  nonce : b.sessionNonce = a.sessionNonce
  macKey : b.macKey = a.macKey
  maxFrame : b.maxFrame = a.maxFrame

theorem Peers.symm (h : Peers a b) : Peers b a := ⟨h.back.symm,h.out.symm,h.nonce.symm,h.macKey.symm,h.maxFrame.symm⟩

/-- The role survives its code: one of the nine, or nobody. -/
def Recognized (r : ProcessRole) : Prop := roleFromCode (roleCode r) = r

theorem Reads.framed (reads : a.Reads typ payload raw) (peers : Peers a b) (small : payload.length ≤ a.maxFrame) :
    b.Framed raw := by
  have same : b.macLen = a.macLen := by rw [macLen,macLen,peers.macKey]
  refine ⟨?_,reads.magic,reads.version,reads.nonce.trans peers.nonce.symm,?_,?_⟩
  · rw [reads.size,same]
    omega
  · rw [reads.length,reads.size,same]
  · rw [reads.length,peers.maxFrame]
    exact small

theorem Reads.authentic (reads : a.Reads typ payload raw) (key : b.macKey = a.macKey) : b.Sealed raw := by
  by_cases keyed : a.macKey = []
  · exact .inl (key.trans keyed)
  · have size : a.macLen = macBytes := if_pos keyed
    have last : raw.length - macBytes = headerBytes + payload.length := by
      rw [reads.size,size]
      omega
    refine .inr ?_
    rw [last,reads.trailer,reads.length,reads.body,key,tag,if_pos keyed]

end ChannelState

end Integris.Ipc
