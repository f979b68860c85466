import Integris.SessionSteps
import Integris.ChaCha20Poly1305

/-! Data frames at the receiving driver. The plaintext and the next chunk offset are
stored before the session is asked whether it takes the frame, so a frame that the
session refuses has already moved both. -/
namespace Integris.Driver

open Session Crypto Protocol Prog

variable {aead : Aead}

/-- A refused frame left no trace. -/
structure Untouched (d t : Driver) : Prop where
  recvSeq : t.recvSeq = d.recvSeq
  nextDataOffset : t.nextDataOffset = d.nextDataOffset
  lastPlaintext : t.lastPlaintext = d.lastPlaintext
  receiveSequence : t.session.receiveSequence = d.session.receiveSequence
  state : t.session.state = d.session.state ∨ t.session.state = .failed

theorem Rejected.untouched {d t : Driver} (h : Rejected d t) : Untouched d t := by
  obtain ⟨s,same | ⟨failed,grants⟩,rfl⟩ := h
  · exact ⟨rfl,rfl,rfl,by rw [same],.inl (by rw [same])⟩
  · exact ⟨rfl,rfl,rfl,grants.received,.inr failed⟩

variable {d : Driver} {p : Bytes × Nat}

theorem untouched_keep_iff : Untouched d (d.keep p) ↔ p = (d.lastPlaintext,d.nextDataOffset) := by
  refine ⟨fun h => Prod.ext h.lastPlaintext h.nextDataOffset,fun same => ?_⟩
  exact ⟨rfl,congrArg Prod.snd same,congrArg Prod.fst same,rfl,.inl rfl⟩

variable {f : Frame}

theorem handle_rejects (data : f.typ ≠ .data) (d : Driver) :
    wp (handle f) aead d (fun _ _ => True) (fun _ => Rejected d) (fun _ => False) := by
  refine wp_handle ?_ (rejected_kept d) fun _ _ => id
  by_cases auth : f.typ = .peerAuth
  · simp only [dispatch,auth]
    exact (handlePeerAuth_handles f.body d).imp (fun _ _ _ => trivial)
  · exact (dispatch_handles auth data d).imp (fun _ _ _ => trivial)

/-- A data frame is for this driver when nothing before its contents refuses it. -/
structure Addressed (d : Driver) (f : Frame) : Prop where
  data : f.typ = .data
  sessionID : f.sessionID = d.sessionID
  sequence : f.sequence = d.recvSeq

/-- The three ends of a data frame: accepted, refused unread, or stored and then refused. -/
theorem handle_data (data : f.typ = .data) : wp (handle f) aead d
    (fun _ t => ∃ p, Addressed d f ∧ d.carried aead f = some p ∧ d.session.Accepts ∧
      t = { d.keep p with session := d.session.counted, recvSeq := (d.recvSeq + 1) % 2 ^ 64 })
    (fun _ t => (t = d ∧ (Addressed d f → d.carried aead f = none)) ∨
      ∃ p, Addressed d f ∧ d.carried aead f = some p ∧ ¬d.session.Accepts ∧ t = d.keep p)
    (fun _ => False) := by
  have known : ¬criticalUnknown f.typ := by rw [data]; decide
  simp only [handle,wp_bind,wp_get,wp_require,wp_modify,dispatch,data]
  refine ⟨fun owner => ⟨fun sequence => ⟨fun _ => ?_,fun unknown => ?_⟩,fun other => ?_⟩,
    fun other => ?_⟩
  · have addressed : Addressed d f := ⟨data,owner,sequence⟩
    refine (handleData_ends d f).ends (fun _ t h => ?_) (fun _ t h => ?_)
    · obtain ⟨p,carries,accepts,rfl⟩ := h
      exact ⟨p,addressed,carries,accepts,rfl⟩
    · rcases h with ⟨none_,same⟩ | ⟨p,carries,full,same⟩
      · exact .inl ⟨same,fun _ => none_⟩
      · exact .inr ⟨p,addressed,carries,full,same⟩
  · rw [data] at known
    exact absurd known unknown
  · exact .inl ⟨trivial,fun addressed => absurd addressed.sequence other⟩
  · exact .inl ⟨trivial,fun addressed => absurd addressed.sessionID other⟩

theorem handle_late (addressed : Addressed d f) (carries : d.carried aead f = some p) (full : ¬d.session.Accepts) :
    ∃ e, handle f aead d = (.error e,d.keep p) := by
  have ends : wp (handle f) aead d _ _ _ := handle_data addressed.data
  simp only [wp] at ends
  rcases run : handle f aead d with ⟨_ | e | _,t⟩
  · rw [run] at ends
    obtain ⟨_,-,-,accepts,-⟩ := ends
    exact absurd accepts full
  · rw [run] at ends
    rcases ends with ⟨-,none_⟩ | ⟨q,-,reads,-,rfl⟩
    · rw [none_ addressed] at carries
      cases carries
    · rw [carries] at reads
      cases reads
      exact ⟨e,rfl⟩
  · rw [run] at ends
    exact ends.elim

theorem handle_refused : wp (handle f) aead d (fun _ _ => True)
    (fun _ t => Rejected d t ∨ ∃ p, Addressed d f ∧ d.carried aead f = some p ∧
      ¬d.session.Accepts ∧ t = d.keep p) (fun _ => False) := by
  by_cases data : f.typ = .data
  · refine (handle_data data).ends (fun _ _ _ => trivial) (fun _ t h => ?_)
    rcases h with ⟨rfl,-⟩ | late
    · exact .inl (rejected_kept _)
    · exact .inr late
  · exact (handle_rejects data d).ends (fun _ _ => id) (fun _ _ => .inl)

/-- A refused frame leaves no trace exactly when the session takes the data frames that
carry anything new: those for this driver that open, and continue the stream if chunks
are tracked. -/
theorem rejected_frame_traceless_iff (aead : Aead) (d : Driver) (f : Frame) :
    (∀ e t, handle f aead d = (.error e, t) → Untouched d t) ↔
      (Addressed d f → d.session.Accepts ∨
        ∀ p, d.carried aead f = some p → p = (d.lastPlaintext, d.nextDataOffset)) := by
  constructor
  · intro traceless addressed
    by_cases accepts : d.session.Accepts
    · exact .inl accepts
    · refine .inr fun p carries => ?_
      obtain ⟨e,run⟩ := handle_late addressed carries accepts
      exact untouched_keep_iff.mp (traceless e _ run)
  · intro quiet e t run
    have ends : wp (handle f) aead d _ _ _ := handle_refused
    simp only [wp,run] at ends
    rcases ends with rejected | ⟨p,addressed,carries,full,rfl⟩
    · exact rejected.untouched
    · rcases quiet addressed with accepts | known
      · exact absurd accepts full
      · exact untouched_keep_iff.mpr (known p carries)

/-- A driver that has not even negotiated, and a first chunk of one byte. -/
def earlyDriver : Driver :=
  { Driver.new [2, 3] (Fixed.zero 16) [] false with trackDataChunks := true }

def earlyChunk : Frame :=
  { typ := .data, sessionID := Fixed.zero 16, sequence := 1, flags := 0
    body := [0, 0, 0, 0, 0, 0, 0, 0, 1, 0, 0, 0, 120] }

/-- The chunk is refused, and yet the stream has moved past it. -/
theorem refused_chunk_moves_stream :
    (handle earlyChunk ChaCha20Poly1305.aead earlyDriver).1 =
      .error ⟨"state", "AcceptNext requires ACTIVE"⟩ ∧
    earlyDriver.nextDataOffset = 0 ∧
    (handle earlyChunk ChaCha20Poly1305.aead earlyDriver).2.nextDataOffset = 1 ∧
    (handle earlyChunk ChaCha20Poly1305.aead earlyDriver).2.lastPlaintext = [120] := by
  decide

def activeDriver : Driver :=
  { earlyDriver with session := { earlyDriver.session with state := .active } }

def gapChunk : Frame := { earlyChunk with body := [9, 0, 0, 0, 0, 0, 0, 0, 1, 0, 0, 0, 120] }

/-- An ACTIVE driver refuses a chunk that leaves a gap, and stays as it was. -/
theorem rejected_frame_traceless_sample :
    (handle gapChunk ChaCha20Poly1305.aead activeDriver).1 =
      .error ⟨"chunk", "gap offset 9 want 0"⟩ ∧
    Untouched activeDriver (handle gapChunk ChaCha20Poly1305.aead activeDriver).2 := by
  have refused : (handle gapChunk ChaCha20Poly1305.aead activeDriver).1 =
      .error ⟨"chunk", "gap offset 9 want 0"⟩ := by decide
  have accepts : activeDriver.session.Accepts := by decide
  exact ⟨refused,(rejected_frame_traceless_iff _ _ _).mpr (fun _ => .inl accepts) _ _
    (run_eq refused)⟩

end Integris.Driver

namespace Integris.ChunkStream

open Session Crypto Protocol Prog Driver

/-- One direction of a connection: what was emitted, the bytes sent so far and the
bytes the other end accepted. -/
structure Link where
  sender : Driver
  receiver : Driver
  wire : List Bytes := []
  sent : Bytes := []
  taken : Bytes := []

/-- The network delivers any frame it has seen, as often and as late as it likes. -/
inductive Event where
  | send (data : Bytes)
  | deliver (i : Nat)

def Link.step (aead : Aead) (l : Link) : Event → Link
  | .send data =>
    match encodeDataChunk data aead l.sender with
    | (.ok raw, d) => { l with sender := d, wire := l.wire ++ [raw], sent := l.sent ++ data }
    | (_, d) => { l with sender := d }
  | .deliver i =>
    match l.wire[i]? with
    | none => l
    | some raw =>
      match decodeAndHandle raw aead l.receiver with
      | (.ok _, d) => { l with receiver := d, taken := l.taken ++ d.lastPlaintext }
      | (_, d) => { l with receiver := d }

def Link.run (aead : Aead) (events : List Event) (l : Link) : Link := events.foldl (step aead) l

/-- Opening undoes sealing under a key and a nonce of the right sizes. -/
def Correct (aead : Aead) : Prop :=
  ∀ key nonce aad plaintext, key.length = aeadKeySize → nonce.length = aeadNonceSize →
    aead.decrypt key nonce aad (aead.encrypt key nonce aad plaintext) = some plaintext

/-- The frame holds this chunk for every driver with the same keys and session. -/
structure Conveys (aead : Aead) (macKey aeadKey raw : Bytes) (off : Nat) (data : Bytes)
    (f : Frame) : Prop where
  decoded : ∀ requireMAC, decode raw macKey requireMAC = .ok f
  typ : f.typ = .data
  opened : ∀ r : Driver, r.aeadKey = aeadKey → r.sessionID = f.sessionID →
    ∃ body, openData aead r f = .ok body ∧ parseDataChunkBody body = .ok (off, data)

variable {aead : Aead}

theorem openData_sealData (correct : Correct aead) {d r : Driver} {body sealed : Bytes}
    (run : sealData aead d .data body = .ok sealed) (key : r.aeadKey = d.aeadKey)
    (owner : r.sessionID = d.sessionID) (f : Frame) (sequence : f.sequence = d.sendSeq)
    (contents : f.body = sealed) : openData aead r f = .ok body := by
  have aad : r.dataAAD .data d.sendSeq = d.dataAAD .data d.sendSeq := by simp [dataAAD,owner]
  simp only [sealData,true_and] at run
  simp only [openData,key,sequence,contents,aad]
  split at run
  · rename_i keyed
    rw [if_pos keyed]
    split at run
    · cases run
    · rename_i ciphertext made
      cases run
      simp only [sealBody] at made
      split at made
      · cases made
      · rename_i keySize
        split at made
        · cases made
        · split at made
          · cases made
          · cases made
            have size : d.aeadKey.length = aeadKeySize := not_not.mp keySize
            have nonce := sequenceNonce_length d.sendSeq
            simp [openBody,size,nonce,correct _ _ _ _ size nonce]
  · rename_i bare
    rw [if_neg bare]
    exact run.symm

theorem encodeDataChunk_ok (correct : Correct aead) {d t : Driver} {data raw : Bytes}
    (keyed : d.macKey ≠ []) (fits : d.sendSeq < 2 ^ 64)
    (run : encodeDataChunk data aead d = (.ok raw,t)) :
    t = { d with sendSeq := (d.sendSeq + 1) % 2 ^ 64, nextSendOffset := d.nextSendOffset + data.length } ∧
    ∃ f, f.sessionID = d.sessionID ∧ f.sequence = d.sendSeq ∧
      Conveys aead d.macKey d.aeadKey raw d.nextSendOffset data f := by
  apply of_returned run
  simp only [encodeDataChunk,encodeFrame,wp_bind,wp_get,wp_ask,wp_ofExcept,wp_modify,wp_pure]
  refine ⟨fun body packed => ⟨fun sealed made => ⟨fun raw encoded => ?_,fun _ _ => trivial⟩,
    fun _ _ => trivial⟩,fun _ _ => trivial⟩
  obtain ⟨reads,room⟩ := parseDataChunkBody_encode packed
  obtain ⟨ok,long,rfl⟩ := (encode_ok_iff keyed).mp encoded
  refine ⟨by rw [Nat.mod_eq_of_lt room],(d.outbound .data sealed).stamped,rfl,rfl,?_,rfl,?_⟩
  · exact fun requireMAC => decode_wire long ok fits requireMAC
  · intro r key owner
    exact ⟨body,openData_sealData correct made key owner _ rfl rfl,reads⟩

theorem encodeDataChunk_returns {d : Driver} {data : Bytes} (keyed : d.macKey ≠ []) :
    (∃ raw t, encodeDataChunk data aead d = (.ok raw,t)) ↔
      16 ≤ d.macKey.length ∧ ∃ body sealed, encodeDataChunkBody d.nextSendOffset data = .ok body ∧
        sealData aead d .data body = .ok sealed ∧ sealed.length ≤ maxBodyBytes := by
  constructor
  · rintro ⟨raw,t,run⟩
    apply of_returned run
    simp only [encodeDataChunk,encodeFrame,wp_bind,wp_get,wp_ask,wp_ofExcept,wp_modify,wp_pure]
    refine ⟨fun body packed => ⟨fun sealed made => ⟨fun raw encoded => ?_,fun _ _ => trivial⟩,
      fun _ _ => trivial⟩,fun _ _ => trivial⟩
    obtain ⟨ok,long,rfl⟩ := (encode_ok_iff keyed).mp encoded
    exact ⟨long,body,sealed,packed,made,ok.body⟩
  · rintro ⟨long,body,sealed,packed,made,small⟩
    have encoded := (encode_ok_iff keyed).mpr
      ⟨Remote.outbound_encodable d (rfl : MessageType.known .data = true) small,long,rfl⟩
    have ends : wp (encodeDataChunk data) aead d (fun _ _ => True) (fun _ _ => False) fun _ => False := by
      simp [encodeDataChunk,encodeFrame,wp_bind,wp_get,wp_ask,wp_ofExcept,wp_modify,wp_pure,packed,made,encoded]
    obtain ⟨raw,t,run,-⟩ := ends.returns
    exact ⟨raw,t,run⟩

theorem encodeDataChunk_refused (d : Driver) (data : Bytes) :
    wp (encodeDataChunk data) aead d (fun _ _ => True) (fun _ t => t = d) (fun _ => False) := by
  simp [encodeDataChunk,encodeFrame,wp_bind,wp_get,wp_ask,wp_ofExcept,wp_modify,wp_pure]

/-- A receiver of this stream: what no delivery changes. -/
structure Receives (macKey aeadKey : Bytes) (r : Driver) : Prop where
  macKey : r.macKey = macKey
  aeadKey : r.aeadKey = aeadKey
  active : r.session.state = .active
  tracking : r.trackDataChunks = true

/-- The frame is the next one for the receiver and its chunk the next of the stream. -/
structure Awaited (r : Driver) (f : Frame) (off : Nat) : Prop where
  addressed : Addressed r f
  offset : off = r.nextDataOffset

variable {r : Driver} {l : Link} {macKey aeadKey : Bytes} {start : Nat}

theorem Conveys.carried {macKey aeadKey raw data : Bytes} {off : Nat}
    (conveys : Conveys aead macKey aeadKey raw off data f) (receives : Receives macKey aeadKey r)
    (addressed : Addressed r f) : r.carried aead f =
      if off = r.nextDataOffset then some (data,off + data.length) else none := by
  obtain ⟨body,opened,parsed⟩ := conveys.opened r receives.aeadKey addressed.sessionID.symm
  simp only [Driver.carried,opened,stored,receives.tracking,if_true,parsed]

theorem decodeAndHandle_chunk {macKey aeadKey raw data : Bytes} {off : Nat}
    (conveys : Conveys aead macKey aeadKey raw off data f) (receives : Receives macKey aeadKey r) :
    wp (decodeAndHandle raw) aead r
      (fun _ t => Awaited r f off ∧ r.session.Accepts ∧ t = { r.keep (data,off + data.length) with
        session := r.session.counted, recvSeq := (r.recvSeq + 1) % 2 ^ 64 })
      (fun _ t => (t = r ∧ ¬Awaited r f off) ∨
        Awaited r f off ∧ ¬r.session.Accepts ∧ t = r.keep (data,off + data.length))
      (fun _ => False) := by
  have reads := conveys.carried receives
  simp only [decodeAndHandle,wp_bind,wp_get,wp_ofExcept,receives.macKey,conveys.decoded,wp_pure]
  refine ⟨fun g decoded => ?_,fun _ failed => by cases failed⟩
  cases decoded
  refine (handle_data conveys.typ).ends (fun _ t h => ?_) (fun _ t h => ?_)
  · obtain ⟨p,addressed,carries,accepts,rfl⟩ := h
    rw [reads addressed] at carries
    split at carries
    · rename_i next
      cases carries
      exact ⟨⟨addressed,next⟩,accepts,rfl⟩
    · cases carries
  · rcases h with ⟨rfl,none_⟩ | ⟨p,addressed,carries,full,rfl⟩
    · refine .inl ⟨rfl,fun awaited => ?_⟩
      have empty := none_ awaited.addressed
      rw [reads awaited.addressed,if_pos awaited.offset] at empty
      cases empty
    · rw [reads addressed] at carries
      split at carries
      · rename_i next
        cases carries
        exact .inr ⟨⟨addressed,next⟩,full,rfl⟩
      · cases carries

/-- The receiver's place in the stream is where the accepted bytes end, or it has run
ahead of them with its session full. -/
inductive Placed (start : Nat) (l : Link) : Prop where
  | even (place : l.receiver.nextDataOffset = start + l.taken.length)
  | ahead (place : start + l.taken.length < l.receiver.nextDataOffset)
      (full : ¬l.receiver.session.Accepts)

structure Inv (aead : Aead) (macKey aeadKey : Bytes) (start : Nat) (l : Link) : Prop where
  keyed : l.sender.macKey = macKey ∧ l.sender.aeadKey = aeadKey
  sequence : l.sender.sendSeq < 2 ^ 64
  offset : l.sender.nextSendOffset = start + l.sent.length
  wire : ∀ raw ∈ l.wire, ∃ before data after f, l.sent = before ++ data ++ after ∧
    Conveys aead macKey aeadKey raw (start + before.length) data f
  receives : Receives macKey aeadKey l.receiver
  taken : l.taken <+: l.sent
  placed : Placed start l

theorem inv_send (correct : Correct aead) (nonempty : macKey ≠ []) (inv : Inv aead macKey aeadKey start l) (data : Bytes) :
    Inv aead macKey aeadKey start (l.step aead (.send data)) := by
  have refused : wp (encodeDataChunk data) aead l.sender _ _ _ := encodeDataChunk_refused l.sender data
  simp only [wp] at refused
  simp only [Link.step]
  rcases run : encodeDataChunk data aead l.sender with ⟨raw | e | _,d⟩
  · obtain ⟨moved,f,-,-,conveys⟩ := encodeDataChunk_ok correct (by rw [inv.keyed.1]; exact nonempty) inv.sequence run
    rw [inv.keyed.1,inv.keyed.2,inv.offset] at conveys
    subst moved
    refine ⟨inv.keyed,Nat.mod_lt _ (by decide),?_,?_,inv.receives,inv.taken.trans (List.prefix_append _ _),?_⟩
    · simp [inv.offset,Nat.add_assoc]
    · intro r member
      rcases List.mem_append.mp member with old | new
      · obtain ⟨before,chunk,after,g,parts,holds⟩ := inv.wire r old
        exact ⟨before,chunk,after ++ data,g,by rw [parts,List.append_assoc (before ++ chunk)],holds⟩
      · rw [List.mem_singleton.mp new]
        exact ⟨l.sent,data,[],f,by rw [List.append_nil],conveys⟩
    · cases inv.placed with
      | even place => exact .even place
      | ahead place full => exact .ahead place full
  · rw [run] at refused
    simp only [refused]
    exact inv
  · rw [run] at refused
    exact refused.elim

/-- A chunk with contents reaches its place in the stream when the session takes no more. -/
def Overruns (aead : Aead) (l : Link) : Event → Prop
  | .send _ => False
  | .deliver i => ∃ raw f p, l.wire[i]? = some raw ∧
      decode raw l.receiver.macKey l.receiver.requireMAC = .ok f ∧ Addressed l.receiver f ∧
      l.receiver.carried aead f = some p ∧ p.1 ≠ [] ∧ ¬l.receiver.session.Accepts

/-- No delivery of the run overruns. -/
def Timely (aead : Aead) : List Event → Link → Prop
  | [], _ => True
  | e :: rest, l => ¬Overruns aead l e ∧ Timely aead rest (l.step aead e)

theorem overruns_iff {macKey aeadKey raw data : Bytes} {off i : Nat} (conveys : Conveys aead macKey aeadKey raw off data f)
    (receives : Receives macKey aeadKey l.receiver) (found : l.wire[i]? = some raw) :
    Overruns aead l (.deliver i) ↔ Awaited l.receiver f off ∧ data ≠ [] ∧ ¬l.receiver.session.Accepts := by
  constructor
  · rintro ⟨raw',f',p,found',decoded,addressed,carries,contents,full⟩
    cases found.symm.trans found'
    rw [receives.macKey] at decoded
    cases (conveys.decoded _).symm.trans decoded
    rw [conveys.carried receives addressed] at carries
    split at carries
    · rename_i next
      cases carries
      exact ⟨⟨addressed,next⟩,contents,full⟩
    · cases carries
  · rintro ⟨awaited,contents,full⟩
    refine ⟨raw,f,(data,off + data.length),found,by rw [receives.macKey]; exact conveys.decoded _,awaited.addressed,?_,
      contents,full⟩
    rw [conveys.carried receives awaited.addressed,if_pos awaited.offset]

/-- What one delivery does to the stream. -/
inductive Delivered (aead : Aead) (start i : Nat) (l t : Link) : Prop where
  | nothing (same : t = l) (calm : ¬Overruns aead l (.deliver i))
  | accepted (data : Bytes) (accepts : l.receiver.session.Accepts)
      (receiver : t.receiver.nextDataOffset = l.receiver.nextDataOffset + data.length)
      (taken : t.taken = l.taken ++ data)
      (continues : l.receiver.nextDataOffset = start + l.taken.length → l.taken ++ data <+: l.sent)
  | refused (data : Bytes) (full : ¬l.receiver.session.Accepts)
      (overruns : Overruns aead l (.deliver i) ↔ data ≠ [])
      (session : t.receiver.session = l.receiver.session)
      (receiver : t.receiver.nextDataOffset = l.receiver.nextDataOffset + data.length)
      (taken : t.taken = l.taken)

/-- The stream's own bytes before a chunk are all that can have been taken before it. -/
theorem taken_continues {sent taken before data after : Bytes} (held : taken <+: sent)
    (parts : sent = before ++ data ++ after) (size : taken.length = before.length) :
    taken ++ data <+: sent := by
  have same : taken = before := by rw [List.prefix_iff_eq_take.mp held,parts,size,List.append_assoc,List.take_left]
  rw [same,parts]
  exact List.prefix_append _ _

theorem deliver_cases (inv : Inv aead macKey aeadKey start l) (i : Nat) :
    (l.step aead (.deliver i)).sender = l.sender ∧ (l.step aead (.deliver i)).wire = l.wire ∧
    (l.step aead (.deliver i)).sent = l.sent ∧
    Receives macKey aeadKey (l.step aead (.deliver i)).receiver ∧
    Delivered aead start i l (l.step aead (.deliver i)) := by
  simp only [Link.step]
  split
  · rename_i missing
    refine ⟨rfl,rfl,rfl,inv.receives,.nothing rfl ?_⟩
    rintro ⟨raw,-,-,found,-⟩
    cases missing.symm.trans found
  · rename_i raw found
    obtain ⟨before,data,after,f,parts,conveys⟩ := inv.wire raw (List.mem_of_getElem? found)
    have late := overruns_iff conveys inv.receives found
    have kept := inv.receives
    have ends : wp (decodeAndHandle raw) aead l.receiver _ _ _ := decodeAndHandle_chunk conveys inv.receives
    simp only [wp] at ends
    rcases run : decodeAndHandle raw aead l.receiver with ⟨g | e | _,r⟩
    · rw [run] at ends
      obtain ⟨awaited,accepts,rfl⟩ := ends
      refine ⟨rfl,rfl,rfl,⟨kept.macKey,kept.aeadKey,kept.active,kept.tracking⟩,
        .accepted data accepts (by rw [← awaited.offset]; rfl) rfl fun place => ?_⟩
      have size : l.taken.length = before.length := by
        have := awaited.offset
        omega
      exact taken_continues inv.taken parts size
    · rw [run] at ends
      rcases ends with ⟨same,other⟩ | ⟨awaited,full,rfl⟩
      · refine ⟨rfl,rfl,rfl,by rw [same]; exact kept,.nothing (by rw [same]) ?_⟩
        exact fun overruns => other (late.mp overruns).1
      · refine ⟨rfl,rfl,rfl,⟨kept.macKey,kept.aeadKey,kept.active,kept.tracking⟩,
          .refused data full ?_ rfl (by rw [← awaited.offset]; rfl) rfl⟩
        exact late.trans ⟨fun h => h.2.1,fun contents => ⟨awaited,contents,full⟩⟩
    · rw [run] at ends
      exact ends.elim

theorem inv_deliver (inv : Inv aead macKey aeadKey start l) (i : Nat) :
    Inv aead macKey aeadKey start (l.step aead (.deliver i)) := by
  obtain ⟨sender,wire,sent,receives,delivered⟩ := deliver_cases inv i
  have rest (taken : (l.step aead (.deliver i)).taken <+: l.sent) (placed : Placed start (l.step aead (.deliver i))) :
      Inv aead macKey aeadKey start (l.step aead (.deliver i)) := by
    refine ⟨?_,?_,?_,?_,receives,?_,placed⟩
    · rw [sender]; exact inv.keyed
    · rw [sender]; exact inv.sequence
    · rw [sender,sent]; exact inv.offset
    · rw [wire,sent]; exact inv.wire
    · rw [sent]; exact taken
  cases delivered with
  | nothing same => rw [same]; exact inv
  | accepted data accepts receiver taken continues =>
    cases inv.placed with
    | even place =>
      refine rest (by rw [taken]; exact continues place) (.even ?_)
      rw [receiver,taken,List.length_append,place]
      omega
    | ahead _ full => exact absurd accepts full
  | refused data full _ session receiver taken =>
    have stuck : ¬(l.step aead (.deliver i)).receiver.session.Accepts := by rw [session]; exact full
    refine rest (by rw [taken]; exact inv.taken) ?_
    cases inv.placed with
    | even place =>
      by_cases empty : data = []
      · refine .even ?_
        rw [receiver,taken,empty,place]
        rfl
      · refine .ahead ?_ stuck
        have := List.length_pos_of_ne_nil empty
        rw [receiver,taken]
        omega
    | ahead place _ =>
      refine .ahead ?_ stuck
      rw [receiver,taken]
      omega

theorem inv_step (correct : Correct aead) (nonempty : macKey ≠ []) (inv : Inv aead macKey aeadKey start l) (e : Event) :
    Inv aead macKey aeadKey start (l.step aead e) := by
  cases e with
  | send data => exact inv_send correct nonempty inv data
  | deliver i => exact inv_deliver inv i

/-- The receiver's offset is where the accepted bytes end. -/
def Even (start : Nat) (l : Link) : Prop := l.receiver.nextDataOffset = start + l.taken.length

theorem send_receiver (l : Link) (data : Bytes) : (l.step aead (.send data)).receiver = l.receiver ∧
    (l.step aead (.send data)).taken = l.taken := by
  simp only [Link.step]
  split <;> exact ⟨rfl,rfl⟩

theorem even_step (inv : Inv aead macKey aeadKey start l) (even : Even start l) (e : Event) :
    Even start (l.step aead e) ↔ ¬Overruns aead l e := by
  simp only [Even] at even ⊢
  cases e with
  | send data =>
    rw [(send_receiver l data).1,(send_receiver l data).2]
    exact ⟨fun _ => id,fun _ => even⟩
  | deliver i =>
    obtain ⟨-,-,-,-,delivered⟩ := deliver_cases inv i
    cases delivered with
    | nothing same calm => rw [same]; exact ⟨fun _ => calm,fun _ => even⟩
    | accepted data accepts receiver taken =>
      rw [receiver,taken,List.length_append]
      refine ⟨fun _ overruns => ?_,fun _ => by omega⟩
      obtain ⟨-,-,-,-,-,-,-,-,full⟩ := overruns
      exact full accepts
    | refused data full overruns session receiver taken =>
      rw [receiver,taken,overruns,not_not,← List.length_eq_zero_iff]
      omega

/-- Once ahead, always ahead: the session takes nothing any more. -/
theorem uneven_step (inv : Inv aead macKey aeadKey start l) (uneven : ¬Even start l) (e : Event) :
    ¬Even start (l.step aead e) := by
  simp only [Even] at uneven ⊢
  have place : start + l.taken.length < l.receiver.nextDataOffset ∧ ¬l.receiver.session.Accepts := by
    cases inv.placed with
    | even place => exact absurd place uneven
    | ahead place full => exact ⟨place,full⟩
  cases e with
  | send data =>
    rw [(send_receiver l data).1,(send_receiver l data).2]
    exact uneven
  | deliver i =>
    obtain ⟨-,-,-,-,delivered⟩ := deliver_cases inv i
    cases delivered with
    | nothing same => rw [same]; exact uneven
    | accepted _ accepts => exact absurd accepts place.2
    | refused data _ _ _ receiver taken =>
      rw [receiver,taken]
      omega

theorem run_even (correct : Correct aead) (nonempty : macKey ≠ []) (events : List Event)
    (inv : Inv aead macKey aeadKey start l) :
    (l.run aead events).taken <+: (l.run aead events).sent ∧
    (Even start (l.run aead events) ↔ Even start l ∧ Timely aead events l) := by
  induction events generalizing l with
  | nil => exact ⟨inv.taken,by simp [Timely,Link.run]⟩
  | cons e rest ih =>
    obtain ⟨held,later⟩ := ih (inv_step correct nonempty inv e)
    refine ⟨held,later.trans ?_⟩
    by_cases even : Even start l
    · simp only [Timely,even_step inv even e,even,true_and]
    · simp only [even,false_and,iff_false,not_and]
      exact fun even' => absurd even' (uneven_step inv even e)

/-- Two ACTIVE drivers that agree on their keys, at the same place of a stream. -/
structure Opened (l : Link) : Prop where
  nothing : l.wire = [] ∧ l.sent = [] ∧ l.taken = []
  macKey : l.receiver.macKey = l.sender.macKey
  keyed : l.sender.macKey ≠ []
  aeadKey : l.receiver.aeadKey = l.sender.aeadKey
  active : l.sender.session.state = .active ∧ l.receiver.session.state = .active
  tracking : l.sender.trackDataChunks = true ∧ l.receiver.trackDataChunks = true
  place : l.sender.nextSendOffset = l.receiver.nextDataOffset
  sequence : l.sender.sendSeq < 2 ^ 64

theorem Opened.inv (opened : Opened l) : Inv aead l.sender.macKey l.sender.aeadKey l.receiver.nextDataOffset l := by
  obtain ⟨wire,sent,taken⟩ := opened.nothing
  refine ⟨⟨rfl,rfl⟩,opened.sequence,?_,?_,?_,?_,.even ?_⟩
  · rw [opened.place,sent]
    rfl
  · rw [wire]
    exact nofun
  · exact ⟨opened.macKey,opened.aeadKey,opened.active.2,opened.tracking.2⟩
  · rw [taken]
    exact List.nil_prefix
  · rw [taken]
    rfl

/-- Whatever the network does with the frames, the accepted bytes are a prefix of the
bytes sent; the receiver's offset is their length exactly when no chunk with contents
reaches its place after the session's last accepted message. -/
theorem chunk_stream_arrives (aead : Aead) (correct : Correct aead) (l : Link) (opened : Opened l)
    (events : List Event) :
    (l.run aead events).taken <+: (l.run aead events).sent ∧
    ((l.run aead events).receiver.nextDataOffset =
      l.receiver.nextDataOffset + (l.run aead events).taken.length ↔ Timely aead events l) := by
  obtain ⟨held,even⟩ := run_even correct opened.keyed events opened.inv
  have start : Even l.receiver.nextDataOffset l := by
    rw [Even,opened.nothing.2.2]
    rfl
  exact ⟨held,even.trans (and_iff_right start)⟩

section sample

/-- A sender in the clear, and a receiver that has accepted `count` messages before. -/
def plainEnd (count : Nat) : Driver :=
  { Driver.new [2, 3] (Fixed.zero 16) (List.replicate 32 7) true with
    trackDataChunks := true
    session := { Session.fresh [2, 3] with state := .active, receiveSequence := count } }

def plainLink (count : Nat) : Link := { sender := plainEnd 0, receiver := plainEnd count }

theorem plainLink_opened (count : Nat) : Opened (plainLink count) :=
  ⟨⟨rfl,rfl,rfl⟩,rfl,nofun,rfl,⟨rfl,rfl⟩,⟨rfl,rfl⟩,rfl,(by decide : 1 < 2 ^ 64)⟩

theorem sends_one (d : Driver) (keyed : 16 ≤ d.macKey.length) (bare : d.aeadKey = [])
    (zero : d.nextSendOffset = 0) : ∃ raw t, encodeDataChunk [120] aead d = (.ok raw,t) := by
  have packed : encodeDataChunkBody 0 [120] = .ok [0,0,0,0,0,0,0,0,1,0,0,0,120] := by decide
  exact (encodeDataChunk_returns (Remote.ne_nil_of_long keyed)).mpr
    ⟨keyed,_,_,zero ▸ packed,if_neg (by simp [bare]),by decide⟩

/-- The first chunk of a stream in the clear, delivered once. -/
def onePush : List Event := [.send [120], .deliver 0]

theorem one_delivered (correct : Correct aead) (count : Nat) :
    ((plainLink count).run aead onePush).receiver.nextDataOffset = 1 ∧
    ((plainLink count).run aead onePush).taken =
      if count < defaultMaxAccept then [120] else [] := by
  obtain ⟨raw,t,run⟩ : ∃ raw t, encodeDataChunk [120] aead (plainEnd 0) = (.ok raw,t) :=
    sends_one (plainEnd 0) (by decide) rfl rfl
  have keyed : (plainEnd 0).macKey ≠ [] := by decide
  have fits : (plainEnd 0).sendSeq < 2 ^ 64 := by decide
  obtain ⟨-,f,owner,sequence,conveys⟩ := encodeDataChunk_ok correct keyed fits run
  have awaited : Awaited (plainEnd count) f 0 := ⟨⟨conveys.typ,owner,sequence⟩,rfl⟩
  have receives : Receives (plainEnd 0).macKey (plainEnd 0).aeadKey (plainEnd count) := ⟨rfl,rfl,rfl,rfl⟩
  have accepts : (plainEnd count).session.Accepts ↔ count < defaultMaxAccept := by
    simp [Accepts,acceptLimit,plainEnd,Session.fresh]
  have ends : wp (decodeAndHandle raw) aead (plainEnd count) _ _ _ := decodeAndHandle_chunk conveys receives
  have sent : (plainLink count).step aead (.send [120]) =
      { plainLink count with sender := t, wire := [raw], sent := [120] } := by
    simp only [Link.step,plainLink,run]
    rfl
  rw [onePush,Link.run,List.foldl_cons,sent,List.foldl_cons,List.foldl_nil]
  simp only [Link.step,List.getElem?_cons_zero,plainLink]
  simp only [wp] at ends
  rcases delivery : decodeAndHandle raw aead (plainEnd count) with ⟨g | e | _,r⟩
  · rw [delivery] at ends
    obtain ⟨-,takes,rfl⟩ := ends
    exact ⟨rfl,by rw [if_pos (accepts.mp takes)]; rfl⟩
  · rw [delivery] at ends
    rcases ends with ⟨-,other⟩ | ⟨-,full,rfl⟩
    · exact absurd awaited other
    · exact ⟨rfl,by rw [if_neg fun low => full (accepts.mpr low)]⟩
  · rw [delivery] at ends
    exact ends.elim

theorem correct_chacha : Correct ChaCha20Poly1305.aead := fun _ _ aad plaintext keySize nonceSize =>
  ChaCha20Poly1305.decrypt_encrypt keySize nonceSize aad plaintext

/-- The receiver has accepted all the messages its session takes: the chunk is refused
and the offset moves past it all the same. -/
theorem full_receiver_runs_ahead :
    Correct ChaCha20Poly1305.aead ∧ Opened (plainLink defaultMaxAccept) ∧
    ((plainLink defaultMaxAccept).run ChaCha20Poly1305.aead onePush).taken = [] ∧
    ((plainLink defaultMaxAccept).run ChaCha20Poly1305.aead onePush).receiver.nextDataOffset = 1 := by
  obtain ⟨offset,taken⟩ := one_delivered correct_chacha defaultMaxAccept
  exact ⟨correct_chacha,plainLink_opened _,by simpa using taken,offset⟩

theorem chunk_stream_sample :
    ((plainLink 0).run ChaCha20Poly1305.aead onePush).taken = [120] ∧
    Timely ChaCha20Poly1305.aead onePush (plainLink 0) := by
  obtain ⟨offset,taken⟩ := one_delivered correct_chacha 0
  rw [if_pos (by decide)] at taken
  refine ⟨taken,(chunk_stream_arrives _ correct_chacha _ (plainLink_opened 0) onePush).2.mp ?_⟩
  rw [offset,taken]
  rfl

end sample

/-- Sealing adds a tag of 16 bytes. -/
def Tagged (aead : Aead) : Prop :=
  ∀ key nonce aad plaintext, key.length = aeadKeySize → nonce.length = aeadNonceSize →
    (aead.encrypt key nonce aad plaintext).length = plaintext.length + 16

theorem sealed_returns (tagged : Tagged aead) {d : Driver} {data : Bytes} (keyed : d.macKey ≠ [])
    (sealing : d.aeadKey ≠ []) (admissible : data.length ≤ maxDataChunkBytes)
    (room : d.nextSendOffset + data.length < 2 ^ 64) : (∃ raw t, encodeDataChunk data aead d = (.ok raw,t)) ↔
      16 ≤ d.macKey.length ∧ d.aeadKey.length = aeadKeySize ∧ data.length + 12 + 16 ≤ maxBodyBytes := by
  obtain ⟨body,packed,size⟩ : ∃ body, encodeDataChunkBody d.nextSendOffset data = .ok body ∧
      body.length = data.length + 12 := by
    refine ⟨leBytes 8 d.nextSendOffset ++ leBytes 4 data.length ++ data,?_,by simp; omega⟩
    simp only [encodeDataChunkBody,check_bind_ok]
    exact ⟨admissible,by omega,trivial⟩
  have small : ¬2 ^ 20 < data.length + 12 := by
    simp only [maxDataChunkBytes,maxBodyBytes,dataChunkHeaderBytes] at admissible
    omega
  have nonce := sequenceNonce_length d.sendSeq
  rw [encodeDataChunk_returns keyed]
  refine and_congr_right fun _ => ?_
  simp only [packed,Except.ok.injEq,exists_and_left,exists_eq_left',sealData,sealBody,nonce,size,if_neg small]
  by_cases key : d.aeadKey.length = aeadKeySize
  · simp [key,sealing,tagged _ _ _ _ key nonce,size]
  · simp [key,sealing]

/-- A receiver at the sender's place in the stream. -/
structure Matching (d r : Driver) : Prop where
  receives : Receives d.macKey d.aeadKey r
  sessionID : r.sessionID = d.sessionID
  sequence : r.recvSeq = d.sendSeq
  offset : r.nextDataOffset = d.nextSendOffset

/-- An admissible chunk is sent and delivered exactly if the keys have their sizes, the
receiver's session takes a message, and the tag of the cipher fits into the frame as well. -/
theorem chunk_sent_iff (aead : Aead) (correct : Correct aead) (tagged : Tagged aead) (d r : Driver) (data : Bytes)
    (keyed : d.macKey ≠ []) (sealing : d.aeadKey ≠ []) (sequence : d.sendSeq < 2 ^ 64)
    (admissible : data.length ≤ maxDataChunkBytes) (room : d.nextSendOffset + data.length < 2 ^ 64)
    (matching : Matching d r) :
    (∃ raw d', encodeDataChunk data aead d = (.ok raw, d') ∧
      ∃ f r', decodeAndHandle raw aead r = (.ok f, r') ∧ r'.lastPlaintext = data) ↔
    (16 ≤ d.macKey.length ∧ d.aeadKey.length = aeadKeySize ∧ data.length + 12 + 16 ≤ maxBodyBytes) ∧
      r.session.Accepts := by
  rw [← sealed_returns tagged keyed sealing admissible room]
  constructor
  · rintro ⟨raw,d',sent,f,r',taken,-⟩
    obtain ⟨-,g,owner,order,conveys⟩ := encodeDataChunk_ok correct keyed sequence sent
    exact ⟨⟨raw,d',sent⟩,((decodeAndHandle_chunk conveys matching.receives).ok_of taken).2.1⟩
  · rintro ⟨⟨raw,d',sent⟩,accepts⟩
    obtain ⟨-,g,owner,order,conveys⟩ := encodeDataChunk_ok correct keyed sequence sent
    have awaited : Awaited r g d.nextSendOffset :=
      ⟨⟨conveys.typ,owner.trans matching.sessionID.symm,order.trans matching.sequence.symm⟩,matching.offset.symm⟩
    have taken := (decodeAndHandle_chunk conveys matching.receives).mono (fun _ t h => h.2.2)
      (fun _ t h => h.elim (fun old => old.2 awaited) fun full => full.2.1 accepts) fun _ => id
    obtain ⟨f,r',run,rfl⟩ := taken.returns
    exact ⟨raw,d',sent,f,_,run,rfl⟩

def sealedEnd : Driver := { plainEnd 0 with aeadKey := List.replicate 32 9 }

theorem tagged_chacha : Tagged ChaCha20Poly1305.aead := fun _ _ aad plaintext keySize nonceSize =>
  ChaCha20Poly1305.encrypt_length keySize nonceSize aad plaintext

theorem chunk_sent_sample : ∃ raw d', encodeDataChunk [120] ChaCha20Poly1305.aead sealedEnd = (.ok raw, d') ∧
    ∃ f r', decodeAndHandle raw ChaCha20Poly1305.aead sealedEnd = (.ok f, r') ∧ r'.lastPlaintext = [120] :=
  (chunk_sent_iff _ correct_chacha tagged_chacha sealedEnd sealedEnd [120]
    (by decide) (by decide) (by decide) (by decide) (by decide) ⟨⟨rfl,rfl,rfl,rfl⟩,rfl,rfl,rfl⟩).mpr (by decide)

/-- The largest admissible chunk fits its frame in the clear, but not sealed. -/
theorem full_chunk_unsent : (List.replicate maxDataChunkBytes (0 : UInt8)).length ≤ maxDataChunkBytes ∧
    ¬∃ raw d', encodeDataChunk (List.replicate maxDataChunkBytes 0) ChaCha20Poly1305.aead sealedEnd =
      (.ok raw, d') := by
  have size : (List.replicate maxDataChunkBytes (0 : UInt8)).length = maxDataChunkBytes := List.length_replicate
  have large : ¬maxDataChunkBytes + 12 + 16 ≤ maxBodyBytes := by decide
  rw [sealed_returns tagged_chacha (by decide) (by decide) (by rw [size]) (by rw [size]; decide),size]
  exact ⟨Nat.le_refl _,fun fits => large fits.2.2⟩

end Integris.ChunkStream
