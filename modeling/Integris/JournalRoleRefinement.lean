import Integris.JournalRole
import Integris.RelayIsolation

/-! The journal role refines a file journal session, as long as what the two say to each
other fits a frame. The accepted prefix read on the other side is the one the role read,
because a prefix cut off behind its last record reads as before, without its tail. -/
namespace Integris.Journal

open Codec

/-- The same records, nothing torn. -/
def Prefix.mended (p : Prefix) : Prefix := { p with torn := false, tornOffset := 0 }

variable {data : Bytes}

theorem readPrefix_mended {p : Prefix} (h : readPrefix data = .ok p) :
    p.bytes ≤ data.length ∧ readPrefix (data.take p.bytes) = .ok p.mended := by
  obtain ⟨es,t,fits,few,rfl,ends⟩ := readPrefix_inv h
  have same : p.bytes = (bytesOf es).length ∧ p.mended = ({} : Prefix).after es := by
    rcases ends with ⟨-,rfl⟩ | ⟨-,-,rfl⟩ <;> exact ⟨after_bytes,rfl⟩
  obtain ⟨k,-,run⟩ := readPrefix_chain fits few []
  rw [List.append_nil] at run
  rw [same.1,same.2,List.take_left,run,readLoop,if_pos rfl]
  exact ⟨by simp,rfl⟩

theorem readPrefix_whole {p : Prefix} (h : readPrefix data = .ok p) (whole : p.torn = false) :
    p.bytes = data.length ∧ p = p.mended := by
  obtain ⟨es,t,-,-,rfl,⟨rfl,rfl⟩ | ⟨-,-,rfl⟩⟩ := readPrefix_inv h
  · exact ⟨by rw [after_bytes,List.append_nil],rfl⟩
  · cases whole

end Integris.Journal

namespace Integris.RemoteSync

open Journal Prog Ipc
open Codec (RecordType)

/-! The file session. -/

/-- The writer behind an accepted prefix. -/
def writerOf (p : Prefix) : SegmentWriter :=
  ⟨p.nextSequence,if p.nextSequence = 1 then genesisCommitment else p.headCommitment,false⟩

variable {seg : Segment σ} {j : FileJournal} {m : SegmentOp FileState ε α} {payload resp : Bytes}
  {role : JournalRole} {e : Item}

theorem openSegmentWriter_shows {s : σ} (shows_ : seg.Shows s data) {p : Prefix} (read : readPrefix data = .ok p) :
    openSegmentWriter seg s = (.ok (writerOf p,.of data p),s) := by
  rw [openSegmentWriter,bind_run (by rw [readSegmentPrefix_shows shows_,read]; rfl)]
  rfl

theorem openSegmentWriter_fails {s : σ} (shows_ : seg.Shows s data)
    {e : Journal.Error} (read : readPrefix data = .error e) : openSegmentWriter seg s = (.error e,s) := by
  rw [openSegmentWriter,bind_failed (by rw [readSegmentPrefix_shows shows_,read]; rfl)]

theorem onFile_run {r : Outcome ε α} {f : FileState}
    (run : m (fileSegment none) j.file = (r,f)) : onFile m () j = (r,{ j with file := f }) :=
  zoom_run run

theorem openSession_eq (closed : j.writer = none) : FileJournal.openSession () j = (do
      let made ← finishOpenJournal
      modify fun j => { j with writer := some made.1 }
      pure made.2 : JP Reading) () ⟨openFileSegment j.file.data,none⟩ := by
  unfold FileJournal.openSession
  rw [get_bind,require_bind (by rw [closed]; rfl)]
  cases j
  cases closed
  rfl

theorem openSession_fails {size : Nat} {e : Journal.Error} (read : readPrefix data = .error e) :
    FileJournal.openSession () ⟨⟨data,size⟩,none⟩ = (.error (.reading e),⟨openFileSegment data,none⟩) := by
  have first : onFile openSegmentWriter () ⟨openFileSegment data,none⟩ = (.error e,⟨openFileSegment data,none⟩) :=
    onFile_run (openSegmentWriter_fails (openFileSegment_shows data) read)
  have made : finishOpenJournal () ⟨openFileSegment data,none⟩ = (.error (.reading e),⟨openFileSegment data,none⟩) := by
    rw [finishOpenJournal,bind_failed (mapError_failed _ first)]
  rw [openSession_eq rfl,bind_failed made]

theorem openSession_run {size : Nat} {p : Prefix} (read : readPrefix data = .ok p) :
    FileJournal.openSession () ⟨⟨data,size⟩,none⟩ =
      (.ok ⟨p.mended,[]⟩,⟨openFileSegment (data.take p.bytes),some (writerOf p.mended)⟩) := by
  obtain ⟨inside,again⟩ := readPrefix_mended read
  have first : onFile openSegmentWriter () ⟨openFileSegment data,none⟩ =
      (.ok (writerOf p,.of data p),⟨openFileSegment data,none⟩) :=
    onFile_run (openSegmentWriter_shows (openFileSegment_shows data) read)
  have made : finishOpenJournal () ⟨openFileSegment data,none⟩ =
      (.ok (writerOf p.mended,⟨p.mended,[]⟩),⟨openFileSegment (data.take p.bytes),none⟩) := by
    rw [finishOpenJournal,bind_run (mapError_run _ first)]
    cases torn : p.torn with
    | false =>
      obtain ⟨bytes,same⟩ := readPrefix_whole read torn
      have whole : (Reading.of data p).torn = false := torn
      rw [if_neg (by rw [whole]; decide),bytes,List.take_length]
      change (Outcome.ok (writerOf p,Reading.of data p),_) = _
      rw [same]
      rfl
    | true =>
      have cut : (Reading.of data p).torn = true := torn
      have second : onFile openSegmentWriter () ⟨openFileSegment (data.take p.bytes),none⟩ =
          (.ok (writerOf p.mended,.of (data.take p.bytes) p.mended),⟨openFileSegment (data.take p.bytes),none⟩) :=
        onFile_run (openSegmentWriter_shows (openFileSegment_shows _) again)
      have size : openFileSegment (data.take p.bytes) = ⟨data.take p.bytes,p.bytes⟩ := by
        rw [openFileSegment,List.length_take,Nat.min_eq_left inside]
      rw [if_pos cut,bind_run (rfl : modify _ () _ = _)]
      rw [size] at second
      exact mapError_run _ (size ▸ second)
  rw [openSession_eq rfl,bind_run made]
  rfl

theorem acceptedPrefixBytes_run (data : Bytes) (w : SegmentWriter) :
    FileJournal.acceptedPrefixBytes data.length () ⟨openFileSegment data,some w⟩ =
      (.ok data,⟨openFileSegment data,some w⟩) := by
  unfold FileJournal.acceptedPrefixBytes
  by_cases none : data.length = 0
  · rw [if_pos none,List.eq_nil_of_length_eq_zero none]
    rfl
  · have asked : onFile (SegmentOp.readAt data.length 0) () ⟨openFileSegment data,some w⟩ =
        ((.ok ⟨data,Option.none⟩ : Outcome JournalFault Read),⟨openFileSegment data,some w⟩) := by
      refine onFile_run ?_
      have reads := (openFileSegment_shows data).reads data.length 0 (by omega) (by omega)
      rw [SegmentOp.readAt,reads,List.drop_zero,List.take_length]
    have held : (FileJournal.mk (openFileSegment data) (some w)).writer.isSome = true := rfl
    rw [if_neg none,get_bind,require_bind held,bind_run asked,require_bind rfl]
    rfl

theorem readPrefixBytes_run {p : Prefix} (read : readPrefix data = .ok p.mended)
    (l : JournalLink) : readPrefixBytes data () l = (.ok ⟨p.mended,[]⟩,l) := by
  rw [readPrefixBytes,readSegmentPrefix_shows (Shared.memSegment_shows none data),read]
  rfl

/-! Nothing in a file session crashes. -/

/-- However it goes, it goes on. -/
def Calm (m : Prog ρ σ ε α) : Prop := ∀ env s, wp m env s (fun _ _ => True) (fun _ _ => True) fun _ => False

section calm

variable {ρ σ ε ε' α β : Type}

theorem Calm.pure (a : α) : Calm (Pure.pure a : Prog ρ σ ε α) := fun _ _ => trivial

theorem Calm.throw (e : ε) : Calm (Prog.throw e : Prog ρ σ ε α) := fun _ _ => trivial

theorem Calm.bind {m : Prog ρ σ ε α} {f : α → Prog ρ σ ε β} (first : Calm m) (rest : ∀ a, Calm (f a)) :
    Calm (m >>= f) := fun env s => by
  rw [wp_bind]
  exact (first env s).imp (fun a t _ => rest a env t)

theorem Calm.mapError {m : Prog ρ σ ε α} {f : ε → ε'} (h : Calm m) : Calm (Prog.mapError f m) :=
  fun env s => wp_mapError.mpr (h env s)

theorem Calm.require {p : Prop} [Decidable p] (e : ε) : Calm (Prog.require p e : Prog ρ σ ε Unit) :=
  fun _ _ => wp_require.mpr ⟨fun _ => trivial,fun _ => trivial⟩

theorem Calm.ofExcept (x : Except ε α) : Calm (Prog.ofExcept x : Prog ρ σ ε α) :=
  fun _ _ => wp_ofExcept.mpr ⟨fun _ _ => trivial,fun _ _ => trivial⟩

theorem Calm.readAt (want offset : Nat) : Calm (SegmentOp.readAt want offset : SegmentOp σ ε Read) := fun _ _ => trivial

theorem Calm.size : Calm (SegmentOp.size : SegmentOp σ ε Nat) := fun _ _ => trivial

theorem Calm.effect (f : Segment σ → σ → Except Posix.Errno Unit × σ) : Calm (SegmentOp.effect f) := by
  intro seg s
  unfold wp SegmentOp.effect
  rcases f seg s with ⟨_ | _,_⟩ <;> trivial

theorem Calm.readFrom (size rounds : Nat) (out : Prefix) :
    Calm (Journal.readFrom size rounds out : SegmentOp σ Journal.Error Reading) := by
  induction rounds generalizing out with
  | zero => exact .pure _
  | succ rounds ih =>
    unfold Journal.readFrom
    split
    · exact .pure _
    · refine .bind (.readAt _ _) fun r => ?_
      split
      · exact .pure _
      · split
        · exact .throw _
        · split
          · exact ih _
          · exact .bind (.readAt _ _) fun _ => .bind (.require _) fun _ => .pure _
          · exact .throw _

theorem Calm.append (w : SegmentWriter) (e : Item) :
    Calm (w.append e : SegmentOp σ Journal.Failure (Codec.Record × SegmentWriter)) :=
  .bind (.require _) fun _ => .bind .size fun _ => .bind (.require _) fun _ =>
    .bind (.mapError (.bind .size fun _ => .readFrom _ _ _)) fun _ => .bind (.require _) fun _ =>
      .bind (.require _) fun _ => .bind (.mapError (.ofExcept _)) fun _ => .bind (.require _) fun _ =>
        .bind (.effect _) fun _ => .bind (.effect _) fun _ => .bind (.ofExcept _) fun _ => .pure _

theorem Calm.onFile (h : Calm m) : Calm (RemoteSync.onFile m) := fun env s => by
  rw [RemoteSync.onFile,wp_zoom]
  exact h _ _

theorem Calm.fileAppend (e : Item) : Calm (FileJournal.append e) := by
  refine .bind (fun _ _ => trivial) fun j => ?_
  cases j.writer with
  | none => exact .throw _
  | some w => exact .bind (.mapError (.onFile (.append w e))) fun _ => fun _ _ => trivial

end calm

/-! One request on a channel that lasts. -/

section channel

variable {peers : JournalPeers} {l : JournalLink}

variable {ch : ChannelState}

theorem nearEnd_run {m : ChannelState.Op α} {r : Outcome Ipc.Error α}
    (run : m () l.wire.near = (r,ch)) : nearEnd m () l = (r,{ l with wire := { l.wire with near := ch } }) :=
  zoom_run run

theorem farEnd_run {m : ChannelState.Op α} {r : Outcome Ipc.Error α}
    (run : m () l.wire.far = (r,ch)) : farEnd m () l = (r,{ l with wire := { l.wire with far := ch } }) :=
  zoom_run run

theorem roleResponds_run {resp : Bytes} (step : l.wire.InStep) (room : l.wire.near.queueDepth < maxQueueDepth)
    (small : resp.length ≤ maxFrameBytes) :
    roleResponds resp () l = (.ok resp,{ l with wire := l.wire.answered resp }) := by
  obtain ⟨accepts,tells⟩ := step.learns room small
  have sends := (step.ordinary_response small).sends step.back.live.1
  have decoded : nearEnd (ChannelState.decode (l.wire.far.wire .response resp)) ()
      { l with wire := { l.wire with far := l.wire.far.sent .response } } =
        (.ok (ChannelState.frameOf (l.wire.far.wire .response resp)),
          { l with wire := l.wire.answered resp }) := nearEnd_run (decode_run accepts)
  unfold roleResponds
  rw [bind_run (attempt_run (farEnd_run (encode_run sends)))]
  dsimp only
  rw [bind_run (mapError_run _ decoded),require_bind tells.typ,tells.payload]
  rfl

theorem askRole_run (up : l.role.up = true) (step : l.wire.InStep) (near : l.wire.near.queueDepth < maxQueueDepth)
    (far : l.wire.far.queueDepth < maxQueueDepth) (small : payload.length ≤ maxFrameBytes)
    (turn : journalRequest peers payload () l.role = (.ok resp,role)) (short : resp.length ≤ maxFrameBytes) :
    askRole peers payload () l = (.ok resp,⟨(l.wire.asked payload).answered resp,role⟩) := by
  obtain ⟨accepts,tells⟩ := step.hears far small
  have sends := (step.ordinary_request small).sends step.forth.live.1
  have decoded : farEnd (ChannelState.decode (l.wire.near.wire .request payload)) ()
      { l with wire := { l.wire with near := l.wire.near.sent .request } } =
        (.ok (ChannelState.frameOf (l.wire.near.wire .request payload)),
          { l with wire := l.wire.asked payload }) := farEnd_run (decode_run accepts)
  have next := step.asked far small
  have served : atRole (journalRequest peers payload) () { l with wire := l.wire.asked payload } =
      (.ok resp,⟨l.wire.asked payload,role⟩) := zoom_run turn
  unfold askRole
  rw [bind_run (mapError_run _ (nearEnd_run (encode_run sends))),get_bind,require_bind up,bind_run (attempt_run decoded)]
  simp only [tells.typ,tells.payload,if_true]
  rw [bind_run served]
  exact roleResponds_run next near short

end channel

/-! The two sessions side by side. -/

/-- The role holds the session, after `k` requests. -/
structure Attends (j : FileJournal) (l : JournalLink) (k : Nat) : Prop where
  session : l.role.session = j
  opened : l.role.opened = j.writer.isSome
  up : l.role.up = true
  step : l.wire.InStep
  near : l.wire.near.queueDepth = k
  far : l.wire.far.queueDepth = k

/-- What is said fits a frame, and no open session is opened. -/
def Fine (j : FileJournal) : JournalCall → Prop
  | .openSession => j.writer = none ∧ ∀ p, readPrefix j.file.data = .ok p → p.bytes + 5 ≤ maxFrameBytes
  | .append e => e.payload.length + 19 ≤ maxFrameBytes
  | .close => True

/-- The call fails, and not because the session is not open: the role stops serving. -/
def Broken (j : FileJournal) (c : JournalCall) : Prop :=
  (j.call c).1 = .failed ∧ (c = .openSession ∨ j.writer.isSome = true)

/-- Fine calls, none of them after a broken one. -/
def Smooth : FileJournal → List JournalCall → Prop
  | _, [] => True
  | j, c :: rest => Fine j c ∧ (Broken j c → rest = []) ∧ Smooth (j.call c).2 rest

section calls

variable {peers : JournalPeers} {j : FileJournal} {l : JournalLink} {k : Nat}

theorem Attends.ask (h : Attends j l k) (room : k < maxQueueDepth) (small : payload.length ≤ maxFrameBytes)
    (turn : journalRequest peers payload () l.role = (.ok resp,role)) (short : resp.length ≤ maxFrameBytes) :
    askRole peers payload () l = (.ok resp,⟨(l.wire.asked payload).answered resp,role⟩) :=
  askRole_run h.up h.step (by rw [h.near]; exact room) (by rw [h.far]; exact room) small turn short

variable {j' : FileJournal} {r : JournalRole} {s : FileJournal} {raw : Bytes} {l' : JournalLink}

theorem Attends.next (h : Attends j l k) (room : k < maxQueueDepth)
    (small : payload.length ≤ maxFrameBytes) (short : resp.length ≤ maxFrameBytes)
    (session : role.session = j') (opened : role.opened = j'.writer.isSome)
    (up : role.up = true) : Attends j' ⟨(l.wire.asked payload).answered resp,role⟩ (k + 1) := by
  have far : l.wire.far.queueDepth < maxQueueDepth := by rw [h.far]; exact room
  have asked : (l.wire.asked payload).InStep := h.step.asked far small
  have near : (l.wire.asked payload).near.queueDepth < maxQueueDepth := by
    rw [h.step.asked_depth.1,h.near]
    exact room
  refine ⟨session,opened,up,asked.answered near short,?_,?_⟩
  · rw [asked.answered_depth.1,h.step.asked_depth.1,h.near]
  · rw [asked.answered_depth.2,h.step.asked_depth.2,h.far]

theorem release_idle (idle : r.opened = false) : release () r = (.ok (),r) := by
  rw [release,get_bind]
  exact when_skipped (by rw [idle]; decide) _ _ _

theorem release_run (open_ : r.opened = true) :
    release () r = (.ok (),{ r with session := { r.session with writer := none }, opened := false }) := by
  rw [release,get_bind,when_run open_]
  rfl

theorem inSession_run {m : JP α} {a : α}
    (run : m () r.session = (.ok a,s)) : inSession m () r = (.ok (.ok a),{ r with session := s }) :=
  zoom_run (attempt_run run)

theorem inSession_failed {m : JP α} {e : JournalFault}
    (run : m () r.session = (.error e,s)) : inSession m () r = (.ok (.error e),{ r with session := s }) :=
  zoom_run (attempt_failed run)

theorem journalOpen_fails (idle : r.opened = false) {e : JournalFault}
    (run : FileJournal.openSession () r.session = (.error e,s)) :
    journalOpen peers () r = (.ok (mustResult false (peers.explain e)),{ r with session := s, up := false }) := by
  rw [journalOpen,bind_run (release_idle idle),bind_run (inSession_failed run)]
  rfl

/-- The accepted prefix as it is sent. -/
def prefixResponse (raw : Bytes) : Bytes := msgJrnOpen :: leBytes 4 raw.length ++ raw

theorem journalOpen_run (idle : r.opened = false) {p : Prefix} {w : SegmentWriter}
    (run : FileJournal.openSession () r.session = (.ok ⟨p,[]⟩,⟨openFileSegment raw,some w⟩))
    (size : p.bytes = raw.length) (small : raw.length ≤ maxJrnPrefixBytes) :
    journalOpen peers () r = (.ok (prefixResponse raw),
      { r with session := ⟨openFileSegment raw,some w⟩, opened := true }) := by
  rw [journalOpen,bind_run (release_idle idle),bind_run (inSession_run run)]
  dsimp only
  have bytes : inSession (FileJournal.acceptedPrefixBytes p.bytes) ()
      { r with session := ⟨openFileSegment raw,some w⟩, opened := true } =
        (.ok (.ok raw),{ r with session := ⟨openFileSegment raw,some w⟩, opened := true }) := by
    rw [size]
    exact inSession_run (acceptedPrefixBytes_run raw w)
  rw [bind_run (rfl : modify _ () _ = _),if_neg (by rw [size]; omega),bind_run bytes]
  rfl

theorem openSession_refused {msg : Bytes} (asked : askRole peers [msgJrnOpen] () l = (.ok (mustResult false msg),l')) :
    IpcJournal.openSession peers () l = (.error (.remote (.fail .protocol (text (heard msg)))),l') := by
  have other : (mustResult false msg).length < 5 ∨ (mustResult false msg).head? ≠ some msgJrnOpen := by
    right
    rw [mustResult_head]
    decide
  rw [IpcJournal.openSession,bind_run (mapError_run _ asked),if_pos other,decodeResult_refusal]
  rfl

theorem openSession_received {p : Prefix} (small : raw.length ≤ maxJrnPrefixBytes) (read : readPrefix raw = .ok p.mended)
    (asked : askRole peers [msgJrnOpen] () l = (.ok (prefixResponse raw),l')) :
    IpcJournal.openSession peers () l = (.ok ⟨p.mended,[]⟩,l') := by
  have length : (prefixResponse raw).length = 5 + raw.length := by
    simp [prefixResponse]
    omega
  have plain : ¬((prefixResponse raw).length < 5 ∨ (prefixResponse raw).head? ≠ some msgJrnOpen) := by
    rw [length]
    rintro (short | other)
    · omega
    · exact other rfl
  have field : slice (prefixResponse raw) 1 5 = leBytes 4 raw.length := by simp [slice,prefixResponse]
  have fits : raw.length < 256 ^ 4 := by
    unfold maxJrnPrefixBytes at small
    omega
  have count : leNat (slice (prefixResponse raw) 1 5) = raw.length := by rw [field,leNat_leBytes_of_lt fits]
  have body : slice (prefixResponse raw) 5 (5 + raw.length) = raw := by simp [slice,prefixResponse]
  rw [IpcJournal.openSession,bind_run (mapError_run _ asked),if_neg plain,count,require_bind ⟨small,by rw [length]⟩,body,readPrefixBytes_run read]

/-- What one call must do: the same result and the same file, and unless it breaks the role the two
sessions go on together. -/
def Agrees (peers : JournalPeers) (j : FileJournal) (l : JournalLink) (k : Nat) (c : JournalCall) : Prop :=
  (l.call peers c).1 = (j.call c).1 ∧
    (l.call peers c).2.role.session.file.data = (j.call c).2.file.data ∧
    (¬Broken j c → Attends (j.call c).2 (l.call peers c).2 (k + 1))

theorem Attends.agrees_open (h : Attends j l k) (room : k < maxQueueDepth) (fine : Fine j .openSession) :
    Agrees peers j l k .openSession := by
  obtain ⟨closed,frame⟩ := fine
  have idle : l.role.opened = false := by rw [h.opened,closed]; rfl
  have fresh : j = ⟨⟨j.file.data,j.file.size⟩,none⟩ := by
    cases j
    cases closed
    rfl
  have one : [msgJrnOpen].length ≤ maxFrameBytes := by decide
  cases read : readPrefix j.file.data with
  | error e =>
    have here : FileJournal.openSession () j = (.error (.reading e),⟨openFileSegment j.file.data,none⟩) := by
      rw [fresh]
      exact openSession_fails read
    have turn : journalRequest peers [msgJrnOpen] () l.role = _ := journalOpen_fails idle (by rw [h.session]; exact here)
    have there := openSession_refused (h.ask room one turn (Nat.le_trans (mustResult_length _ _) (by decide)))
    refine ⟨?_,?_,fun broken => absurd ⟨?_,.inl rfl⟩ broken⟩ <;>
      simp only [JournalLink.call,FileJournal.call,here,there,reported]
  | ok p =>
    obtain ⟨inside,again⟩ := readPrefix_mended read
    have size : p.mended.bytes = (j.file.data.take p.bytes).length := by
      rw [List.length_take,Nat.min_eq_left inside]
      rfl
    have limit := frame p read
    have small : (j.file.data.take p.bytes).length ≤ maxJrnPrefixBytes := by
      rw [List.length_take]
      unfold maxJrnPrefixBytes
      unfold maxFrameBytes at limit
      omega
    have here : FileJournal.openSession () j = (.ok ⟨p.mended,[]⟩,
        ⟨openFileSegment (j.file.data.take p.bytes),some (writerOf p.mended)⟩) := by
      rw [fresh]
      exact openSession_run read
    have turn : journalRequest peers [msgJrnOpen] () l.role = _ :=
      journalOpen_run idle (by rw [h.session]; exact here) size small
    have short : (prefixResponse (j.file.data.take p.bytes)).length ≤ maxFrameBytes := by
      simp only [prefixResponse,List.length_append,List.length_cons,leBytes_length,List.length_take]
      omega
    have there := openSession_received small again (h.ask room one turn short)
    refine ⟨?_,?_,fun _ => ?_⟩ <;> simp only [JournalLink.call,FileJournal.call,here,there,reported]
    exact h.next room one short rfl rfl h.up

theorem heedResult_refused (kind : Kind) (msg : Bytes) (l : JournalLink) :
    IpcJournal.heedResult kind (mustResult false msg) () l = (.error (.fail kind (text (heard msg))),l) := by
  rw [IpcJournal.heedResult,bind_run (ofExcept_ok (decodeResult_refusal msg) l)]
  rfl

theorem heedResult_done (kind : Kind) (l : JournalLink) : IpcJournal.heedResult kind okResult () l = (.ok (),l) := by
  have read : decodeResult okResult = .ok ⟨true,ascii "ok"⟩ := decodeResult_short (by decide) true
  rw [IpcJournal.heedResult,bind_run (ofExcept_ok read l)]
  rfl

/-- An item as it is sent. -/
def appendRequest (e : Item) : Bytes := msgJrnAppend :: e.transactionID.val ++ leBytes 2 e.type.code ++ e.payload

theorem appendRequest_length (e : Item) : (appendRequest e).length = 19 + e.payload.length := by
  simp [appendRequest,e.transactionID.property]
  omega

theorem journalAppend_eq (open_ : r.opened = true) (e : Item) : journalAppend peers (appendRequest e) () r = (do
      match ← inSession (FileJournal.append e) with
      | .error e => journalRefuses peers e
      | .ok () => pure okResult : JR Bytes) () r := by
  have long : ¬(appendRequest e).length < 19 := by
    rw [appendRequest_length]
    omega
  have id : slice (appendRequest e) 1 17 = e.transactionID.val := by simp [slice,appendRequest,e.transactionID.property]
  have code : leNat (slice (appendRequest e) 17 19) = e.type.code := by
    have field : slice (appendRequest e) 17 19 = leBytes 2 e.type.code := by
      rw [appendRequest,List.append_assoc,slice_append_right (by simp [e.transactionID.property])]
      simp [slice,e.transactionID.property]
    rw [field,leNat_leBytes_of_lt e.type.code_lt]
  have payload : (appendRequest e).drop 19 = e.payload := by
    rw [appendRequest]
    exact List.drop_left' (by simp [e.transactionID.property])
  rewrite [journalAppend,get_bind,if_neg (by rw [open_]; decide),if_neg long,code,
    RecordType.ofCode_code,id,payload,Fixed.ofBytes_of_val]
  rfl

theorem append_leaves_open (run : FileJournal.append e () j = (.ok (),j')) : j'.writer.isSome = true := by
  apply of_finished run
  rw [FileJournal.append,wp_bind,wp_get]
  cases j.writer with
  | none => trivial
  | some w =>
    have calm : Calm (mapError JournalFault.writing (onFile (w.append e))) := .mapError (.onFile (.append w e))
    rw [wp_bind]
    exact (calm () j).imp (fun _ _ _ => rfl)

theorem Attends.agrees_append (h : Attends j l k) (room : k < maxQueueDepth) (fine : Fine j (.append e)) :
    Agrees peers j l k (.append e) := by
  have small : (appendRequest e).length ≤ maxFrameBytes := by
    rw [appendRequest_length]
    exact (Nat.add_comm _ _).trans_le fine
  have legal : e.payload.length ≤ Codec.maxPayloadBytes := by
    have fine : e.payload.length + 19 ≤ 2 ^ 20 := fine
    unfold Codec.maxPayloadBytes
    omega
  have refusal (msg : Bytes) : (mustResult false msg).length ≤ maxFrameBytes :=
    Nat.le_trans (mustResult_length _ _) (by decide)
  -- the client's call, from the role's turn
  have calls {resp : Bytes} {role : JournalRole} (turn : journalRequest peers (appendRequest e) () l.role =
      (.ok resp,role)) (short : resp.length ≤ maxFrameBytes) : IpcJournal.append peers e () l =
        IpcJournal.heedResult .apply resp () ⟨(l.wire.asked (appendRequest e)).answered resp,role⟩ := by
    rw [IpcJournal.append,require_bind legal]
    exact bind_run (h.ask room small turn short)
  cases held : j.writer with
  | none =>
    have here : FileJournal.append e () j = (.error .notOpen,j) := by
      rw [FileJournal.append,get_bind,held]
      rfl
    have turn : journalRequest peers (appendRequest e) () l.role =
        (.ok (mustResult false (ascii "journal not open")),l.role) := by
      change journalAppend peers (appendRequest e) () l.role = _
      rw [journalAppend,get_bind,if_pos (by rw [h.opened,held]; rfl)]
      rfl
    have there := calls turn (refusal _)
    rw [heedResult_refused] at there
    refine ⟨?_,?_,fun _ => ?_⟩ <;> simp only [JournalLink.call,FileJournal.call,here,there,reported,h.session]
    exact h.next room small (refusal _) h.session h.opened h.up
  | some w =>
    have open_ : l.role.opened = true := by rw [h.opened,held]; rfl
    have served : journalRequest peers (appendRequest e) () l.role = _ := journalAppend_eq open_ e
    have calm := Calm.fileAppend e () j
    rcases here : FileJournal.append e () j with ⟨⟨⟩ | fault | _,j'⟩
    · have turn : journalRequest peers (appendRequest e) () l.role = (.ok okResult,{ l.role with session := j' }) := by
        rw [served,bind_run (inSession_run (by rw [h.session]; exact here))]
        rfl
      have there := calls turn (by decide)
      rw [heedResult_done] at there
      refine ⟨?_,?_,fun _ => ?_⟩ <;> simp only [JournalLink.call,FileJournal.call,here,there,reported]
      exact h.next room small (by decide) rfl (open_.trans (append_leaves_open here).symm) h.up
    · have turn : journalRequest peers (appendRequest e) () l.role =
          (.ok (mustResult false (peers.explain fault)),{ l.role with session := j', up := false }) := by
        rw [served,bind_run (inSession_failed (by rw [h.session]; exact here))]
        rfl
      have there := calls turn (refusal _)
      rw [heedResult_refused] at there
      refine ⟨?_,?_,fun broken => absurd ⟨?_,.inr (by rw [held]; rfl)⟩ broken⟩ <;>
        simp only [JournalLink.call,FileJournal.call,here,there,reported]
    · simp only [wp,here] at calm

theorem Attends.agrees_close (h : Attends j l k) (room : k < maxQueueDepth) : Agrees peers j l k .close := by
  have small : [msgJrnClose].length ≤ maxFrameBytes := by decide
  have short : okResult.length ≤ maxFrameBytes := by decide
  have here : FileJournal.close () j = (.ok (),{ j with writer := none }) := rfl
  have turn : ∃ role, journalRequest peers [msgJrnClose] () l.role = (.ok okResult,role) ∧
      role.session = { j with writer := none } ∧ role.opened = false ∧ role.up = true := by
    cases open_ : l.role.opened with
    | false =>
      have held : j.writer = none := by
        have := h.opened
        rw [open_] at this
        exact Option.isNone_iff_eq_none.mp (by simpa using this.symm)
      refine ⟨l.role,?_,?_,open_,h.up⟩
      · change (release >>= fun _ => pure okResult) () l.role = _
        rw [bind_run (release_idle open_)]
        rfl
      · rw [h.session,← held]
    | true =>
      refine ⟨{ l.role with session := { l.role.session with writer := none }, opened := false },?_,
        congrArg (fun s : FileJournal => { s with writer := none }) h.session,rfl,h.up⟩
      change (release >>= fun _ => pure okResult) () l.role = _
      rw [bind_run (release_run open_)]
      rfl
  obtain ⟨role,turn,session,opened,up⟩ := turn
  have there : IpcJournal.close peers () l = (.ok (),⟨(l.wire.asked [msgJrnClose]).answered okResult,role⟩) := by
    rw [IpcJournal.close,bind_run (h.ask room small turn short),heedResult_done]
  refine ⟨?_,?_,fun _ => ?_⟩ <;> simp only [JournalLink.call,FileJournal.call,here,there,reported,session]
  exact h.next room small short session opened up

theorem Attends.agrees (h : Attends j l k) (room : k < maxQueueDepth) (c : JournalCall) (fine : Fine j c) :
    Agrees peers j l k c := by
  cases c with
  | openSession => exact h.agrees_open room fine
  | append e => exact h.agrees_append room fine
  | close => exact h.agrees_close room

/-- By induction on the calls, with the requests made before. -/
theorem Attends.run (calls : List JournalCall) (h : Attends j l k) (room : k + calls.length ≤ maxQueueDepth)
    (smooth : Smooth j calls) :
    (calling (JournalLink.call peers) l calls).1 = (calling FileJournal.call j calls).1 ∧
      (calling (JournalLink.call peers) l calls).2.role.session.file.data =
        (calling FileJournal.call j calls).2.file.data := by
  induction calls generalizing j l k with
  | nil => exact ⟨rfl,by rw [calling,calling,h.session]⟩
  | cons c rest ih =>
    rw [List.length_cons] at room
    obtain ⟨fine,last,later⟩ := smooth
    obtain ⟨same,file,goes⟩ : Agrees peers j l k c := h.agrees (by omega) c fine
    simp only [calling]
    by_cases broken : Broken j c
    · rw [last broken]
      exact ⟨by simp only [calling,same],file⟩
    · obtain ⟨results,files⟩ := ih (goes broken) (by omega) later
      exact ⟨by rw [same,results],files⟩

end calls

/-- A journal file before any session, behind a new channel. -/
def JournalLink.start (wire : Wire) (data : Bytes) : JournalLink := ⟨wire,{ session := ⟨openFileSegment data,none⟩ }⟩

/-- As long as everything said fits a frame, no open session is opened and no call follows one that
broke the role, the session over IPC gives the results the file session gives, and leaves its file. -/
theorem journal_role_faithful (peers : JournalPeers) (data : Bytes) (calls : List JournalCall) (wire : Wire)
    (made : wire.InStep) (unused : wire.near.queueDepth = 0 ∧ wire.far.queueDepth = 0)
    (few : calls.length < maxQueueDepth) (smooth : Smooth ⟨openFileSegment data,none⟩ calls) :
    (calling (JournalLink.call peers) (.start wire data) calls).1 =
        (calling FileJournal.call ⟨openFileSegment data,none⟩ calls).1 ∧
      (calling (JournalLink.call peers) (.start wire data) calls).2.role.session.file.data =
        (calling FileJournal.call ⟨openFileSegment data,none⟩ calls).2.file.data := by
  have start : Attends ⟨openFileSegment data,none⟩ (.start wire data) 0 :=
    ⟨rfl,rfl,rfl,made,unused.1,unused.2⟩
  exact start.run calls (by omega) smooth

theorem fine_open (closed : j.writer = none) (short : j.file.data.length + 5 ≤ maxFrameBytes) : Fine j .openSession :=
  ⟨closed,fun _ read => Nat.le_trans (Nat.add_le_add_right (readPrefix_mended read).1 5) short⟩

def samplePeers : JournalPeers := { explain := fun _ => [] }

def sampleCalls : List JournalCall := [.openSession,.append shortItem,.close,.openSession]

theorem journal_role_sample :
    (calling (JournalLink.call samplePeers) (.start (plainWire .apply .journal) []) sampleCalls).1 =
      (calling FileJournal.call ⟨openFileSegment [],none⟩ sampleCalls).1 := by
  have smooth : Smooth ⟨openFileSegment [],none⟩ sampleCalls := by
    refine ⟨fine_open rfl (by decide),fun broken => absurd broken.1 (by decide +kernel),?_⟩
    refine ⟨(by decide : 0 + 19 ≤ maxFrameBytes),fun broken => absurd broken.1 (by decide +kernel),?_⟩
    refine ⟨trivial,fun broken => absurd broken.1 (by decide +kernel),?_⟩
    exact ⟨fine_open rfl (by decide +kernel),fun _ => rfl,trivial⟩
  exact (journal_role_faithful samplePeers [] sampleCalls (plainWire .apply .journal) (plainWire_inStep rfl rfl)
    ⟨rfl,rfl⟩ (by decide) smooth).1

theorem append_first (fits : e.Fits) : ∃ done file,
    (writerOf {}).append e (fileSegment none) (openFileSegment []) = (.ok done,file) := by
  have read := readSegmentPrefix_shows (openFileSegment_shows [])
  have legal : (nextFields [] e).Encodable := nextFields_encodable fits
  have room : 0 + (nextFields [] e).wire.length ≤ Codec.maxJournalSegmentBytes := by
    have small : e.payload.length ≤ 2 ^ 20 := fits
    rw [Codec.RecordFields.wire_length]
    change 0 + (152 + e.payload.length) ≤ 2 ^ 30
    omega
  have coded : mapError Journal.Failure.codec (Prog.ofExcept (Codec.encodeRecord (nextFields [] e)))
      (fileSegment none) (openFileSegment []) = (.ok (nextFields [] e).wire,openFileSegment []) := by
    rw [Codec.RecordFields.encode_ok legal]
    rfl
  have started : (writerOf {}).closed = false := rfl
  have clean : (Reading.of [] {}).torn = false := rfl
  have next : (Reading.of [] {}).nextSequence = (writerOf {}).nextSeq := rfl
  have size : SegmentOp.size (fileSegment none) (openFileSegment []) =
      ((.ok 0 : Outcome Journal.Failure Nat),openFileSegment []) := rfl
  refine ⟨?done,?file,?wrote⟩
  case wrote =>
    unfold SegmentWriter.append
    rw [require_bind started,bind_run size,require_bind (by decide),
      bind_run (mapError_run _ read),require_bind clean,require_bind next]
    change (mapError Journal.Failure.codec (Prog.ofExcept (Codec.encodeRecord (nextFields [] e))) >>= _) _ _ = _
    rw [bind_run coded,require_bind room,selfDecode_wire fits sound_nil]
    rfl

/-- A payload the interface admits, in a request no frame can carry. -/
theorem long_append_differs (fits : e.Fits) (long : maxFrameBytes < e.payload.length + 19) :
    (calling FileJournal.call ⟨openFileSegment [],none⟩ [.openSession,.append e]).1 = [.accepted ⟨{},[]⟩,.done] ∧
    (calling (JournalLink.call samplePeers) (.start (plainWire .apply .journal) [])
      [.openSession,.append e]).1 = [.accepted ⟨{},[]⟩,.failed] := by
  have opened : FileJournal.openSession () ⟨openFileSegment [],none⟩ =
      (.ok ⟨{},[]⟩,⟨openFileSegment [],some (writerOf {})⟩) :=
    openSession_run (p := {}) rfl
  constructor
  · obtain ⟨done,file,wrote⟩ := append_first fits
    have appended : FileJournal.append e () ⟨openFileSegment [],some (writerOf {})⟩ = (.ok (),⟨file,some done.2⟩) := by
      rw [FileJournal.append,get_bind]
      exact bind_run (mapError_run _ (onFile_run wrote))
    simp only [calling,FileJournal.call,opened,appended,reported]
  · have start : Attends ⟨openFileSegment [],none⟩ (.start (plainWire .apply .journal) []) 0 :=
      ⟨rfl,rfl,rfl,plainWire_inStep rfl rfl,rfl,rfl⟩
    obtain ⟨same,-,goes⟩ : Agrees samplePeers _ _ 0 .openSession :=
      start.agrees (by decide) .openSession (fine_open rfl (by decide))
    have first : (FileJournal.call ⟨openFileSegment [],none⟩ .openSession).1 = .accepted ⟨{},[]⟩ := by
      simp only [FileJournal.call,opened,reported]
    have after := goes fun broken => absurd (first.symm.trans broken.1) nofun
    have legal : e.payload.length ≤ Codec.maxPayloadBytes := fits
    have refused : ∀ l, l.wire.InStep → (IpcJournal.append samplePeers e () l).1 =
        .error (ipcFault "ipc encode" ⟨"limit","payload exceeds MaxFrame",true⟩) := by
      intro l step
      have wide : ¬(appendRequest e).length ≤ l.wire.near.maxFrame := by
        rw [appendRequest_length,step.frame]
        omega
      have asked : askRole samplePeers (appendRequest e) () l =
          (.error (ipcFault "ipc encode" ⟨"limit","payload exceeds MaxFrame",true⟩),l) := by
        unfold askRole
        exact bind_failed (mapError_failed _ (nearEnd_run (encode_long step.forth.live.1 rfl wide)))
      rw [IpcJournal.append,require_bind legal]
      exact congrArg Prod.fst (bind_failed asked)
    have second : (JournalLink.call samplePeers _ (.append e)).1 = .failed :=
      congrArg (reported fun _ => JournalResult.done) (refused _ after.step)
    simp only [calling]
    rw [same,first]
    exact congrArg (fun r => [JournalResult.accepted ⟨{},[]⟩,r]) second

/-- The largest payload. -/
def widest : Item := ⟨Fixed.zero 16,.observation,List.replicate (2 ^ 20) 0⟩

/-- A second `Open` is refused by the file session and served by the role; after an `Open` that
fails, the role is gone and cannot be closed; and the largest payload cannot be sent. -/
theorem journal_role_differs :
    (calling FileJournal.call ⟨openFileSegment [],none⟩ [.openSession,.openSession]).1 =
      [.accepted ⟨{},[]⟩,.failed] ∧
    (calling (JournalLink.call samplePeers) (.start (plainWire .apply .journal) [])
      [.openSession,.openSession]).1 = [.accepted ⟨{},[]⟩,.accepted ⟨{},[]⟩] ∧
    (calling FileJournal.call ⟨openFileSegment (List.replicate 16 0),none⟩ [.openSession,.close]).1 =
      [.failed,.done] ∧
    (calling (JournalLink.call samplePeers) (.start (plainWire .apply .journal) (List.replicate 16 0))
      [.openSession,.close]).1 = [.failed,.failed] ∧
    (calling FileJournal.call ⟨openFileSegment [],none⟩ [.openSession,.append widest]).1 =
      [.accepted ⟨{},[]⟩,.done] ∧
    (calling (JournalLink.call samplePeers) (.start (plainWire .apply .journal) [])
      [.openSession,.append widest]).1 = [.accepted ⟨{},[]⟩,.failed] := by
  have length : widest.payload.length = 2 ^ 20 := List.length_replicate
  refine ⟨by decide +kernel,by decide +kernel,by decide +kernel,by decide +kernel,long_append_differs ?_ ?_⟩
  · exact Nat.le_of_eq length
  · rw [length]
    decide

end Integris.RemoteSync
