import Integris.Journal

/-! The reader and the writer of `internal/journal` over any storage. Storage answers `ReadAt`
with bytes and perhaps an error, and may stop in an append. A storage that shows its
bytes faithfully is read as those bytes are, and an append to it either is refused
before anything is written or hands over exactly the next record. -/
namespace Integris.Journal

open Codec Prog
open Posix (Errno)

inductive ReadError where
  | eof
  | failed (e : Errno)
  deriving DecidableEq, Repr

/-- An answer of `ReadAt`. -/
structure Read where
  bytes : Bytes
  err : Option ReadError := none
  deriving DecidableEq

/-- `Segment`: `readAt` is asked for a number of bytes at an offset. -/
structure Segment (σ : Type) where
  size : σ → Nat
  readAt : Nat → Nat → σ → Read × σ
  append : Bytes → σ → Except Errno Unit × σ
  sync : σ → Except Errno Unit × σ

abbrev SegmentOp (σ : Type) := Prog (Segment σ) σ

namespace SegmentOp

def size : SegmentOp σ ε Nat := fun seg s => (.ok (seg.size s), s)

def readAt (want offset : Nat) : SegmentOp σ ε Read := fun seg s =>
  (.ok (seg.readAt want offset s).1, (seg.readAt want offset s).2)

def effect (f : Segment σ → σ → Except Errno Unit × σ) : SegmentOp σ Failure Unit := fun seg s =>
  match f seg s with
  | (.ok (), t) => (.ok (), t)
  | (.error e, t) => (.error (.errno e), t)

def append (p : Bytes) : SegmentOp σ Failure Unit := effect fun seg => seg.append p

def sync : SegmentOp σ Failure Unit := effect fun seg => seg.sync

end SegmentOp

/-! The reader. -/

/-- The prefix with the bytes set aside behind it. -/
structure Reading extends Prefix where
  quarantine : Bytes := []
  deriving DecidableEq

/-- What one buffer means to the reader. -/
inductive Verdict where
  | more (out : Prefix)
  | torn
  | failed (e : Error)

def examine (out : Prefix) (buf : Bytes) : Verdict :=
  match decodeRecord buf with
  | .error e =>
    if e.kind = .incomplete then .torn
    else .failed ⟨.fatal,out.bytes,"interior corruption or non-canonical record",some e⟩
  | .ok (rec, recLen) =>
    match checkLink out rec with
    | .error e => .failed e
    | .ok () => .more (out.accept rec recLen)

/-- How much the reader asks for at its offset. -/
def window (size : Nat) (out : Prefix) : Nat := min (size - out.bytes) maxRecordBytes

/-- The torn tail is read once more, to be kept. -/
def setAside (size : Nat) (out : Prefix) : SegmentOp σ Error Reading := do
  let r ← SegmentOp.readAt (window size out) out.bytes
  require (¬ (r.bytes = [] ∧ r.err ≠ none ∧ r.err ≠ some .eof))
    ⟨.fatal,out.bytes,"quarantine read failed",none⟩
  pure ⟨{ out with torn := true, tornOffset := out.bytes },r.bytes⟩

def readFrom (size : Nat) : Nat → Prefix → SegmentOp σ Error Reading
  | 0, out => pure ⟨out,[]⟩
  | rounds + 1, out =>
    if size ≤ out.bytes then pure ⟨out,[]⟩
    else do
      let r ← SegmentOp.readAt (window size out) out.bytes
      if r.bytes = [] ∧ r.err = some .eof then pure ⟨out,[]⟩
      else if r.bytes = [] ∧ r.err ≠ none then throw ⟨.fatal,out.bytes,"read failed",none⟩
      else
        match examine out r.bytes with
        | .more next => readFrom size rounds next
        | .torn => setAside size out
        | .failed e => throw e

/-- `ReadPrefix`: every round takes a record, so there are fewer rounds than bytes. -/
def readSegmentPrefix : SegmentOp σ Error Reading := do
  let size ← SegmentOp.size
  readFrom size (size + 1) {}

/-! The writer. -/

structure SegmentWriter where
  nextSeq : Nat
  prevCommitment : Digest
  closed : Bool := false
  deriving DecidableEq

def openSegmentWriter : SegmentOp σ Error (SegmentWriter × Reading) := do
  let p ← readSegmentPrefix
  pure (⟨p.nextSequence,if p.nextSequence = 1 then genesisCommitment else p.headCommitment,false⟩, p)

/-- `Writer.Append`; after an error the writer is the one before. -/
def SegmentWriter.append (w : SegmentWriter) (e : Item) : SegmentOp σ Failure (Record × SegmentWriter) := do
  require (w.closed = false) (.journal ⟨.closed,0,"writer closed",none⟩)
  let size ← SegmentOp.size
  require (¬ (0 < size ∧ w.nextSeq = 1))
    (.journal ⟨.state,0,"refusing append on inconsistent empty head",none⟩)
  let p ← mapError .journal readSegmentPrefix
  require (p.torn = false)
    (.journal ⟨.state,p.tornOffset,"torn tail present; truncate quarantine before append",none⟩)
  require (p.nextSequence = w.nextSeq)
    (.journal ⟨.state,0,"writer sequence diverged from segment",none⟩)
  let enc ← mapError .codec (ofExcept (encodeRecord (e.fields w.nextSeq w.prevCommitment)))
  require (size + enc.length ≤ maxJournalSegmentBytes)
    (.journal ⟨.fatal,0,"append would exceed MaxJournalSegmentBytes",none⟩)
  SegmentOp.append enc
  SegmentOp.sync
  let rec_ ← ofExcept (selfDecode enc size)
  pure (rec_, { w with nextSeq := w.nextSeq + 1, prevCommitment := rec_.recordCommitment })

/-! The places of the records in a chain. -/

variable (es : List Item)

/-- Where the record with this index starts, and how long it is. -/
def offsetOf (i : Nat) : Nat := (bytesOf (es.take i)).length

def lengthOf (i : Nat) : Nat := offsetOf es (i + 1) - offsetOf es i

section places

variable {es : List Item} {i : Nat}

section

variable (inside : i < es.length)
include inside

theorem take_next : es.take (i + 1) = es.take i ++ [es[i]] := (List.take_append_getElem inside).symm

theorem lengthOf_eq : lengthOf es i = (nextFields (es.take i) es[i]).length := by
  rw [lengthOf,offsetOf,offsetOf,take_next inside,bytesOf_append,List.length_append,
    Nat.add_sub_cancel_left,RecordFields.wire_length]

theorem stored_at : ∃ more, (bytesOf es).drop (offsetOf es i) = (nextFields (es.take i) es[i]).wire ++ more := by
  obtain ⟨more,split⟩ := bytesOf_front (es.take (i + 1)) (es.drop (i + 1))
  rw [List.take_append_drop,take_next inside,bytesOf_append,List.append_assoc] at split
  exact ⟨more,by rw [← split,offsetOf,List.drop_left]⟩

theorem offsetOf_lt : offsetOf es i < (bytesOf es).length := by
  obtain ⟨more,stored⟩ := stored_at inside
  have lengths := congrArg List.length stored
  have some_ := length_pos (nextFields (es.take i) es[i])
  simp only [List.length_drop,List.length_append,RecordFields.wire_length] at lengths
  omega

end

end places

/-! One round over a chain. -/

theorem after_append (e : Item) : ({} : Prefix).after (es ++ [e]) =
    (({} : Prefix).after es).accept (nextFields es e).record (nextFields es e).length := by
  have wire : (nextFields es e).wire.length = (nextFields es e).length := RecordFields.wire_length
  simp only [Prefix.after,Prefix.accept,recordsOf_append,headOf_append,chain_append,chain,List.append_nil,
    List.length_append,List.length_singleton,Nat.zero_add,List.nil_append,Nat.add_comm 1]
  rw [← wire]
  rfl

theorem checkLink_next (e : Item) : checkLink (({} : Prefix).after es) (nextFields es e).record = .ok () := by
  have next : (({} : Prefix).after es).nextSequence = es.length + 1 := Nat.add_comm 1 _
  have genesis : (({} : Prefix).after es).nextSequence = 1 →
      (nextFields es e).record.previousCommitment = genesisCommitment :=
    fun first => headOf_genesis (next ▸ first)
  simp only [checkLink,except_unit_bind_ok,demand_ok]
  exact ⟨next.symm,genesis,fun _ => rfl⟩

variable {es : List Item}

theorem examine_next {e : Item} (fits : e.Fits) (count : es.length + 1 < 2 ^ 64)
    (more : Bytes) : examine (({} : Prefix).after es) ((nextFields es e).wire ++ more) =
      .more (({} : Prefix).after (es ++ [e])) := by
  have decoded := RecordFields.decode_wire (nextFields_encodable fits : (nextFields es e).Encodable) count more
  rw [examine,decoded]
  dsimp only
  rw [checkLink_next,after_append]

theorem examine_part {e : Item} {n : Nat} (fits : e.Fits) (short : n < (nextFields es e).length) (out : Prefix) :
    examine out ((nextFields es e).wire.take n) = .torn := by
  obtain ⟨e,refused,torn⟩ := RecordFields.decode_torn (nextFields_encodable fits : (nextFields es e).Encodable) short
  rw [examine,refused]
  exact if_pos torn

/-! Faithful storage. -/

/-- In this state every read inside the segment shows these bytes and changes nothing. -/
structure Segment.Shows (seg : Segment σ) (s : σ) (data : Bytes) : Prop where
  size : seg.size s = data.length
  reads : ∀ want offset, 0 < want → offset + want ≤ data.length →
    seg.readAt want offset s = (⟨(data.drop offset).take want,none⟩,s)

/-- The reading of some bytes. -/
def Reading.of (data : Bytes) (p : Prefix) : Reading :=
  ⟨p,if p.torn then (data.drop p.bytes).take maxRecordBytes else []⟩

def lifted (data : Bytes) : Except Error Prefix → Outcome Error Reading
  | .ok p => .ok (.of data p)
  | .error e => .error e

section faithful

variable {σ : Type} {seg : Segment σ} {s : σ} {data : Bytes}

/-- A round of the reader over bytes, in terms of `examine`. -/
theorem readLoop_succ (rounds : Nat) (rest : Bytes) (out : Prefix) :
    readLoop (rounds + 1) rest out = if rest = [] then .ok out else
      match examine out (rest.take maxRecordBytes) with
      | .more next => readLoop rounds (rest.drop (next.bytes - out.bytes)) next
      | .torn => .ok { out with torn := true, tornOffset := out.bytes }
      | .failed e => .error e := by
  rw [readLoop]
  split
  · rfl
  · unfold examine
    rcases decodeRecord (rest.take maxRecordBytes) with e | ⟨rec,recLen⟩
    · dsimp only
      split <;> rfl
    · dsimp only
      rcases checkLink out rec with e | ⟨⟩
      · rfl
      · simp [Prefix.accept]

theorem window_take (size : data.length = n) (out : Prefix) :
    (data.drop out.bytes).take (window n out) = (data.drop out.bytes).take maxRecordBytes := by
  rw [window,← size,← List.length_drop,List.take_eq_take_iff]
  omega

theorem examine_more {out next : Prefix} {buf : Bytes} (h : examine out buf = .more next) :
    ∃ rec recLen, decodeRecord buf = .ok (rec,recLen) ∧ checkLink out rec = .ok () ∧ next = out.accept rec recLen := by
  unfold examine at h
  split at h
  · split at h <;> cases h
  · next rec recLen decoded =>
    split at h
    · cases h
    · next link =>
      cases h
      exact ⟨rec,recLen,decoded,link,rfl⟩

/-- The reader behind a chain, with rounds to spare for what follows. -/
theorem readPrefix_chain (fits : ∀ e ∈ es, e.Fits) (count : es.length < 2 ^ 64) (rest : Bytes) : ∃ k, rest.length ≤ k ∧
      readPrefix (bytesOf es ++ rest) = readLoop (k + 1) rest (({} : Prefix).after es) := by
  have enough := bytesOf_length es
  have rounds : (bytesOf es ++ rest).length + 1 = es.length + ((bytesOf es ++ rest).length - es.length + 1) := by
    simp only [List.length_append]
    omega
  refine ⟨(bytesOf es ++ rest).length - es.length,by simp only [List.length_append]; omega,?_⟩
  rw [readPrefix,rounds]
  exact readLoop_chain fits _ rest {} (by simp) (fun _ => rfl) (by
    change 1 + es.length ≤ 2 ^ 64
    omega)

/-- Whatever follows a chain, the reader takes more records of the chain from it. -/
theorem readPrefix_behind {rest : Bytes} {p : Prefix} (fits : ∀ e ∈ es, e.Fits) (count : es.length < 2 ^ 64)
    (read : readPrefix (bytesOf es ++ rest) = .ok p) : ∃ more t, (∀ e ∈ more, e.Fits) ∧
      es.length + more.length < 2 ^ 64 ∧ rest = chain (es.length + 1) (headOf 1 genesisCommitment es) more ++ t ∧
      (t = [] ∧ p = (({} : Prefix).after es).after more ∨
        t ≠ [] ∧ Unfinished t ∧ p = ((({} : Prefix).after es).after more).broken) := by
  obtain ⟨k,spare,run⟩ := readPrefix_chain fits count rest
  have next : (({} : Prefix).after es).nextSequence = es.length + 1 := Nat.add_comm 1 _
  rw [run] at read
  obtain ⟨more,t,fit,room,split,ends⟩ := readLoop_inv (Nat.lt_succ_of_le spare) (next.trans_le count)
    (fun first => headOf_genesis (next ▸ first)) read
  rw [next] at room split
  exact ⟨more,t,fit,by omega,split,ends⟩

/-- The reader over faithful storage is the reader over its bytes. -/
theorem readFrom_shows (shows_ : seg.Shows s data) (rounds : Nat) (out : Prefix) (whole : out.torn = false) :
    readFrom data.length rounds out seg s = (lifted data (readLoop rounds (data.drop out.bytes) out),s) := by
  induction rounds generalizing out with
  | zero => simp [readFrom,readLoop,lifted,Reading.of,whole,pure,Prog.pure]
  | succ rounds ih =>
    rw [readLoop_succ,readFrom]
    by_cases done : data.length ≤ out.bytes
    · rw [if_pos done,if_pos (List.drop_of_length_le done)]
      simp [lifted,Reading.of,whole,pure,Prog.pure]
    · have rest : data.drop out.bytes ≠ [] := by
        rw [Ne,List.drop_eq_nil_iff]
        exact done
      have inside : 0 < window data.length out ∧ out.bytes + window data.length out ≤ data.length := by
        simp only [window,maxRecordBytes,recordOverhead]
        omega
      have seen := shows_.reads _ _ inside.1 inside.2
      rw [window_take rfl] at seen
      have some_ : (data.drop out.bytes).take maxRecordBytes ≠ [] := by
        rw [Ne,List.take_eq_nil_iff]
        exact not_or.mpr ⟨by decide,rest⟩
      rw [if_neg done,if_neg rest]
      have asked : SegmentOp.readAt (ε := Error) (window data.length out) out.bytes seg s =
          (.ok ⟨(data.drop out.bytes).take maxRecordBytes,none⟩,s) := by
        rw [SegmentOp.readAt,seen]
      rw [bind_run asked]
      dsimp only
      rw [if_neg (fun h => some_ h.1),if_neg (fun h => some_ h.1)]
      cases verdict : examine out ((data.drop out.bytes).take maxRecordBytes) with
      | more next =>
        obtain ⟨rec,recLen,-,-,rfl⟩ := examine_more verdict
        refine (ih (out.accept rec recLen) whole).trans ?_
        simp [Prefix.accept]
      | torn =>
        dsimp only
        rw [setAside,bind_run asked,require_bind (by simp)]
        rfl
      | failed e => rfl

theorem readSegmentPrefix_shows (shows_ : seg.Shows s data) :
    readSegmentPrefix seg s = (lifted data (readPrefix data),s) := by
  have asked : SegmentOp.size (ε := Error) seg s = (.ok data.length,s) := by rw [SegmentOp.size,shows_.size]
  rw [readSegmentPrefix,bind_run asked,readFrom_shows shows_ _ {} rfl]
  rfl

/-- The writer stands behind these records. -/
structure SegmentWriter.At (w : SegmentWriter) (es : List Item) : Prop where
  next : w.nextSeq = es.length + 1
  prev : w.prevCommitment = headOf 1 genesisCommitment es

/-- Write the next record and move on behind it. -/
def handOver (w : SegmentWriter) (f : RecordFields) : SegmentOp σ Failure (Record × SegmentWriter) := do
  SegmentOp.append f.wire
  SegmentOp.sync
  pure (f.record, { w with nextSeq := w.nextSeq + 1, prevCommitment := f.commitment })

theorem SegmentWriter.At.moved {w : SegmentWriter} (h : w.At es) (e : Item) :
    SegmentWriter.At { w with nextSeq := w.nextSeq + 1
                              prevCommitment := (nextFields es e).commitment } (es ++ [e]) where
  next := by simp [h.next]
  prev := by
    rw [headOf_append,Nat.add_comm 1]
    rfl

variable {es : List Item} {t : Bytes} {w : SegmentWriter}

section

variable (shows_ : seg.Shows s (bytesOf es ++ t)) (sound : Sound es) (tail : Tail es t)
include shows_ sound tail

theorem readSegmentPrefix_chain : ∃ p : Reading, readSegmentPrefix seg s = (.ok p,s) ∧
      p.records = recordsOf 1 genesisCommitment es ∧ p.bytes = (bytesOf es).length ∧
      p.headCommitment = headOf 1 genesisCommitment es ∧ p.nextSequence = es.length + 1 ∧
      (p.torn = true ↔ t ≠ []) := by
  obtain ⟨torn,tornOffset,isTorn,parsed⟩ := readPrefix_ok sound.fits tail (Nat.le_of_lt sound.count)
  rw [readSegmentPrefix_shows shows_,parsed]
  exact ⟨_,rfl,rfl,rfl,rfl,rfl,isTorn⟩

theorem openSegmentWriter_chain : ∃ w p, openSegmentWriter seg s = (.ok (w,p),s) ∧ w.At es ∧
      p.bytes = (bytesOf es).length ∧ (p.torn = true ↔ t ≠ []) := by
  obtain ⟨p,read,-,bytes,head,next,isTorn⟩ := readSegmentPrefix_chain shows_ sound tail
  refine ⟨_,p,by rw [openSegmentWriter,bind_run read]; rfl,⟨next,?_⟩,bytes,isTorn⟩
  dsimp only
  split
  · next first =>
    rw [next] at first
    exact (headOf_genesis first).symm
  · exact head

/-- An append to a chain and its tail, by a writer that may have been left behind: refused
before anything is written, or the next record is handed over. -/
theorem SegmentWriter.append_cases (stale : ∃ k ≤ es.length, w.At (es.take k)) (e : Item) :
    (∃ f, w.append e seg s = (.error f,s)) ∨
    t = [] ∧ w.At es ∧ e.Fits ∧ Sound (es ++ [e]) ∧
      w.append e seg s = handOver w (nextFields es e) seg s := by
  obtain ⟨p,read,-,-,-,next,isTorn⟩ := readSegmentPrefix_chain shows_ sound tail
  have sized : SegmentOp.size (ε := Failure) seg s = (.ok (bytesOf es ++ t).length,s) := by
    rw [SegmentOp.size,shows_.size]
  unfold append
  by_cases closed : w.closed = false
  swap
  · exact .inl ⟨_,bind_failed (require_failed closed _ _ _)⟩
  rw [require_bind closed,bind_run sized]
  by_cases head : 0 < (bytesOf es ++ t).length ∧ w.nextSeq = 1
  · exact .inl ⟨_,bind_failed (require_failed (not_not.mpr head) _ _ _)⟩
  rw [require_bind head,bind_run (mapError_run _ read)]
  by_cases whole : p.torn = false
  swap
  · exact .inl ⟨_,bind_failed (require_failed whole _ _ _)⟩
  rw [require_bind whole]
  by_cases current : p.nextSequence = w.nextSeq
  swap
  · exact .inl ⟨_,bind_failed (require_failed current _ _ _)⟩
  rw [require_bind current]
  -- the writer is up to date: it stands behind all the records
  obtain rfl : t = [] := by
    by_contra some_
    rw [isTorn.mpr some_] at whole
    cases whole
  have at_ : w.At es := by
    obtain ⟨k,le,at_⟩ := stale
    have len : (es.take k).length = es.length := by
      have := at_.next
      omega
    rwa [List.take_of_length_le (by rw [List.length_take] at len; omega)] at at_
  have same : e.fields w.nextSeq w.prevCommitment = nextFields es e := by
    rw [at_.next,at_.prev]
    rfl
  rw [same]
  cases encoded : encodeRecord (nextFields es e) with
  | error x => exact .inl ⟨.codec x,bind_failed rfl⟩
  | ok enc =>
    obtain ⟨legal,rfl⟩ := RecordFields.encodable_of_encode encoded
    have fits : e.Fits := legal.payload
    refine Or.imp_right (fun h => ⟨rfl,at_,fits,h⟩) ?_
    have coded : mapError Failure.codec (Prog.ofExcept (.ok (nextFields es e).wire)) seg s =
        (.ok (nextFields es e).wire,s) := rfl
    rw [bind_run coded]
    by_cases room : (bytesOf es ++ []).length + (nextFields es e).wire.length ≤ maxJournalSegmentBytes
    swap
    · exact .inl ⟨_,bind_failed (require_failed room _ _ _)⟩
    rw [require_bind room,selfDecode_wire fits sound]
    rw [List.append_nil] at room
    exact .inr ⟨sound_append sound fits room,rfl⟩

end

end faithful

end Integris.Journal
