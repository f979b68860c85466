import Integris.Effect
import Integris.Sha256

/-! The journal record of `internal/codec`: header, payload, commitment and
trailer. Encoding followed by decoding gives the record back whatever follows
it, every proper prefix of a record is recognised as incomplete, and nothing but
the encoding of a record is accepted. -/
namespace Integris.Codec

def formatVersion : Nat := 1
def headerLength : Nat := 108
def recordOverhead : Nat := 152
def maxPayloadBytes : Nat := 2 ^ 20
def maxRecordBytes : Nat := recordOverhead + maxPayloadBytes
def maxJournalSegmentBytes : Nat := 2 ^ 30
def minFramingBytes : Nat := 16
def recordMagic : Bytes := ascii "INTJRN01"
def trailerMagic : Bytes := ascii "INTJRN0T"

inductive Kind where
  | incomplete | nonCanonical | limit | unsupported | digest
  deriving DecidableEq, Repr

structure Error where
  kind : Kind
  field : String
  message : String
  deriving DecidableEq, Repr

inductive RecordType where
  | observation | planDigest | authorization | progress | confirmation | cancellation
  | quarantine | recovery | checkpoint | evidenceReference
  deriving DecidableEq, Repr

namespace RecordType

def code : RecordType → Nat
  | observation => 1
  | planDigest => 2
  | authorization => 3
  | progress => 4
  | confirmation => 5
  | cancellation => 6
  | quarantine => 7
  | recovery => 8
  | checkpoint => 9
  | evidenceReference => 10

def ofCode : Nat → Option RecordType
  | 1 => some observation
  | 2 => some planDigest
  | 3 => some authorization
  | 4 => some progress
  | 5 => some confirmation
  | 6 => some cancellation
  | 7 => some quarantine
  | 8 => some recovery
  | 9 => some checkpoint
  | 10 => some evidenceReference
  | _ => none

theorem ofCode_code (t : RecordType) : ofCode t.code = some t := by cases t <;> rfl

theorem code_lt (t : RecordType) : t.code < 256 ^ 2 := by cases t <;> decide

end RecordType

abbrev TransactionID := Fixed 16

structure RecordFields where
  sequence : Nat
  transactionID : TransactionID
  type : RecordType
  previousCommitment : Digest
  payload : Bytes

structure Record where
  sequence : Nat
  transactionID : TransactionID
  type : RecordType
  payloadDigest : Digest
  previousCommitment : Digest
  payload : Bytes
  recordCommitment : Digest
  recordLength : Nat
  deriving DecidableEq

def header (recordLen seq : Nat) (txid : TransactionID) (type : Nat) (payloadDigest prev : Digest) :
    Bytes :=
  recordMagic ++ leBytes 2 formatVersion ++ leBytes 2 headerLength ++ leBytes 4 recordLen ++
    leBytes 8 seq ++ txid.val ++ leBytes 2 type ++ leBytes 2 0 ++ payloadDigest.val ++ prev.val

/-- The committed bytes are the record up to its commitment. -/
def commitmentPreimage (recordLen seq : Nat) (txid : TransactionID) (type : Nat)
    (payloadDigest prev : Digest) (payload : Bytes) : Bytes :=
  header recordLen seq txid type payloadDigest prev ++ payload

namespace RecordFields

def length (f : RecordFields) : Nat := recordOverhead + f.payload.length

def preimage (f : RecordFields) : Bytes :=
  commitmentPreimage f.length f.sequence f.transactionID f.type.code (sha256 f.payload)
    f.previousCommitment f.payload

def commitment (f : RecordFields) : Digest := sha256 f.preimage

def trailer (f : RecordFields) : Bytes := f.commitment.val ++ trailerMagic ++ leBytes 4 f.length

def wire (f : RecordFields) : Bytes := f.preimage ++ f.trailer

/-- What the encoder accepts. -/
structure Encodable (f : RecordFields) : Prop where
  sequence : f.sequence ≠ 0
  genesis : f.sequence = 1 → f.previousCommitment = genesisCommitment
  payload : f.payload.length ≤ maxPayloadBytes

def record (f : RecordFields) : Record where
  sequence := f.sequence
  transactionID := f.transactionID
  type := f.type
  payloadDigest := sha256 f.payload
  previousCommitment := f.previousCommitment
  payload := f.payload
  recordCommitment := f.commitment
  recordLength := f.length

end RecordFields

def encodeRecord (f : RecordFields) : Except Error Bytes := do
  demand (f.sequence ≠ 0) ⟨.nonCanonical,"sequence","must be >= 1"⟩
  demand (f.sequence = 1 → f.previousCommitment = genesisCommitment)
    ⟨.nonCanonical,"previous_commitment","genesis must be zero digest"⟩
  demand (f.payload.length ≤ maxPayloadBytes) ⟨.limit,"payload","exceeds MaxPayloadBytes"⟩
  demand (f.length ≤ maxRecordBytes) ⟨.limit,"record_length","exceeds MaxRecordBytes"⟩
  pure f.wire

def decodeType (code : Nat) : Except Error RecordType :=
  match RecordType.ofCode code with
  | some t => .ok t
  | none => .error ⟨.unsupported,"record_type","unknown or zero type"⟩

/-- The checks up to a complete record; they read the first 16 bytes only. -/
def decodeFraming (b : Bytes) : Except Error Nat := do
  demand (8 ≤ b.length) ⟨.incomplete,"record","truncated before magic"⟩
  demand (slice b 0 8 = recordMagic) ⟨.nonCanonical,"magic","not RecordMagic"⟩
  demand (minFramingBytes ≤ b.length) ⟨.incomplete,"record","truncated before record_length"⟩
  demand (leNat (slice b 8 10) = formatVersion)
    ⟨.unsupported,"format_version","unsupported journal format version"⟩
  demand (leNat (slice b 10 12) = headerLength)
    ⟨.nonCanonical,"header_length","must equal 108 for version 1"⟩
  let recordLen := leNat (slice b 12 16)
  demand (recordOverhead ≤ recordLen) ⟨.nonCanonical,"record_length","below minimum"⟩
  demand (recordLen ≤ maxRecordBytes) ⟨.limit,"record_length","exceeds MaxRecordBytes"⟩
  demand (recordLen ≤ b.length) ⟨.incomplete,"record","truncated before full record"⟩
  pure recordLen

def decodeRecord (b : Bytes) : Except Error (Record × Nat) := do
  let recordLen ← decodeFraming b
  let seq := leNat (slice b 16 24)
  demand (seq ≠ 0) ⟨.nonCanonical,"sequence","must be >= 1"⟩
  let txid := Fixed.ofBytes 16 (slice b 24 40)
  let type ← decodeType (leNat (slice b 40 42))
  demand (leNat (slice b 42 44) = 0) ⟨.nonCanonical,"reserved","must be zero"⟩
  let payloadLen := recordLen - recordOverhead
  demand (payloadLen ≤ maxPayloadBytes) ⟨.limit,"payload","derived length out of bounds"⟩
  let payloadDigest := Fixed.ofBytes 32 (slice b 44 76)
  let prev := Fixed.ofBytes 32 (slice b 76 108)
  let payload := slice b 108 (108 + payloadLen)
  demand (sha256 payload = payloadDigest) ⟨.digest,"payload_digest","mismatch"⟩
  demand (seq = 1 → prev = genesisCommitment)
    ⟨.nonCanonical,"previous_commitment","genesis must be zero digest"⟩
  let off := 108 + payloadLen
  let commitment := Fixed.ofBytes 32 (slice b off (off + 32))
  demand (slice b (off + 32) (off + 40) = trailerMagic)
    ⟨.nonCanonical,"trailer_magic","not TrailerMagic"⟩
  demand (leNat (slice b (off + 40) (off + 44)) = recordLen)
    ⟨.nonCanonical,"record_length","trailer duplicate mismatch"⟩
  demand (sha256 (commitmentPreimage recordLen seq txid type.code payloadDigest prev payload) =
    commitment) ⟨.digest,"record_commitment","mismatch"⟩
  pure (⟨seq,txid,type,payloadDigest,prev,payload,commitment,recordLen⟩, recordLen)

namespace RecordFields

variable {f : RecordFields}

theorem encode_ok (ok : f.Encodable) : encodeRecord f = .ok f.wire := by
  have fits : f.length ≤ maxRecordBytes := Nat.add_le_add_left ok.payload _
  simp only [encodeRecord,except_unit_bind_ok,demand_ok]
  exact ⟨ok.sequence,ok.genesis,ok.payload,fits,rfl⟩

variable {raw : Bytes}

theorem encodable_of_encode (h : encodeRecord f = .ok raw) : f.Encodable ∧ raw = f.wire := by
  simp only [encodeRecord,except_unit_bind_ok,demand_ok] at h
  obtain ⟨seq,genesis,payload,-,result⟩ := h
  cases result
  exact ⟨⟨seq,genesis,payload⟩,rfl⟩

@[simp] theorem preimage_length : f.preimage.length = 108 + f.payload.length := by
  have txid : f.transactionID.val.length = 16 := f.transactionID.property
  have prev : f.previousCommitment.val.length = 32 := f.previousCommitment.property
  have digest : (sha256 f.payload).val.length = 32 := (sha256 f.payload).property
  have magic : recordMagic.length = 8 := by decide
  simp [preimage,commitmentPreimage,header,txid,prev,digest,magic]
  omega

@[simp] theorem trailer_length : f.trailer.length = 44 := by
  have digest : f.commitment.val.length = 32 := f.commitment.property
  have magic : trailerMagic.length = 8 := by decide
  simp [trailer,digest,magic]

@[simp] theorem wire_length : f.wire.length = f.length := by
  simp [wire,length,recordOverhead]
  omega

/-- Each field of a record is read back from its own offset, whatever follows. -/
structure ReadBack (f : RecordFields) (raw : Bytes) : Prop where
  magic : slice raw 0 8 = recordMagic
  version : slice raw 8 10 = leBytes 2 formatVersion
  headerLength : slice raw 10 12 = leBytes 2 Codec.headerLength
  recordLength : slice raw 12 16 = leBytes 4 f.length
  sequence : slice raw 16 24 = leBytes 8 f.sequence
  transactionID : slice raw 24 40 = f.transactionID.val
  type : slice raw 40 42 = leBytes 2 f.type.code
  reserved : slice raw 42 44 = leBytes 2 0
  payloadDigest : slice raw 44 76 = (sha256 f.payload).val
  previous : slice raw 76 108 = f.previousCommitment.val
  payload : slice raw 108 (108 + f.payload.length) = f.payload
  commitment : slice raw (108 + f.payload.length) (108 + f.payload.length + 32) = f.commitment.val
  trailerMagic : slice raw (108 + f.payload.length + 32) (108 + f.payload.length + 40) = Codec.trailerMagic
  trailerLength : slice raw (108 + f.payload.length + 40) (108 + f.payload.length + 44) = leBytes 4 f.length

theorem wire_readBack (f : RecordFields) (rest : Bytes) : f.ReadBack (f.wire ++ rest) := by
  have txid : f.transactionID.val.length = 16 := f.transactionID.property
  have prev : f.previousCommitment.val.length = 32 := f.previousCommitment.property
  have digest : (sha256 f.payload).val.length = 32 := (sha256 f.payload).property
  have head : recordMagic.length = 8 := by decide
  have tail : Codec.trailerMagic.length = 8 := by decide
  have commit : f.commitment.val.length = 32 := f.commitment.property
  have shape : f.wire ++ rest = recordMagic ++ (leBytes 2 formatVersion ++
      (leBytes 2 Codec.headerLength ++ (leBytes 4 f.length ++ (leBytes 8 f.sequence ++
      (f.transactionID.val ++ (leBytes 2 f.type.code ++ (leBytes 2 0 ++ ((sha256 f.payload).val ++
      (f.previousCommitment.val ++ (f.payload ++ (f.commitment.val ++ (Codec.trailerMagic ++
      (leBytes 4 f.length ++ rest))))))))))))) := by
    simp only [wire,preimage,commitmentPreimage,Codec.header,trailer,List.append_assoc]
  rw [shape]
  constructor
  · exact slice_append_left head _
  -- every other field: skip the fields before it, then it is in front
  all_goals
    simp (disch := ((try simp only [leBytes_length]); omega)) only [slice_append_right,leBytes_length]
    refine slice_front (by omega) ?_ _
    (try simp only [leBytes_length]); omega

theorem length_bounds (ok : f.Encodable) : recordOverhead ≤ f.length ∧ f.length ≤ maxRecordBytes ∧ f.length < 256 ^ 4 := by
  have payload := ok.payload
  simp only [length,maxRecordBytes,recordOverhead,maxPayloadBytes] at payload ⊢
  omega

/-- The framing of a record, read from any text that starts with 16 bytes of it. -/
theorem framing_fields (ok : f.Encodable) (back : f.ReadBack raw) :
    leNat (slice raw 8 10) = formatVersion ∧ leNat (slice raw 10 12) = Codec.headerLength ∧
      leNat (slice raw 12 16) = f.length := by
  rw [back.version,back.headerLength,back.recordLength]
  exact ⟨leNat_leBytes_of_lt (by decide),leNat_leBytes_of_lt (by decide),leNat_leBytes_of_lt (length_bounds ok).2.2⟩

theorem decodeFraming_wire (ok : f.Encodable) (rest : Bytes) : decodeFraming (f.wire ++ rest) = .ok f.length := by
  have back := f.wire_readBack rest
  obtain ⟨version,headerLen,recordLen⟩ := framing_fields ok back
  obtain ⟨low,high,-⟩ := length_bounds ok
  have size : f.length ≤ (f.wire ++ rest).length := by simp
  simp only [decodeFraming,except_unit_bind_ok,demand_ok,back.magic,version,headerLen,recordLen]
  simp only [recordOverhead] at low
  exact ⟨by omega,trivial,by simp only [minFramingBytes]; omega,trivial,trivial,low,high,size,rfl⟩

theorem decode_wire (ok : f.Encodable) (seq : f.sequence < 2 ^ 64) (rest : Bytes) :
    decodeRecord (f.wire ++ rest) = .ok (f.record,f.length) := by
  have back := f.wire_readBack rest
  have sequence : leNat (slice (f.wire ++ rest) 16 24) = f.sequence := by
    rw [back.sequence,leNat_leBytes_of_lt (by simpa using seq)]
  have type : decodeType (leNat (slice (f.wire ++ rest) 40 42)) = .ok f.type := by
    rw [back.type,leNat_leBytes_of_lt f.type.code_lt,decodeType,RecordType.ofCode_code]
  have reserved : leNat (slice (f.wire ++ rest) 42 44) = 0 := by rw [back.reserved]; decide
  have payloadLen : f.length - recordOverhead = f.payload.length := by simp [length]
  have trailerLen : leNat (slice (f.wire ++ rest) (108 + f.payload.length + 40)
      (108 + f.payload.length + 44)) = f.length := by
    rw [back.trailerLength,leNat_leBytes_of_lt (length_bounds ok).2.2]
  simp only [decodeRecord,decodeFraming_wire ok rest,type,except_ok_bind,except_unit_bind_ok,
    demand_ok,sequence,reserved,payloadLen,back.payload,back.payloadDigest,back.previous,
    back.transactionID,back.commitment,back.trailerMagic,trailerLen,Fixed.ofBytes_of_val]
  exact ⟨ok.sequence,trivial,ok.payload,trivial,ok.genesis,trivial,trivial,rfl,rfl⟩

end RecordFields

/-! What the decoder accepts and what it calls incomplete. -/

theorem decodeType_ok {code : Nat} {t : RecordType} (h : decodeType code = .ok t) : code = t.code := by
  unfold decodeType at h
  split at h
  · next t' known =>
    cases h
    unfold RecordType.ofCode at known
    split at known <;> cases known <;> rfl
  · cases h

theorem decodeFraming_ok (h : decodeFraming b = .ok n) : slice b 0 8 = recordMagic ∧ leNat (slice b 8 10) = formatVersion ∧
      leNat (slice b 10 12) = headerLength ∧ leNat (slice b 12 16) = n ∧ recordOverhead ≤ n ∧
      n ≤ b.length := by
  simp only [decodeFraming,except_unit_bind_ok,demand_ok] at h
  obtain ⟨-,magic,-,version,headerLen,low,-,size,result⟩ := h
  cases result
  exact ⟨magic,version,headerLen,rfl,low,size⟩

/-- What is decoded is in canonical form: the bytes are the encoding of the record. -/
theorem decode_canonical {r : Record} (h : decodeRecord b = .ok (r,n)) :
    ∃ f : RecordFields, f.Encodable ∧ f.sequence < 2 ^ 64 ∧ r = f.record ∧ n = f.length ∧ f.wire <+: b := by
  unfold decodeRecord at h
  obtain ⟨n',framing,h⟩ := except_bind_ok.mp h
  obtain ⟨positive,h⟩ := demand_bind_ok.mp h
  obtain ⟨type,typed,h⟩ := except_bind_ok.mp h
  simp only [demand_bind_ok] at h
  obtain ⟨reserved,bound,digest,genesis,trailer,trailerLen,committed,result⟩ := h
  obtain ⟨magic,version,headerLen,recordLen,low,size⟩ := decodeFraming_ok framing
  cases result
  simp only [recordOverhead] at low bound digest trailer trailerLen committed
  obtain ⟨m,rfl⟩ := Nat.exists_eq_add_of_le low
  rw [Nat.add_sub_cancel_left] at bound digest trailer trailerLen committed
  set f : RecordFields := ⟨leNat (slice b 16 24),Fixed.ofBytes 16 (slice b 24 40),type,
    Fixed.ofBytes 32 (slice b 76 108),slice b 108 (108 + m)⟩ with hf
  have payload : f.payload.length = m := by
    rw [hf,slice_length (by omega)]
    omega
  have length : f.length = 152 + m := by rw [RecordFields.length,payload]; rfl
  have digested : sha256 f.payload = Fixed.ofBytes 32 (slice b 44 76) := by simpa using digest
  have field : ∀ {i j w v : Nat}, leNat (slice b i j) = v → j ≤ b.length → j - i = w →
      leBytes w v = slice b i j := fun value inside width => by
    rw [← value]
    exact leBytes_slice inside width
  have fixed : ∀ {i j n : Nat}, j ≤ b.length → j - i = n →
      (Fixed.ofBytes n (slice b i j)).val = slice b i j := ofBytes_slice
  have preimage : f.preimage = slice b 0 (108 + m) := by
    rw [RecordFields.preimage,commitmentPreimage,header,length,digested,← magic,
      field version (by omega) rfl,field headerLen (by omega) rfl,field recordLen (by omega) rfl,
      field (v := f.sequence) rfl (by omega) rfl,field (decodeType_ok typed) (by omega) rfl,
      field reserved (by omega) rfl,fixed (i := 44) (j := 76) (by omega) rfl]
    simp only [hf,fixed (i := 24) (j := 40) (by omega) rfl,fixed (i := 76) (j := 108) (by omega) rfl]
    simp (disch := omega) only [slice_append_slice]
  have commitment : f.commitment = Fixed.ofBytes 32 (slice b (108 + m) (108 + m + 32)) := by
    rw [← committed,RecordFields.commitment,RecordFields.preimage,length,digested]
  have wire : f.wire = slice b 0 (152 + m) := by
    rw [RecordFields.wire,RecordFields.trailer,preimage,commitment,length,← trailer,
      field trailerLen (by omega) (by omega),fixed (by omega) (by omega),← List.append_assoc,
      ← List.append_assoc]
    simp (disch := omega) only [slice_append_slice]
    congr 1
    omega
  refine ⟨f,⟨positive,genesis,payload.trans_le bound⟩,?_,?_,length.symm,?_⟩
  · have := leNat_lt (slice b 16 24)
    rwa [slice_length (by omega)] at this
  · simp only [recordOverhead,Nat.add_sub_cancel_left,RecordFields.record]
    rw [commitment,length,digested]
  · rw [wire,slice,List.drop_zero]
    exact List.take_prefix _ _

/-- The decoder step never calls its input incomplete. -/
def Sure (x : Except Error α) : Prop := ∀ e, x = .error e → e.kind ≠ .incomplete

theorem Sure.demand {p : Prop} [Decidable p] {e : Error} (kind : e.kind ≠ .incomplete) : Sure (demand p e) := by
  intro x h
  rw [(demand_error.mp h).2]
  exact kind

theorem Sure.bind {x : Except Error α} {rest : α → Except Error β} (first : Sure x)
    (next : ∀ a, Sure (rest a)) : Sure (x >>= rest) := by
  intro e h
  rcases except_bind_error.mp h with h | ⟨a,-,h⟩
  · exact first e h
  · exact next a e h

theorem Sure.decodeType (code : Nat) : Sure (decodeType code) := by
  intro e h
  unfold Codec.decodeType at h
  split at h <;> cases h
  simp

/-- The framing of a record that declares more bytes than there are. -/
structure Overlong (b : Bytes) : Prop where
  magic : slice b 0 8 = recordMagic
  version : leNat (slice b 8 10) = formatVersion
  headerLen : leNat (slice b 10 12) = headerLength
  low : recordOverhead ≤ leNat (slice b 12 16)
  high : leNat (slice b 12 16) ≤ maxRecordBytes
  beyond : b.length < leNat (slice b 12 16)

/-- The start of a record that is not all there. -/
inductive Unfinished (b : Bytes) : Prop
  | short (few : b.length < 8)
  | unframed (magic : slice b 0 8 = recordMagic) (few : b.length < minFramingBytes)
  | overlong (long : Overlong b)

theorem Unfinished.length_lt (torn : Unfinished b) : b.length < maxRecordBytes := by
  have room : minFramingBytes ≤ maxRecordBytes := by decide
  cases torn with
  | short few => exact Nat.lt_of_lt_of_le few (by decide)
  | unframed _ few => exact Nat.lt_of_lt_of_le few room
  | overlong long => exact Nat.lt_of_lt_of_le long.beyond long.high

/-- Only the framing can leave a record incomplete. -/
theorem decode_incomplete_iff : (∃ e, decodeRecord b = .error e ∧ e.kind = .incomplete) ↔ Unfinished b := by
  constructor
  · rintro ⟨e,h,torn⟩
    unfold decodeRecord at h
    rcases except_bind_error.mp h with framing | ⟨n,-,h⟩
    · unfold decodeFraming at framing
      simp only [demand_bind_error] at framing
      rcases framing with ⟨short,rfl⟩ | ⟨-,⟨-,rfl⟩ | ⟨magic,⟨short,rfl⟩ | ⟨-,⟨-,rfl⟩ | ⟨version,⟨-,rfl⟩ |
        ⟨headerLen,⟨-,rfl⟩ | ⟨low,⟨-,rfl⟩ | ⟨high,⟨short,rfl⟩ | ⟨-,done⟩⟩⟩⟩⟩⟩⟩⟩
      · exact .short (Nat.lt_of_not_le short)
      · cases torn
      · exact .unframed magic (Nat.lt_of_not_le short)
      · cases torn
      · cases torn
      · cases torn
      · cases torn
      · exact .overlong ⟨magic,version,headerLen,low,high,Nat.lt_of_not_le short⟩
      · cases done
    · refine absurd torn (Sure.bind (.demand (by decide)) (fun _ => .bind (.decodeType _) fun _ =>
        .bind (.demand (by decide)) fun _ => .bind (.demand (by decide)) fun _ =>
        .bind (.demand (by decide)) fun _ => .bind (.demand (by decide)) fun _ =>
        .bind (.demand (by decide)) fun _ => .bind (.demand (by decide)) fun _ =>
        .bind (.demand (by decide)) fun _ => ?_) e h)
      intro e h
      cases h
  · intro unfinished
    by_cases begun : 8 ≤ b.length
    swap
    · exact ⟨_,by simp [decodeRecord,decodeFraming,demand,begun,bind,Except.bind]; rfl,rfl⟩
    cases unfinished with
    | short few => omega
    | unframed magic few =>
      exact ⟨_,by simp [decodeRecord,decodeFraming,demand,begun,magic,Nat.not_le.mpr few,bind,Except.bind]; rfl,rfl⟩
    | overlong long =>
      by_cases framed : minFramingBytes ≤ b.length
      · exact ⟨_,by simp [decodeRecord,decodeFraming,demand,begun,long.magic,framed,long.version,long.headerLen,
          long.low,long.high,Nat.not_le.mpr long.beyond,bind,Except.bind]; rfl,rfl⟩
      · exact ⟨_,by simp [decodeRecord,decodeFraming,demand,begun,long.magic,framed,bind,Except.bind]; rfl,rfl⟩

theorem RecordFields.decode_torn {f : RecordFields} (ok : f.Encodable) (short : n < f.length) :
    ∃ e, decodeRecord (f.wire.take n) = .error e ∧ e.kind = .incomplete := by
  have back := f.wire_readBack []
  rw [List.append_nil] at back
  obtain ⟨version,headerLen,recordLen⟩ := framing_fields ok back
  obtain ⟨low,high,-⟩ := length_bounds ok
  have size : (f.wire.take n).length = n := by simp; omega
  refine decode_incomplete_iff.mpr ?_
  by_cases begun : 8 ≤ n
  swap
  · exact .short (by omega)
  have magic : slice (f.wire.take n) 0 8 = recordMagic := by rw [slice_take begun,back.magic]
  by_cases framed : minFramingBytes ≤ n
  swap
  · exact .unframed magic (by omega)
  simp only [minFramingBytes] at framed
  refine .overlong ⟨magic,?_,?_,?_,?_,?_⟩ <;> rw [slice_take (by omega)]
  · exact version
  · exact headerLen
  · rwa [recordLen]
  · rwa [recordLen]
  · rwa [recordLen,size]

/-! How far the decoder looks. -/

theorem decodeFraming_take (b : Bytes) : decodeFraming (b.take maxRecordBytes) = decodeFraming b := by
  by_cases short : b.length ≤ maxRecordBytes
  · rw [List.take_of_length_le short]
  · have long : maxRecordBytes < b.length := Nat.lt_of_not_le short
    have length : (b.take maxRecordBytes).length = maxRecordBytes := by
      rw [List.length_take]
      omega
    have room : 16 ≤ maxRecordBytes := by decide
    have field {i j : Nat} (inside : j ≤ 16) : slice (b.take maxRecordBytes) i j = slice b i j :=
      slice_take (Nat.le_trans inside room)
    have framed (n : Nat) (e : Error) (low : n ≤ maxRecordBytes) :
        demand (n ≤ maxRecordBytes) e = demand (n ≤ b.length) e := by
      rw [demand_ok.mpr low,demand_ok.mpr (Nat.le_trans low (Nat.le_of_lt long))]
    unfold decodeFraming
    rw [length,field (by decide),field (by decide),field (by decide),field (by decide),
      framed 8 _ (by decide),framed minFramingBytes _ (by decide)]
    dsimp only
    by_cases high : leNat (slice b 12 16) ≤ maxRecordBytes
    · rw [framed _ ⟨.incomplete,"record","truncated before full record"⟩ high]
    · -- an excessive length is refused before the data are measured
      rw [demand_error.mpr ⟨high,rfl⟩]
      rfl

theorem decodeFraming_limit {b : Bytes} {n : Nat} (h : decodeFraming b = .ok n) : n ≤ maxRecordBytes := by
  simp only [decodeFraming,except_unit_bind_ok,demand_ok] at h
  obtain ⟨-,-,-,-,-,-,high,-,result⟩ := h
  cases result
  exact high

/-- The window the reader looks at decides as much as all the bytes behind it. -/
theorem decodeRecord_take (b : Bytes) : decodeRecord (b.take maxRecordBytes) = decodeRecord b := by
  unfold decodeRecord
  rw [decodeFraming_take]
  rcases framing : decodeFraming b with e | n
  · rfl
  · have low : recordOverhead ≤ n := (decodeFraming_ok framing).2.2.2.2.1
    have high : n ≤ maxRecordBytes := decodeFraming_limit framing
    have field {i j : Nat} (inside : j ≤ n) : slice (b.take maxRecordBytes) i j = slice b i j :=
      slice_take (Nat.le_trans inside high)
    have fixed {i j : Nat} (inside : j ≤ 152) : slice (b.take maxRecordBytes) i j = slice b i j :=
      field (Nat.le_trans inside low)
    have last {i : Nat} (k : Nat) (inside : 108 + k ≤ 152) :
        slice (b.take maxRecordBytes) i (108 + (n - recordOverhead) + k) = slice b i (108 + (n - recordOverhead) + k) := by
      refine field ?_
      simp only [recordOverhead] at low ⊢
      omega
    have payload : slice (b.take maxRecordBytes) 108 (108 + (n - recordOverhead)) =
        slice b 108 (108 + (n - recordOverhead)) := by
      refine field ?_
      simp only [recordOverhead] at low ⊢
      omega
    simp only [except_ok_bind]
    rw [fixed (i := 16) (j := 24) (by omega),fixed (i := 24) (j := 40) (by omega),
      fixed (i := 40) (j := 42) (by omega),fixed (i := 42) (j := 44) (by omega),
      fixed (i := 44) (j := 76) (by omega),fixed (i := 76) (j := 108) (by omega),payload,
      last 32 (by omega),last 40 (by omega),last 44 (by omega)]

/-- The codec is canonical. An encoding decodes to its fields whatever follows it, what is
decoded begins with the encoding of what was read, and a proper prefix of an encoding is
incomplete. -/
theorem record_codec_canonical :
    (∀ (f : RecordFields) (raw : Bytes), f.sequence < 2 ^ 64 → encodeRecord f = .ok raw →
      ∀ rest, decodeRecord (raw ++ rest) = .ok (f.record, raw.length)) ∧
    (∀ (b : Bytes) (r : Record) (n : Nat), decodeRecord b = .ok (r, n) →
      ∃ (f : RecordFields) (raw : Bytes), encodeRecord f = .ok raw ∧ r = f.record ∧
        n = raw.length ∧ raw <+: b) ∧
    (∀ (f : RecordFields) (raw : Bytes), encodeRecord f = .ok raw →
      ∀ front, front <+: raw → front ≠ raw →
        ∃ e, decodeRecord front = .error e ∧ e.kind = .incomplete) := by
  refine ⟨fun f raw fits encoded rest => ?_,fun b r n decoded => ?_,fun f raw encoded front part strict => ?_⟩
  · obtain ⟨ok,rfl⟩ := RecordFields.encodable_of_encode encoded
    rw [RecordFields.decode_wire ok fits rest,RecordFields.wire_length]
  · obtain ⟨f,ok,-,rfl,rfl,begins⟩ := decode_canonical decoded
    exact ⟨f,f.wire,RecordFields.encode_ok ok,rfl,by rw [RecordFields.wire_length],begins⟩
  · obtain ⟨ok,rfl⟩ := RecordFields.encodable_of_encode encoded
    have shape : front = f.wire.take front.length := List.prefix_iff_eq_take.mp part
    have short : front.length < f.length := by
      rw [← RecordFields.wire_length]
      refine Nat.lt_of_le_of_ne part.length_le fun same => strict (part.eq_of_length same)
    rw [shape]
    exact RecordFields.decode_torn ok short

def sampleRecord : RecordFields := ⟨1,Fixed.zero 16,.observation,genesisCommitment,[1]⟩

theorem record_codec_sample : ∃ raw, encodeRecord sampleRecord = .ok raw ∧
    decodeRecord (raw ++ [7]) = .ok (sampleRecord.record, raw.length) ∧
    ∃ e, decodeRecord [] = .error e ∧ e.kind = .incomplete := by
  have ok : sampleRecord.Encodable := ⟨by decide,fun _ => rfl,by decide⟩
  have encoded := RecordFields.encode_ok ok
  refine ⟨_,encoded,record_codec_canonical.1 _ _ (by decide) encoded [7],?_⟩
  refine record_codec_canonical.2.2 _ _ encoded [] List.nil_prefix fun same => ?_
  have size := congrArg List.length same
  rw [RecordFields.wire_length] at size
  exact absurd size (by decide)

end Integris.Codec
