import Integris.JournalCodec
import Integris.Os

/-! The append-only journal of `internal/journal`: the reader of the longest
valid prefix, the writer that continues it, and what a journal file holds: a
chain of records, perhaps followed by a proper part of one more. -/
namespace Integris.Journal

open Posix Prog Codec

inductive Kind where
  | tornTail | fatal | closed | state
  deriving DecidableEq, Repr

structure Error where
  kind : Kind
  offset : Nat
  message : String
  cause : Option Codec.Error := none
  deriving DecidableEq

/-- The `error` values this package returns. -/
inductive Failure where
  | journal (e : Error)
  | codec (e : Codec.Error)
  | errno (e : Errno)
  deriving DecidableEq

structure Prefix where
  records : List Record := []
  bytes : Nat := 0
  headCommitment : Digest := genesisCommitment
  nextSequence : Nat := 1
  torn : Bool := false
  tornOffset : Nat := 0
  deriving DecidableEq

/-- One record further. -/
def Prefix.accept (out : Prefix) (rec : Record) (recLen : Nat) : Prefix :=
  { out with
    records := out.records ++ [rec]
    bytes := out.bytes + recLen
    headCommitment := rec.recordCommitment
    nextSequence := rec.sequence + 1 }

/-- The chain and monotonicity checks. -/
def checkLink (out : Prefix) (rec : Record) : Except Error Unit := do
  demand (rec.sequence = out.nextSequence) ⟨.fatal,out.bytes,"sequence gap or restart",none⟩
  demand (out.nextSequence = 1 → rec.previousCommitment = genesisCommitment)
    ⟨.fatal,out.bytes,"genesis previous_commitment mismatch",none⟩
  demand (out.nextSequence ≠ 1 → rec.previousCommitment = out.headCommitment)
    ⟨.fatal,out.bytes,"previous_commitment fork",none⟩

/-- The reader's loop over what is left of the segment; each round takes a record. -/
def readLoop : Nat → Bytes → Prefix → Except Error Prefix
  | 0, _, out => .ok out
  | rounds + 1, rest, out =>
    if rest = [] then .ok out
    else
      match decodeRecord (rest.take maxRecordBytes) with
      | .error e =>
        if e.kind = .incomplete then .ok { out with torn := true, tornOffset := out.bytes }
        else .error ⟨.fatal,out.bytes,"interior corruption or non-canonical record",some e⟩
      | .ok (rec, recLen) =>
        match checkLink out rec with
        | .error e => .error e
        | .ok () => readLoop rounds (rest.drop recLen) (out.accept rec recLen)

def readPrefix (segment : Bytes) : Except Error Prefix := readLoop (segment.length + 1) segment {}

/-! What a journal file holds. -/

/-- One record without its place in the chain. -/
structure Item where
  transactionID : TransactionID
  type : RecordType
  payload : Bytes
  deriving DecidableEq

namespace Item

def fields (e : Item) (seq : Nat) (prev : Digest) : RecordFields :=
  ⟨seq,e.transactionID,e.type,prev,e.payload⟩

def Fits (e : Item) : Prop := e.payload.length ≤ maxPayloadBytes

end Item

/-- The commitment the next record has to name. -/
def headOf : Nat → Digest → List Item → Digest
  | _, prev, [] => prev
  | seq, prev, e :: es => headOf (seq + 1) (e.fields seq prev).commitment es

def recordsOf : Nat → Digest → List Item → List Record
  | _, _, [] => []
  | seq, prev, e :: es =>
    (e.fields seq prev).record :: recordsOf (seq + 1) (e.fields seq prev).commitment es

def chain : Nat → Digest → List Item → Bytes
  | _, _, [] => []
  | seq, prev, e :: es => (e.fields seq prev).wire ++ chain (seq + 1) (e.fields seq prev).commitment es

def bytesOf (es : List Item) : Bytes := chain 1 genesisCommitment es

/-- The fields of the record that would come next. -/
def nextFields (es : List Item) (e : Item) : RecordFields :=
  e.fields (es.length + 1) (headOf 1 genesisCommitment es)

/-- What a stopped append leaves behind the chain. -/
def Tail (es : List Item) (t : Bytes) : Prop :=
  ∃ e n, e.Fits ∧ n < (nextFields es e).length ∧ t = (nextFields es e).wire.take n

theorem headOf_append (seq : Nat) (prev : Digest) (es : List Item) (e : Item) : headOf seq prev (es ++ [e]) =
      (e.fields (seq + es.length) (headOf seq prev es)).commitment := by
  induction es generalizing seq prev with
  | nil => rfl
  | cons x es ih => rw [List.cons_append,headOf,ih,headOf,List.length_cons,Nat.add_right_comm,Nat.add_assoc]

@[simp] theorem recordsOf_length (seq : Nat) (prev : Digest) (es : List Item) :
    (recordsOf seq prev es).length = es.length := by
  induction es generalizing seq prev with
  | nil => rfl
  | cons e es ih => rw [recordsOf,List.length_cons,ih,List.length_cons]

theorem recordsOf_append (seq : Nat) (prev : Digest) (es : List Item) (e : Item) : recordsOf seq prev (es ++ [e]) =
      recordsOf seq prev es ++ [(e.fields (seq + es.length) (headOf seq prev es)).record] := by
  induction es generalizing seq prev with
  | nil => rfl
  | cons x es ih =>
    rw [List.cons_append,recordsOf,ih,recordsOf,headOf,List.length_cons,Nat.add_right_comm,Nat.add_assoc,List.cons_append]

theorem chain_append (seq : Nat) (prev : Digest) (es more : List Item) :
    chain seq prev (es ++ more) = chain seq prev es ++ chain (seq + es.length) (headOf seq prev es) more := by
  induction es generalizing seq prev with
  | nil => rfl
  | cons x es ih =>
    rw [List.cons_append,chain,ih,chain,headOf,List.length_cons,Nat.add_right_comm,Nat.add_assoc,List.append_assoc]

theorem bytesOf_append (es : List Item) (e : Item) : bytesOf (es ++ [e]) = bytesOf es ++ (nextFields es e).wire := by
  rw [bytesOf,chain_append,bytesOf,nextFields,Nat.add_comm 1,chain,chain,List.append_nil]

theorem bytesOf_front (front rest : List Item) : bytesOf front <+: bytesOf (front ++ rest) := by
  rw [bytesOf,bytesOf,chain_append]
  exact List.prefix_append _ _

theorem recordsOf_front (seq : Nat) (prev : Digest) (front rest : List Item) :
    recordsOf seq prev front <+: recordsOf seq prev (front ++ rest) := by
  induction rest using List.reverseRecOn with
  | nil => rw [List.append_nil]
  | append_singleton rest e ih =>
    rw [← List.append_assoc,recordsOf_append]
    exact ih.trans (List.prefix_append _ _)

variable {e : Item} {es : List Item}

theorem encodable_fields {seq : Nat} {prev : Digest} (fits : e.Fits) (pos : seq ≠ 0)
    (genesis : seq = 1 → prev = genesisCommitment) : (e.fields seq prev).Encodable :=
  ⟨pos,genesis,fits⟩

theorem headOf_genesis (first : es.length + 1 = 1) : headOf 1 genesisCommitment es = genesisCommitment := by
  obtain rfl : es = [] := List.length_eq_zero_iff.mp (by omega)
  rfl

theorem nextFields_encodable (fits : e.Fits) : (nextFields es e).Encodable :=
  encodable_fields fits (Nat.succ_ne_zero _) headOf_genesis

theorem length_pos (f : RecordFields) : 0 < f.length := by
  simp only [RecordFields.length,recordOverhead]
  omega

theorem bytesOf_length (es : List Item) : 152 * es.length ≤ (bytesOf es).length := by
  have : ∀ seq prev, 152 * es.length ≤ (chain seq prev es).length := by
    induction es with
    | nil => simp
    | cons e es ih =>
      intro seq prev
      have := ih (seq + 1) (e.fields seq prev).commitment
      simp only [chain,List.length_append,RecordFields.wire_length,List.length_cons,RecordFields.length,recordOverhead]
      omega
  exact this 1 genesisCommitment

/-- The state of the reader after a whole chain. -/
def Prefix.after (out : Prefix) (es : List Item) : Prefix :=
  { out with
    records := out.records ++ recordsOf out.nextSequence out.headCommitment es
    bytes := out.bytes + (chain out.nextSequence out.headCommitment es).length
    headCommitment := headOf out.nextSequence out.headCommitment es
    nextSequence := out.nextSequence + es.length }

@[simp] theorem after_torn (out : Prefix) : (out.after es).torn = out.torn := rfl

theorem after_bytes : (({} : Prefix).after es).bytes = (bytesOf es).length := Nat.zero_add _

theorem after_nil (out : Prefix) : out.after [] = out := by simp [Prefix.after,recordsOf,chain,headOf]

theorem after_cons (out : Prefix) (e : Item) (es : List Item) :
    (out.accept (e.fields out.nextSequence out.headCommitment).record
      (e.fields out.nextSequence out.headCommitment).length).after es = out.after (e :: es) := by
  simp only [Prefix.accept,Prefix.after,recordsOf,headOf,chain,List.append_assoc,List.singleton_append,
    List.length_append,RecordFields.wire_length,List.length_cons,Nat.add_assoc,Nat.add_comm 1]
  rfl

theorem readLoop_chain (fits : ∀ e ∈ es, e.Fits) (rounds : Nat) (tail : Bytes) (out : Prefix) (pos : out.nextSequence ≠ 0)
    (genesis : out.nextSequence = 1 → out.headCommitment = genesisCommitment)
    (room : out.nextSequence + es.length ≤ 2 ^ 64) :
    readLoop (es.length + rounds) (chain out.nextSequence out.headCommitment es ++ tail) out =
      readLoop rounds tail (out.after es) := by
  induction es generalizing out with
  | nil => rw [chain,after_nil,List.length_nil,Nat.zero_add,List.nil_append]
  | cons e es ih =>
    have ok := encodable_fields (fits e (by simp)) pos genesis
    set f := e.fields out.nextSequence out.headCommitment with hf
    have short : f.wire.length ≤ maxRecordBytes := by
      rw [RecordFields.wire_length]
      exact (RecordFields.length_bounds ok).2.1
    have buffer : ∀ x, ∃ y, (f.wire ++ x).take maxRecordBytes = f.wire ++ y := fun x =>
      ⟨x.take (maxRecordBytes - f.wire.length),by rw [List.take_append,List.take_of_length_le short]⟩
    obtain ⟨y,seen⟩ := buffer (chain (out.nextSequence + 1) f.commitment es ++ tail)
    have nonempty : f.wire ++ (chain (out.nextSequence + 1) f.commitment es ++ tail) ≠ [] := by
      intro h
      have := congrArg List.length h
      have := length_pos f
      simp only [List.length_append,RecordFields.wire_length,List.length_nil] at *
      omega
    have link : checkLink out f.record = .ok () := by
      simp only [checkLink,except_unit_bind_ok,demand_ok]
      exact ⟨rfl,genesis,fun _ => rfl⟩
    have decoded := RecordFields.decode_wire ok (by
      have : f.sequence = out.nextSequence := rfl
      simp only [List.length_cons] at room
      omega) y
    have step := ih (fun e he => fits e (List.mem_cons_of_mem _ he)) (out.accept f.record f.length)
      (Nat.succ_ne_zero _) (fun h => absurd (Nat.succ.inj h) pos)
      (by simp only [Prefix.accept,List.length_cons] at room ⊢
          have : f.record.sequence = out.nextSequence := rfl
          omega)
    rw [List.length_cons,Nat.add_right_comm,readLoop,chain,← hf,List.append_assoc,if_neg nonempty,seen,decoded]
    simp only [link]
    rw [List.drop_left' (by rw [RecordFields.wire_length]),← after_cons,← hf,← step]
    rfl

/-- A torn tail behind the records. -/
def Prefix.broken (p : Prefix) : Prefix := { p with torn := true, tornOffset := p.bytes }

@[simp] theorem broken_bytes (p : Prefix) : p.broken.bytes = p.bytes := rfl

@[simp] theorem broken_torn (p : Prefix) : p.broken.torn = true := rfl

theorem checkLink_fields {out : Prefix} {f : RecordFields} (link : checkLink out f.record = .ok ())
    (genesis : out.nextSequence = 1 → out.headCommitment = genesisCommitment) :
    f = Item.fields ⟨f.transactionID,f.type,f.payload⟩ out.nextSequence out.headCommitment := by
  simp only [checkLink,except_unit_bind_ok,demand_ok] at link
  obtain ⟨seq,first,later⟩ := link
  have prev : f.previousCommitment = out.headCommitment := by
    by_cases one : out.nextSequence = 1
    · exact (first one).trans (genesis one).symm
    · exact later one
  cases f
  cases seq
  cases prev
  rfl

/-- What the reader accepts is a chain, and behind it at most the start of a record. -/
theorem readLoop_inv {rounds : Nat} {rest : Bytes} {out p : Prefix} (enough : rest.length < rounds)
    (room : out.nextSequence ≤ 2 ^ 64) (genesis : out.nextSequence = 1 → out.headCommitment = genesisCommitment)
    (read : readLoop rounds rest out = .ok p) : ∃ es t, (∀ e ∈ es, e.Fits) ∧ out.nextSequence + es.length ≤ 2 ^ 64 ∧
      rest = chain out.nextSequence out.headCommitment es ++ t ∧
      (t = [] ∧ p = out.after es ∨ t ≠ [] ∧ Unfinished t ∧ p = (out.after es).broken) := by
  induction rounds generalizing rest out with
  | zero => omega
  | succ rounds ih =>
    rw [readLoop,decodeRecord_take] at read
    split at read
    · next done =>
      cases read
      exact ⟨[],[],by simp,room,done,.inl ⟨rfl,(after_nil _).symm⟩⟩
    next some_ =>
    split at read
    · next e refused =>
      split at read
      · next torn =>
        cases read
        refine ⟨[],rest,by simp,room,rfl,.inr ⟨some_,decode_incomplete_iff.mp ⟨e,refused,torn⟩,?_⟩⟩
        rw [after_nil]
        rfl
      · cases read
    next rec n decoded =>
    split at read
    · cases read
    next link =>
    obtain ⟨f,ok,seq,rfl,rfl,tail,rfl⟩ := decode_canonical decoded
    have same := checkLink_fields link genesis
    set e : Item := ⟨f.transactionID,f.type,f.payload⟩
    have number : f.sequence = out.nextSequence := congrArg RecordFields.sequence same
    have positive := length_pos f
    rw [List.length_append,RecordFields.wire_length] at enough
    rw [List.drop_left' RecordFields.wire_length] at read
    obtain ⟨es,t,fits,space,rfl,ends⟩ := ih (by omega) (Nat.succ_le_of_lt seq)
      (fun one => absurd (Nat.succ.inj one) ok.sequence) read
    have space : f.sequence + 1 + es.length ≤ 2 ^ 64 := space
    have fit : e.Fits := ok.payload
    refine ⟨e :: es,t,List.forall_mem_cons.mpr ⟨fit,fits⟩,?_,?_,?_⟩
    · rw [List.length_cons,← number]
      omega
    · rw [chain,← same,List.append_assoc,← number]
      rfl
    · rwa [← after_cons,← same]

theorem readPrefix_inv {data : Bytes} {p : Prefix} (read : readPrefix data = .ok p) :
    ∃ es t, (∀ e ∈ es, e.Fits) ∧ es.length < 2 ^ 64 ∧ data = bytesOf es ++ t ∧
      (t = [] ∧ p = ({} : Prefix).after es ∨ t ≠ [] ∧ Unfinished t ∧ p = (({} : Prefix).after es).broken) := by
  obtain ⟨es,t,fits,room,split,ends⟩ := readLoop_inv (Nat.lt_succ_self _) (by decide) (fun _ => rfl) read
  have room : 1 + es.length ≤ 2 ^ 64 := room
  exact ⟨es,t,fits,by omega,split,ends⟩

theorem readPrefix_ok {t : Bytes} (fits : ∀ e ∈ es, e.Fits) (tail : Tail es t) (room : es.length + 1 ≤ 2 ^ 64) :
    ∃ torn tornOffset, (torn = true ↔ t ≠ []) ∧ readPrefix (bytesOf es ++ t) = .ok
      { records := recordsOf 1 genesisCommitment es, bytes := (bytesOf es).length
        headCommitment := headOf 1 genesisCommitment es, nextSequence := es.length + 1
        torn,tornOffset } := by
  obtain ⟨e,n,fit,short,rfl⟩ := tail
  have enough := bytesOf_length es
  obtain ⟨k,hk⟩ : ∃ k, (bytesOf es ++ (nextFields es e).wire.take n).length + 1 = es.length + (k + 1) :=
    ⟨(bytesOf es ++ (nextFields es e).wire.take n).length - es.length,by simp only [List.length_append]; omega⟩
  have run := readLoop_chain fits (k + 1) ((nextFields es e).wire.take n) {} (by simp) (fun _ => rfl)
    (by simpa [Nat.add_comm] using room)
  rw [readPrefix,hk]
  change ∃ torn tornOffset, _ ∧ readLoop _ (chain 1 genesisCommitment es ++ _) _ = _
  rw [run,readLoop]
  by_cases empty : (nextFields es e).wire.take n = []
  · refine ⟨false,0,by simp [empty],?_⟩
    rw [if_pos empty]
    simp [Prefix.after,bytesOf,Nat.add_comm]
  · have ok := (nextFields_encodable fit : (nextFields es e).Encodable)
    have bound : ((nextFields es e).wire.take n).length ≤ maxRecordBytes := by
      have := (RecordFields.length_bounds ok).2.1
      simp only [List.length_take,RecordFields.wire_length]
      omega
    obtain ⟨e,refused,torn⟩ := RecordFields.decode_torn ok short
    refine ⟨true,(bytesOf es).length,by simp [empty],?_⟩
    rw [if_neg empty,List.take_of_length_le bound,refused]
    simp [torn,Prefix.after,bytesOf,Nat.add_comm]

/-! The writer. -/

def selfDecode (enc : Bytes) (offset : Nat) : Except Failure Record :=
  match decodeRecord enc with
  | .ok (rec, _) => .ok rec
  | .error e => .error (.journal ⟨.fatal,offset,"encoded record failed self-decode",some e⟩)

/-- The journal's content: legal records within the segment limit. -/
structure Sound (es : List Item) : Prop where
  fits : ∀ e ∈ es, e.Fits
  limit : (bytesOf es).length ≤ maxJournalSegmentBytes

theorem sound_nil : Sound [] := ⟨by simp,by simp [bytesOf,chain]⟩

theorem Sound.count (h : Sound es) : es.length + 1 < 2 ^ 64 := by
  have least := bytesOf_length es
  have limit := h.limit
  simp only [maxJournalSegmentBytes] at limit
  omega

theorem tail_nil (es : List Item) : Tail es [] :=
  ⟨⟨Fixed.zero 16,.observation,[]⟩,0,by simp [Item.Fits],length_pos _,by simp⟩

theorem sound_append (sound : Sound es) (fit : e.Fits)
    (room : (bytesOf es).length + (nextFields es e).wire.length ≤ maxJournalSegmentBytes) :
    Sound (es ++ [e]) where
  fits x hx := by
    rcases List.mem_append.mp hx with hx | hx
    · exact sound.fits x hx
    · rw [List.mem_singleton.mp hx]; exact fit
  limit := by rw [bytesOf_append,List.length_append]; exact room

theorem selfDecode_wire (fit : e.Fits) (sound : Sound es) (offset : Nat) :
    selfDecode (nextFields es e).wire offset = .ok (nextFields es e).record := by
  have ok : (nextFields es e).Encodable := nextFields_encodable fit
  have decoded := RecordFields.decode_wire ok sound.count []
  rw [List.append_nil] at decoded
  rw [selfDecode,decoded]

end Integris.Journal
