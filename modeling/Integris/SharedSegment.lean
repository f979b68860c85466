import Integris.Segment

/-! One in-memory segment under any number of writers, opened at any time: appends that
complete, stop after a part of their bytes or are refused, and truncations to the
accepted prefix. Only the latest writer gets through, and what it leaves is always
a chain of records with at most a torn tail. -/
namespace Integris.Journal.Shared

open Codec Prog

/-- `MemSegment`; an append may be cut off after some of its bytes. -/
def memSegment (cut : Option Nat) : Segment Bytes where
  size buf := buf.length
  readAt want offset buf :=
    if buf.length ≤ offset then (⟨[],some .eof⟩,buf)
    else
      let got := (buf.drop offset).take want
      (⟨got,if got.length < want then some .eof else none⟩,buf)
  append p buf :=
    match cut with
    | some n => if n < p.length then (.error .io,buf ++ p.take n) else (.ok (),buf ++ p)
    | none => (.ok (),buf ++ p)
  sync buf := (.ok (),buf)

inductive Op where
  | openWriter
  | append (writer : Nat) (e : Item) (cut : Option Nat)
  | close (writer : Nat)
  | truncate
  deriving DecidableEq

/-- The segment and its writers. The history says which appends completed, and what cut
off appends left behind since the last truncation. -/
structure State where
  buf : Bytes := []
  writers : List SegmentWriter := []
  completed : List Record := []
  left : Bytes := []

def append (s : State) (i : Nat) (w : SegmentWriter) (e : Item) (cut : Option Nat) : State :=
  match w.append e (memSegment cut) s.buf with
  | (.ok (rec, w'), buf) =>
    { s with buf := buf, writers := s.writers.set i w', completed := s.completed ++ [rec] }
  | (_, buf) => { s with buf := buf, left := s.left ++ buf.drop s.buf.length }

def step (s : State) : Op → State
  | .openWriter =>
    match openSegmentWriter (memSegment none) s.buf with
    | (.ok (w, _), buf) => { s with buf := buf, writers := s.writers ++ [w] }
    | (_, buf) => { s with buf := buf }
  | .append i e cut =>
    match s.writers[i]? with
    | some w => append s i w e cut
    | none => s
  | .close i => { s with writers := s.writers.modify i fun w => { w with closed := true } }
  | .truncate =>
    match readSegmentPrefix (memSegment none) s.buf with
    | (.ok p, buf) => { s with buf := buf.take p.bytes, left := [] }
    | (_, buf) => { s with buf := buf }

def run (ops : List Op) : State := ops.foldl step {}

/-- Consecutive numbers, and each record commits to itself and names the one before. -/
def Chained : Nat → Digest → List Record → Prop
  | _, _, [] => True
  | seq, prev, r :: rs =>
    r.sequence = seq ∧ r.previousCommitment = prev ∧ r.payloadDigest = sha256 r.payload ∧
    r.recordCommitment = sha256 (commitmentPreimage r.recordLength r.sequence r.transactionID
      r.type.code r.payloadDigest r.previousCommitment r.payload) ∧
    Chained (seq + 1) r.recordCommitment rs

theorem recordsOf_chained (seq : Nat) (prev : Digest) (es : List Item) : Chained seq prev (recordsOf seq prev es) := by
  induction es generalizing seq prev with
  | nil => trivial
  | cons e es ih => exact ⟨rfl,rfl,rfl,rfl,ih _ _⟩

theorem memSegment_shows (cut : Option Nat) (buf : Bytes) : (memSegment cut).Shows buf buf where
  size := rfl
  reads want offset some_ inside := by
    have within : ¬ buf.length ≤ offset := by omega
    have full : ¬ ((buf.drop offset).take want).length < want := by
      rw [List.length_take,List.length_drop]
      omega
    simp only [memSegment,if_neg within,if_neg full]

/-- A cut append leaves a part of the next record, a whole one the longer chain. -/
theorem handOver_mem (cut : Option Nat) (w : SegmentWriter) (f : RecordFields) (buf : Bytes) :
    (∃ x, ∃ n < f.length, handOver w f (memSegment cut) buf = (.error x,buf ++ f.wire.take n)) ∨
    handOver w f (memSegment cut) buf = (.ok (f.record,
      { w with nextSeq := w.nextSeq + 1, prevCommitment := f.commitment }),buf ++ f.wire) := by
  cases cut with
  | none => exact .inr rfl
  | some n =>
    by_cases short : n < f.wire.length
    · have stopped : SegmentOp.append f.wire (memSegment (some n)) buf = (.error (.errno .io),buf ++ f.wire.take n) := by
        simp only [SegmentOp.append,SegmentOp.effect,memSegment,if_pos short]
      exact .inl ⟨_,n,by rwa [RecordFields.wire_length] at short,bind_failed stopped⟩
    · have through : SegmentOp.append f.wire (memSegment (some n)) buf = (.ok (),buf ++ f.wire) := by
        simp only [SegmentOp.append,SegmentOp.effect,memSegment,if_neg short]
      exact .inr (by rw [handOver,bind_run through]; rfl)

/-- What every history leaves. -/
structure Inv (s : State) (es : List Item) : Prop where
  sound : Sound es
  bytes : s.buf = bytesOf es ++ s.left
  tail : Tail es s.left
  completed : s.completed = recordsOf 1 genesisCommitment es
  writers : ∀ w ∈ s.writers, ∃ k ≤ es.length, w.At (es.take k)

variable {es : List Item} {w : SegmentWriter}

theorem stale_append (e : Item)
    (h : ∃ k ≤ es.length, w.At (es.take k)) : ∃ k ≤ (es ++ [e]).length, w.At ((es ++ [e]).take k) := by
  obtain ⟨k,le,at_⟩ := h
  refine ⟨k,by simp only [List.length_append]; omega,?_⟩
  rwa [List.take_append_of_le_length le]

theorem inv_append {s : State} {i : Nat} (h : Inv s es) (there : s.writers[i]? = some w) (e : Item) (cut : Option Nat) :
    ∃ es', Inv (append s i w e cut) es' := by
  have shows_ : (memSegment cut).Shows s.buf (bytesOf es ++ s.left) := h.bytes ▸ memSegment_shows cut s.buf
  have stale := h.writers w (List.mem_of_getElem? there)
  unfold append
  rcases w.append_cases shows_ h.sound h.tail stale e with ⟨f,refused⟩ | ⟨clean,at_,fits,longer,run⟩
  · rw [refused]
    refine ⟨es,h.sound,?_,?_,h.completed,h.writers⟩
    · simpa using h.bytes
    · simpa using h.tail
  · rw [run]
    rcases handOver_mem cut w (nextFields es e) s.buf with ⟨x,n,short,cutOff⟩ | whole
    · rw [cutOff]
      refine ⟨es,h.sound,?_,?_,h.completed,h.writers⟩
      · simp [h.bytes,clean]
      · simp only [clean,List.nil_append,List.drop_left]
        exact ⟨e,n,fits,short,rfl⟩
    · rw [whole]
      refine ⟨es ++ [e],longer,?_,?_,?_,?_⟩
      · simp [h.bytes,clean,bytesOf_append]
      · simpa [clean] using tail_nil (es ++ [e])
      · simp only [h.completed,recordsOf_append,Nat.add_comm 1]
        rfl
      · intro w' member
        rcases List.mem_or_eq_of_mem_set member with old | rfl
        · exact stale_append e (h.writers w' old)
        · exact ⟨_,Nat.le_refl _,by rw [List.take_length]; exact at_.moved e⟩

theorem inv_step {s : State} (h : Inv s es) (op : Op) : ∃ es', Inv (step s op) es' := by
  have shows_ : (memSegment none).Shows s.buf (bytesOf es ++ s.left) := h.bytes ▸ memSegment_shows none s.buf
  cases op with
  | openWriter =>
    obtain ⟨w,p,opened,at_,-⟩ := openSegmentWriter_chain shows_ h.sound h.tail
    simp only [step,opened]
    refine ⟨es,h.sound,h.bytes,h.tail,h.completed,?_⟩
    intro w' member
    rcases List.mem_append.mp member with old | new
    · exact h.writers w' old
    · rw [List.mem_singleton.mp new]
      exact ⟨es.length,Nat.le_refl _,by simpa using at_⟩
  | append i e cut =>
    simp only [step]
    split
    · next w there => exact inv_append h there e cut
    · exact ⟨es,h⟩
  | close i =>
    refine ⟨es,h.sound,h.bytes,h.tail,h.completed,?_⟩
    intro w member
    obtain ⟨j,lt,rfl⟩ := List.getElem_of_mem member
    simp only [step,List.length_modify] at lt
    obtain ⟨k,le,at_⟩ := h.writers s.writers[j] (List.getElem_mem lt)
    simp only [step,List.getElem_modify]
    split
    · exact ⟨k,le,at_.next,at_.prev⟩
    · exact ⟨k,le,at_⟩
  | truncate =>
    obtain ⟨p,read,-,bytes,-⟩ := readSegmentPrefix_chain shows_ h.sound h.tail
    simp only [step,read]
    refine ⟨es,h.sound,?_,tail_nil es,h.completed,h.writers⟩
    simp [h.bytes,bytes]

theorem inv_run (ops : List Op) : ∃ es, Inv (run ops) es := by
  have keep : ∀ (ops : List Op) (s : State), (∃ es, Inv s es) → ∃ es, Inv (ops.foldl step s) es := by
    intro ops
    induction ops with
    | nil => exact fun _ h => h
    | cons op ops ih =>
      rintro s ⟨es,h⟩
      exact ih _ (inv_step h op)
  exact keep ops {} ⟨[],sound_nil,rfl,tail_nil [],rfl,by simp⟩

/-- After any history the reader finds exactly the completed appends, chained, and reports a
torn tail exactly when a cut off append left one. -/
theorem shared_segment_durable (ops : List Op) :
    ∃ p : Reading, readSegmentPrefix (memSegment none) (run ops).buf = (.ok p,(run ops).buf) ∧
      p.records = (run ops).completed ∧ Chained 1 genesisCommitment p.records ∧
      p.nextSequence = (run ops).completed.length + 1 ∧
      (run ops).buf.length = p.bytes + (run ops).left.length ∧
      (p.torn = true ↔ (run ops).left ≠ []) := by
  obtain ⟨es,inv⟩ := inv_run ops
  have shows_ : (memSegment none).Shows (run ops).buf (bytesOf es ++ (run ops).left) :=
    inv.bytes ▸ memSegment_shows none _
  obtain ⟨p,read,records,bytes,-,next,isTorn⟩ := readSegmentPrefix_chain shows_ inv.sound inv.tail
  refine ⟨p,read,records.trans inv.completed.symm,?_,?_,?_,isTorn⟩
  · rw [records]
    exact recordsOf_chained 1 genesisCommitment es
  · rw [next,inv.completed,recordsOf_length]
  · rw [inv.bytes,List.length_append,bytes]

end Integris.Journal.Shared
