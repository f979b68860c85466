import Integris.Segment

/-! `FileSegment` under failing writes. The segment counts only bytes of successful appends,
so a failed write leaves its bytes in the file beyond the segment's size, and a later
shorter record does not cover them. Reopening takes the size from the file: it finds
exactly the successful appends when those bytes are nothing or an unfinished record. -/
namespace Integris.Journal

open Codec Prog Posix

structure FileState where
  data : Bytes
  size : Nat

/-- `FileSegment`; a `WriteAt` may fail after some of its bytes. -/
def fileSegment (fail : Option Nat) : Segment FileState where
  size s := s.size
  readAt want offset s :=
    let got := (s.data.drop offset).take want
    (⟨got,if got.length < want then some .eof else none⟩,s)
  append p s :=
    let whole : FileState := ⟨FS.spliced s.data s.size p,s.size + p.length⟩
    match fail with
    | some n =>
      if n < p.length then (.error .io,{ s with data := FS.spliced s.data s.size (p.take n) })
      else (.ok (),whole)
    | none => (.ok (),whole)
  sync s := (.ok (),s)

/-- `OpenFileSegment`: the size is the file's. -/
def openFileSegment (data : Bytes) : FileState := ⟨data,data.length⟩

/-- One writer on one segment, and the records of its successful appends. -/
structure Session where
  file : FileState
  writer : SegmentWriter
  completed : List Record := []

structure Attempt where
  item : Item
  fail : Option Nat

def Session.start (data : Bytes) : Session :=
  match openSegmentWriter (fileSegment none) (openFileSegment data) with
  | (.ok (w, _), file) => ⟨file,w,[]⟩
  | (_, file) => ⟨file,⟨1,genesisCommitment,true⟩,[]⟩

def Session.attempt (s : Session) (a : Attempt) : Session :=
  match s.writer.append a.item (fileSegment a.fail) s.file with
  | (.ok (rec, w), file) => ⟨file,w,s.completed ++ [rec]⟩
  | (_, file) => { s with file := file }

def Session.run (s : Session) (attempts : List Attempt) : Session := attempts.foldl attempt s

/-- The bytes of the file that the segment does not count. -/
def Session.leftover (s : Session) : Bytes := s.file.data.drop s.file.size

/-- `ReadPrefix` after a reopening. -/
def Session.reread (s : Session) : Outcome Error Reading :=
  (readSegmentPrefix (fileSegment none) (openFileSegment s.file.data)).1

/-- Nothing, or the start of a record that is not complete. -/
def Harmless (rest : Bytes) : Prop :=
  rest = [] ∨ ∃ e, decodeRecord (rest.take maxRecordBytes) = .error e ∧ e.kind = .incomplete

theorem fileSegment_shows (fail : Option Nat) {s : FileState} (inside : s.size ≤ s.data.length) :
    (fileSegment fail).Shows s (s.data.take s.size) where
  size := by simp [fileSegment,inside]
  reads want offset some_ within := by
    rw [List.length_take] at within
    have full : ¬ ((s.data.drop offset).take want).length < want := by
      rw [List.length_take,List.length_drop]
      omega
    have same : ((s.data.take s.size).drop offset).take want = (s.data.drop offset).take want := by
      rw [List.drop_take,List.take_take,Nat.min_eq_left (by omega)]
    simp only [fileSegment,if_neg full,same]

theorem openFileSegment_shows (data : Bytes) : (fileSegment none).Shows (openFileSegment data) data := by
  have shown := fileSegment_shows none (s := openFileSegment data) (Nat.le_refl _)
  rwa [openFileSegment,List.take_length] at shown

theorem spliced_behind (front rest new : Bytes) :
    FS.spliced (front ++ rest) front.length new = front ++ (new ++ rest.drop new.length) := by
  have short : front.length - (front ++ rest).length = 0 := by
    rw [List.length_append]
    omega
  rw [FS.spliced,short,List.replicate_zero,List.append_nil,List.take_left,List.drop_append,
    List.drop_of_length_le (Nat.le_add_right _ _),List.append_assoc,Nat.add_sub_cancel_left]
  rfl

theorem handOver_file (fail : Option Nat) (w : SegmentWriter) (f : RecordFields) (front rest : Bytes) :
    (∃ x, ∃ n < f.length, handOver w f (fileSegment fail) ⟨front ++ rest,front.length⟩ =
      (.error x,⟨front ++ (f.wire.take n ++ rest.drop n),front.length⟩)) ∨
    handOver w f (fileSegment fail) ⟨front ++ rest,front.length⟩ =
      (.ok (f.record,{ w with nextSeq := w.nextSeq + 1, prevCommitment := f.commitment }),
        ⟨front ++ f.wire ++ rest.drop f.wire.length,(front ++ f.wire).length⟩) := by
  have through : ∀ fail : Option Nat, (∀ n, fail = some n → ¬ n < f.wire.length) →
      SegmentOp.append f.wire (fileSegment fail) ⟨front ++ rest,front.length⟩ =
        (.ok (),⟨front ++ f.wire ++ rest.drop f.wire.length,(front ++ f.wire).length⟩) := by
    intro fail far
    rw [List.append_assoc,List.length_append,← spliced_behind]
    cases fail with
    | none => rfl
    | some n => simp only [SegmentOp.append,SegmentOp.effect,fileSegment,if_neg (far n rfl)]
  by_cases far : ∀ n, fail = some n → ¬ n < f.wire.length
  · refine .inr ?_
    rw [handOver,bind_run (through fail far)]
    rfl
  · simp only [not_forall,not_not] at far
    obtain ⟨n,rfl,short⟩ := far
    have stopped : SegmentOp.append f.wire (fileSegment (some n)) ⟨front ++ rest,front.length⟩ =
        (.error (.errno .io),⟨front ++ (f.wire.take n ++ rest.drop n),front.length⟩) := by
      have cut := spliced_behind front rest (f.wire.take n)
      rw [List.length_take,Nat.min_eq_left (Nat.le_of_lt short)] at cut
      simp only [SegmentOp.append,SegmentOp.effect,fileSegment,if_pos short,cut]
    exact .inl ⟨_,n,by rwa [RecordFields.wire_length] at short,bind_failed stopped⟩

/-- The segment holds the records so far; the file may hold more. -/
structure Session.Inv (s : Session) (before : List Record) (es : List Item) (rest : Bytes) : Prop where
  sound : Sound es
  data : s.file = ⟨bytesOf es ++ rest,(bytesOf es).length⟩
  writer : s.writer.At es
  completed : before ++ s.completed = recordsOf 1 genesisCommitment es

variable {before : List Record} {es : List Item} {rest : Bytes} {s : Session}

/-- One attempt: refused, stopped in its write, or through. -/
theorem Session.attempt_cases (h : s.Inv before es rest) (a : Attempt) : (s.attempt a).Inv before es rest ∨
    (∃ n < (nextFields es a.item).length, (s.attempt a).Inv before es ((nextFields es a.item).wire.take n ++ rest.drop n)) ∨
    (s.attempt a).Inv before (es ++ [a.item]) (rest.drop (nextFields es a.item).length) := by
  obtain ⟨sound,data,writer,completed⟩ := h
  have shows_ : (fileSegment a.fail).Shows s.file (bytesOf es ++ []) := by
    have := fileSegment_shows a.fail (s := s.file) (by rw [data]; simp)
    rw [data] at this ⊢
    simpa using this
  have stale : ∃ k ≤ es.length, s.writer.At (es.take k) := ⟨_,Nat.le_refl _,by rwa [List.take_length]⟩
  unfold attempt
  rcases s.writer.append_cases shows_ sound (tail_nil es) stale a.item with
    ⟨f,refused⟩ | ⟨-,-,fits,longer,run⟩
  · rw [refused]
    exact .inl ⟨sound,data,writer,completed⟩
  · rw [run,data]
    rcases handOver_file a.fail s.writer (nextFields es a.item) (bytesOf es) rest with
      ⟨x,n,short,stopped⟩ | whole
    · rw [stopped]
      exact .inr (.inl ⟨n,short,sound,rfl,writer,completed⟩)
    · rw [whole]
      refine .inr (.inr ⟨longer,?_,writer.moved a.item,?_⟩)
      · rw [bytesOf_append,RecordFields.wire_length]
      · rw [← List.append_assoc,completed,recordsOf_append,Nat.add_comm 1]
        rfl

theorem Session.run_inv (attempts : List Attempt)
    (h : ∃ es rest, s.Inv before es rest) : ∃ es rest, (s.run attempts).Inv before es rest := by
  induction attempts generalizing s with
  | nil => exact h
  | cons a attempts ih =>
    obtain ⟨es,rest,inv⟩ := h
    refine ih ?_
    rcases attempt_cases inv a with same | ⟨n,-,stopped⟩ | through
    · exact ⟨_,_,same⟩
    · exact ⟨_,_,stopped⟩
    · exact ⟨_,_,through⟩

theorem Session.start_inv (sound : Sound es) : (start (bytesOf es)).Inv (recordsOf 1 genesisCommitment es) es [] := by
  have shows_ : (fileSegment none).Shows (openFileSegment (bytesOf es)) (bytesOf es ++ []) := by
    rw [List.append_nil]
    exact openFileSegment_shows (bytesOf es)
  obtain ⟨w,p,opened,at_,-⟩ := openSegmentWriter_chain shows_ sound (tail_nil es)
  rw [start,opened]
  exact ⟨sound,by simp [openFileSegment],at_,by simp⟩

/-- A chain and whatever follows it read as the chain exactly when what follows is harmless. -/
theorem readPrefix_rest_iff (sound : Sound es) (rest : Bytes) :
    (∃ p, readPrefix (bytesOf es ++ rest) = .ok p ∧ p.records = recordsOf 1 genesisCommitment es) ↔ Harmless rest := by
  have count := Nat.lt_of_succ_lt sound.count
  constructor
  · rintro ⟨p,read,same⟩
    obtain ⟨more,t,-,-,rfl,ends⟩ := readPrefix_behind sound.fits count read
    have none_ : more = [] := by
      have lengths : p.records.length = es.length + more.length := by
        rcases ends with ⟨-,rfl⟩ | ⟨-,-,rfl⟩ <;> simp [Prefix.after,Prefix.broken]
      rw [same,recordsOf_length] at lengths
      exact List.length_eq_zero_iff.mp (by omega)
    subst none_
    rw [chain,List.nil_append,Harmless,decodeRecord_take]
    exact ends.imp And.left fun torn => decode_incomplete_iff.mpr torn.2.1
  · obtain ⟨k,-,run⟩ := readPrefix_chain sound.fits count rest
    rw [run,readLoop]
    rintro (empty | ⟨e,refused,torn⟩)
    · rw [if_pos empty]
      exact ⟨_,rfl,rfl⟩
    · split
      · exact ⟨_,rfl,rfl⟩
      · rw [refused]
        dsimp only
        rw [if_pos torn]
        exact ⟨_,rfl,rfl⟩

/-- Reopening after any failed writes gives exactly the records that were there and those of
the successful appends, if and only if the bytes left behind them are harmless. -/
theorem failed_writes_survived_iff {es : List Item} (sound : Sound es) (attempts : List Attempt) :
    (∃ p, ((Session.start (bytesOf es)).run attempts).reread = .ok p ∧
      p.records = recordsOf 1 genesisCommitment es ++
        ((Session.start (bytesOf es)).run attempts).completed) ↔
    Harmless ((Session.start (bytesOf es)).run attempts).leftover := by
  obtain ⟨now,rest,inv⟩ := Session.run_inv attempts ⟨es,[],Session.start_inv sound⟩
  generalize (Session.start (bytesOf es)).run attempts = s at inv
  have leftover : s.leftover = rest := by rw [Session.leftover,inv.data,List.drop_left]
  have shows_ : (fileSegment none).Shows (openFileSegment s.file.data) (bytesOf now ++ rest) := by
    rw [inv.data]
    exact openFileSegment_shows _
  rw [leftover,inv.completed,← readPrefix_rest_iff inv.sound rest,Session.reread,
    readSegmentPrefix_shows shows_]
  cases readPrefix (bytesOf now ++ rest) with
  | error e => simp [lifted]
  | ok p => simp [lifted,Reading.of]

/-- A record of a hundred bytes of payload, and one without. -/
def longItem : Item := ⟨Fixed.zero 16,.observation,List.replicate 100 7⟩

def shortItem : Item := ⟨Fixed.zero 16,.observation,[]⟩

/-- The long record fails after two hundred bytes, the short one is written over its start:
the journal reopens as corrupt. -/
theorem leftover_bytes_fatal :
    ((Session.start []).run [⟨longItem,some 200⟩,⟨shortItem,none⟩]).completed.length = 1 ∧
    ((Session.start []).run [⟨longItem,some 200⟩,⟨shortItem,none⟩]).reread =
      .error ⟨.fatal,152,"interior corruption or non-canonical record",
        some ⟨.nonCanonical,"magic","not RecordMagic"⟩⟩ := by
  decide +kernel

/-- Failing after fewer bytes than the next record has does no harm. -/
theorem failed_writes_survived_sample :
    ∃ p, ((Session.start (bytesOf [shortItem])).run [⟨longItem,some 100⟩,⟨shortItem,none⟩]).reread =
        .ok p ∧
      p.records = recordsOf 1 genesisCommitment [shortItem] ++ ((Session.start (bytesOf [shortItem])).run
        [⟨longItem,some 100⟩,⟨shortItem,none⟩]).completed :=
  (failed_writes_survived_iff ⟨by simp [shortItem,Item.Fits],by decide +kernel⟩ _).mpr
    (.inl (by decide +kernel))

end Integris.Journal
