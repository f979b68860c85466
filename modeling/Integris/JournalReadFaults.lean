import Integris.FileSegment

/-! Reading a stored chain of records from storage that may answer any `ReadAt` with fewer
bytes than asked and an error. The reader looks at the error only when no byte came with
it, so a record of which some bytes came is taken for a torn tail. The main result says
for which answers that happens. -/
namespace Integris.Journal

open Codec Prog

/-- Storage as its answers: to the `k`th call, for a number of bytes at an offset. -/
abbrev Answers := Nat → Nat → Nat → Read

/-- Storage of `data`; the state counts the calls. -/
def storage (data : Bytes) (answer : Answers) : Segment Nat where
  size _ := data.length
  readAt want offset calls := (answer calls want offset,calls + 1)
  append _ calls := (.error .badf,calls)
  sync calls := (.ok (),calls)

/-- The contract of `io.ReaderAt`: the bytes are the stored ones, fewer than asked come with
an error, and `EOF` comes only at the end. -/
structure Contract (data : Bytes) (answer : Answers) : Prop where
  bytes : ∀ call want offset, (answer call want offset).bytes <+: (data.drop offset).take want
  short : ∀ call want offset, (answer call want offset).bytes.length < want →
    (answer call want offset).err ≠ none
  eof : ∀ call want offset, (answer call want offset).err = some .eof →
    data.length ≤ offset + (answer call want offset).bytes.length

/-- What a call for this record brings. -/
def brought (es : List Item) (answer : Answers) (call i : Nat) : Bytes :=
  (answer call (min ((bytesOf es).length - offsetOf es i) maxRecordBytes) (offsetOf es i)).bytes

/-- The read of the `i`th record, the first to bring less than its record, brings some of it,
and the read for the quarantine after it brings some again. -/
structure CutShort (es : List Item) (answer : Answers) (i : Nat) : Prop where
  stored : i < es.length
  before : ∀ j < i, lengthOf es j ≤ (brought es answer j j).length
  some_ : brought es answer i i ≠ []
  short : (brought es answer i i).length < lengthOf es i
  again : brought es answer (i + 1) i ≠ []

section rounds

variable {es : List Item} {answer : Answers} {i : Nat}

/-- The reader behind the first records. -/
abbrev behind (es : List Item) (i : Nat) : Prefix := ({} : Prefix).after (es.take i)

theorem behind_bytes (es : List Item) (i : Nat) : (behind es i).bytes = offsetOf es i := Nat.zero_add _

theorem asked_run (es : List Item) (answer : Answers) (i call : Nat) :
    SegmentOp.readAt (ε := Error) (window (bytesOf es).length (behind es i)) (behind es i).bytes
      (storage (bytesOf es) answer) call =
    (.ok (answer call (min ((bytesOf es).length - offsetOf es i) maxRecordBytes) (offsetOf es i)),call + 1) := by
  rw [window,behind_bytes]
  rfl

/-- No bytes of a stored record: the answer is an error other than `EOF`. -/
theorem Contract.nothing (contract : Contract (bytesOf es) answer) (inside : i < es.length) {call : Nat}
    (none_ : brought es answer call i = []) :
    (answer call (min ((bytesOf es).length - offsetOf es i) maxRecordBytes) (offsetOf es i)).err ≠ none ∧
    (answer call (min ((bytesOf es).length - offsetOf es i) maxRecordBytes) (offsetOf es i)).err ≠ some .eof := by
  have left := offsetOf_lt inside
  unfold brought at none_
  constructor
  · refine contract.short _ _ _ ?_
    rw [none_]
    simp only [List.length_nil,maxRecordBytes,recordOverhead]
    omega
  · intro eof
    have := contract.eof _ _ _ eof
    rw [none_] at this
    simp only [List.length_nil] at this
    omega

theorem Contract.brought_eq (contract : Contract (bytesOf es) answer) (inside : i < es.length)
    (call : Nat) : ∃ more, brought es answer call i =
      ((nextFields (es.take i) es[i]).wire ++ more).take (brought es answer call i).length := by
  obtain ⟨more,stored⟩ := stored_at inside
  have part := (contract.bytes call (min ((bytesOf es).length - offsetOf es i) maxRecordBytes)
    (offsetOf es i)).trans (List.take_prefix _ _)
  rw [stored] at part
  exact ⟨more,List.prefix_iff_eq_take.mp part⟩

theorem round_none (contract : Contract (bytesOf es) answer) (inside : i < es.length) (rounds : Nat)
    (none_ : brought es answer i i = []) :
    ∃ e, readFrom (bytesOf es).length (rounds + 1) (behind es i) (storage (bytesOf es) answer) i = (.error e,i + 1) := by
  have failed := contract.nothing inside none_
  have left := offsetOf_lt inside
  rw [readFrom,if_neg (by rw [behind_bytes]; omega),bind_run (asked_run es answer i i)]
  unfold brought at none_
  rw [if_neg (fun h => failed.2 h.2),if_pos ⟨none_,failed.1⟩]
  exact ⟨_,rfl⟩

theorem round_whole (fits : ∀ e ∈ es, e.Fits) (count : es.length < 2 ^ 64)
    (contract : Contract (bytesOf es) answer) (inside : i < es.length) (rounds : Nat)
    (whole : lengthOf es i ≤ (brought es answer i i).length) :
    readFrom (bytesOf es).length (rounds + 1) (behind es i) (storage (bytesOf es) answer) i =
      readFrom (bytesOf es).length rounds (behind es (i + 1)) (storage (bytesOf es) answer) (i + 1) := by
  have left := offsetOf_lt inside
  rw [lengthOf_eq inside] at whole
  have some_ : brought es answer i i ≠ [] := by
    intro none_
    have := length_pos (nextFields (es.take i) es[i])
    rw [none_,List.length_nil] at whole
    omega
  obtain ⟨more,eq⟩ := contract.brought_eq inside i
  rw [List.take_append,List.take_of_length_le (by rwa [RecordFields.wire_length])] at eq
  have few : (es.take i).length + 1 < 2 ^ 64 := by
    rw [List.length_take]
    omega
  have accepted := examine_next (fits _ (List.getElem_mem inside)) few
    (more.take ((brought es answer i i).length - (nextFields (es.take i) es[i]).wire.length))
  rw [← eq,← take_next inside] at accepted
  unfold brought at some_ accepted
  rw [readFrom,if_neg (by rw [behind_bytes]; omega),bind_run (asked_run es answer i i),
    if_neg (fun h => some_ h.1),if_neg (fun h => some_ h.1),accepted]

theorem round_part (fits : ∀ e ∈ es, e.Fits) (contract : Contract (bytesOf es) answer)
    (inside : i < es.length) (rounds : Nat) (some_ : brought es answer i i ≠ [])
    (short : (brought es answer i i).length < lengthOf es i) :
    readFrom (bytesOf es).length (rounds + 1) (behind es i) (storage (bytesOf es) answer) i =
      setAside (bytesOf es).length (behind es i) (storage (bytesOf es) answer) (i + 1) := by
  have left := offsetOf_lt inside
  rw [lengthOf_eq inside] at short
  obtain ⟨more,eq⟩ := contract.brought_eq inside i
  rw [List.take_append_of_le_length (by rw [RecordFields.wire_length]; omega)] at eq
  have torn := examine_part (fits _ (List.getElem_mem inside)) short (behind es i)
  rw [← eq] at torn
  unfold brought at some_ torn
  rw [readFrom,if_neg (by rw [behind_bytes]; omega),bind_run (asked_run es answer i i),
    if_neg (fun h => some_ h.1),if_neg (fun h => some_ h.1),torn]

theorem setAside_again (call : Nat) (again : brought es answer call i ≠ []) :
    ∃ p, setAside (bytesOf es).length (behind es i) (storage (bytesOf es) answer) call =
      (.ok p,call + 1) ∧ p.torn = true := by
  unfold brought at again
  rw [setAside,bind_run (asked_run es answer i call),require_bind (p := ¬ _) (fun h => again h.1)]
  exact ⟨_,rfl,rfl⟩

theorem setAside_none (contract : Contract (bytesOf es) answer) (inside : i < es.length) {call : Nat}
    (none_ : brought es answer call i = []) :
    ∃ e, setAside (bytesOf es).length (behind es i) (storage (bytesOf es) answer) call = (.error e,call + 1) := by
  have failed := contract.nothing inside none_
  unfold brought at none_
  rw [setAside,bind_run (asked_run es answer i call)]
  exact ⟨_,bind_failed (require_failed (not_not.mpr ⟨none_,failed⟩) _ _ _)⟩

end rounds

/-- How a reading of the stored records can end. -/
def Ends (es : List Item) (answer : Answers) (r : Outcome Error Reading) : Prop :=
  (r = .ok ⟨({} : Prefix).after es,[]⟩ ∧ ∀ i, ¬ CutShort es answer i) ∨
  ((∃ e, r = .error e) ∧ ∀ i, ¬ CutShort es answer i) ∨
  (∃ p : Reading, r = .ok p ∧ p.torn = true) ∧ ∃ i, CutShort es answer i

/-- Induction on the records still to read: those before came whole. -/
theorem readFrom_ends {es : List Item} {answer : Answers} (fits : ∀ e ∈ es, e.Fits)
    (count : es.length < 2 ^ 64) (contract : Contract (bytesOf es) answer) (n i rounds : Nat)
    (left : i + n = es.length) (enough : n < rounds)
    (passed : ∀ j < i, lengthOf es j ≤ (brought es answer j j).length) :
    Ends es answer (readFrom (bytesOf es).length rounds (behind es i) (storage (bytesOf es) answer) i).1 := by
  induction n generalizing i rounds with
  | zero =>
    obtain rfl : i = es.length := left
    obtain ⟨rounds,rfl⟩ : ∃ k, rounds = k + 1 := ⟨rounds - 1,by omega⟩
    have all : offsetOf es es.length = (bytesOf es).length := by rw [offsetOf,List.take_length]
    rw [readFrom,if_pos (by rw [behind_bytes,all]),behind,List.take_length]
    exact .inl ⟨rfl,fun j cut => Nat.not_le_of_lt cut.short (passed j cut.stored)⟩
  | succ n ih =>
    obtain ⟨rounds,rfl⟩ : ∃ k, rounds = k + 1 := ⟨rounds - 1,by omega⟩
    have inside : i < es.length := by omega
    have positive : 0 < lengthOf es i := by
      rw [lengthOf_eq inside]
      exact length_pos _
    -- the first cut can only be here
    have here : ∀ j, CutShort es answer j → (brought es answer i i).length < lengthOf es i → j = i := by
      intro j cut short
      rcases Nat.lt_trichotomy j i with before | same | later
      · exact absurd (passed j before) (Nat.not_le_of_lt cut.short)
      · exact same
      · exact absurd (cut.before i later) (Nat.not_le_of_lt short)
    by_cases whole : lengthOf es i ≤ (brought es answer i i).length
    · rw [round_whole fits count contract inside rounds whole]
      refine ih (i + 1) rounds (by omega) (by omega) fun j lt => ?_
      rcases Nat.lt_succ_iff_lt_or_eq.mp lt with before | rfl
      · exact passed j before
      · exact whole
    have short : (brought es answer i i).length < lengthOf es i := Nat.lt_of_not_le whole
    by_cases none_ : brought es answer i i = []
    · obtain ⟨e,failed⟩ := round_none contract inside rounds none_
      rw [failed]
      refine .inr (.inl ⟨⟨e,rfl⟩,fun j cut => ?_⟩)
      obtain rfl := here j cut short
      exact cut.some_ none_
    rw [round_part fits contract inside rounds none_ short]
    by_cases again : brought es answer (i + 1) i = []
    · obtain ⟨e,failed⟩ := setAside_none contract inside again
      rw [failed]
      refine .inr (.inl ⟨⟨e,rfl⟩,fun j cut => ?_⟩)
      obtain rfl := here j cut short
      exact cut.again again
    · obtain ⟨p,torn,isTorn⟩ := setAside_again (i + 1) again
      rw [torn]
      exact .inr (.inr ⟨⟨p,rfl,isTorn⟩,i,inside,passed,none_,short,again⟩)

/-- A read error never shortens the journal, exactly when no read is cut short inside a
record with some of its bytes. -/
theorem read_error_never_shortens_iff {es : List Item} {answer : Answers} (fits : ∀ e ∈ es, e.Fits)
    (count : es.length < 2 ^ 64) (contract : Contract (bytesOf es) answer) :
    (∀ p calls, readSegmentPrefix (storage (bytesOf es) answer) 0 = (.ok p,calls) →
      p.torn = false ∧ p.records = recordsOf 1 genesisCommitment es) ↔
    ¬ ∃ i, CutShort es answer i := by
  have enough : es.length < (bytesOf es).length + 1 := by
    have := bytesOf_length es
    omega
  have ends := readFrom_ends fits count contract es.length 0 ((bytesOf es).length + 1)
    (Nat.zero_add _) enough (by simp)
  have start : readSegmentPrefix (storage (bytesOf es) answer) 0 =
      readFrom (bytesOf es).length ((bytesOf es).length + 1) (behind es 0) (storage (bytesOf es) answer) 0 :=
    rfl
  rw [start]
  rcases ends with ⟨whole,uncut⟩ | ⟨⟨e,failed⟩,uncut⟩ | ⟨⟨p,torn,isTorn⟩,cut⟩
  · refine iff_of_true (fun p calls run => ?_) (not_exists.mpr uncut)
    rw [run] at whole
    cases whole
    exact ⟨rfl,rfl⟩
  · refine iff_of_true (fun p calls run => ?_) (not_exists.mpr uncut)
    rw [run] at failed
    cases failed
  · refine iff_of_false (fun all => ?_) (not_not.mpr cut)
    have := (all p _ (Prod.ext torn rfl)).1
    rw [isTorn] at this
    cases this

/-- Whole reads, except that one call brings only a few bytes and an error. -/
def faulty (data : Bytes) (bad few : Nat) : Answers := fun call want offset =>
  if call = bad then ⟨((data.drop offset).take want).take few,some (.failed .io)⟩
  else
    ⟨(data.drop offset).take want,
      if ((data.drop offset).take want).length < want then some .eof else none⟩

theorem faulty_contract (data : Bytes) (bad few : Nat) : Contract data (faulty data bad few) where
  bytes call want offset := by
    unfold faulty
    split
    · exact List.take_prefix _ _
    · exact List.prefix_rfl
  short call want offset := by
    unfold faulty
    split
    · simp
    · intro short
      rw [if_pos short]
      simp
  eof call want offset := by
    unfold faulty
    split
    · simp
    · dsimp only
      split
      · next short =>
        intro _
        rw [List.length_take,List.length_drop] at short ⊢
        omega
      · simp

/-- What a reading reports: a torn tail, and how many records. -/
def reported : Outcome Error Reading → Option (Bool × Nat)
  | .ok p => some (p.torn,p.records.length)
  | _ => none

/-- Two stored records. -/
def twoRecords : Bytes := bytesOf [shortItem,shortItem]

/-- Ten bytes of the second record and an input error: the reader reports a torn tail after
the first. -/
theorem short_read_taken_for_torn :
    Contract twoRecords (faulty twoRecords 1 10) ∧
    reported (readSegmentPrefix (storage twoRecords (faulty twoRecords 1 10)) 0).1 = some (true,1) :=
  ⟨faulty_contract _ _ _,by decide +kernel⟩

theorem read_error_never_shortens_sample :
    (¬ ∃ i, CutShort [shortItem,shortItem] (faulty twoRecords 1 0) i) ∧
    ∀ p calls, readSegmentPrefix (storage twoRecords (faulty twoRecords 1 0)) 0 = (.ok p,calls) →
      p.torn = false ∧ p.records = recordsOf 1 genesisCommitment [shortItem,shortItem] := by
  have first : ¬ (brought [shortItem,shortItem] (faulty twoRecords 1 0) 0 0).length <
      lengthOf [shortItem,shortItem] 0 := by decide +kernel
  have second : brought [shortItem,shortItem] (faulty twoRecords 1 0) 1 1 = [] := by decide +kernel
  have uncut : ¬ ∃ i, CutShort [shortItem,shortItem] (faulty twoRecords 1 0) i := by
    rintro ⟨i,cut⟩
    have two : i < 2 := cut.stored
    obtain rfl | rfl : i = 0 ∨ i = 1 := by omega
    · exact first cut.short
    · exact cut.some_ second
  exact ⟨uncut,(read_error_never_shortens_iff (by simp [shortItem,Item.Fits]) (by decide)
    (faulty_contract _ _ _)).mpr uncut⟩

end Integris.Journal
