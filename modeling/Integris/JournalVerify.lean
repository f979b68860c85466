import Integris.SharedSegment

/-! The independent verifier of `internal/journal/verify`. It decodes the whole rest of the
data where the reader looks at a window of one maximal record; no declared length makes
the decoder look further than that, so the two agree on every input. -/
namespace Integris.Journal

open Codec Prog

inductive VerifyError where
  | codec (e : Codec.Error)
  | said (message : String)
  deriving DecidableEq

/-- `verify.Result`. -/
structure Verification where
  recordCount : Nat := 0
  bytes : Nat := 0
  headCommitment : Digest := genesisCommitment
  nextSequence : Nat := 1
  torn : Bool := false
  tornOffset : Nat := 0
  fatal : Bool := false
  fatalOffset : Nat := 0
  err : Option VerifyError := none

namespace Verification

def fails (res : Verification) (offset : Nat) (e : VerifyError) : Verification :=
  { res with fatal := true, fatalOffset := offset, err := some e }

/-- One record further. -/
def accept (res : Verification) (rec : Record) (n : Nat) : Verification :=
  { res with
    recordCount := res.recordCount + 1
    bytes := res.bytes + n
    headCommitment := rec.recordCommitment
    nextSequence := rec.sequence + 1 }

end Verification

/-- The loop over what is left of the data; no slice is long enough for the counter to wrap. -/
def verifyLoop : Nat → Bytes → Nat → Nat → Digest → Verification → Verification
  | 0, _, _, _, _, res => res
  | rounds + 1, rest, offset, expected, prev, res =>
    if rest = [] then res
    else
      match decodeRecord rest with
      | .error e =>
        if e.kind = .incomplete then
          { res with torn := true, tornOffset := offset, err := some (.codec e) }
        else res.fails offset (.codec e)
      | .ok (rec, n) =>
        if rec.sequence ≠ expected then res.fails offset (.said "verify: sequence gap or restart")
        else if expected = 1 ∧ rec.previousCommitment ≠ genesisCommitment then
          res.fails offset (.said "verify: genesis previous_commitment mismatch")
        else if expected ≠ 1 ∧ rec.previousCommitment ≠ prev then
          res.fails offset (.said "verify: previous_commitment fork")
        else verifyLoop rounds (rest.drop n) (offset + n) (expected + 1) rec.recordCommitment (res.accept rec n)

def verifyBytes (data : Bytes) : Verification :=
  verifyLoop (data.length + 1) data 0 1 genesisCommitment {}

/-! The two loops. -/

/-- The verifier's result is the reader's. -/
structure Confirms (v : Verification) (p : Prefix) : Prop where
  sound : v.fatal = false
  count : v.recordCount = p.records.length
  bytes : v.bytes = p.bytes
  head : v.headCommitment = p.headCommitment
  next : v.nextSequence = p.nextSequence
  torn : v.torn = p.torn
  tornOffset : v.tornOffset = p.tornOffset

def Agrees (v : Verification) : Except Error Prefix → Prop
  | .ok p => Confirms v p
  | .error e => v.fatal = true ∧ v.fatalOffset = e.offset

theorem Confirms.accept {v : Verification} {p : Prefix} (h : Confirms v p) (rec : Record) (n : Nat) :
    Confirms (v.accept rec n) (p.accept rec n) where
  sound := h.sound
  count := by simp [Verification.accept,Prefix.accept,h.count]
  bytes := by simp [Verification.accept,Prefix.accept,h.bytes]
  head := rfl
  next := rfl
  torn := h.torn
  tornOffset := h.tornOffset

theorem verifyLoop_agrees {v : Verification} {p : Prefix} (h : Confirms v p) (rounds : Nat) (rest : Bytes) :
    Agrees (verifyLoop rounds rest p.bytes p.nextSequence p.headCommitment v) (readLoop rounds rest p) := by
  induction rounds generalizing rest v p with
  | zero => exact h
  | succ rounds ih =>
    rw [verifyLoop,readLoop,decodeRecord_take]
    by_cases done : rest = []
    · rw [if_pos done,if_pos done]
      exact h
    · rw [if_neg done,if_neg done]
      rcases decodeRecord rest with e | ⟨rec,n⟩
      · dsimp only
        by_cases torn : e.kind = .incomplete
        · rw [if_pos torn,if_pos torn]
          exact ⟨h.sound,h.count,h.bytes,h.head,h.next,rfl,rfl⟩
        · rw [if_neg torn,if_neg torn]
          exact ⟨rfl,rfl⟩
      · dsimp only
        rw [checkLink]
        by_cases seq : rec.sequence = p.nextSequence
        swap
        · rw [if_pos seq,demand_error.mpr ⟨seq,rfl⟩]
          exact ⟨rfl,rfl⟩
        rw [if_neg (not_not.mpr seq),demand_ok.mpr seq,except_ok_bind]
        by_cases first : p.nextSequence = 1 ∧ rec.previousCommitment ≠ genesisCommitment
        · rw [if_pos first,demand_error.mpr ⟨fun all => first.2 (all first.1),rfl⟩]
          exact ⟨rfl,rfl⟩
        rw [if_neg first,demand_ok.mpr fun one => not_not.mp fun other => first ⟨one,other⟩,except_ok_bind]
        by_cases fork : p.nextSequence ≠ 1 ∧ rec.previousCommitment ≠ p.headCommitment
        · rw [if_pos fork,demand_error.mpr ⟨fun all => fork.2 (all fork.1),rfl⟩]
          exact ⟨rfl,rfl⟩
        rw [if_neg fork,demand_ok.mpr fun later => not_not.mp fun other => fork ⟨later,other⟩]
        have next : (p.accept rec n).nextSequence = p.nextSequence + 1 := by rw [← seq]; rfl
        have further := ih (h.accept rec n) (rest.drop n)
        rw [next] at further
        exact further

/-- The verifier agrees with the reader on every input: on a fatal end and its offset, and otherwise
on everything it reports; and the reader keeps all the bytes it does not accept. -/
theorem verifier_agrees (data : Bytes) :
    (∃ e, readSegmentPrefix (Shared.memSegment none) data = (.error e,data) ∧
      (verifyBytes data).fatal = true ∧ (verifyBytes data).fatalOffset = e.offset) ∨
    ∃ p : Reading, readSegmentPrefix (Shared.memSegment none) data = (.ok p,data) ∧
      Confirms (verifyBytes data) p.toPrefix ∧ data.take p.bytes ++ p.quarantine = data := by
  have start : Confirms {} {} := ⟨rfl,rfl,rfl,rfl,rfl,rfl,rfl⟩
  have same : Agrees (verifyBytes data) (readPrefix data) := verifyLoop_agrees start _ data
  rw [readSegmentPrefix_shows (Shared.memSegment_shows none data)]
  rcases read : readPrefix data with e | p
  · rw [read] at same
    exact .inl ⟨e,rfl,same⟩
  · rw [read] at same
    refine .inr ⟨.of data p,rfl,same,?_⟩
    obtain ⟨es,t,-,-,rfl,⟨rfl,rfl⟩ | ⟨-,torn,rfl⟩⟩ := readPrefix_inv read
    · simp [Reading.of,after_bytes]
    · simp [Reading.of,after_bytes,List.take_of_length_le (Nat.le_of_lt torn.length_lt)]

/-- Whatever writers, tears and truncations left the segment, the verifier finds no fatal damage in it and
counts exactly the completed appends. -/
theorem shared_segment_verifies (ops : List Shared.Op) : ∃ v, verifyBytes (Shared.run ops).buf = v ∧
    v.fatal = false ∧ v.recordCount = (Shared.run ops).completed.length ∧
    v.bytes + (Shared.run ops).left.length = (Shared.run ops).buf.length ∧
    (v.torn = true ↔ (Shared.run ops).left ≠ []) := by
  obtain ⟨es,inv⟩ := Shared.inv_run ops
  obtain ⟨torn,_,isTorn,read⟩ := readPrefix_ok inv.sound.fits inv.tail (Nat.le_of_lt inv.sound.count)
  have same : Agrees (verifyBytes (Shared.run ops).buf) (readPrefix (Shared.run ops).buf) :=
    verifyLoop_agrees ⟨rfl,rfl,rfl,rfl,rfl,rfl,rfl⟩ _ _
  rw [inv.bytes,read,← inv.bytes] at same
  refine ⟨_,rfl,same.sound,?_,?_,?_⟩
  · rw [same.count,inv.completed]
  · rw [same.bytes,inv.bytes,List.length_append]
  · rw [same.torn,isTorn]

end Integris.Journal
