import Integris.FileSegment

/-! Damage inside a stored record that is not the last. The decoder believes the length a
record declares before any digest is checked: where the damage, or what it passes off for
further records, ends in the start of a record that declares more bytes than the file has
left, the reader takes that for a torn tail and everything from it on for lost. Any other
damage is found. -/
namespace Integris.Journal

open Codec
open Posix (FS)

/-- The stored chain with other bytes in the place of one record. -/
def replaced (es : List Item) (i : Nat) (damaged : Bytes) : Bytes :=
  bytesOf (es.take i) ++ (damaged ++ (bytesOf es).drop (offsetOf es (i + 1)))

/-- Behind a chain: records that continue it, none or forged ones, and then the start of one
that is not all there. -/
def Misread (es : List Item) (rest : Bytes) : Prop :=
  ∃ forged t, (∀ e ∈ forged, e.Fits) ∧ es.length + forged.length < 2 ^ 64 ∧
    rest = chain (es.length + 1) (headOf 1 genesisCommitment es) forged ++ t ∧ t ≠ [] ∧ Unfinished t

/-- No record of a chain in `data` has the commitment of another record in its place in `data'`. -/
def CollisionFree (data data' : Bytes) : Prop := ∀ gs g es e, (∀ x ∈ gs ++ [g], x.Fits) →
  (∀ x ∈ es ++ [e], x.Fits) → bytesOf (gs ++ [g]) <+: data → bytesOf (es ++ [e]) <+: data' → gs.length = es.length →
  (nextFields gs g).commitment = (nextFields es e).commitment → (nextFields gs g).preimage = (nextFields es e).preimage

theorem checkLink_fatal {out : Prefix} {r : Record} {e : Error} (h : checkLink out r = .error e) : e.kind = .fatal := by
  simp only [checkLink,demand_bind_error,demand_error] at h
  rcases h with ⟨-,rfl⟩ | ⟨-,⟨-,rfl⟩ | ⟨-,-,rfl⟩⟩ <;> rfl

theorem readLoop_fatal {rounds : Nat} {rest : Bytes} {out : Prefix} {x : Error}
    (h : readLoop rounds rest out = .error x) : x.kind = .fatal := by
  induction rounds generalizing rest out with
  | zero => cases h
  | succ rounds ih =>
    rw [readLoop] at h
    split at h
    · cases h
    split at h
    · split at h <;> cases h
      rfl
    split at h
    · next link =>
      cases h
      exact checkLink_fatal link
    · exact ih h

theorem wire_of_preimage {f g : RecordFields} (same : f.preimage = g.preimage) : f.wire = g.wire := by
  have payload : f.payload.length = g.payload.length := by
    have := congrArg List.length same
    rw [RecordFields.preimage_length,RecordFields.preimage_length] at this
    omega
  have length : f.length = g.length := by rw [RecordFields.length,RecordFields.length,payload]
  rw [RecordFields.wire,RecordFields.wire,RecordFields.trailer,RecordFields.trailer,
    RecordFields.commitment,RecordFields.commitment,same,length]

/-- A record is its bytes, with its place in the chain. -/
theorem nextFields_wire {gs es : List Item} {g e : Item} (fit : g.Fits) (fit' : e.Fits) (few : gs.length + 1 < 2 ^ 64)
    (few' : es.length + 1 < 2 ^ 64) (same : (nextFields gs g).wire = (nextFields es e).wire) :
    g = e ∧ gs.length = es.length ∧ headOf 1 genesisCommitment gs = headOf 1 genesisCommitment es := by
  have left := RecordFields.decode_wire (nextFields_encodable fit : (nextFields gs g).Encodable) few []
  have right := RecordFields.decode_wire (nextFields_encodable fit' : (nextFields es e).Encodable) few' []
  rw [same] at left
  have records : (nextFields gs g).record = (nextFields es e).record := congrArg Prod.fst (Except.ok.inj (left.symm.trans right))
  simp only [RecordFields.record,nextFields,Item.fields,Record.mk.injEq] at records
  obtain ⟨seq,txid,type,-,prev,payload,-⟩ := records
  cases g
  cases e
  cases txid
  cases type
  cases payload
  exact ⟨rfl,Nat.succ.inj seq,prev⟩

/-- The head commitment stands for the whole chain. -/
theorem chain_of_head {data data' : Bytes} (free : CollisionFree data data') {gs es : List Item}
    (fits : ∀ g ∈ gs, g.Fits) (fits' : ∀ e ∈ es, e.Fits) (few : gs.length < 2 ^ 64) (here : bytesOf gs <+: data)
    (there : bytesOf es <+: data') (count : gs.length = es.length)
    (head : headOf 1 genesisCommitment gs = headOf 1 genesisCommitment es) : gs = es := by
  induction es using List.reverseRecOn generalizing gs with
  | nil => exact List.length_eq_zero_iff.mp count
  | append_singleton es e ih =>
    obtain rfl | ⟨gs,g,rfl⟩ := List.eq_nil_or_concat' gs
    · simp at count
    simp only [List.length_append,List.length_singleton,Nat.add_right_cancel_iff] at count few
    rw [headOf_append,headOf_append,Nat.add_comm 1,Nat.add_comm 1] at head
    have preimage := free gs g es e fits fits' here there count head
    simp only [List.forall_mem_append,List.forall_mem_singleton] at fits fits'
    obtain ⟨rfl,-,below⟩ := nextFields_wire fits.2 fits'.2 few (count ▸ few) (wire_of_preimage preimage)
    rw [ih fits.1 fits'.1 (Nat.lt_of_succ_lt few) ((bytesOf_front gs [g]).trans here)
      ((bytesOf_front es [g]).trans there) count below]

/-- The length at its end places a record. -/
theorem wire_of_end {f g : RecordFields} (ok : f.Encodable) (ok' : g.Encodable) {data : Bytes}
    (left : f.wire <:+ data) (right : g.wire <:+ data) : f.wire = g.wire := by
  have ends (f : RecordFields) : leBytes 4 f.length <:+ f.wire := by
    rw [RecordFields.wire,RecordFields.trailer,← List.append_assoc]
    exact List.suffix_append _ _
  have same : leBytes 4 f.length = leBytes 4 g.length :=
    (List.suffix_of_suffix_length_le ((ends f).trans left) ((ends g).trans right) (by simp)).eq_of_length (by simp)
  have length : f.length = g.length := by
    rw [← leNat_leBytes_of_lt (RecordFields.length_bounds ok).2.2,same,leNat_leBytes_of_lt (RecordFields.length_bounds ok').2.2]
  exact (List.suffix_of_suffix_length_le left right (by simp [length])).eq_of_length (by simp [length])

/-- A chain that ends in the last record of another is that chain. -/
theorem chain_of_end {gs es : List Item} {e : Item} (fits : ∀ g ∈ gs, g.Fits) (fits' : ∀ x ∈ es ++ [e], x.Fits)
    (few : gs.length < 2 ^ 64) (few' : (es ++ [e]).length < 2 ^ 64) (ends : (nextFields es e).wire <:+ bytesOf gs)
    (free : CollisionFree (bytesOf gs) (bytesOf (es ++ [e]))) : gs = es ++ [e] := by
  simp only [List.forall_mem_append,List.forall_mem_singleton] at fits'
  obtain rfl | ⟨gs,g,rfl⟩ := List.eq_nil_or_concat' gs
  · have none_ := ends.length_le
    have := length_pos (nextFields es e)
    rw [RecordFields.wire_length] at none_
    exact absurd none_ (by simpa [bytesOf,chain] using Nat.ne_of_gt this)
  · have fit := List.forall_mem_append.mp fits
    rw [List.length_append,List.length_singleton] at few few'
    have last : (nextFields gs g).wire <:+ bytesOf (gs ++ [g]) := by
      rw [bytesOf_append]
      exact List.suffix_append _ _
    have same := wire_of_end (nextFields_encodable (fit.2 g (by simp))) (nextFields_encodable fits'.2) last ends
    obtain ⟨rfl,count,head⟩ := nextFields_wire (fit.2 g (by simp)) fits'.2 few few' same
    rw [chain_of_head free fit.1 fits'.1 (Nat.lt_of_succ_lt few) (bytesOf_front gs [g]) (bytesOf_front es [g]) count head]

section damage

variable {es : List Item} {i : Nat} {damaged : Bytes}

/-- Damage in a record that is not the last is reported as fatal exactly when the scan from
there on does not come to the start of a record that is not all there. -/
theorem interior_corruption_fatal_iff (fits : ∀ e ∈ es, e.Fits) (count : es.length < 2 ^ 64)
    (inside : i + 1 < es.length) (different : replaced es i damaged ≠ bytesOf es)
    (free : CollisionFree (replaced es i damaged) (bytesOf es)) :
    (∃ x, readPrefix (replaced es i damaged) = .error x ∧ x.kind = .fatal) ↔
      ¬ Misread (es.take i) (damaged ++ (bytesOf es).drop (offsetOf es (i + 1))) := by
  have before : ∀ e ∈ es.take i, e.Fits := fun e he => fits e (List.mem_of_mem_take he)
  constructor
  · rintro ⟨x,read,-⟩ ⟨forged,t,fit,few,split,some_,torn⟩
    have whole : replaced es i damaged = bytesOf (es.take i ++ forged) ++ t := by
      rw [replaced,split,bytesOf,bytesOf,chain_append,List.append_assoc,Nat.add_comm 1]
    obtain ⟨k,-,run⟩ := readPrefix_chain (List.forall_mem_append.mpr ⟨before,fit⟩) (by rwa [List.length_append]) t
    obtain ⟨e,refused,incomplete⟩ := decode_incomplete_iff.mpr torn
    rw [whole,run,readLoop,if_neg some_,decodeRecord_take,refused] at read
    dsimp only at read
    rw [if_pos incomplete] at read
    cases read
  · intro found
    cases read : readPrefix (replaced es i damaged) with
    | error x => exact ⟨x,rfl,readLoop_fatal read⟩
    | ok p =>
      exfalso
      obtain ⟨forged,t,fit,few,split,⟨rfl,-⟩ | ⟨some_,torn,-⟩⟩ :=
        readPrefix_behind before (by rw [List.length_take]; omega) read
      swap
      · exact found ⟨forged,t,fit,few,split,some_,torn⟩
      -- read to its end, the file ends in the last stored record
      have whole : replaced es i damaged = bytesOf (es.take i ++ forged) := by
        rw [replaced,split,List.append_nil,bytesOf,bytesOf,chain_append,Nat.add_comm 1]
      obtain rfl | ⟨front,e,rfl⟩ := List.eq_nil_or_concat' es
      · simp at inside
      have ends : (nextFields front e).wire <:+ replaced (front ++ [e]) i damaged := by
        rw [List.length_append,List.length_singleton] at inside
        have early : offsetOf (front ++ [e]) (i + 1) ≤ (bytesOf front).length := by
          rw [offsetOf,List.take_append_of_le_length (by omega)]
          have part := (bytesOf_front (front.take (i + 1)) (front.drop (i + 1))).length_le
          rwa [List.take_append_drop] at part
        rw [replaced,bytesOf_append,List.drop_append_of_le_length early]
        simp only [← List.append_assoc]
        exact List.suffix_append _ _
      rw [whole] at ends free different
      exact different (congrArg bytesOf (chain_of_end (List.forall_mem_append.mpr ⟨before,fit⟩) fits
        (by rwa [List.length_append]) count ends free))

end damage

/-- The first of two records with other bytes from an offset on. -/
def altered (offset : Nat) (new : Bytes) : Bytes :=
  FS.spliced (nextFields [] shortItem).wire offset new

/-- The long first record overwritten by a short one and more bytes. -/
def overwritten (new : Bytes) : Bytes := replaced [longItem,shortItem] 0 ((nextFields [] shortItem).wire ++ new)

/-- The first record declares a thousand bytes: the journal reads as empty with a torn tail. What
follows a forged first record is believed as well. -/
theorem declared_length_believed :
    (replaced [shortItem,shortItem] 0 (altered 12 (leBytes 4 1000))).length =
      (bytesOf [shortItem,shortItem]).length ∧
    replaced [shortItem,shortItem] 0 (altered 12 (leBytes 4 1000)) ≠ bytesOf [shortItem,shortItem] ∧
    (readPrefix (replaced [shortItem,shortItem] 0 (altered 12 (leBytes 4 1000)))).toOption.map
      (fun p => (p.torn,p.records.length)) = some (true,0) ∧
    (overwritten ((altered 12 (leBytes 4 1000)).take 100)).length = (bytesOf [longItem,shortItem]).length ∧
    (readPrefix (overwritten ((altered 12 (leBytes 4 1000)).take 100))).toOption.map
      (fun p => (p.torn,p.records.length)) = some (true,1) := by
  decide +kernel

theorem decode_in_chain {data : Bytes} {gs : List Item} {g : Item} (fit : g.Fits) (few : gs.length + 1 < 2 ^ 64)
    (here : bytesOf (gs ++ [g]) <+: data) {n : Nat} (place : (bytesOf gs).length = n) :
    decodeRecord (data.drop n) = .ok ((nextFields gs g).record,(nextFields gs g).length) := by
  obtain ⟨t,rfl⟩ := here
  rw [bytesOf_append,List.append_assoc,List.drop_left' place]
  exact RecordFields.decode_wire (nextFields_encodable fit) few t

theorem overwritten_free : CollisionFree (overwritten (List.replicate 100 0)) (bytesOf [longItem,shortItem]) := by
  intro gs g es e fits fits' here there count same
  exfalso
  cases gs with
  | nil =>
    obtain rfl : es = [] := List.length_eq_zero_iff.mp count.symm
    have differ : (decodeRecord ((overwritten (List.replicate 100 0)).drop 0)).toOption.map (·.1.recordCommitment) ≠
        (decodeRecord ((bytesOf [longItem,shortItem]).drop 0)).toOption.map (·.1.recordCommitment) := by decide +kernel
    rw [decode_in_chain (n := 0) (fits g (by simp)) (by decide) here rfl,
      decode_in_chain (n := 0) (fits' e (by simp)) (by decide) there rfl] at differ
    exact differ (congrArg some same)
  | cons x more =>
    -- the first record is the forged one, and behind it is none
    obtain ⟨y,rest,split⟩ : ∃ y rest, more ++ [g] = y :: rest := List.exists_cons_of_ne_nil (by simp)
    rw [List.cons_append,split] at here fits
    have size : (decodeRecord ((overwritten (List.replicate 100 0)).drop 0)).toOption.map (·.2) = some 152 := by
      decide +kernel
    have first : bytesOf ([] ++ [x]) <+: _ := (bytesOf_front [x] (y :: rest)).trans here
    rw [decode_in_chain (n := 0) (fits x (by simp)) (by decide) first rfl] at size
    have place : (bytesOf ([] ++ [x])).length = 152 := by
      rw [bytesOf_append,List.length_append,RecordFields.wire_length]
      exact (Nat.zero_add _).trans (Option.some.inj size)
    have none_ : (decodeRecord ((overwritten (List.replicate 100 0)).drop 152)).toOption = none := by decide +kernel
    have second : bytesOf ([x] ++ [y]) <+: _ := (bytesOf_front [x,y] rest).trans here
    rw [decode_in_chain (fits y (by simp)) (by simp) second place] at none_
    cases none_

/-- A forged record and zeros in the place of the first are found. -/
theorem interior_corruption_fatal_sample :
    ∃ x, readPrefix (overwritten (List.replicate 100 0)) = .error x ∧ x.kind = .fatal ∧
      ¬ Misread [] (overwritten (List.replicate 100 0)) := by
  have read : readPrefix (overwritten (List.replicate 100 0)) = .error ⟨.fatal,152,
      "interior corruption or non-canonical record",some ⟨.nonCanonical,"magic","not RecordMagic"⟩⟩ := by decide +kernel
  exact ⟨_,read,rfl,(interior_corruption_fatal_iff (by simp [Item.Fits,longItem,shortItem,maxPayloadBytes]) (by decide)
    (by decide) (by decide +kernel) overwritten_free).mp ⟨_,read,rfl⟩⟩

end Integris.Journal
