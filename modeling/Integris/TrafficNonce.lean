import Integris.ChaCha20Poly1305
import Integris.HandshakeRun
import Mathlib.Data.Nat.ModEq

/-! Which key and nonce each data frame of a session is sealed under. Both ends
install one traffic key and start their own counters at different small values. -/
namespace Integris.Traffic

open Crypto Protocol Prog Remote

/-- The two ways to emit a data frame. -/
inductive Send where
  | frame (body : Bytes)
  | chunk (data : Bytes)

def Send.run : Send → Driver.Op Bytes
  | frame body => Driver.encodeFrame .data body
  | chunk data => Driver.encodeDataChunk data

structure Sealed where
  key : Bytes
  nonce : Bytes
  deriving DecidableEq, Repr

/-- What the next data frame of `d` is sealed under. -/
def sealedBy (d : Driver) : Sealed := ⟨d.aeadKey, sequenceNonce d.sendSeq⟩

abbrev Ends := Endpoint → Driver

def Ends.put (ends : Ends) (e : Endpoint) (d : Driver) : Ends := fun x => if x = e then d else ends x

/-- The frames two endpoints emit under a schedule. A refused call emits none. -/
def emissions (aead : Aead) : Ends → List (Endpoint × Send) → List (Endpoint × Sealed)
  | _, [] => []
  | ends, (e, m) :: rest =>
    match m.run aead (ends e) with
    | (.ok _, d) => (e, sealedBy (ends e)) :: emissions aead (ends.put e d) rest
    | (_, d) => emissions aead (ends.put e d) rest

def sealedFor (e : Endpoint) (log : List (Endpoint × Sealed)) : List Sealed :=
  (log.filter (·.1 = e)).map (·.2)

/-- A data frame spends one sequence; a refused call changes neither key nor counter. -/
theorem send_spec (aead : Aead) (m : Send) (d : Driver) : wp m.run aead d
    (fun _ d' => d'.aeadKey = d.aeadKey ∧ d'.sendSeq = (d.sendSeq + 1) % 2 ^ 64)
    (fun _ d' => d'.aeadKey = d.aeadKey ∧ d'.sendSeq = d.sendSeq) (fun _ => False) := by
  cases m with
  | frame body =>
    simp [Send.run,Driver.encodeFrame,wp_bind,wp_get,wp_ask,wp_ofExcept,wp_modify,wp_pure]
  | chunk data =>
    simp [Send.run,Driver.encodeDataChunk,Driver.encodeFrame,wp_bind,wp_get,wp_ask,wp_ofExcept,wp_modify,wp_pure]

/-- The seals of `k` frames in a row from sequence `s`. -/
def seals (key : Bytes) : Nat → Nat → List Sealed
  | _, 0 => []
  | s, k + 1 => ⟨key, sequenceNonce s⟩ :: seals key ((s + 1) % 2 ^ 64) k

theorem mem_seals {key : Bytes} {s k : Nat} (small : s < 2 ^ 64) {x : Sealed} :
    x ∈ seals key s k ↔ ∃ i < k, x = ⟨key,sequenceNonce ((s + i) % 2 ^ 64)⟩ := by
  induction k generalizing s with
  | zero => simp [seals]
  | succ k ih =>
    rw [seals,List.mem_cons,ih (Nat.mod_lt _ (by decide))]
    constructor
    · rintro (rfl | ⟨i,low,rfl⟩)
      · exact ⟨0,by omega,by rw [Nat.add_zero,Nat.mod_eq_of_lt small]⟩
      · exact ⟨i + 1,by omega,by rw [Nat.mod_add_mod,Nat.add_assoc,Nat.add_comm 1 i]⟩
    · rintro ⟨i,low,rfl⟩
      cases i with
      | zero => exact .inl (by rw [Nat.add_zero,Nat.mod_eq_of_lt small])
      | succ i => exact .inr ⟨i,by omega,by rw [Nat.mod_add_mod,Nat.add_assoc,Nat.add_comm 1 i]⟩

theorem nonce_eq_iff {key : Bytes} (a b : Nat) :
    (⟨key,sequenceNonce (a % 2 ^ 64)⟩ : Sealed) = ⟨key,sequenceNonce (b % 2 ^ 64)⟩ ↔ a % 2 ^ 64 = b % 2 ^ 64 := by
  refine ⟨fun same => ?_,fun same => by rw [same]⟩
  exact sequenceNonce_injective (Nat.mod_lt _ (by decide)) (Nat.mod_lt _ (by decide)) (congrArg Sealed.nonce same)

theorem nodup_seals {key : Bytes} {s k : Nat} (small : s < 2 ^ 64) : (seals key s k).Nodup ↔ k ≤ 2 ^ 64 := by
  induction k generalizing s with
  | zero => simp [seals]
  | succ k ih =>
    have first : s = (s + 0) % 2 ^ 64 := (Nat.mod_eq_of_lt small).symm
    rw [seals,List.nodup_cons,ih (Nat.mod_lt _ (by decide)),mem_seals (Nat.mod_lt _ (by decide))]
    constructor
    · rintro ⟨fresh,tail⟩
      by_contra many
      refine fresh ⟨2 ^ 64 - 1,by omega,?_⟩
      have round : (s + 1) % 2 ^ 64 + (2 ^ 64 - 1) ≡ s [MOD 2 ^ 64] := by unfold Nat.ModEq; omega
      rw [round,Nat.mod_eq_of_lt small]
    · intro few
      refine ⟨?_,by omega⟩
      rintro ⟨i,low,same⟩
      rw [first,nonce_eq_iff] at same
      omega

theorem sealedFor_cons (e x : Endpoint) (seal' : Sealed) (log : List (Endpoint × Sealed)) :
    sealedFor e ((x,seal') :: log) = if x = e then seal' :: sealedFor e log else sealedFor e log := by
  by_cases same : x = e <;> simp [sealedFor,same]

@[simp] theorem seals_length (key : Bytes) (s k : Nat) : (seals key s k).length = k := by
  induction k generalizing s with
  | zero => rfl
  | succ k ih => simp [seals,ih]

private theorem sealedFor_counts (aead : Aead) (e : Endpoint) (schedule : List (Endpoint × Send))
    (ends : Ends) : ∃ k, sealedFor e (emissions aead ends schedule) = seals (ends e).aeadKey (ends e).sendSeq k := by
  induction schedule generalizing ends with
  | nil => exact ⟨0,rfl⟩
  | cons next rest ih =>
    obtain ⟨x,m⟩ := next
    have spec := send_spec aead m (ends x)
    rw [wp] at spec
    simp only [emissions]
    rcases run : m.run aead (ends x) with ⟨raw | why | _,d⟩
    all_goals rw [run] at spec
    all_goals obtain ⟨k,tail⟩ := ih (ends.put x d)
    · rw [sealedFor_cons,tail]
      by_cases same : x = e
      · subst same
        exact ⟨k + 1,by simp [Ends.put,seals,sealedBy,spec.1,spec.2]⟩
      · exact ⟨k,by simp [Ends.put,same,Ne.symm same]⟩
    · refine ⟨k,tail.trans ?_⟩
      by_cases same : e = x
      · subst same
        simp [Ends.put,spec.1,spec.2]
      · simp [Ends.put,same]
    · exact spec.elim

/-- Whatever the interleaving, one endpoint's frames count up from its own counter. -/
theorem sealedFor_emissions (aead : Aead) (e : Endpoint) (schedule : List (Endpoint × Send))
    (ends : Ends) : sealedFor e (emissions aead ends schedule) =
      seals (ends e).aeadKey (ends e).sendSeq (sealedFor e (emissions aead ends schedule)).length := by
  obtain ⟨k,counted⟩ := sealedFor_counts aead e schedule ends
  rw [counted,seals_length]

/-- A log repeats no seal exactly when neither sender does and they share none. -/
theorem nodup_log_iff (log : List (Endpoint × Sealed)) : (log.map (·.2)).Nodup ↔
    (sealedFor .initiator log).Nodup ∧ (sealedFor .responder log).Nodup ∧
      ∀ x ∈ sealedFor .initiator log, x ∉ sealedFor .responder log := by
  have split : (log.map (·.2)).Perm (sealedFor .initiator log ++ sealedFor .responder log) := by
    induction log with
    | nil => simp [sealedFor]
    | cons next rest ih =>
      obtain ⟨x,seal'⟩ := next
      cases x
      · simpa [sealedFor_cons] using ih
      · simpa [sealedFor_cons] using (ih.cons seal').trans List.perm_middle.symm
  rw [split.nodup_iff,List.nodup_append]
  have apart (a b : List Sealed) : (∀ x ∈ a, ∀ y ∈ b, x ≠ y) ↔ ∀ x ∈ a, x ∉ b :=
    ⟨fun h x left right => h x left x right rfl,fun h x left y right same => h x left (same ▸ right)⟩
  rw [apart]

/-- Counters 5 and 3 meet at sequence 5, or at 3 once the first has come round. -/
theorem seals_disjoint_iff {key key' : Bytes} {m n : Nat} : (∀ x ∈ seals key 5 m, x ∉ seals key' 3 n) ↔
      (key = key' → m = 0 ∨ n = 0 ∨ n ≤ 2 ∧ m ≤ 2 ^ 64 - 2) := by
  have hit (i j : Nat) (low : i < m) (low' : j < n) (same : key = key')
      (meet : (5 + i) % 2 ^ 64 = (3 + j) % 2 ^ 64) : ∃ x ∈ seals key 5 m, x ∈ seals key' 3 n := by
    refine ⟨⟨key,sequenceNonce ((5 + i) % 2 ^ 64)⟩,?_,?_⟩
    · exact (mem_seals (by decide)).mpr ⟨i,low,rfl⟩
    · exact (mem_seals (by decide)).mpr ⟨j,low',by rw [meet,same]⟩
  constructor
  · intro apart same
    by_contra other
    push Not at other
    obtain ⟨some1,some2,many⟩ := other
    by_cases three : 2 < n
    · obtain ⟨x,mem,mem'⟩ := hit 0 2 (by omega) three same rfl
      exact apart x mem mem'
    · obtain ⟨x,mem,mem'⟩ := hit (2 ^ 64 - 2) 0 (by omega) (by omega) same (by decide)
      exact apart x mem mem'
  · intro free x mem mem'
    obtain ⟨i,low,rfl⟩ := (mem_seals (by decide)).mp mem
    obtain ⟨j,low',same⟩ := (mem_seals (by decide)).mp mem'
    have keys : key = key' := congrArg Sealed.key same
    subst keys
    rw [nonce_eq_iff] at same
    have := free rfl
    omega

/-- After a completed handshake, no key and nonce are used for two data frames exactly
when neither counter comes round and, under a common key, the responder stays below
the sequence the initiator starts at. -/
theorem traffic_nonces_unique_iff {root root' peerID peerID' : Bytes} {envI envR : Env}
    {inI inR outI outR : Conn} {ends : Ends}
    (dialed : dialHandshake root peerID envI inI = (.ok (ends .initiator), outI))
    (accepted : acceptHandshake root' peerID' envR inR = (.ok (ends .responder), outR))
    (aead : Aead) (schedule : List (Endpoint × Send)) :
    let log := emissions aead ends schedule
    let m := (sealedFor .initiator log).length
    let n := (sealedFor .responder log).length
    (log.map (·.2)).Nodup ↔ m ≤ 2 ^ 64 ∧ n ≤ 2 ^ 64 ∧
      ((ends .initiator).aeadKey = (ends .responder).aeadKey →
        m = 0 ∨ n = 0 ∨ n ≤ 2 ∧ m ≤ 2 ^ 64 - 2) := by
  intro log m n
  have keyedI := (dialHandshake_keyed root peerID).ok_of dialed
  have keyedR := (acceptHandshake_keyed root' peerID').ok_of accepted
  have ofI : sealedFor .initiator log = seals (ends .initiator).aeadKey 5 m := by
    rw [← keyedI.sendSeq]
    exact sealedFor_emissions aead .initiator schedule ends
  have ofR : sealedFor .responder log = seals (ends .responder).aeadKey 3 n := by
    rw [← keyedR.sendSeq]
    exact sealedFor_emissions aead .responder schedule ends
  rw [nodup_log_iff,ofI,ofR,nodup_seals (by decide),nodup_seals (by decide),seals_disjoint_iff]

section sample

open ChaCha20Poly1305 (aead)

theorem empty_frame_sent {d : Driver} (key : d.aeadKey.length = aeadKeySize) (long : 16 ≤ d.macKey.length) :
    ∃ raw, Driver.encodeFrame .data [] aead d = (.ok raw,d.spend) := by
  have keyed : d.aeadKey ≠ [] := by
    intro empty
    simp [empty,aeadKeySize] at key
  have nonempty : d.macKey ≠ [] := by
    intro empty
    simp [empty] at long
  let body := aead.encrypt d.aeadKey (sequenceNonce d.sendSeq) (d.dataAAD .data d.sendSeq) []
  have sealed : d.sealData aead .data [] = .ok body := by simp [Driver.sealData,keyed,sealBody,key,body]
  have small : body.length ≤ maxBodyBytes := by simp [body,maxBodyBytes]
  have encoded : encode (d.outbound .data body) d.macKey = .ok ((d.outbound .data body).wire d.macKey) :=
    (encode_ok_iff nonempty).mpr ⟨outbound_encodable d rfl small,long,rfl⟩
  refine ⟨(d.outbound .data body).wire d.macKey,?_⟩
  apply wp.run_eq
  simp [Driver.encodeFrame,wp_bind,wp_get,wp_ask,wp_ofExcept,wp_modify,wp_pure,sealed,encoded,Driver.spend]

def sampleRoot : Bytes := List.replicate 32 0x11
def sampleID : SessionID := Fixed.zero 16

def sampleEnds : Ends
  | .initiator => dialed sampleRoot sampleID (channelKey sampleRoot)
  | .responder => accepted sampleRoot sampleID (channelKey sampleRoot)

theorem sampleRoot_size : sampleRoot.length = rootKeySize := rfl

/-- Three answers of the responder, then one frame of the initiator. -/
def sampleSchedule : List (Endpoint × Send) :=
  [(.responder, .frame []), (.responder, .frame []), (.responder, .frame []), (.initiator, .frame [])]

theorem sample_dialed : dialHandshake sampleRoot [] ⟨aead,sampleID⟩ ⟨fromResponder sampleRoot sampleID,[]⟩ =
      (.ok (sampleEnds .initiator),⟨[],fromInitiator sampleRoot sampleID⟩) :=
  dialHandshake_completes sampleRoot_size

theorem sample_accepted : acceptHandshake sampleRoot [] ⟨aead,sampleID⟩ ⟨fromInitiator sampleRoot sampleID,[]⟩ =
      (.ok (sampleEnds .responder),⟨[],fromResponder sampleRoot sampleID⟩) :=
  acceptHandshake_completes sampleRoot_size sampleID

theorem sample_emissions : emissions aead sampleEnds sampleSchedule =
    [(.responder,⟨sessionKey sampleRoot sampleID,sequenceNonce 3⟩),
      (.responder,⟨sessionKey sampleRoot sampleID,sequenceNonce 4⟩),
      (.responder,⟨sessionKey sampleRoot sampleID,sequenceNonce 5⟩),
      (.initiator,⟨sessionKey sampleRoot sampleID,sequenceNonce 5⟩)] := by
  have key (e : Endpoint) : (sampleEnds e).aeadKey.length = aeadKeySize := by cases e <;> exact derived_length _ _
  have long (e : Endpoint) : 16 ≤ (sampleEnds e).macKey.length := by cases e <;> exact channelKey_long
  obtain ⟨r1,first⟩ := empty_frame_sent (key .responder) (long .responder)
  obtain ⟨r2,second⟩ := empty_frame_sent (d := (sampleEnds .responder).spend) (key .responder) (long .responder)
  obtain ⟨r3,third⟩ := empty_frame_sent (d := (sampleEnds .responder).spend.spend) (key .responder) (long .responder)
  obtain ⟨r4,fourth⟩ := empty_frame_sent (key .initiator) (long .initiator)
  simp [emissions,sampleSchedule,Send.run,Ends.put,first,second,third,fourth]
  exact ⟨rfl,rfl,rfl,rfl⟩

theorem traffic_nonces_sample : ((emissions aead sampleEnds sampleSchedule).map (·.2)).Nodup ↔
    1 ≤ 2 ^ 64 ∧ 3 ≤ 2 ^ 64 ∧ ((sampleEnds .initiator).aeadKey = (sampleEnds .responder).aeadKey →
      1 = 0 ∨ 3 = 0 ∨ 3 ≤ 2 ∧ 1 ≤ 2 ^ 64 - 2) := by
  have exact' := traffic_nonces_unique_iff sample_dialed sample_accepted aead sampleSchedule
  have m : (sealedFor .initiator (emissions aead sampleEnds sampleSchedule)).length = 1 := by
    rw [sample_emissions]; rfl
  have n : (sealedFor .responder (emissions aead sampleEnds sampleSchedule)).length = 3 := by
    rw [sample_emissions]; rfl
  simpa only [m,n] using exact'

/-- In an undisturbed session the responder's third data frame and the initiator's
first are sealed under one key and one nonce. -/
theorem traffic_nonce_reused :
    dialHandshake sampleRoot [] ⟨aead, sampleID⟩ ⟨fromResponder sampleRoot sampleID, []⟩ =
      (.ok (sampleEnds .initiator), ⟨[], fromInitiator sampleRoot sampleID⟩) ∧
    acceptHandshake sampleRoot [] ⟨aead, sampleID⟩ ⟨fromInitiator sampleRoot sampleID, []⟩ =
      (.ok (sampleEnds .responder), ⟨[], fromResponder sampleRoot sampleID⟩) ∧
    ¬((emissions aead sampleEnds sampleSchedule).map (·.2)).Nodup := by
  refine ⟨sample_dialed,sample_accepted,?_⟩
  rw [sample_emissions]
  simp

end sample

end Integris.Traffic
