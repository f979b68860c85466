import Integris.Driver
import Integris.ChaCha20Poly1305

/-! Two drivers with one session id, one MAC key and one traffic key, over a network
that delivers any bytes to either of them at any time. Neither the frame
authenticator nor the associated data names the sender. -/
namespace Integris.Origin

open Session Crypto Protocol Prog

/-- Every way a driver hands out a frame. -/
inductive Encoder where
  | negotiateOffer (vers : List Version)
  | negotiateAccept
  | peerAuth
  | archiveAuth
  | dataChunk (data : Bytes)
  | frame (typ : MessageType) (body : Bytes)

def Encoder.run : Encoder → Driver.Op Bytes
  | negotiateOffer vers => Driver.encodeNegotiateOffer vers
  | negotiateAccept => Driver.encodeNegotiateAccept
  | peerAuth => Driver.encodePeerAuth
  | archiveAuth => Driver.encodeArchiveAuth
  | dataChunk data => Driver.encodeDataChunk data
  | frame typ body => Driver.encodeFrame typ body

/-- Both drivers and every frame emitted so far with its sender. -/
structure Network where
  driver : Endpoint → Driver
  wire : List (Endpoint × Bytes)

def Network.put (s : Network) (e : Endpoint) (d : Driver) : Network :=
  { s with driver := fun x => if x = e then d else s.driver x }

@[simp] theorem Network.put_driver (s : Network) (e x : Endpoint) (d : Driver) :
    (s.put e d).driver x = if x = e then d else s.driver x := rfl

@[simp] theorem Network.put_wire (s : Network) (e : Endpoint) (d : Driver) : (s.put e d).wire = s.wire := rfl

/-- `configure` covers local session operations, key installation and the driver's
settings: everything that moves neither counter nor the link's keys. -/
inductive Step (aead : Aead) : Network → Network → Prop where
  | emit (s : Network) (e : Endpoint) (m : Encoder) (raw : Bytes) (d : Driver)
      (run : m.run aead (s.driver e) = (.ok raw, d)) :
      Step aead s { s.put e d with wire := (e, raw) :: s.wire }
  | refuse (s : Network) (e : Endpoint) (m : Encoder) (why : Failure) (d : Driver)
      (run : m.run aead (s.driver e) = (.error why, d)) : Step aead s (s.put e d)
  | deliver (s : Network) (e : Endpoint) (raw : Bytes) :
      Step aead s (s.put e (Driver.decodeAndHandle raw aead (s.driver e)).2)
  | configure (s : Network) (e : Endpoint) (d : Driver) (link : Driver.SameLink (s.driver e) d)
      (recvSeq : d.recvSeq = (s.driver e).recvSeq) : Step aead s (s.put e d)

/-- `Run aead s n t`: `n` steps lead from `s` to `t`. -/
inductive Run (aead : Aead) (s : Network) : Nat → Network → Prop where
  | refl : Run aead s 0 s
  | step {n : Nat} {t u : Network} : Run aead s n t → Step aead t u → Run aead s (n + 1) u

/-- Two drivers fresh from `NewDriver` or `NewDriverWithSuites` that share a MAC key. -/
structure Fresh (s : Network) (macKey : Bytes) : Prop where
  wire : s.wire = []
  sendSeq : ∀ e, (s.driver e).sendSeq = 1
  macKey : ∀ e, (s.driver e).macKey = macKey

def sequenceOf (raw : Bytes) : Nat := leNat (slice raw 34 42)

/-- After `n` steps: counters are bounded, and a driver's own frames lie below its
send counter and are MACed under the shared key. -/
structure Invariant (macKey : Bytes) (n : Nat) (s : Network) : Prop where
  keyed : ∀ e, (s.driver e).macKey = macKey
  counter : ∀ e, (s.driver e).sendSeq ≤ n + 1
  own : ∀ e raw, (e, raw) ∈ s.wire → sequenceOf raw < (s.driver e).sendSeq
  framed : ∀ e raw, (e, raw) ∈ s.wire → ∃ f : Frame, raw = f.wire macKey

theorem Encoder.emits (aead : Aead) (m : Encoder) : Driver.Emits aead m.run := by
  cases m with
  | negotiateOffer vers => exact Driver.encodeNegotiateOffer_emits vers
  | negotiateAccept => exact Driver.encodeNegotiateAccept_emits
  | peerAuth => exact Driver.encodeAuth_emits.1
  | archiveAuth => exact Driver.encodeAuth_emits.2
  | dataChunk data => exact Driver.encodeDataChunk_emits data
  | frame typ body => exact fun d => Driver.encodeFrame_emits typ body (.refl d)

variable {s t : Network} {macKey : Bytes} {n : Nat}

/-- One endpoint moves; either it emits the next frame or nothing is emitted. -/
theorem step_cases {aead : Aead} (h : Step aead s t) : ∃ e d, (t = s.put e d ∧ Driver.Refused (s.driver e) d) ∨
    (∃ raw, t = { s.put e d with wire := (e,raw) :: s.wire } ∧ Driver.Emitted (s.driver e) raw d) := by
  cases h with
  | emit e m raw d run => exact ⟨e,d,.inr ⟨raw,rfl,(m.emits aead _).ok_of run⟩⟩
  | refuse e m why d run =>
    refine ⟨e,d,.inl ⟨rfl,?_⟩⟩
    have ends := m.emits aead (s.driver e)
    rw [wp,run] at ends
    exact ends
  | deliver e raw =>
    have kept : wp (Driver.decodeAndHandle raw) aead (s.driver e) _ _ _ :=
      Driver.keeps_decodeAndHandle (s.driver e) raw _ (.refl _)
    exact ⟨e,_,.inl ⟨rfl,.inl kept.reached⟩⟩
  | configure e d link recvSeq => exact ⟨e,d,.inl ⟨rfl,.inl link⟩⟩

private theorem spend_sendSeq {d d' : Driver} (h : Driver.SameLink d.spend d')
    (room : d.sendSeq + 1 < 2 ^ 64) : d'.sendSeq = d.sendSeq + 1 :=
  h.sendSeq.trans (Nat.mod_eq_of_lt room)

private theorem Invariant.put {s : Network} (inv : Invariant macKey n s)
    {e : Endpoint} {d : Driver} (keyed : d.macKey = macKey)
    (low : (s.driver e).sendSeq ≤ d.sendSeq) (high : d.sendSeq ≤ (s.driver e).sendSeq + 1) :
    Invariant macKey (n + 1) (s.put e d) := by
  constructor
  · intro x
    by_cases same : x = e <;> simp [same,keyed,inv.keyed]
  · intro x
    have bound := inv.counter x
    by_cases same : x = e
    · subst same; simp; omega
    · simp [same]; omega
  · intro x raw member
    have below := inv.own x raw member
    by_cases same : x = e
    · subst same; simp; omega
    · simpa [same] using below
  · exact inv.framed

theorem step_invariant {aead : Aead} (nonempty : macKey ≠ []) (room : n + 2 < 2 ^ 64) (inv : Invariant macKey n s)
    (h : Step aead s t) : Invariant macKey (n + 1) t := by
  obtain ⟨e,d,⟨rfl,refused⟩ | ⟨raw,rfl,emitted⟩⟩ := step_cases h
  · have counter := inv.counter e
    rcases refused with link | link
    · exact inv.put (link.macKey.trans (inv.keyed e)) link.sendSeq.ge (by rw [link.sendSeq]; omega)
    · have spent := spend_sendSeq link (by omega)
      exact inv.put (link.macKey.trans (inv.keyed e)) (by omega) (by omega)
  · have counter := inv.counter e
    have spent := spend_sendSeq emitted.link (by omega)
    have moved := inv.put (emitted.link.macKey.trans (inv.keyed e)) (by omega : (s.driver e).sendSeq ≤ d.sendSeq) (by omega)
    obtain ⟨f,encoded,sequence⟩ := emitted.frame
    rw [inv.keyed e] at encoded
    have shape : raw = f.wire macKey := ((encode_ok_iff nonempty).mp encoded).2.2
    have number : sequenceOf raw = (s.driver e).sendSeq := by
      rw [shape,sequenceOf,Frame.wire_sequence (by omega),sequence]
    refine ⟨moved.keyed,moved.counter,?_,?_⟩
    · intro x r member
      rcases List.mem_cons.mp member with head | tail
      · cases head
        simp [number,spent]
      · exact moved.own x r tail
    · intro x r member
      rcases List.mem_cons.mp member with head | tail
      · cases head
        exact ⟨f,shape⟩
      · exact moved.framed x r tail

theorem run_invariant {aead : Aead} {start s : Network}
    (nonempty : macKey ≠ []) (fresh : Fresh start macKey) (room : n + 1 < 2 ^ 64)
    (run : Run aead start n s) : Invariant macKey n s := by
  induction run with
  | refl =>
    refine ⟨fresh.macKey,fun e => (fresh.sendSeq e).le,?_,?_⟩ <;>
      · intro e raw member
        simp [fresh.wire] at member
  | step _ last ih => exact step_invariant nonempty (by omega) (ih (by omega)) last

/-- The part of a frame its authenticator covers. -/
def signedPart (raw : Bytes) : Bytes := raw.take (raw.length - authBytes)

/-- The ideal authenticator: a tag verifies only for data a driver tagged and sent. -/
def Genuine (macKey : Bytes) (s : Network) (raw : Bytes) : Prop :=
  raw = signedPart raw ++ macSHA256 macKey (signedPart raw) →
    ∃ who sent, (who, sent) ∈ s.wire ∧ signedPart sent = signedPart raw

theorem decode_tagged {raw macKey : Bytes} {requireMAC : Bool} {f : Frame} (nonempty : macKey ≠ [])
    (h : decode raw macKey requireMAC = .ok f) :
    raw = signedPart raw ++ macSHA256 macKey (signedPart raw) := by
  have needed : (requireMAC || decide (leNat (slice raw 12 14) ≠ 0) || decide (macKey ≠ [])) = true := by
    simp [nonempty]
  simp only [decode,check_bind_ok,needed,if_true] at h
  obtain ⟨-,-,-,-,-,length,-,-,tag,-⟩ := h
  have covered : raw.length - authBytes = headerBytes + leNat (slice raw 14 18) := by
    rw [length]; exact Nat.add_sub_cancel _ _
  rw [signedPart,covered,← tag trivial,covered]
  exact (List.take_append_drop _ raw).symm

theorem signedPart_wire (f : Frame) (macKey : Bytes) : signedPart (f.wire macKey) = f.signed := by
  have size : (f.wire macKey).length - authBytes = f.signed.length := by simp [Frame.wire,macSHA256,authBytes]
  rw [signedPart,size]
  exact List.take_left' rfl

/-- A driver that has received at least as many frames as it has sent accepts only
frames of its peer. -/
theorem accepted_frame_from_peer {aead : Aead} {macKey raw : Bytes} {start s : Network} {n : Nat}
    {e : Endpoint} {f : Frame} {d : Driver} (nonempty : macKey ≠ []) (fresh : Fresh start macKey)
    (run : Run aead start n s) (room : n + 1 < 2 ^ 64) (ideal : Genuine macKey s raw)
    (behind : (s.driver e).sendSeq ≤ (s.driver e).recvSeq)
    (accepted : Driver.decodeAndHandle raw aead (s.driver e) = (.ok f, d)) :
    (e.other, raw) ∈ s.wire ∧ (e, raw) ∉ s.wire := by
  have inv := run_invariant nonempty fresh room run
  obtain ⟨decoded,sequence⟩ := Driver.decodeAndHandle_ok accepted
  rw [inv.keyed e] at decoded
  have number : sequenceOf raw = (s.driver e).recvSeq := (decode_sequence decoded).symm.trans sequence
  have tagged := decode_tagged nonempty decoded
  have foreign : (e, raw) ∉ s.wire := by
    intro own
    have := inv.own e raw own
    omega
  obtain ⟨who,sent,member,same⟩ := ideal tagged
  obtain ⟨g,shape⟩ := inv.framed who sent member
  have equal : sent = raw := by
    rw [tagged,← same,shape,signedPart_wire]
    rfl
  subst equal
  rcases e.eq_or_other who with own | other
  · subst own
    exact absurd member foreign
  · subst other
    exact ⟨member,foreign⟩

section sample

open ChaCha20Poly1305 (aead)

def sampleMacKey : Bytes := List.replicate 16 0x6b

def sampleFresh : Driver := Driver.new [3, 2] (Fixed.zero 16) sampleMacKey true

def sampleReady : Driver := { sampleFresh with
  session := {
    state := .active, offered := [3, 2], selected := 3, peerAuthenticated := true
    authI2R := true, authR2I := true, archiveAuthorized := true }
  aeadKey := List.replicate 32 0x74 }

/-- The public operations lead from a new driver to an ACTIVE one with a key. -/
example : (do
    Driver.onSession negotiate
    Driver.onSession authenticate
    Driver.onSession authorizeArchive
    Driver.onSession activate
    Driver.setAEADKey (List.replicate 32 0x74) : Driver.Op Unit) aead sampleFresh =
      (.ok (), sampleReady) := by decide +kernel

def sampleStart : Network := ⟨fun _ => sampleFresh, []⟩

def sampleActive : Network := (sampleStart.put .initiator sampleReady).put .responder sampleReady

/-- The initiator's first data frame: header, session id and sequence 1, the sealed
body of one byte, the authenticator. -/
def sampleFrame : Bytes := [
  73, 78, 84, 80, 82, 79, 48, 49, 1, 0, 6, 0, 1, 0, 17, 0, 0, 0,
  0, 0, 0, 0, 0, 0, 0, 0, 0, 0, 0, 0, 0, 0, 0, 0, 1, 0, 0, 0, 0, 0, 0, 0,
  150, 2, 182, 206, 152, 112, 94, 157, 172, 124, 156, 104, 112, 6, 78, 94, 186,
  116, 249, 224, 111, 213, 76, 168, 24, 162, 129, 114, 249, 37, 172, 203, 165,
  81, 132, 182, 98, 44, 236, 245, 222, 182, 145, 93, 251, 194, 207, 54, 23]

def sampleSent : Network :=
  { sampleActive.put .initiator sampleReady.spend with wire := [(.initiator, sampleFrame)] }

theorem sampleStart_fresh : Fresh sampleStart sampleMacKey := ⟨rfl,fun _ => rfl,fun _ => rfl⟩

theorem sample_run : Run aead sampleStart 3 sampleSent := by
  have ready : Driver.SameLink sampleFresh sampleReady := by constructor <;> rfl
  have first : Step aead sampleStart (sampleStart.put .initiator sampleReady) :=
    .configure sampleStart .initiator sampleReady ready rfl
  have second : Step aead (sampleStart.put .initiator sampleReady) sampleActive :=
    .configure _ .responder sampleReady ready rfl
  have third : Step aead sampleActive sampleSent :=
    .emit sampleActive .initiator (.frame .data (ascii "x")) sampleFrame sampleReady.spend (by decide +kernel)
  exact ((Run.refl.step first).step second).step third

theorem sampleFrame_genuine : Genuine sampleMacKey sampleSent sampleFrame :=
  fun _ => ⟨.initiator,sampleFrame,List.mem_singleton.mpr rfl,rfl⟩

def sampleDecoded : Frame :=
  { version := 1, typ := .data, flags := 1, sessionID := Fixed.zero 16, sequence := 1
    body := slice sampleFrame 42 59 }

theorem sample_accepted (e : Endpoint) :
    (Driver.decodeAndHandle sampleFrame aead (sampleSent.driver e)).1 = .ok sampleDecoded := by
  cases e <;> decide +kernel

theorem accepted_frame_from_peer_sample :
    (Endpoint.initiator, sampleFrame) ∈ sampleSent.wire ∧
      (Endpoint.responder, sampleFrame) ∉ sampleSent.wire :=
  accepted_frame_from_peer (by decide) sampleStart_fresh sample_run (by decide)
    sampleFrame_genuine (by decide) (run_eq (sample_accepted .responder))

/-- Reflected to its sender, the same frame is accepted too: the initiator, ACTIVE and
with its traffic key installed, takes its own frame for the responder's. -/
theorem reflected_frame_accepted : Fresh sampleStart sampleMacKey ∧
    Run aead sampleStart 3 sampleSent ∧ Genuine sampleMacKey sampleSent sampleFrame ∧
    (sampleSent.driver .initiator).aeadKey ≠ [] ∧
    (∃ d, Driver.decodeAndHandle sampleFrame aead (sampleSent.driver .initiator) =
      (.ok sampleDecoded, d)) ∧
    sampleSent.wire = [(.initiator, sampleFrame)] :=
  ⟨sampleStart_fresh,sample_run,sampleFrame_genuine,by decide,
    ⟨_,run_eq (sample_accepted .initiator)⟩,rfl⟩

end sample

end Integris.Origin
