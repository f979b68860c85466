import Integris.Session

/-! The wire frame of `internal/protocol` and the bodies of its control messages.
A frame is a 42-byte header, the body and, under a MAC key, an HMAC of both. -/
namespace Integris.Protocol

open Session Crypto

def protocolVersion : Nat := 1
def headerBytes : Nat := 42
def authBytes : Nat := 32
def maxBodyBytes : Nat := 2 ^ 20
def frameMagic : Bytes := ascii "INTPRO01"
def flagRequiresMAC : Nat := 1

/-- The allow-list; a code outside it is carried as `unknown`. -/
inductive MessageType where
  | negotiateOffer
  | negotiateAccept
  | peerAuth
  | archiveAuth
  | activate
  | data
  | close
  | failure
  | unknown (code : Nat)
  deriving DecidableEq, Repr

namespace MessageType

def code : MessageType → Nat
  | negotiateOffer => 1
  | negotiateAccept => 2
  | peerAuth => 3
  | archiveAuth => 4
  | activate => 5
  | data => 6
  | close => 7
  | failure => 8
  | unknown c => c

def ofCode : Nat → MessageType
  | 1 => negotiateOffer
  | 2 => negotiateAccept
  | 3 => peerAuth
  | 4 => archiveAuth
  | 5 => activate
  | 6 => data
  | 7 => close
  | 8 => failure
  | c => unknown c

def known : MessageType → Bool
  | unknown _ => false
  | _ => true

variable {t : MessageType}

theorem ofCode_code (h : t.known = true) : ofCode t.code = t := by
  cases t with
  | unknown c => cases h
  | _ => rfl

theorem code_ofCode (n : Nat) : (ofCode n).code = n := by
  unfold ofCode
  split <;> rfl

theorem code_lt (h : t.known = true) : t.code < 256 ^ 2 := by
  cases t with
  | unknown c => cases h
  | _ => decide

end MessageType

def criticalUnknown (t : MessageType) : Bool := !t.known

structure Frame where
  version : Nat := 0
  typ : MessageType
  flags : Nat := 0
  sessionID : SessionID
  sequence : Nat
  body : Bytes
  deriving DecidableEq, Repr

def Frame.header (f : Frame) : Bytes :=
  frameMagic ++ leBytes 2 f.version ++ leBytes 2 f.typ.code ++ leBytes 2 f.flags ++
    leBytes 4 f.body.length ++ f.sessionID.val ++ leBytes 8 f.sequence

@[simp] theorem Frame.header_length (f : Frame) : f.header.length = headerBytes := by
  simp [header,frameMagic,ascii,headerBytes,f.sessionID.property]

def macSHA256 (key body : Bytes) : Bytes := hmacSHA256 key body

/-- A zero version stands for the current one, as in the source. -/
def encode (f : Frame) (macKey : Bytes) : Except Failure Bytes := do
  let f := if f.version = 0 then { f with version := protocolVersion } else f
  check (f.version = protocolVersion) "version" "unsupported protocol version"
  check f.typ.known "type" "unknown message type"
  check (f.flags = 0 ∨ f.flags = flagRequiresMAC) "flags" "reserved flags must be zero"
  check (f.body.length ≤ maxBodyBytes) "limit" "body exceeds MaxBodyBytes"
  if f.flags ≠ 0 ∨ macKey ≠ [] then
    let f := { f with flags := flagRequiresMAC }
    check (16 ≤ macKey.length) "mac" "MAC key required (min 16 bytes)"
    .ok (f.header ++ f.body ++ macSHA256 macKey (f.header ++ f.body))
  else .ok (f.header ++ f.body)

def decode (raw macKey : Bytes) (requireMAC : Bool) : Except Failure Frame := do
  let least := if requireMAC ∨ macKey ≠ [] then headerBytes + authBytes else headerBytes
  check (least ≤ raw.length) "trunc" "frame too short"
  check (slice raw 0 8 = frameMagic) "magic" "not INTPRO01"
  let ver := leNat (slice raw 8 10)
  check (ver = protocolVersion) "version" ("unsupported " ++ toString ver)
  let typ := MessageType.ofCode (leNat (slice raw 10 12))
  let flags := leNat (slice raw 12 14)
  check (flags = 0 ∨ flags = flagRequiresMAC) "flags" "reserved flags must be zero"
  let bodyLen := leNat (slice raw 14 18)
  check (bodyLen ≤ maxBodyBytes) "limit" "body_length exceeds MaxBodyBytes"
  let needMAC := requireMAC || flags ≠ 0 || macKey ≠ []
  let expect := headerBytes + bodyLen + if needMAC then authBytes else 0
  check (raw.length = expect) "length" "frame length mismatch"
  check typ.known "critical" "unknown critical message type"
  check (needMAC → 16 ≤ macKey.length) "mac" "MAC key required"
  check (needMAC → raw.drop (raw.length - authBytes) =
    macSHA256 macKey (raw.take (headerBytes + bodyLen))) "mac" "authenticator mismatch"
  .ok {
    version := ver, typ := typ, flags := flags
    sessionID := Fixed.ofBytes 16 (slice raw 18 34)
    sequence := leNat (slice raw 34 42)
    body := slice raw 42 (42 + bodyLen) }

/-- What `encode` accepts under a MAC key. -/
structure Frame.Encodable (f : Frame) : Prop where
  version : f.version = 0 ∨ f.version = protocolVersion
  typ : f.typ.known = true
  flags : f.flags = 0 ∨ f.flags = flagRequiresMAC
  body : f.body.length ≤ maxBodyBytes

/-- The frame a receiver sees: current version, authenticator flag set. -/
def Frame.stamped (f : Frame) : Frame :=
  { f with version := protocolVersion, flags := flagRequiresMAC }

def Frame.signed (f : Frame) : Bytes := f.stamped.header ++ f.body

def Frame.wire (f : Frame) (macKey : Bytes) : Bytes := f.signed ++ macSHA256 macKey f.signed

@[simp] theorem Frame.signed_length (f : Frame) : f.signed.length = 42 + f.body.length := by simp [signed,headerBytes]

variable {f : Frame} {raw macKey : Bytes} {requireMAC : Bool}

/-- With a MAC key the encoding is always the authenticated one. -/
theorem encode_ok_iff {macKey raw : Bytes} (nonempty : macKey ≠ []) :
    encode f macKey = .ok raw ↔ f.Encodable ∧ 16 ≤ macKey.length ∧ raw = f.wire macKey := by
  have guarded : (f.flags ≠ 0 ∨ macKey ≠ []) := .inr nonempty
  have fields : f.Encodable ↔ (f.version = 0 ∨ f.version = protocolVersion) ∧
      f.typ.known = true ∧ (f.flags = 0 ∨ f.flags = flagRequiresMAC) ∧
      f.body.length ≤ maxBodyBytes :=
    ⟨fun h => ⟨h.version,h.typ,h.flags,h.body⟩,fun ⟨v,t,g,b⟩ => ⟨v,t,g,b⟩⟩
  rw [fields]
  by_cases zero : f.version = 0
  · simp only [encode,zero,if_true,check_bind_ok,if_pos guarded,Except.ok.injEq,true_or,true_and,
      and_assoc,Frame.wire,Frame.signed,Frame.stamped,eq_comm (a := raw)]
  · by_cases version : f.version = protocolVersion
    · simp only [encode,zero,if_false,check_bind_ok,if_pos guarded,Except.ok.injEq,false_or,
        and_assoc,Frame.wire,Frame.signed,Frame.stamped,eq_comm (a := raw)]
      simp only [version]
    · simp only [encode,zero,if_false,check_bind_ok,version,false_and,or_self]

/-- Each header field is read back from its own offset, whatever follows the header. -/
structure Frame.Fields (f : Frame) (raw : Bytes) : Prop where
  magic : slice raw 0 8 = frameMagic
  version : slice raw 8 10 = leBytes 2 f.version
  typ : slice raw 10 12 = leBytes 2 f.typ.code
  flags : slice raw 12 14 = leBytes 2 f.flags
  length : slice raw 14 18 = leBytes 4 f.body.length
  sessionID : slice raw 18 34 = f.sessionID.val
  sequence : slice raw 34 42 = leBytes 8 f.sequence

theorem Frame.header_fields (f : Frame) (rest : Bytes) : f.Fields (f.header ++ rest) := by
  have magic : frameMagic.length = 8 := by decide
  constructor <;> simp [header,slice,List.drop_append,List.drop_eq_nil_of_le,magic,f.sessionID.property]

theorem Frame.Fields.header (fields : f.Fields raw) : f.header = raw.take headerBytes := by
  rw [Frame.header,← fields.magic,← fields.version,← fields.typ,← fields.flags,← fields.length,
    ← fields.sessionID,← fields.sequence]
  simp (disch := omega) only [slice_append_slice]
  rfl

theorem decode_sequence (h : decode raw macKey requireMAC = .ok f) : f.sequence = leNat (slice raw 34 42) := by
  simp only [decode,check_bind_ok] at h
  obtain ⟨-,-,-,-,-,-,-,-,-,frame⟩ := h
  cases frame
  rfl

theorem decode_typ (h : decode raw macKey requireMAC = .ok f) : f.typ = MessageType.ofCode (leNat (slice raw 10 12)) := by
  simp only [decode,check_bind_ok] at h
  obtain ⟨-,-,-,-,-,-,-,-,-,frame⟩ := h
  cases frame
  rfl

theorem Frame.wire_typ (known : f.typ.known = true) (macKey : Bytes) :
    MessageType.ofCode (leNat (slice (f.wire macKey) 10 12)) = f.typ := by
  have field : slice (f.wire macKey) 10 12 = leBytes 2 f.typ.code := by
    rw [wire,signed,List.append_assoc]
    exact (f.stamped.header_fields _).typ
  rw [field,leNat_leBytes_of_lt (MessageType.code_lt known),MessageType.ofCode_code known]

theorem Frame.wire_sequence (fits : f.sequence < 2 ^ 64) (macKey : Bytes) :
    leNat (slice (f.wire macKey) 34 42) = f.sequence := by
  have field : slice (f.wire macKey) 34 42 = leBytes 8 f.sequence := by
    rw [wire,signed,List.append_assoc]
    exact (f.stamped.header_fields _).sequence
  rw [field,leNat_leBytes_of_lt fits]

/-- What follows the header and the body, when the authenticator is wanted. -/
def Frame.tail (f : Frame) (macKey : Bytes) (needMAC : Bool) : Bytes :=
  if needMAC then macSHA256 macKey (f.header ++ f.body) else []

/-- What `decode` returns: every bit of the header is fixed, returned or refused. -/
theorem decode_iff : decode raw macKey requireMAC = .ok f ↔
    (f.version = protocolVersion ∧ f.typ.known = true ∧ (f.flags = 0 ∨ f.flags = flagRequiresMAC) ∧
      f.body.length ≤ maxBodyBytes ∧ f.sequence < 2 ^ 64) ∧
    ((requireMAC || f.flags ≠ 0 || macKey ≠ []) → 16 ≤ macKey.length) ∧
    raw = f.header ++ f.body ++ f.tail macKey (requireMAC || f.flags ≠ 0 || macKey ≠ []) := by
  have word {n : Nat} {i j : Nat} (inside : j ≤ raw.length) (width : j - i = n) :
    leBytes n (leNat (slice raw i j)) = slice raw i j := leBytes_slice inside width
  simp only [decode,check_bind_ok,Except.ok.injEq]
  constructor
  · rintro ⟨long,magic,version,flags,small,whole,known,key,tag,rfl⟩
    generalize hm : leNat (slice raw 14 18) = m at *
    have least : headerBytes + m ≤ raw.length := by omega
    have inside : 42 + m ≤ raw.length := least
    have size : (slice raw 42 (42 + m)).length = m := by rw [slice_length inside,Nat.add_sub_cancel_left]
    set f : Frame := ⟨_,_,_,_,_,_⟩ with hf
    have fields : f.Fields raw := by
      refine ⟨magic,(word ?_ rfl).symm,?_,(word ?_ rfl).symm,?_,?_,(word ?_ rfl).symm⟩
      · omega
      · rw [hf,MessageType.code_ofCode]
        exact (word (by omega) rfl).symm
      · omega
      · rw [hf,size,← hm]
        exact (word (by omega) rfl).symm
      · exact (ofBytes_slice (by omega) rfl).symm
      · omega
    have shape : f.header ++ f.body = raw.take (headerBytes + m) := by
      rw [fields.header,List.take_add,show f.body = (raw.drop 42).take (42 + m - 42) from rfl,Nat.add_sub_cancel_left]
      rfl
    refine ⟨⟨version,known,flags,size.trans_le small,?_⟩,key,?_⟩
    · exact (leNat_lt _).trans_eq (by rw [slice_length (by omega)]; rfl)
    · rw [Frame.tail,shape]
      split
      next need => rw [← tag need,whole,if_pos need,Nat.add_sub_cancel,List.take_append_drop]
      next need =>
        rw [if_neg need] at whole
        rw [List.append_nil,List.take_of_length_le (by omega)]
  · rintro ⟨⟨version,known,flags,small,fits⟩,key,shape⟩
    have fields : f.Fields raw := by
      rw [shape,List.append_assoc]
      exact f.header_fields _
    have ver : leNat (slice raw 8 10) = f.version := by
      rw [fields.version,leNat_leBytes_of_lt (by rw [version]; decide)]
    have typ : MessageType.ofCode (leNat (slice raw 10 12)) = f.typ := by
      rw [fields.typ,leNat_leBytes_of_lt (MessageType.code_lt known),MessageType.ofCode_code known]
    have flag : leNat (slice raw 12 14) = f.flags := by
      rw [fields.flags,leNat_leBytes_of_lt]
      rcases flags with h | h <;> rw [h] <;> decide
    have count : leNat (slice raw 14 18) = f.body.length := by
      rw [fields.length,leNat_leBytes_of_lt (small.trans_lt (by decide))]
    have seq : leNat (slice raw 34 42) = f.sequence := by rw [fields.sequence,leNat_leBytes_of_lt fits]
    have head : (f.header ++ f.body).length = headerBytes + f.body.length := by simp
    have size : raw.length = headerBytes + f.body.length +
        if requireMAC || f.flags ≠ 0 || macKey ≠ [] then authBytes else 0 := by
      rw [shape,List.length_append,head,Frame.tail]
      split <;> simp [macSHA256,authBytes]
    have body : slice raw 42 (42 + f.body.length) = f.body := by
      rw [slice,shape,List.append_assoc,Nat.add_sub_cancel_left]
      exact (congrArg _ (List.drop_left' f.header_length)).trans List.take_left
    simp only [ver,typ,flag,count,seq,body,fields.sessionID,Fixed.ofBytes_of_val]
    refine ⟨?_,fields.magic,version,flags,small,size,known,key,?_,trivial⟩
    · grind
    · intro need
      rw [size,shape,if_pos need,Nat.add_sub_cancel,List.drop_left' head,List.take_left' head,Frame.tail,if_pos need]

theorem decode_wire {macKey : Bytes} (long : 16 ≤ macKey.length) (ok : f.Encodable)
    (fits : f.sequence < 2 ^ 64) (requireMAC : Bool) :
    decode (f.wire macKey) macKey requireMAC = .ok f.stamped :=
  decode_iff.mpr ⟨⟨rfl,ok.typ,.inr rfl,ok.body,fits⟩,fun _ => long,
    by simp [Frame.wire,Frame.signed,Frame.tail,Frame.stamped,flagRequiresMAC]⟩

/-- A frame under a key reads back as it is sent. The converse needs the flag that `encode` sets
and `decode` under a key does not ask for. -/
theorem frame_canonical_iff {macKey : Bytes} (long : 16 ≤ macKey.length) (requireMAC : Bool) :
    (∀ f raw, f.sequence < 2 ^ 64 → encode f macKey = .ok raw → decode raw macKey requireMAC = .ok f.stamped) ∧
    ∀ f raw, decode raw macKey requireMAC = .ok f →
      (encode f macKey = .ok raw ↔ leNat (slice raw 12 14) = flagRequiresMAC) := by
  have nonempty : macKey ≠ [] := by
    rintro rfl
    cases long
  refine ⟨fun f raw fits sent => ?_,fun f raw read => ?_⟩
  · obtain ⟨ok,-,rfl⟩ := (encode_ok_iff nonempty).mp sent
    exact decode_wire long ok fits requireMAC
  · obtain ⟨⟨version,known,flags,small,fits⟩,-,shape⟩ := decode_iff.mp read
    have field : leNat (slice raw 12 14) = f.flags := by
      rw [shape,List.append_assoc,(f.header_fields _).flags,leNat_leBytes_of_lt]
      rcases flags with h | h <;> rw [h] <;> decide
    rw [field,encode_ok_iff nonempty]
    constructor
    · rintro ⟨-,-,rfl⟩
      rw [← field,Frame.wire,Frame.signed,List.append_assoc,(f.stamped.header_fields _).flags]
      exact leNat_leBytes_of_lt (by decide : flagRequiresMAC < 256 ^ 2)
    · intro set
      refine ⟨⟨.inr version,known,flags,small⟩,long,?_⟩
      obtain ⟨_,_,_,_,_,_⟩ := f
      cases version
      cases set
      simpa [Frame.wire,Frame.signed,Frame.tail,Frame.stamped,flagRequiresMAC,protocolVersion] using shape

def bareFrame : Frame := ⟨1,.data,0,Fixed.zero 16,0,[]⟩

theorem frame_canonical_sample :
    ∃ raw, encode bareFrame (List.replicate 16 0) = .ok raw ∧
      decode raw (List.replicate 16 0) true = .ok bareFrame.stamped ∧
      encode bareFrame.stamped (List.replicate 16 0) = .ok raw := by
  have sent : encode bareFrame (List.replicate 16 0) = .ok (bareFrame.wire (List.replicate 16 0)) := rfl
  have long : 16 ≤ (List.replicate 16 0 : Bytes).length := Nat.le_refl 16
  obtain ⟨back,again⟩ := frame_canonical_iff long true
  have read := back _ _ (by decide) sent
  exact ⟨_,sent,read,(again _ _ read).mpr (by decide)⟩

/-- Two byte strings for one frame: an authenticated frame whose flag is not set. -/
theorem frame_encoded_twice :
    ∃ raw other, decode raw (List.replicate 16 0) true = .ok bareFrame ∧
      encode bareFrame (List.replicate 16 0) = .ok other ∧ other ≠ raw := by
  refine ⟨bareFrame.header ++ bareFrame.tail (List.replicate 16 0) true,_,decode_iff.mpr ?_,rfl,by decide⟩
  exact ⟨⟨rfl,rfl,.inl rfl,Nat.zero_le _,by decide⟩,fun _ => Nat.le_refl 16,rfl⟩

def maxNegotiateVersions : Nat := 8
def maxNegotiateSuites : Nat := 8
def maxSuiteIDLen : Nat := 96

def checkSuites : List Bytes → Except Failure Unit
  | [] => .ok ()
  | s :: rest => do
    check (s ≠ []) "negotiate" "empty suite id"
    check (s.length ≤ maxSuiteIDLen) "negotiate" "suite id too long"
    checkSuites rest

def encodeNegotiateOfferBody (vers : List Version) (suites : List Bytes) :
    Except Failure Bytes := do
  check (vers ≠ [] ∧ vers.length ≤ maxNegotiateVersions) "negotiate"
    ("version count " ++ toString vers.length ++ " out of range")
  check (suites.length ≤ maxNegotiateSuites) "negotiate"
    ("suite count " ++ toString suites.length ++ " exceeds max")
  checkSuites suites
  .ok (UInt8.ofNat vers.length :: vers ++ UInt8.ofNat suites.length ::
    suites.flatMap fun s => UInt8.ofNat s.length :: s)

/-- Reads `n` length-prefixed suite names and returns what follows them. -/
def parseSuites : Nat → Bytes → Except Failure (List Bytes × Bytes)
  | 0, rest => .ok ([], rest)
  | _ + 1, [] => .error ⟨"negotiate", "truncated suite length"⟩
  | n + 1, size :: rest => do
    check (size ≠ 0 ∧ size.toNat ≤ maxSuiteIDLen) "negotiate" "bad suite id length"
    check (size.toNat ≤ rest.length) "negotiate" "truncated suite id"
    let (more, tail) ← parseSuites n (rest.drop size.toNat)
    .ok (rest.take size.toNat :: more, tail)

def parseNegotiateOfferBody (body : Bytes) : Except Failure (List Version × List Bytes) := do
  check (2 ≤ body.length) "negotiate" "offer body too short"
  let nV := (body.headD 0).toNat
  check (nV ≠ 0 ∧ nV ≤ maxNegotiateVersions) "negotiate" "bad version count"
  check (1 + nV + 1 ≤ body.length) "negotiate" "truncated versions"
  let nS := ((body.drop (1 + nV)).headD 0).toNat
  check (nS ≤ maxNegotiateSuites) "negotiate" "bad suite count"
  let (suites, tail) ← parseSuites nS (body.drop (1 + nV + 1))
  check (tail = []) "negotiate" "trailing offer bytes"
  .ok (slice body 1 (1 + nV), suites)

def encodeNegotiateAcceptBody (vers : Version) (suite : Bytes) : Except Failure Bytes := do
  check (vers ≠ 0) "negotiate" "selected version required"
  check (suite.length ≤ maxSuiteIDLen) "negotiate" "suite id too long"
  .ok (vers :: UInt8.ofNat suite.length :: suite)

def parseNegotiateAcceptBody (body : Bytes) : Except Failure (Version × Bytes) :=
  match body with
  | vers :: size :: suite => do
    check (vers ≠ 0) "negotiate" "bad selected version"
    check (size.toNat ≤ maxSuiteIDLen) "negotiate" "bad suite id length"
    check (suite.length = size.toNat) "negotiate" "bad accept body length"
    .ok (vers, suite)
  | _ => .error ⟨"negotiate", "accept body too short"⟩

theorem byte_iff {n : Nat} {c : UInt8} (small : n < 256) : UInt8.ofNat n = c ↔ c.toNat = n := by
  rw [← UInt8.toNat_inj,UInt8.toNat_ofNat',Nat.mod_eq_of_lt small,eq_comm]

/-- A suite name a body may carry. -/
def Suite (s : Bytes) : Prop := s ≠ [] ∧ s.length ≤ maxSuiteIDLen

def suiteField (s : Bytes) : Bytes := UInt8.ofNat s.length :: s

theorem checkSuites_iff {suites : List Bytes} : checkSuites suites = .ok () ↔ ∀ s ∈ suites, Suite s := by
  induction suites with
  | nil => simp [checkSuites]
  | cons s rest ih => simp only [checkSuites,check_bind_ok,ih,List.forall_mem_cons,Suite,and_assoc]

theorem parseSuites_iff {n : Nat} {suites : List Bytes} {b rest : Bytes} : parseSuites n b = .ok (suites,rest) ↔
    suites.length = n ∧ (∀ s ∈ suites, Suite s) ∧ b = suites.flatMap suiteField ++ rest := by
  induction n generalizing b suites with
  | zero =>
    rw [parseSuites,Except.ok.injEq,Prod.mk.injEq,List.length_eq_zero_iff]
    constructor
    · rintro ⟨rfl,rfl⟩
      exact ⟨rfl,nofun,rfl⟩
    · rintro ⟨rfl,-,rfl⟩
      exact ⟨rfl,rfl⟩
  | succ n ih =>
    constructor
    · intro h
      cases b with
      | nil => cases h
      | cons c b =>
        simp only [parseSuites,check_bind_ok] at h
        simp only [except_bind_ok] at h
        obtain ⟨⟨some_,short⟩,long,⟨more,tail⟩,others,made⟩ := h
        cases made
        obtain ⟨rfl,fits,shape⟩ := ih.mp others
        have size : (b.take c.toNat).length = c.toNat := List.length_take_of_le long
        have first : Suite (b.take c.toNat) := by
          refine ⟨fun none => some_ ?_,size.trans_le short⟩
          rw [none] at size
          exact UInt8.toNat_inj.mp size.symm
        refine ⟨rfl,List.forall_mem_cons.mpr ⟨first,fits⟩,?_⟩
        rw [List.flatMap_cons,suiteField,size,UInt8.ofNat_toNat,List.append_assoc,← shape]
        simp
    · rintro ⟨count,fits,rfl⟩
      obtain ⟨s,more,rfl⟩ := List.exists_cons_of_length_eq_add_one count
      obtain ⟨⟨some_,short⟩,others⟩ := List.forall_mem_cons.mp fits
      have size : (UInt8.ofNat s.length).toNat = s.length := (byte_iff (Nat.lt_of_le_of_lt short (by decide))).mp rfl
      have read := ih.mpr ⟨Nat.succ.inj count,others,rfl⟩
      have filled : UInt8.ofNat s.length ≠ 0 := fun zero => some_ (by
        rw [zero] at size
        exact List.length_eq_zero_iff.mp size.symm)
      simp only [List.flatMap_cons,suiteField,List.cons_append,List.append_assoc,parseSuites,check_bind_ok,size]
      refine ⟨⟨filled,short⟩,by simp,?_⟩
      rw [List.drop_left,List.take_left]
      simp [read,except_ok_bind]

theorem parseNegotiateOfferBody_iff {vers : List Version} {suites : List Bytes} {body : Bytes} :
    parseNegotiateOfferBody body = .ok (vers,suites) ↔ (vers ≠ [] ∧ vers.length ≤ maxNegotiateVersions) ∧
      suites.length ≤ maxNegotiateSuites ∧ (∀ s ∈ suites, Suite s) ∧
      UInt8.ofNat vers.length :: vers ++ UInt8.ofNat suites.length :: suites.flatMap suiteField = body := by
  simp only [parseNegotiateOfferBody,check_bind_ok]
  constructor
  · rintro ⟨-,⟨some_,few⟩,long,short,h⟩
    obtain ⟨⟨more,tail⟩,read,h⟩ := except_bind_ok.mp h
    obtain ⟨rfl,h⟩ := check_bind_ok.mp h
    cases h
    obtain ⟨count,fits,shape⟩ := parseSuites_iff.mp read
    cases body with
    | nil => cases long
    | cons c rest =>
      simp only [List.headD_cons,List.length_cons] at *
      have room : c.toNat < rest.length := by omega
      have size : (rest.take c.toNat).length = c.toNat := List.length_take_of_le room.le
      obtain ⟨k,tail,split⟩ : ∃ k tail, rest.drop c.toNat = k :: tail := List.exists_cons_of_ne_nil (by simpa using room)
      have next : (c :: rest).drop (1 + c.toNat) = k :: tail := by rw [Nat.add_comm,List.drop_succ_cons,split]
      have after : (c :: rest).drop (1 + c.toNat + 1) = tail := by rw [← List.drop_drop,next]; rfl
      have front : slice (c :: rest) 1 (1 + c.toNat) = rest.take c.toNat := by simp [slice]
      rw [next] at count short
      rw [after,List.append_nil] at shape
      rw [front,size,← shape]
      refine ⟨⟨fun none => some_ ?_,few⟩,count.trans_le short,fits,?_⟩
      · rw [none] at size
        exact size.symm
      · rw [count,UInt8.ofNat_toNat,List.headD_cons,UInt8.ofNat_toNat,← split,List.cons_append,List.take_append_drop]
  · rintro ⟨⟨some_,few⟩,short,fits,rfl⟩
    have count : (UInt8.ofNat vers.length).toNat = vers.length := (byte_iff (Nat.lt_of_le_of_lt few (by decide))).mp rfl
    have number : (UInt8.ofNat suites.length).toNat = suites.length :=
      (byte_iff (Nat.lt_of_le_of_lt short (by decide))).mp rfl
    have read := parseSuites_iff.mpr ⟨rfl,fits,(List.append_nil (suites.flatMap suiteField)).symm⟩
    simp [count,number,read,some_,few,short,except_ok_bind,check_bind_ok,slice,Nat.add_comm 1]
    omega

/-- The bodies of both negotiation messages have one encoding. -/
theorem negotiate_bodies_canonical :
    (∀ vers suites body, encodeNegotiateOfferBody vers suites = .ok body ↔
      parseNegotiateOfferBody body = .ok (vers,suites)) ∧
    ∀ vers suite body, encodeNegotiateAcceptBody vers suite = .ok body ↔
      parseNegotiateAcceptBody body = .ok (vers,suite) := by
  refine ⟨fun vers suites body => ?_,fun vers suite body => ?_⟩
  · rw [parseNegotiateOfferBody_iff]
    simp only [encodeNegotiateOfferBody,check_bind_ok]
    simp only [except_unit_bind_ok,checkSuites_iff,Except.ok.injEq]
    rfl
  · simp only [encodeNegotiateAcceptBody,check_bind_ok,Except.ok.injEq]
    constructor
    · rintro ⟨chosen,short,rfl⟩
      have size : (UInt8.ofNat suite.length).toNat = suite.length :=
        (byte_iff (Nat.lt_of_le_of_lt short (by decide))).mp rfl
      simp only [parseNegotiateAcceptBody,check_bind_ok,size]
      exact ⟨chosen,short,trivial,trivial⟩
    · intro h
      match body,h with
      | v :: size :: rest,h =>
        simp only [parseNegotiateAcceptBody,check_bind_ok] at h
        obtain ⟨chosen,short,whole,made⟩ := h
        cases made
        exact ⟨chosen,whole.trans_le short,by rw [whole,UInt8.ofNat_toNat]⟩

def peerAuthDirLen : Nat := 3

def encodePeerAuthBody (direction proof : Bytes) : Bytes := direction ++ proof

def parsePeerAuthBody (body : Bytes) : Except Failure (Bytes × Bytes) := do
  check (peerAuthDirLen + 16 ≤ body.length) "auth"
    ("peer auth body too short (" ++ toString body.length ++ ")")
  let direction := body.take peerAuthDirLen
  check (direction = i2r ∨ direction = r2i) "auth" "invalid peer auth direction"
  .ok (direction, body.drop peerAuthDirLen)

def dataChunkHeaderBytes : Nat := 12
def maxDataChunkBytes : Nat := maxBodyBytes - dataChunkHeaderBytes

def encodeDataChunkBody (offset : Nat) (data : Bytes) : Except Failure Bytes := do
  check (data.length ≤ maxDataChunkBytes) "chunk"
    ("chunk length " ++ toString data.length ++ " exceeds max")
  check (offset ≤ 2 ^ 64 - 1 - data.length) "chunk" "offset+length overflow"
  .ok (leBytes 8 offset ++ leBytes 4 data.length ++ data)

def parseDataChunkBody (body : Bytes) : Except Failure (Nat × Bytes) := do
  check (dataChunkHeaderBytes ≤ body.length) "chunk" "truncated data chunk"
  let offset := leNat (slice body 0 8)
  let n := leNat (slice body 8 12)
  check (dataChunkHeaderBytes + n = body.length) "chunk" "length mismatch"
  check (n ≤ maxDataChunkBytes) "chunk" "chunk length exceeds max"
  check (offset ≤ 2 ^ 64 - 1 - n) "chunk" "offset+length overflow"
  .ok (offset, body.drop dataChunkHeaderBytes)

theorem parseDataChunkBody_encode {offset : Nat} {data body : Bytes} (h : encodeDataChunkBody offset data = .ok body) :
    parseDataChunkBody body = .ok (offset,data) ∧ offset + data.length < 2 ^ 64 := by
  simp only [encodeDataChunkBody,check_bind_ok,Except.ok.injEq] at h
  obtain ⟨small,room,rfl⟩ := h
  have bound : data.length < 2 ^ 20 := by
    simp only [maxDataChunkBytes,maxBodyBytes,dataChunkHeaderBytes] at small
    omega
  have off : leNat (slice (leBytes 8 offset ++ leBytes 4 data.length ++ data) 0 8) = offset := by
    rw [List.append_assoc,slice_append_left (by simp)]
    exact leNat_leBytes_of_lt (by omega)
  have size : leNat (slice (leBytes 8 offset ++ leBytes 4 data.length ++ data) 8 12) = data.length := by
    rw [List.append_assoc,slice_append_right (by simp),leBytes_length]
    rw [slice_append_left (by simp)]
    exact leNat_leBytes_of_lt (by omega)
  have rest : (leBytes 8 offset ++ leBytes 4 data.length ++ data).drop dataChunkHeaderBytes = data :=
    List.drop_left' (by simp [dataChunkHeaderBytes])
  have length : (leBytes 8 offset ++ leBytes 4 data.length ++ data).length =
      dataChunkHeaderBytes + data.length := by simp [dataChunkHeaderBytes]; omega
  refine ⟨?_,by omega⟩
  simp only [parseDataChunkBody,check_bind_ok,off,size,rest,length]
  exact ⟨by omega,trivial,small,room,trivial⟩

end Integris.Protocol
