import Integris.Bytes
import Integris.Effect

/-! The journal payloads of a local synchronization: where it copies from and to, and how far
it has come. A text field is a 16-bit length and its bytes. -/
namespace Integris.LocalSync.Payload

def payloadVersion : UInt8 := 1

def putU16 (b : Bytes) (v : Nat) : Bytes := b ++ leBytes 2 v
def putU32 (b : Bytes) (v : UInt32) : Bytes := b ++ leBytes 4 v.toNat
def putU64 (b : Bytes) (v : UInt64) : Bytes := b ++ leBytes 8 v.toNat

def putBytes (b p : Bytes) : Except String Bytes := do
  demand (p.length ≤ 65535) "localsync: payload field too long"
  .ok (putU16 b p.length ++ p)

def takeUint (w : Nat) (b : Bytes) : Except String (Nat × Bytes) := do
  demand (w ≤ b.length) "localsync: short payload"
  .ok (leNat (b.take w), b.drop w)

def takeU16 : Bytes → Except String (Nat × Bytes) := takeUint 2
def takeU32 : Bytes → Except String (Nat × Bytes) := takeUint 4
def takeU64 : Bytes → Except String (Nat × Bytes) := takeUint 8

/-- The bytes left are counted in 16 bits too. -/
def takeBytes (b : Bytes) : Except String (Bytes × Bytes) := do
  let (n, rest) ← takeU16 b
  demand (n ≤ rest.length % 2 ^ 16) "localsync: short payload bytes"
  .ok (rest.take n, rest.drop n)

def encodeObservation (src dst : Bytes) : Except String Bytes := do
  let b ← putBytes [payloadVersion] src
  putBytes b dst

def decodeObservation (p : Bytes) : Except String (Bytes × Bytes) := do
  demand (p.head? = some payloadVersion) "localsync: bad observation version"
  let (src, rest) ← takeBytes (p.drop 1)
  let (dst, rest) ← takeBytes rest
  demand (rest = []) "localsync: trailing observation bytes"
  .ok (src, dst)

/-- What an operation that is done records. -/
structure Progress where
  opIndex : UInt32
  action : Bytes
  rel : Bytes
  bytesCum : UInt64

def encodeProgress (r : Progress) : Except String Bytes := do
  let b ← putBytes (putU32 [payloadVersion] r.opIndex) r.action
  let b ← putBytes b r.rel
  .ok (putU64 b r.bytesCum)

def decodeProgress (p : Bytes) : Except String Progress := do
  demand (p.head? = some payloadVersion) "localsync: bad progress version"
  let (opIndex, rest) ← takeU32 (p.drop 1)
  let (action, rest) ← takeBytes rest
  let (rel, rest) ← takeBytes rest
  let (bytesCum, rest) ← takeU64 rest
  demand (rest = []) "localsync: trailing progress bytes"
  .ok ⟨UInt32.ofNat opIndex, action, rel, UInt64.ofNat bytesCum⟩

variable {b p raw rest : Bytes} {w n : Nat}

/-- A length and as many bytes. -/
def field (p : Bytes) : Bytes := leBytes 2 p.length ++ p

theorem putBytes_ok : putBytes b p = .ok raw ↔ p.length ≤ 65535 ∧ b ++ field p = raw := by
  rw [putBytes,demand_bind_ok,Except.ok.injEq,putU16,List.append_assoc,field]

theorem takeUint_ok : takeUint w b = .ok (n, rest) ↔ n < 256 ^ w ∧ b = leBytes w n ++ rest := by
  rw [takeUint,demand_bind_ok,Except.ok.injEq,Prod.mk.injEq,field_iff]

theorem takeBytes_ok : takeBytes b = .ok (p, rest) ↔
    p.length ≤ 65535 ∧ p.length ≤ (p.length + rest.length) % 2 ^ 16 ∧ b = field p ++ rest := by
  simp only [takeBytes,takeU16,except_bind_ok,Prod.exists,takeUint_ok,↓demand_bind_ok,Except.ok.injEq,Prod.mk.injEq,field]
  constructor
  · rintro ⟨n,more,⟨fits,rfl⟩,room,rfl,rfl⟩
    have long : n ≤ more.length := Nat.le_trans room (Nat.mod_le _ _)
    rw [List.length_take_of_le long,List.length_drop,Nat.add_sub_cancel' long,List.append_assoc,List.take_append_drop]
    exact ⟨by omega,room,rfl⟩
  · rintro ⟨short,room,rfl⟩
    exact ⟨p.length,p ++ rest,⟨by omega,List.append_assoc _ _ _⟩,by rwa [List.length_append],List.take_left,List.drop_left⟩

variable {src dst : Bytes} {r : Progress}

theorem encodeObservation_ok : encodeObservation src dst = .ok raw ↔
    src.length ≤ 65535 ∧ dst.length ≤ 65535 ∧ payloadVersion :: (field src ++ field dst) = raw := by
  simp [encodeObservation,except_bind_ok,putBytes_ok,and_assoc]

theorem encodeProgress_ok : encodeProgress r = .ok raw ↔ r.action.length ≤ 65535 ∧ r.rel.length ≤ 65535 ∧
    payloadVersion :: (leBytes 4 r.opIndex.toNat ++ (field r.action ++ (field r.rel ++ leBytes 8 r.bytesCum.toNat))) =
      raw := by
  simp [encodeProgress,except_bind_ok,putBytes_ok,putU32,putU64,and_assoc]

theorem version_front : raw.head? = some payloadVersion ∧ raw.drop 1 = rest ↔ raw = payloadVersion :: rest := by
  cases raw <;> simp

theorem decodeObservation_ok : decodeObservation raw = .ok (src, dst) ↔
    encodeObservation src dst = .ok raw ∧ src.length ≤ (src.length + (2 + dst.length)) % 2 ^ 16 := by
  rw [decodeObservation,encodeObservation_ok,demand_bind_ok]
  simp only [↓demand_bind_ok,except_bind_ok,Prod.exists,takeBytes_ok,Except.ok.injEq,Prod.mk.injEq]
  constructor
  · rintro ⟨version,s,mid,⟨short,room,front⟩,d,rest,⟨short',-,rfl⟩,rfl,rfl,rfl⟩
    simp only [field,List.append_nil,List.length_append,leBytes_length] at room
    exact ⟨⟨short,short',by simp [version_front.mp ⟨version,front⟩]⟩,room⟩
  · rintro ⟨⟨short,short',rfl⟩,room⟩
    refine ⟨rfl,src,field dst,⟨short,by simpa [field] using room,rfl⟩,dst,[],⟨short',?_,by simp⟩,rfl,rfl,rfl⟩
    rw [List.length_nil]
    omega

theorem decodeProgress_ok : decodeProgress raw = .ok r ↔ encodeProgress r = .ok raw ∧
    r.action.length ≤ (r.action.length + (2 + (r.rel.length + 8))) % 2 ^ 16 ∧
    r.rel.length ≤ (r.rel.length + 8) % 2 ^ 16 := by
  rw [decodeProgress,encodeProgress_ok,demand_bind_ok]
  simp only [takeU32,takeU64,↓demand_bind_ok,except_bind_ok,Prod.exists,takeUint_ok,takeBytes_ok,Except.ok.injEq]
  constructor
  · rintro ⟨version,i,tail,⟨small,front⟩,a,mid,⟨short,room,rfl⟩,q,last,⟨short',room',rfl⟩,n,rest,⟨small',rfl⟩,rfl,rfl⟩
    simp only [field,List.append_nil,List.length_append,leBytes_length] at room room'
    refine ⟨⟨short,short',?_⟩,room,room'⟩
    rw [version_front.mp ⟨version,front⟩,UInt32.toNat_ofNat_of_lt' small,UInt64.toNat_ofNat_of_lt' small',List.append_nil]
  · rintro ⟨⟨short,short',rfl⟩,room,room'⟩
    refine ⟨rfl,r.opIndex.toNat,_,⟨r.opIndex.toNat_lt,rfl⟩,r.action,_,⟨short,?_,rfl⟩,r.rel,_,⟨short',?_,rfl⟩,
      r.bytesCum.toNat,[],⟨r.bytesCum.toNat_lt,by simp⟩,rfl,by simp⟩
    · simpa [field] using room
    · simpa using room'

/-- A payload is read as the fields it encodes, and as no others, exactly where the bytes after each
length, counted in 16 bits, are still as many as it announces. -/
theorem payloads_round_trip_iff (src dst raw : Bytes) (r : Progress) :
    (decodeObservation raw = .ok (src, dst) ↔ encodeObservation src dst = .ok raw ∧
      src.length ≤ (src.length + (2 + dst.length)) % 2 ^ 16) ∧
    (decodeProgress raw = .ok r ↔ encodeProgress r = .ok raw ∧
      r.action.length ≤ (r.action.length + (2 + (r.rel.length + 8))) % 2 ^ 16 ∧
      r.rel.length ≤ (r.rel.length + 8) % 2 ^ 16) :=
  ⟨decodeObservation_ok,decodeProgress_ok⟩

theorem payload_lost : ∃ src raw, encodeObservation src [] = .ok raw ∧ decodeObservation raw ≠ .ok (src, []) := by
  refine ⟨List.replicate 65534 97,_,encodeObservation_ok.mpr ⟨?_,by decide,rfl⟩,fun read => ?_⟩
  · rw [List.length_replicate]
    decide
  · have room := (decodeObservation_ok.mp read).2
    rw [List.length_replicate] at room
    exact absurd room (by decide)

end Integris.LocalSync.Payload
