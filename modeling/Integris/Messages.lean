import Integris.Apply

/-! The application messages of `internal/remotesync`: what a pushing peer may say
inside its session, as the receiver decodes it. Strings carry a 16-bit length,
integers are little-endian. -/
namespace Integris.RemoteSync

open Posix LocalSync

inductive Kind where
  | invalidArgument | handshake | transport | protocol | auth | apply | internal
  deriving DecidableEq, Repr

/-- A Go `error` as it reaches this package, with what it wraps. -/
inductive Fault where
  | errno (e : Errno)
  | grammar (e : PathGrammar.Error)
  | localsync (e : LocalSync.Error)
  | json
  | fail (kind : Kind) (message : String)
  | wrap (kind : Kind) (message : String) (cause : Fault)
  deriving DecidableEq

def msgManifest : UInt8 := 1
def msgManifestOK : UInt8 := 2
def msgFile : UInt8 := 3
def msgCommit : UInt8 := 4
def msgResult : UInt8 := 5
def msgFileBegin : UInt8 := 6
def msgFileAck : UInt8 := 7
def msgFileChunk : UInt8 := 8
def msgFileEnd : UInt8 := 9

def protocolMaxBodyUseful : Nat := 2 ^ 20 - 256

/-- A decoded field and the bytes behind it. -/
structure Taken (α : Type) where
  value : α
  rest : Bytes

def takeU32 (b : Bytes) : Except Fault (Taken Nat) := do
  demand (4 ≤ b.length) (.fail .protocol "short u32")
  .ok ⟨leNat (b.take 4),b.drop 4⟩

def takeU64 (b : Bytes) : Except Fault (Taken UInt64) := do
  demand (8 ≤ b.length) (.fail .protocol "short u64")
  .ok ⟨UInt64.ofNat (leNat (b.take 8)),b.drop 8⟩

def takeString (b : Bytes) : Except Fault (Taken Bytes) := do
  demand (2 ≤ b.length) (.fail .protocol "short string")
  let n := leNat (b.take 2)
  demand (n ≤ (b.drop 2).length) (.fail .protocol "short string body")
  .ok ⟨(b.drop 2).take n,(b.drop 2).drop n⟩

def appendString (b s : Bytes) : Except Fault Bytes := do
  demand (s.length ≤ 65535) (.fail .protocol "string too long")
  .ok (b ++ leBytes 2 s.length ++ s)

/-- The part of a manifest entry that depends on its type byte. -/
def decodeTyped (t : UInt8) (rel : Bytes) (mode : Nat) (size : UInt64) (rest : Bytes) :
    Except Fault (Taken Entry) :=
  if t = 1 then .ok ⟨⟨rel,.dir,size.toInt64.toInt,mode,none⟩,rest⟩
  else if t = 2 then
    if rest.length < 32 then .error (.fail .protocol "short digest")
    else .ok ⟨⟨rel,.file,size.toInt64.toInt,mode,some (Fixed.ofBytes 32 rest)⟩,rest.drop 32⟩
  else .error (.fail .protocol ("bad entry type " ++ toString t.toNat))

def decodeEntry : Bytes → Except Fault (Taken Entry)
  | [] => .error (.fail .protocol "short manifest entry")
  | t :: rest => do
    let rel ← takeString rest
    let mode ← takeU32 rel.rest
    let size ← takeU64 mode.rest
    decodeTyped t rel.value mode.value size.value size.rest

def decodeEntries : Nat → Bytes → Except Fault (Taken (List Entry))
  | 0, rest => .ok ⟨[],rest⟩
  | n + 1, rest => do
    let e ← decodeEntry rest
    let es ← decodeEntries n e.rest
    .ok ⟨e.value :: es.value,es.rest⟩

def decodeManifest (p : Bytes) : Except Fault (List Entry) := do
  demand (5 ≤ p.length ∧ p.head? = some msgManifest) (.fail .protocol "bad manifest")
  let n ← takeU32 (p.drop 1)
  let out ← decodeEntries n.value n.rest
  demand (out.rest = []) (.fail .protocol "trailing manifest bytes")
  .ok out.value

structure FileWire where
  rel : Bytes
  mode : Nat
  digest : Digest
  data : Bytes
  deriving DecidableEq

def decodeFile (p : Bytes) : Except Fault FileWire := do
  demand (p.head? = some msgFile) (.fail .protocol "bad file msg")
  let rel ← takeString (p.drop 1)
  let mode ← takeU32 rel.rest
  demand (32 ≤ mode.rest.length) (.fail .protocol "short file digest")
  let n ← takeU32 (mode.rest.drop 32)
  demand (n.rest.length % 2 ^ 32 = n.value) (.fail .protocol "file data length mismatch")
  .ok ⟨rel.value,mode.value,Fixed.ofBytes 32 mode.rest,n.rest⟩

structure FileBegin where
  rel : Bytes
  mode : Nat
  digest : Digest
  size : UInt64
  deriving DecidableEq

def encodeFileBegin (b : FileBegin) : Except Fault Bytes := do
  let out ← appendString [msgFileBegin] b.rel
  .ok (out ++ leBytes 4 b.mode ++ b.digest.val ++ leBytes 8 b.size.toNat)

def decodeFileBegin (p : Bytes) : Except Fault FileBegin := do
  demand (p.head? = some msgFileBegin) (.fail .protocol "bad file begin")
  let rel ← takeString (p.drop 1)
  let mode ← takeU32 rel.rest
  demand (mode.rest.length = 40) (.fail .protocol "bad file begin length")
  .ok ⟨rel.value,mode.value,Fixed.ofBytes 32 mode.rest,UInt64.ofNat (leNat (mode.rest.drop 32))⟩

def encodeFileAck (offset : UInt64) : Bytes := msgFileAck :: leBytes 8 offset.toNat

structure FileChunk where
  offset : UInt64
  data : Bytes
  deriving DecidableEq

def encodeFileChunk (c : FileChunk) : Except Fault Bytes := do
  demand (1 + 8 + 4 + c.data.length ≤ protocolMaxBodyUseful) (.fail .protocol "chunk too large")
  .ok (msgFileChunk :: leBytes 8 c.offset.toNat ++ leBytes 4 c.data.length ++ c.data)

def decodeFileChunk (p : Bytes) : Except Fault FileChunk := do
  demand (13 ≤ p.length ∧ p.head? = some msgFileChunk) (.fail .protocol "bad file chunk")
  demand (13 + leNat (slice p 9 13) = p.length) (.fail .protocol "chunk length mismatch")
  .ok ⟨UInt64.ofNat (leNat (slice p 1 9)),p.drop 13⟩

structure FileEnd where
  rel : Bytes
  digest : Digest
  deriving DecidableEq

def encodeFileEnd (e : FileEnd) : Except Fault Bytes := do
  let out ← appendString [msgFileEnd] e.rel
  .ok (out ++ e.digest.val)

def decodeFileEnd (p : Bytes) : Except Fault FileEnd := do
  demand (p.head? = some msgFileEnd) (.fail .protocol "bad file end")
  let rel ← takeString (p.drop 1)
  demand (rel.rest.length = 32) (.fail .protocol "file end digest length")
  .ok ⟨rel.value,Fixed.ofBytes 32 rel.rest⟩

def encodeManifestOK : Bytes := [msgManifestOK]

def encodeResult (ok : Bool) (msg : Bytes) : Except Fault Bytes :=
  appendString [msgResult,if ok then 1 else 0] msg

/-! What the sender encodes, the receiver decodes. -/

theorem appendString_ok {b s out : Bytes} (h : appendString b s = .ok out) :
    s.length ≤ 65535 ∧ b ++ leBytes 2 s.length ++ s = out := by
  simpa only [appendString,demand_bind_ok,Except.ok.injEq] using h

theorem takeU32_iff {b rest : Bytes} {n : Nat} : takeU32 b = .ok ⟨n,rest⟩ ↔ n < 2 ^ 32 ∧ b = leBytes 4 n ++ rest := by
  simp only [takeU32,demand_bind_ok,Except.ok.injEq,Taken.mk.injEq,field_iff]
  rfl

theorem takeU64_iff {b rest : Bytes} {n : UInt64} : takeU64 b = .ok ⟨n,rest⟩ ↔ b = leBytes 8 n.toNat ++ rest := by
  have small : n.toNat < 256 ^ 8 := n.toNat_lt
  have same : ∀ x, x < 256 ^ 8 → (UInt64.ofNat x = n ↔ x = n.toNat) := by
    intro x bound
    rw [← UInt64.toNat_inj,UInt64.toNat_ofNat_of_lt' bound]
  simp only [takeU64,demand_bind_ok,Except.ok.injEq,Taken.mk.injEq]
  constructor
  · rintro ⟨long,value,tail⟩
    have bound := leNat_lt (b.take 8)
    rw [List.length_take_of_le long] at bound
    exact (field_iff.mp ⟨long,(same _ bound).mp value,tail⟩).2
  · intro shape
    obtain ⟨long,value,tail⟩ := field_iff.mpr ⟨small,shape⟩
    exact ⟨long,by rw [value,UInt64.ofNat_toNat],tail⟩

theorem takeString_iff {b s rest : Bytes} :
    takeString b = .ok ⟨s,rest⟩ ↔ s.length ≤ 65535 ∧ b = leBytes 2 s.length ++ (s ++ rest) := by
  simp only [takeString,demand_bind_ok,Except.ok.injEq,Taken.mk.injEq]
  constructor
  · rintro ⟨long,fits,rfl,rfl⟩
    obtain ⟨small,shape⟩ := field_iff.mp ⟨long,rfl,rfl⟩
    rw [List.length_take_of_le fits,List.take_append_drop]
    exact ⟨by omega,shape⟩
  · rintro ⟨short,shape⟩
    obtain ⟨long,count,tail⟩ := field_iff.mpr ⟨by omega,shape⟩
    rw [tail,count]
    simp [long]

theorem leNat_u64 (n : UInt64) : UInt64.ofNat (leNat (leBytes 8 n.toNat)) = n := by
  rw [leNat_leBytes_of_lt (by have := n.toNat_lt; omega)]
  simp

theorem decodeFileBegin_encode {b : FileBegin} {out : Bytes} (mode : b.mode < 2 ^ 32)
    (h : encodeFileBegin b = .ok out) : decodeFileBegin out = .ok b := by
  simp only [encodeFileBegin,except_bind_ok,Except.ok.injEq] at h
  obtain ⟨_,named,rfl⟩ := h
  obtain ⟨short,rfl⟩ := appendString_ok named
  have split : (([msgFileBegin] ++ leBytes 2 b.rel.length ++ b.rel) ++ leBytes 4 b.mode ++ b.digest.val ++
      leBytes 8 b.size.toNat).drop 1 = leBytes 2 b.rel.length ++ (b.rel ++
        (leBytes 4 b.mode ++ (b.digest.val ++ leBytes 8 b.size.toNat))) := by simp
  rw [decodeFileBegin,split,takeString_iff.mpr ⟨short,rfl⟩,except_ok_bind,takeU32_iff.mpr ⟨mode,rfl⟩,except_ok_bind]
  simp [demand,bind,Except.bind,b.digest.property,List.drop_left' b.digest.property,leNat_u64]

theorem decodeFileEnd_encode {e : FileEnd} {out : Bytes} (h : encodeFileEnd e = .ok out) : decodeFileEnd out = .ok e := by
  simp only [encodeFileEnd,except_bind_ok,Except.ok.injEq] at h
  obtain ⟨_,named,rfl⟩ := h
  obtain ⟨short,rfl⟩ := appendString_ok named
  have split : (([msgFileEnd] ++ leBytes 2 e.rel.length ++ e.rel) ++ e.digest.val).drop 1 =
      leBytes 2 e.rel.length ++ (e.rel ++ e.digest.val) := by simp
  rw [decodeFileEnd,split,takeString_iff.mpr ⟨short,rfl⟩]
  simp [demand,bind,Except.bind,e.digest.property]

theorem decodeFileChunk_encode {c : FileChunk} {out : Bytes} (h : encodeFileChunk c = .ok out) :
    decodeFileChunk out = .ok c := by
  simp only [encodeFileChunk,demand_bind_ok,Except.ok.injEq] at h
  obtain ⟨short,rfl⟩ := h
  have small : c.data.length < 256 ^ 4 := by
    unfold protocolMaxBodyUseful at short
    omega
  have head : (msgFileChunk :: leBytes 8 c.offset.toNat ++ leBytes 4 c.data.length).length = 13 := by simp
  have count : slice (msgFileChunk :: leBytes 8 c.offset.toNat ++ leBytes 4 c.data.length ++ c.data) 9 13 =
      leBytes 4 c.data.length := by
    rw [List.append_assoc,slice_append_right (by simp)]
    simp [slice]
  have offset : slice (msgFileChunk :: leBytes 8 c.offset.toNat ++ leBytes 4 c.data.length ++ c.data) 1 9 =
      leBytes 8 c.offset.toNat := by
    simp [slice]
  rw [decodeFileChunk,count,offset,leNat_leBytes_of_lt small,leNat_u64,List.drop_left' head]
  simp only [demand_bind_ok,List.length_append,head]
  simp

end Integris.RemoteSync
