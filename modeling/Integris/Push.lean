import Integris.Receive

/-! The pushing side of `internal/remotesync`: what `Push` says for a scanned tree, with
every reply it waits for, and the encodings it needs beyond those of the receiver. A
client is the tree of everything it may still say, so a server can be run against it. -/
namespace Integris.RemoteSync

open LocalSync

def encodeCommit : Bytes := [msgCommit]

def decodeFileAck (p : Bytes) : Except Fault UInt64 := do
  demand (p.length = 9 ∧ p.head? = some msgFileAck) (.fail .protocol "bad file ack")
  .ok (UInt64.ofNat (leNat (slice p 1 9)))

structure Verdict where
  ok : Bool
  message : Bytes

def decodeResult (p : Bytes) : Except Fault Verdict := do
  demand (2 ≤ p.length ∧ p.head? = some msgResult) (.fail .protocol "bad result")
  let msg ← takeString (p.drop 2)
  demand (msg.rest = []) (.fail .protocol "trailing result")
  .ok ⟨(p.drop 1).head? = some 1,msg.value⟩

/-- A result that is too long to encode becomes an empty refusal. -/
def mustResult (ok : Bool) (msg : Bytes) : Bytes :=
  match encodeResult ok msg with
  | .ok b => b
  | .error _ => [msgResult,0,0,0]

def appendEntry (b : Bytes) (e : Entry) : Except Fault Bytes := do
  let b ← appendString (b ++ [if e.type = .dir then 1 else 2]) e.rel
  let b := b ++ leBytes 4 e.mode ++ leBytes 8 (UInt64.ofInt e.size).toNat
  match e.type, e.digest with
  | .dir, _ => .ok b
  | .file, some dig => .ok (b ++ dig.val)
  | .file, none => .error (.fail .protocol "file missing digest")

def appendEntries : Bytes → List Entry → Except Fault Bytes
  | b, [] => .ok b
  | b, e :: rest => do
    let b ← appendEntry b e
    appendEntries b rest

def encodeManifest (entries : List Entry) : Except Fault Bytes := do
  let b ← appendEntries (msgManifest :: leBytes 4 entries.length) entries
  demand (b.length ≤ protocolMaxBodyUseful) (.fail .protocol "manifest too large for one frame")
  .ok b

/-! What the other side reads. -/

theorem decodeFileAck_encode (offset : UInt64) : decodeFileAck (encodeFileAck offset) = .ok offset := by
  have field : slice (encodeFileAck offset) 1 9 = leBytes 8 offset.toNat := by simp [slice,encodeFileAck]
  rw [decodeFileAck,field,leNat_u64]
  simp [demand,bind,Except.bind,encodeFileAck]

/-- What `decodeResult` reads from `mustResult`. -/
def heard (msg : Bytes) : Bytes := if msg.length ≤ 65535 then msg else []

variable {msg : Bytes} {e : Entry} {b out : Bytes} {entries : List Entry} {raw : Bytes}

theorem mustResult_short (short : msg.length ≤ 65535) (ok : Bool) :
    mustResult ok msg = [msgResult,if ok then 1 else 0] ++ leBytes 2 msg.length ++ msg := by
  simp [mustResult,encodeResult,appendString,demand,bind,Except.bind,short]

theorem mustResult_long (long : ¬msg.length ≤ 65535) (ok : Bool) : mustResult ok msg = [msgResult,0,0,0] := by
  simp [mustResult,encodeResult,appendString,demand,bind,Except.bind,long]

theorem mustResult_head (ok : Bool) (msg : Bytes) : (mustResult ok msg).head? = some msgResult := by
  by_cases short : msg.length ≤ 65535
  · rw [mustResult_short short]
    rfl
  · rw [mustResult_long short]
    rfl

theorem mustResult_length (ok : Bool) (msg : Bytes) : (mustResult ok msg).length ≤ 65539 := by
  by_cases short : msg.length ≤ 65535
  · rw [mustResult_short short]
    simp only [List.length_append,List.length_cons,List.length_nil,leBytes_length]
    omega
  · simp [mustResult_long short]

theorem decodeResult_short (short : msg.length ≤ 65535) (ok : Bool) : decodeResult (mustResult ok msg) = .ok ⟨ok,msg⟩ := by
  have body : (mustResult ok msg).drop 2 = leBytes 2 msg.length ++ (msg ++ []) := by simp [mustResult_short short]
  have long : 2 ≤ (mustResult ok msg).length := by simp [mustResult_short short]
  have mark : ((mustResult ok msg).drop 1).head? = some (if ok then 1 else 0) := by simp [mustResult_short short]
  rw [decodeResult,body,takeString_iff.mpr ⟨short,rfl⟩,mark]
  simp only [demand,if_pos (And.intro long (mustResult_head ok msg)),except_ok_bind]
  cases ok <;> rfl

theorem decodeResult_refusal (msg : Bytes) : decodeResult (mustResult false msg) = .ok ⟨false,heard msg⟩ := by
  by_cases short : msg.length ≤ 65535
  · rw [decodeResult_short short,heard,if_pos short]
  · rw [mustResult_long short,heard,if_neg short]
    rfl

/-- An entry as `Scan` makes it, whose fields survive the wire. -/
structure Transferable (e : Entry) : Prop where
  mode : e.mode < 2 ^ 32
  size : 0 ≤ e.size ∧ e.size < 2 ^ 63
  dir : e.type = .dir → e.digest = none

theorem uint64_ofInt {n : Int} (low : 0 ≤ n) (high : n < 2 ^ 63) : UInt64.ofInt n = UInt64.ofNat n.toNat := by
  rw [UInt64.ofInt,Int.emod_eq_of_lt low (by omega)]

theorem ofInt_toInt (n : UInt64) : UInt64.ofInt n.toInt64.toInt = n := by
  have wraps : n.toBitVec.toInt % ((2 ^ 64 : Nat) : Int) = n.toNat := by
    rw [BitVec.toInt_eq_toNat_bmod,Int.bmod_emod]
    exact Int.emod_eq_of_lt (Int.natCast_nonneg _) (Int.ofNat_lt.mpr n.toNat_lt)
  change UInt64.ofNat (n.toBitVec.toInt % ((2 ^ 64 : Nat) : Int)).toNat = n
  rw [wraps,Int.toNat_natCast,UInt64.ofNat_toNat]

theorem int64_ofInt {n : Int} (low : -2 ^ 63 ≤ n) (high : n < 2 ^ 63) : (UInt64.ofInt n).toInt64.toInt = n := by
  have back : (Int64.ofInt n).toUInt64.toInt64.toInt = n := Int64.toInt_ofInt_of_le low high
  have same := ofInt_toInt (Int64.ofInt n).toUInt64
  rw [back] at same
  rw [same,back]

/-- An entry the wire can carry, as `Scan` makes it or as it was read from the wire before. -/
structure Carried (e : Entry) : Prop where
  mode : e.mode < 2 ^ 32
  size : (UInt64.ofInt e.size).toInt64.toInt = e.size
  dir : e.type = .dir → e.digest = none

theorem Transferable.carried (fits : Transferable e) : Carried e :=
  ⟨fits.mode,int64_ofInt (by have := fits.size.1; omega) fits.size.2,fits.dir⟩

/-- A file has its digest, and the name fits its field. -/
structure Whole (e : Entry) : Prop where
  rel : e.rel.length ≤ 65535
  file : e.type = .file → e.digest ≠ none

/-- The bytes of an entry, before what follows it. -/
def entryWire (e : Entry) (rest : Bytes) : Bytes := (if e.type = .dir then 1 else 2) :: (leBytes 2 e.rel.length ++
  (e.rel ++ (leBytes 4 e.mode ++ (leBytes 8 (UInt64.ofInt e.size).toNat ++ (e.digest.elim [] Subtype.val ++ rest)))))

variable {rest : Bytes} {es : List Entry}

theorem entryWire_append (e : Entry) (b rest : Bytes) : entryWire e b ++ rest = entryWire e (b ++ rest) := by
  simp [entryWire]

theorem appendEntry_iff (fits : Carried e) : appendEntry b e = .ok out ↔ Whole e ∧ out = b ++ entryWire e [] := by
  obtain ⟨rel,type,size,mode,digest⟩ := e
  constructor
  · intro h
    simp only [appendEntry,except_bind_ok] at h
    obtain ⟨_,named,h⟩ := h
    obtain ⟨short,rfl⟩ := appendString_ok named
    cases type with
    | dir =>
      obtain rfl : digest = none := fits.dir rfl
      cases h
      exact ⟨⟨short,nofun⟩,by simp [entryWire]⟩
    | file =>
      cases digest with
      | none => cases h
      | some dig =>
        cases h
        exact ⟨⟨short,nofun⟩,by simp [entryWire]⟩
  · rintro ⟨whole,rfl⟩
    have short : rel.length ≤ 65535 := whole.rel
    cases type with
    | dir =>
      obtain rfl : digest = none := fits.dir rfl
      simp [appendEntry,appendString,demand,short,bind,Except.bind,entryWire]
    | file =>
      obtain ⟨dig,rfl⟩ := Option.ne_none_iff_exists'.mp (whole.file rfl)
      simp [appendEntry,appendString,demand,short,bind,Except.bind,entryWire]

theorem decodeEntry_iff : decodeEntry b = .ok ⟨e,rest⟩ ↔ Carried e ∧ Whole e ∧ b = entryWire e rest := by
  constructor
  · intro h
    cases b with
    | nil => cases h
    | cons kind tail =>
      simp only [decodeEntry,except_bind_ok] at h
      obtain ⟨⟨rel,_⟩,named,⟨mode,_⟩,counted,⟨size,more⟩,sized,typed⟩ := h
      obtain ⟨short,rfl⟩ := takeString_iff.mp named
      obtain ⟨small,rfl⟩ := takeU32_iff.mp counted
      have shape := takeU64_iff.mp sized
      subst shape
      simp only [decodeTyped] at typed
      split_ifs at typed with dir file cut
      · cases typed
        exact ⟨⟨small,by rw [ofInt_toInt],fun _ => rfl⟩,⟨short,by simp⟩,by simp [entryWire,ofInt_toInt,dir]⟩
      · cases typed
        have digest : (Fixed.ofBytes 32 more).val = more.take 32 := by
          simp [Fixed.ofBytes,List.take_append_of_le_length (Nat.not_lt.mp cut)]
        refine ⟨⟨small,by rw [ofInt_toInt],by simp⟩,⟨short,by simp⟩,?_⟩
        simp [entryWire,ofInt_toInt,file,digest]
  · rintro ⟨fits,whole,rfl⟩
    obtain ⟨rel,type,size,mode,digest⟩ := e
    have back : (UInt64.ofInt size).toInt64.toInt = size := fits.size
    refine except_bind_ok.mpr ⟨_,takeString_iff.mpr ⟨whole.rel,rfl⟩,except_bind_ok.mpr
      ⟨_,takeU32_iff.mpr ⟨fits.mode,rfl⟩,except_bind_ok.mpr ⟨_,takeU64_iff.mpr rfl,?_⟩⟩⟩
    cases type with
    | dir =>
      obtain rfl : digest = none := fits.dir rfl
      simp [decodeTyped,back]
    | file =>
      obtain ⟨dig,rfl⟩ := Option.ne_none_iff_exists'.mp (whole.file rfl)
      simp [decodeTyped,back,dig.property,List.drop_left' dig.property]

theorem decodeEntries_iff {n : Nat} : decodeEntries n b = .ok ⟨es,rest⟩ ↔
    es.length = n ∧ (∀ e ∈ es, Carried e ∧ Whole e) ∧ b = es.foldr entryWire rest := by
  induction n generalizing b es with
  | zero =>
    rw [decodeEntries,Except.ok.injEq,Taken.mk.injEq,List.length_eq_zero_iff]
    constructor
    · rintro ⟨rfl,rfl⟩
      exact ⟨rfl,nofun,rfl⟩
    · rintro ⟨rfl,-,rfl⟩
      exact ⟨rfl,rfl⟩
  | succ n ih =>
    simp only [decodeEntries,except_bind_ok,Except.ok.injEq,Taken.mk.injEq]
    constructor
    · rintro ⟨⟨e,_⟩,one,⟨more,_⟩,others,rfl,rfl⟩
      obtain ⟨carried,whole,rfl⟩ := decodeEntry_iff.mp one
      obtain ⟨rfl,rest,rfl⟩ := ih.mp others
      exact ⟨rfl,List.forall_mem_cons.mpr ⟨⟨carried,whole⟩,rest⟩,rfl⟩
    · rintro ⟨size,fits,rfl⟩
      obtain ⟨e,more,rfl⟩ := List.exists_cons_of_length_eq_add_one size
      obtain ⟨⟨carried,whole⟩,rest⟩ := List.forall_mem_cons.mp fits
      exact ⟨_,decodeEntry_iff.mpr ⟨carried,whole,rfl⟩,_,ih.mpr ⟨Nat.succ.inj size,rest,rfl⟩,rfl,rfl⟩

theorem appendEntries_iff (fits : ∀ e ∈ es, Carried e) :
    appendEntries b es = .ok out ↔ (∀ e ∈ es, Whole e) ∧ out = b ++ es.foldr entryWire [] := by
  induction es generalizing b with
  | nil => simp [appendEntries,eq_comm]
  | cons e es ih =>
    obtain ⟨first,others⟩ := List.forall_mem_cons.mp fits
    simp only [appendEntries,except_bind_ok,appendEntry_iff first,ih others,List.forall_mem_cons]
    constructor
    · rintro ⟨_,⟨whole,rfl⟩,rest,rfl⟩
      exact ⟨⟨whole,rest⟩,by rw [List.append_assoc,entryWire_append]; rfl⟩
    · rintro ⟨⟨whole,rest⟩,rfl⟩
      exact ⟨_,⟨whole,rfl⟩,rest,by rw [List.append_assoc,entryWire_append]; rfl⟩

theorem length_le_wire (es : List Entry) : es.length ≤ (es.foldr entryWire []).length := by
  induction es with
  | nil => exact Nat.le_refl 0
  | cons e es ih =>
    simp only [List.foldr_cons,entryWire,List.length_cons,List.length_append]
    omega

def manifestWire (es : List Entry) : Bytes := msgManifest :: (leBytes 4 es.length ++ es.foldr entryWire [])

theorem decodeManifest_iff : decodeManifest raw = .ok es ↔
    es.length < 2 ^ 32 ∧ (∀ e ∈ es, Carried e ∧ Whole e) ∧ raw = manifestWire es := by
  rw [decodeManifest]
  simp only [↓demand_bind_ok,except_bind_ok,Except.ok.injEq]
  constructor
  · rintro ⟨⟨-,kind⟩,⟨n,_⟩,counted,⟨_,_⟩,read,rfl,rfl⟩
    obtain ⟨small,shape⟩ := takeU32_iff.mp counted
    obtain ⟨rfl,fits,rfl⟩ := decodeEntries_iff.mp read
    obtain ⟨t,tail,rfl⟩ := List.exists_cons_of_ne_nil (show raw ≠ [] by rintro rfl; cases kind)
    cases kind
    exact ⟨small,fits,congrArg _ shape⟩
  · rintro ⟨small,fits,rfl⟩
    exact ⟨⟨by simp [manifestWire],rfl⟩,_,takeU32_iff.mpr ⟨small,rfl⟩,_,decodeEntries_iff.mpr ⟨rfl,fits,rfl⟩,rfl,rfl⟩

theorem encodeManifest_iff (fits : ∀ e ∈ es, Carried e) : encodeManifest es = .ok raw ↔
    (∀ e ∈ es, Whole e) ∧ raw = manifestWire es ∧ raw.length ≤ protocolMaxBodyUseful := by
  simp only [encodeManifest,↓demand_bind_ok,except_bind_ok,appendEntries_iff fits,Except.ok.injEq]
  constructor
  · rintro ⟨_,⟨whole,rfl⟩,short,rfl⟩
    exact ⟨whole,rfl,short⟩
  · rintro ⟨whole,rfl,short⟩
    exact ⟨_,⟨whole,rfl⟩,short,rfl⟩

theorem decodeManifest_carried (fits : ∀ e ∈ es, Carried e) (h : encodeManifest es = .ok raw) :
    decodeManifest raw = .ok es := by
  obtain ⟨whole,rfl,short⟩ := (encodeManifest_iff fits).mp h
  refine decodeManifest_iff.mpr ⟨?_,fun e he => ⟨fits e he,whole e he⟩,rfl⟩
  have := length_le_wire es
  simp only [manifestWire,protocolMaxBodyUseful,List.length_cons,List.length_append] at short
  omega

theorem decodeManifest_encode (fits : ∀ e ∈ entries, Transferable e)
    (h : encodeManifest entries = .ok raw) : decodeManifest raw = .ok entries :=
  decodeManifest_carried (fun e he => (fits e he).carried) h

/-- A manifest that was read is written again as it was. -/
theorem decodeManifest_again {canonical : Bytes} (read : decodeManifest raw = .ok es)
    (written : encodeManifest es = .ok canonical) : canonical = raw := by
  obtain ⟨-,fits,rfl⟩ := decodeManifest_iff.mp read
  exact ((encodeManifest_iff fun e he => (fits e he).1).mp written).2.1

theorem decodeManifest_head (h : decodeManifest raw = .ok entries) : raw.head? = some msgManifest :=
  (demand_bind_ok.mp h).1.2

/-! The client. -/

/-- Everything a peer may still do: hang up, say something, or wait for the next reply.
After some hang-ups even sending to the peer fails. -/
inductive Client where
  | stop (reset : Bool)
  | say (raw : Bytes) (next : Client)
  | await (next : Bytes → Client)

/-- A tree to push: what `Scan` found, the files' contents by name, and the pieces in which
reads from an offset return them. -/
structure SourceTree where
  entries : List Entry
  content : Bytes → Bytes
  reads : Bytes → Nat → List Bytes

def isFile (e : Entry) : Bool := e.type = .file

def SourceTree.files (t : SourceTree) : List Entry := t.entries.filter isFile

/-- `Push` gives up where an encoding is refused. -/
def saying (x : Except Fault Bytes) (next : Client) : Client :=
  match x with
  | .ok raw => .say raw next
  | .error _ => .stop false

def sendPieces : UInt64 → List Bytes → Client → Client
  | _, [], next => next
  | off, piece :: rest, next =>
    saying (encodeFileChunk ⟨off,piece⟩) (sendPieces (off + UInt64.ofNat piece.length) rest next)

/-- The digest a file entry carries. -/
def digestOf (e : Entry) : Digest := e.digest.getD (Fixed.zero 32)

def sizeOf64 (e : Entry) : UInt64 := UInt64.ofInt e.size

def beginOf (e : Entry) : FileBegin := ⟨e.rel,e.mode,digestOf e,sizeOf64 e⟩

def endOf (e : Entry) : FileEnd := ⟨e.rel,digestOf e⟩

def sendFileChunked (t : SourceTree) (e : Entry) (next : Client) : Client :=
  saying (encodeFileBegin (beginOf e)) (.await fun ack =>
    match decodeFileAck ack with
    | .error _ => .stop false
    | .ok offset =>
      if sizeOf64 e < offset then .stop false
      else sendPieces offset (t.reads e.rel offset.toNat) (saying (encodeFileEnd (endOf e)) next))

def sendFiles (t : SourceTree) : List Entry → Client
  | [] => .say encodeCommit (.await fun _ => .stop false)
  | e :: rest => sendFileChunked t e (sendFiles t rest)

def push (t : SourceTree) : Client :=
  saying (encodeManifest t.entries) (.await fun ack =>
    if ack = encodeManifestOK then sendFiles t t.files else .stop false)

end Integris.RemoteSync
