import Integris.Serve
import Integris.Reach

/-! Resuming a file. A transfer begins with what the store finds under the file's names:
the staged file, or a partial file with its record. What a later honest transfer comes to
is settled by that state alone: it delivers the file exactly if the file is staged
already or the data it resumes from are a front part of the file. -/
namespace Integris.RemoteSync

open Posix LocalSync Prog

section state

variable (json : MetaCodec) (S P M : Path) (b : FileBegin) (fs : FS)

/-- The announced file is staged already. -/
def Staged : Prop := ∃ mode data, fs.node S = some (.file mode data) ∧
  (data.length : Int) = b.size.toInt64.toInt ∧ sha256 data = b.digest

/-- The record under the file's name can be read, or there is none. -/
def Readable : Prop := fs.node M = none ∨
  ∃ mode raw m, fs.node M = some (.file mode raw) ∧ json.unmarshal raw = some m

def Recorded (m : PartialMeta) : Prop := ∃ mode raw, fs.node M = some (.file mode raw) ∧
  json.unmarshal raw = some m

/-- There is a record for the announced file, and the partial file with just the data it counts. -/
def Resumes (data : Bytes) : Prop := ∃ m, Recorded json M fs m ∧ m.matches b = true ∧
  (∃ mode, fs.node P = some (.file mode data)) ∧ (data.length : Int) = m.offset

end state

/-- The same directories. -/
structure SameDirs (s t : Store) : Prop where
  fds : t.fds = s.fds
  stageRoot : t.stageRoot = s.stageRoot
  partialRoot : t.partialRoot = s.partialRoot

/-- What the store's steps come to for one file, in a tree with nothing in the way of it: `S` is
its staged name, `P` its partial file and `M` its record. -/
structure Bench (lib : Library) (host : Host) (s₀ : Store) (b : FileBegin) (Kept : FS → Prop)
    (S P M : Path) : Prop where
  written : ∀ fs fs' mode data new, Kept fs → fs.node P = some (.file mode data) →
    fs'.node = Function.update fs.node P (some (.file mode new)) → Kept fs'
  looks : ∀ s w, SameDirs s₀ s → Kept w.fs → ∃ yes w', staged lib s b host w = (.ok yes,w') ∧
    w'.fs = w.fs ∧ (yes = true ↔ Staged S b w.fs)
  clears : ∀ s w, SameDirs s₀ s → Kept w.fs → ∃ w', clearing s b.rel host w = (.ok (),w') ∧
    Kept w'.fs ∧ w'.fs.node S = w.fs.node S
  resumes : ∀ s w, SameDirs s₀ s → Kept w.fs → Readable lib.json M w.fs →
    ∃ start w', resume lib s b host w = (.ok start,w') ∧ Kept w'.fs ∧
      ((∃ data, Resumes lib.json P M b w.fs data ∧ start = UInt64.ofNat data.length ∧
          ∃ mode, w'.fs.node P = some (.file mode data)) ∨
        (∀ data, ¬Resumes lib.json P M b w.fs data) ∧ start = 0)
  opens : ∀ s w start, SameDirs s₀ s → Kept w.fs →
    (start ≠ 0 → ∃ mode data, w.fs.node P = some (.file mode data)) →
    ∃ w', openPart lib s b start host w = (.ok P,w') ∧ Kept w'.fs ∧
      (start = 0 → ∃ mode, w'.fs.node P = some (.file mode [])) ∧ (start ≠ 0 → w'.fs.node P = w.fs.node P)
  saves : ∀ s w, SameDirs s₀ s → s.begin = b → Kept w.fs → (∃ mode data, w.fs.node P = some (.file mode data)) →
    ∃ w', saveMeta lib s host w = (.ok (),w') ∧ Kept w'.fs ∧ w'.fs.node P = w.fs.node P
  finishes : ∀ s w mode data, SameDirs s₀ s → s.begin = b → s.partPath = partName s₀ b.rel → Kept w.fs →
    w.fs.node P = some (.file mode data) → sha256 data = b.digest →
    ∃ w' final, finalize lib s host w = (.ok (),w') ∧ w'.fs.node S = some (.file final data)
  refuses : ∀ s w mode data, SameDirs s₀ s → s.begin = b → s.partPath = partName s₀ b.rel → Kept w.fs →
    w.fs.node P = some (.file mode data) → sha256 data ≠ b.digest →
    ∃ e w', finalize lib s host w = (.error e,w')

/-- In the middle of the file: `data` have been written. -/
structure Writing (s₀ : Store) (b : FileBegin) (Kept : FS → Prop) (P : Path) (data : Bytes) (r : Receiver) :
    Prop where
  alike : SameDirs s₀ r.store
  active : r.store.active = true
  begin : r.store.begin = b
  path : r.store.partPath = partName s₀ b.rel
  file : r.store.pf = some ⟨P,data.length⟩
  off : r.store.off = UInt64.ofNat data.length
  kept : Kept r.world.fs
  there : ∃ mode, r.world.fs.node P = some (.file mode data)

section store

variable {lib : Library} {host : Host} {s₀ : Store} {b : FileBegin} {Kept : FS → Prop} {S P M : Path}
  {r : Receiver}

variable {w : World}

theorem onWorld_run {m : Prog Host World ε α} {o : Outcome ε α} (run : m host r.world = (o,w)) :
    onWorld m host r = (o,{ r with world := w }) := zoom_run run

theorem wrapping_run {m : Os α} {w w' : World} {a : α} (message : String) (run : m host w = (.ok a,w')) :
    wrapping message m host w = (.ok a,w') := mapError_run _ run

theorem setStore_run (f : Store → Store) : setStore f host r = (.ok (),{ r with store := f r.store }) := rfl

variable (bench : Bench lib host s₀ b Kept S P M) (quiet : host.Quiet)

include bench quiet

theorem checkpoint_run {s : Store} {pf : OpenPart} (alike : SameDirs s₀ s) (begin : s.begin = b)
    (kept : Kept w.fs) (there : ∃ mode data, w.fs.node P = some (.file mode data)) :
    ∃ w', checkpoint lib pf s host w = (.ok (),w') ∧ Kept w'.fs ∧ w'.fs.node P = w.fs.node P := by
  unfold checkpoint
  by_cases due : s.off.toNat % (defaultChunkSize * 4) = 0
  · have synced : syncFile pf.path host w = (.ok (),w.next w.fs) := query_run quiet rfl
    obtain ⟨w',saved,kept',same⟩ := bench.saves s (w.next w.fs) alike begin kept there
    refine ⟨w',?_,kept',same⟩
    rw [when_run due,bind_run (ignore_run synced)]
    exact saved
  · exact ⟨w,when_skipped due _ _ _,kept,rfl⟩

variable {data : Bytes} {raw : Bytes} {env : ρ} {s t : σ} {pieces : List Bytes}

theorem writeChunk_run (h : Writing s₀ b Kept P data r) (new : Bytes) :
    ∃ r', writeChunk lib ⟨UInt64.ofNat data.length,new⟩ host r = (.ok (),r') ∧ Writing s₀ b Kept P (data ++ new) r' := by
  obtain ⟨mode,at_⟩ := h.there
  obtain ⟨w₁,wrote,changed⟩ := pwrite_run quiet at_ data.length new
  rw [FS.spliced_end] at changed
  have kept₁ : Kept w₁.fs := bench.written _ _ mode data _ h.kept at_ changed
  have there₁ : w₁.fs.node P = some (.file mode (data ++ new)) := by rw [changed,Function.update_self]
  have alike : SameDirs s₀ (r.store.wrote ⟨P,data.length⟩ new.length) := ⟨h.alike.fds,h.alike.stageRoot,h.alike.partialRoot⟩
  obtain ⟨w₂,saved,kept₂,same⟩ : ∃ w', checkpoint lib ⟨P,data.length⟩
      (r.store.wrote ⟨P,data.length⟩ new.length) host w₁ = (.ok (),w') ∧ Kept w'.fs ∧ w'.fs.node P = w₁.fs.node P :=
    checkpoint_run bench quiet alike h.begin kept₁ ⟨_,_,there₁⟩
  refine ⟨⟨w₂,r.store.wrote ⟨P,data.length⟩ new.length⟩,?_,?_⟩
  · have fits : (⟨UInt64.ofNat data.length,new⟩ : FileChunk).offset = r.store.off := h.off.symm
    unfold writeChunk
    rw [bind_run (rfl : getStore host r = (.ok r.store,r)),h.active,h.file]
    dsimp only
    rw [require_bind fits,bind_run (onWorld_run (wrapping_run _ wrote)),bind_run (setStore_run _)]
    exact onWorld_run saved
  · refine ⟨alike,h.active,h.begin,h.path,?_,?_,kept₂,mode,same.trans there₁⟩
    · simp only [Store.wrote,List.length_append]
    · simp only [Store.wrote,h.off,List.length_append,UInt64.ofNat_add]

omit bench in
theorem endFile_reaches (h : Writing s₀ b Kept P data r)
    (whole : UInt64.ofNat data.length = b.size) {o : Outcome Fault Unit}
    (done : finalize lib r.store host ((r.world.next r.world.fs).next r.world.fs) = (o,w)) :
    endFile lib ⟨b.rel,b.digest⟩ host r = match o with
      | .ok () => (.ok (),⟨w,{ r.store with pf := none, active := false, partPath := [] }⟩)
      | .error e => (.error e,⟨w,{ r.store with pf := none }⟩)
      | .crashed => (.crashed,⟨w,{ r.store with pf := none }⟩) := by
  have named : (⟨b.rel,b.digest⟩ : FileEnd).rel = r.store.begin.rel ∧
      (⟨b.rel,b.digest⟩ : FileEnd).digest = r.store.begin.digest := by rw [h.begin]; exact ⟨rfl,rfl⟩
  have complete : r.store.off = r.store.begin.size := by rw [h.off,h.begin,whole]
  have synced : syncFile P host r.world = (.ok (),r.world.next r.world.fs) := query_run quiet rfl
  have closed : close P host (r.world.next r.world.fs) =
      (.ok (),(r.world.next r.world.fs).next r.world.fs) := query_run quiet rfl
  unfold endFile
  rw [bind_run (rfl : getStore host r = (.ok r.store,r)),h.active,h.file]
  dsimp only
  rw [require_bind named,require_bind complete,
    bind_run (onWorld_run (wrapping_run _ synced)),bind_run (onWorld_run (wrapping_run _ closed)),
    bind_run (setStore_run _)]
  cases o with
  | ok _ =>
    rw [bind_run (onWorld_run done)]
    rfl
  | error e => exact bind_failed (onWorld_run done)
  | crashed => exact bind_crashed (onWorld_run done)

theorem endFile_run (h : Writing s₀ b Kept P data r) (whole : UInt64.ofNat data.length = b.size)
    (good : sha256 data = b.digest) : ∃ r' final, endFile lib ⟨b.rel,b.digest⟩ host r = (.ok (),r') ∧
      r'.world.fs.node S = some (.file final data) := by
  obtain ⟨mode,at_⟩ := h.there
  obtain ⟨w,final,done,staged⟩ := bench.finishes r.store ((r.world.next r.world.fs).next r.world.fs) mode data
    h.alike h.begin h.path h.kept at_ good
  exact ⟨_,final,endFile_reaches quiet h whole done,staged⟩

theorem endFile_refused (h : Writing s₀ b Kept P data r)
    (whole : UInt64.ofNat data.length = b.size) (bad : sha256 data ≠ b.digest) :
    ∃ e r', endFile lib ⟨b.rel,b.digest⟩ host r = (.error e,r') := by
  obtain ⟨mode,at_⟩ := h.there
  obtain ⟨e,w,done⟩ := bench.refuses r.store ((r.world.next r.world.fs).next r.world.fs) mode data
    h.alike h.begin h.path h.kept at_ bad
  exact ⟨e,_,endFile_reaches quiet h whole done⟩

omit quiet in
theorem beginFile_staged (alike : SameDirs s₀ r.store) (idle : r.store.active = false) (kept : Kept r.world.fs)
    (already : Staged S b r.world.fs) : ∃ r', beginFile lib b host r = (.ok b.size,r') ∧
      r'.store.active = false ∧ r'.world.fs.node S = r.world.fs.node S := by
  obtain ⟨yes,w₁,looked,same,found⟩ := bench.looks r.store r.world alike kept
  obtain rfl : yes = true := found.mpr already
  obtain ⟨w₂,cleared,-,stays⟩ := bench.clears r.store w₁ alike (same ▸ kept)
  refine ⟨⟨w₂,{ r.store with lastBegin := b }⟩,?_,idle,by rw [stays,same]⟩
  have looked' : onWorld (staged lib r.store b) host ⟨r.world,{ r.store with lastBegin := b }⟩ =
      (.ok true,⟨w₁,{ r.store with lastBegin := b }⟩) := onWorld_run looked
  have cleared' : onWorld (clearing r.store b.rel) host ⟨w₁,{ r.store with lastBegin := b }⟩ =
      (.ok (),⟨w₂,{ r.store with lastBegin := b }⟩) := onWorld_run cleared
  unfold beginFile
  rw [bind_run (rfl : getStore host r = (.ok r.store,r)),require_bind idle,bind_run (setStore_run _),bind_run looked']
  dsimp only
  rw [bind_run cleared']
  rfl

omit quiet in
/-- Otherwise it goes on from the resumed data, or starts from nothing. -/
theorem beginFile_run (alike : SameDirs s₀ r.store) (idle : r.store.active = false) (kept : Kept r.world.fs)
    (readable : Readable lib.json M r.world.fs) (new : ¬Staged S b r.world.fs)
    (sized : ∀ data, Resumes lib.json P M b r.world.fs data → data.length < 2 ^ 64) :
    ∃ data r', beginFile lib b host r = (.ok (UInt64.ofNat data.length),r') ∧
      Writing s₀ b Kept P data r' ∧
      (Resumes lib.json P M b r.world.fs data ∨
        data = [] ∧ ∀ d, ¬Resumes lib.json P M b r.world.fs d) := by
  obtain ⟨yes,w₁,looked,same,found⟩ := bench.looks r.store r.world alike kept
  obtain rfl : yes = false := Bool.eq_false_iff.mpr fun h => new (found.mp h)
  rw [← same] at kept readable sized
  obtain ⟨start,w₂,resumed,kept₂,outcome⟩ := bench.resumes r.store w₁ alike kept readable
  have there : start ≠ 0 → ∃ mode data, w₂.fs.node P = some (.file mode data) := by
    intro moved
    rcases outcome with ⟨data,-,-,mode,at_⟩ | ⟨-,zero⟩
    · exact ⟨mode,data,at_⟩
    · exact absurd zero moved
  obtain ⟨w₃,opened,kept₃,fresh,old⟩ := bench.opens r.store w₂ start alike kept₂ there
  -- the data under the new open file
  obtain ⟨data,counted,⟨mode,holds⟩,origin⟩ : ∃ data, start = UInt64.ofNat data.length ∧
      (∃ mode, w₃.fs.node P = some (.file mode data)) ∧
      (Resumes lib.json P M b w₁.fs data ∨ data = [] ∧ ∀ d, ¬Resumes lib.json P M b w₁.fs d) := by
    rcases outcome with ⟨data,resumes,rfl,mode,at_⟩ | ⟨never,rfl⟩
    · by_cases zero : UInt64.ofNat data.length = 0
      · have empty : data = [] := by
          have := congrArg UInt64.toNat zero
          rw [UInt64.toNat_ofNat_of_lt' (sized data resumes)] at this
          exact List.length_eq_zero_iff.mp this
        subst empty
        exact ⟨[],rfl,fresh zero,.inl resumes⟩
      · exact ⟨data,rfl,⟨mode,(old zero).trans at_⟩,.inl resumes⟩
    · exact ⟨[],rfl,fresh rfl,.inr ⟨rfl,never⟩⟩
  subst counted
  have small : data.length < 2 ^ 64 := by
    rcases origin with resumes | ⟨rfl,-⟩
    · exact sized data resumes
    · exact Nat.two_pow_pos 64
  let s : Store := { r.store with lastBegin := b }
  refine ⟨data,⟨w₃,s.activate b (partName s b.rel) P (UInt64.ofNat data.length)⟩,?_,?_,same ▸ origin⟩
  · have looked' : onWorld (staged lib r.store b) host ⟨r.world,s⟩ = (.ok false,⟨w₁,s⟩) := onWorld_run looked
    have resumed' : onWorld (resume lib r.store b) host ⟨w₁,s⟩ = (.ok (UInt64.ofNat data.length),⟨w₂,s⟩) :=
      onWorld_run resumed
    have opened' : onWorld (openPart lib r.store b (UInt64.ofNat data.length)) host ⟨w₂,s⟩ = (.ok P,⟨w₃,s⟩) :=
      onWorld_run opened
    unfold beginFile
    rw [bind_run (rfl : getStore host r = (.ok r.store,r)),require_bind idle,
      bind_run (setStore_run _),bind_run looked']
    dsimp only
    rw [bind_run resumed',bind_run opened',bind_run (setStore_run _)]
    rfl
  · refine ⟨⟨alike.fds,alike.stageRoot,alike.partialRoot⟩,rfl,rfl,?_,?_,rfl,kept₃,mode,holds⟩
    · simp only [Store.activate,s,partName,alike.fds,alike.partialRoot]
    · simp only [Store.activate,UInt64.toNat_ofNat_of_lt' small]

end store

/-! The transfer itself: `sendFileChunked` against `recvFileChunked`. -/

/-- A file the client can send whole: its entry says what it holds, and every read returns
something that fits a message. -/
structure Sendable (t : SourceTree) (e : Entry) : Prop where
  mode : e.mode < 2 ^ 32
  named : e.rel.length ≤ 65535
  size : e.size = (t.content e.rel).length
  small : (t.content e.rel).length < 2 ^ 63
  digest : e.digest = some (sha256 (t.content e.rel))
  whole : ∀ off, (t.reads e.rel off).flatten = (t.content e.rel).drop off
  progress : ∀ off, ∀ piece ∈ t.reads e.rel off, piece ≠ []
  chunks : ∀ off, ∀ piece ∈ t.reads e.rel off, 13 + piece.length ≤ protocolMaxBodyUseful

theorem settle_nil (c : Client) : c.settle [] = (c,[]) := by cases c <;> rfl

theorem saying_ok {x : Except Fault Bytes} (h : x = .ok raw) (next : Client) : saying x next = .say raw next := by
  rw [h]
  rfl

theorem encodeFileChunk_short {off : UInt64} {piece : Bytes} (short : 13 + piece.length ≤ protocolMaxBodyUseful) :
    ∃ raw, encodeFileChunk ⟨off,piece⟩ = .ok raw ∧ raw.head? = some msgFileChunk :=
  ⟨msgFileChunk :: leBytes 8 off.toNat ++ leBytes 4 piece.length ++ piece,demand_bind_ok.mpr ⟨short,rfl⟩,rfl⟩

section session

variable {out : Outside} {host : Host} {s : Session}

variable {rest : List Bytes}

theorem recvData_said {next : Client} (said : s.conn.client.settle s.conn.waiting = (.say raw next,rest)) :
    onConn Conn.recvData host s = (.ok raw,⟨{ s.conn with client := next, waiting := rest },s.receiver⟩) := by
  refine zoom_run ?_
  rw [Conn.recvData,get_bind,said]
  rfl

theorem recvData_stopped {reset : Bool} (said : s.conn.client.settle s.conn.waiting = (.stop reset,rest)) :
    onConn Conn.recvData host s = (.error (.fail .transport "peer closed"),s) := by
  refine zoom_run ?_
  rw [Conn.recvData,get_bind,said]
  rfl

theorem onStore_run {m : SP α} {o : Outcome Fault α} {r t : Receiver} (run : m host r = (o,t)) (c : Conn) :
    onStore m host ⟨c,r⟩ = (o,⟨c,t⟩) := zoom_run run

variable {s₀ : Store} {b : FileBegin} {Kept : FS → Prop} {S P M : Path}
  (bench : Bench out.toLibrary host s₀ b Kept S P M) (quiet : host.Quiet)

include bench quiet

/-- The pieces of the file, one chunk each. The induction is on the pieces; `data` are those written. -/
theorem recvChunks_run {last : Client} {fuel : Nat} (h : Writing s₀ b Kept P data s.receiver)
    (said : s.conn.client.settle s.conn.waiting = (sendPieces (UInt64.ofNat data.length) pieces last,[]))
    (full : (data ++ pieces.flatten).length = b.size.toNat) (progress : ∀ piece ∈ pieces, piece ≠ [])
    (chunks : ∀ piece ∈ pieces, 13 + piece.length ≤ protocolMaxBodyUseful) (enough : pieces.length < fuel) :
    ∃ s', recvChunks out b fuel host s = (.ok (),s') ∧ Writing s₀ b Kept P (data ++ pieces.flatten) s'.receiver ∧
      s'.conn.client.settle s'.conn.waiting = (last,[]) ∧ s'.conn.replies = s.conn.replies := by
  obtain ⟨n,rfl⟩ : ∃ n, fuel = n + 1 := Nat.exists_eq_add_one.mpr (Nat.zero_lt_of_lt enough)
  induction pieces generalizing data s n with
  | nil =>
    have beyond : ¬s.receiver.store.off < b.size := by
      rw [h.off,UInt64.lt_iff_toNat_lt,UInt64.toNat_ofNat']
      simp only [List.flatten_nil,List.append_nil] at full
      rw [full,Nat.mod_eq_of_lt b.size.toNat_lt]
      exact Nat.lt_irrefl _
    refine ⟨s,?_,by simpa using h,said,rfl⟩
    rw [recvChunks,get_bind,when_skipped beyond]
  | cons piece rest ih =>
    obtain ⟨raw,encoded,head⟩ : ∃ raw, encodeFileChunk ⟨UInt64.ofNat data.length,piece⟩ = .ok raw ∧
        raw.head? = some msgFileChunk := encodeFileChunk_short (chunks piece List.mem_cons_self)
    have size : data.length + (piece.length + rest.flatten.length) = b.size.toNat := by
      simpa only [List.length_append,List.flatten_cons] using full
    have more : s.receiver.store.off < b.size := by
      have some_ : 0 < piece.length := List.length_pos_iff.mpr (progress piece List.mem_cons_self)
      have bound := b.size.toNat_lt
      rw [h.off,UInt64.lt_iff_toNat_lt,UInt64.toNat_ofNat',Nat.mod_eq_of_lt (by omega)]
      omega
    rw [sendPieces,saying_ok encoded,← UInt64.ofNat_add,← List.length_append] at said
    obtain ⟨r₁,wrote,writing⟩ := writeChunk_run bench quiet h piece
    obtain ⟨k,rfl⟩ : ∃ k, n = k + 1 := Nat.exists_eq_add_one.mpr (by simp at enough; omega)
    have received : saving out (onConn Conn.recvData) host s = (.ok raw,
        ⟨⟨sendPieces (UInt64.ofNat (data ++ piece).length) rest last,[],s.conn.replies⟩,s.receiver⟩) :=
      onError_run (recvData_said said) _
    obtain ⟨s',ran,written,ended,replies⟩ :=
      ih (s := ⟨⟨sendPieces (UInt64.ofNat (data ++ piece).length) rest last,[],s.conn.replies⟩,r₁⟩)
        writing (settle_nil _) (by simpa only [List.append_assoc,List.flatten_cons] using full)
        (fun x hx => progress x (List.mem_cons_of_mem _ hx))
        (fun x hx => chunks x (List.mem_cons_of_mem _ hx)) k (by simpa using enough)
    refine ⟨s',?_,by simpa using written,ended,replies⟩
    have other : raw.head? ≠ some msgFileEnd := by rw [head]; decide
    rw [recvChunks,get_bind,when_run more,bind_run received,
      require_bind other,bind_run (ofExcept_ok (decodeFileChunk_encode encoded) _),
      bind_run (onStore_run wrote _)]
    exact ran

end session

/-- The client after an acknowledgement. -/
def goesOn (t : SourceTree) (e : Entry) (next : Client) (offset : UInt64) : Client :=
  if sizeOf64 e < offset then .stop false
  else sendPieces offset (t.reads e.rel offset.toNat) (saying (encodeFileEnd (endOf e)) next)

/-- The client waiting for its acknowledgement. -/
def waits (t : SourceTree) (e : Entry) (next : Client) : Client := .await fun ack =>
  match decodeFileAck ack with
  | .error _ => .stop false
  | .ok offset => goesOn t e next offset

section sendable

variable {t : SourceTree} {e : Entry} (fits : Sendable t e)

include fits

theorem Sendable.begin_eq : beginOf e = ⟨e.rel,e.mode,sha256 (t.content e.rel),UInt64.ofNat (t.content e.rel).length⟩ := by
  have size : sizeOf64 e = UInt64.ofNat (t.content e.rel).length := by
    rw [sizeOf64,fits.size,uint64_ofInt (Int.natCast_nonneg _) (by exact_mod_cast fits.small),Int.toNat_natCast]
  rw [beginOf,digestOf,fits.digest,size]
  rfl

theorem Sendable.size_nat : (beginOf e).size.toNat = (t.content e.rel).length := by
  rw [fits.begin_eq]
  exact UInt64.toNat_ofNat_of_lt' (Nat.lt_trans fits.small (by decide))

theorem Sendable.starts (next : Client) : ∃ raw, decodeFileBegin raw = .ok (beginOf e) ∧
    raw.head? ≠ some msgFile ∧ sendFileChunked t e next = .say raw (waits t e next) := by
  have named : appendString [msgFileBegin] e.rel = .ok ([msgFileBegin] ++ leBytes 2 e.rel.length ++ e.rel) :=
    demand_bind_ok.mpr ⟨fits.named,rfl⟩
  obtain ⟨raw,encoded,head⟩ : ∃ raw, encodeFileBegin (beginOf e) = .ok raw ∧ raw.head? = some msgFileBegin :=
    ⟨_,except_bind_ok.mpr ⟨_,named,rfl⟩,rfl⟩
  refine ⟨raw,decodeFileBegin_encode fits.mode encoded,by rw [head]; decide,?_⟩
  rw [sendFileChunked,saying_ok encoded]
  rfl

theorem Sendable.ends : ∃ raw, decodeFileEnd raw = .ok (endOf e) ∧ ∀ next : Client,
    saying (encodeFileEnd (endOf e)) next = .say raw next := by
  have named : appendString [msgFileEnd] e.rel = .ok ([msgFileEnd] ++ leBytes 2 e.rel.length ++ e.rel) :=
    demand_bind_ok.mpr ⟨fits.named,rfl⟩
  obtain ⟨raw,encoded⟩ : ∃ raw, encodeFileEnd (endOf e) = .ok raw := ⟨_,except_bind_ok.mpr ⟨_,named,rfl⟩⟩
  exact ⟨raw,decodeFileEnd_encode encoded,saying_ok encoded⟩

theorem Sendable.reads_end : t.reads e.rel (t.content e.rel).length = [] := by
  have none_ : (t.reads e.rel (t.content e.rel).length).flatten = [] := by rw [fits.whole,List.drop_length]
  rcases pieces : t.reads e.rel (t.content e.rel).length with _ | ⟨piece,rest⟩
  · rfl
  · have nonempty := fits.progress (t.content e.rel).length piece (by simp [pieces])
    rw [pieces,List.flatten_cons,List.append_eq_nil_iff] at none_
    exact absurd none_.1 nonempty

end sendable

theorem settle_acked (t : SourceTree) (e : Entry) (next : Client) (start : UInt64) :
    (waits t e next).settle [encodeFileAck start] = (goesOn t e next start,[]) := by
  have answered : (waits t e next).settle [encodeFileAck start] = (goesOn t e next start).settle [] := by
    rw [waits,Client.settle,decodeFileAck_encode]
  rw [answered,settle_nil]

theorem pending_acked (t : SourceTree) (e : Entry) (next : Client) (start : UInt64) :
    (waits t e next).pending [encodeFileAck start] = (goesOn t e next start).pending [] := by
  rw [waits,Client.pending,decodeFileAck_encode]

theorem pending_sendPieces (chunks : ∀ piece ∈ pieces, 13 + piece.length ≤ protocolMaxBodyUseful)
    (off : UInt64) (last : Client) : pieces.length ≤ (sendPieces off pieces last).pending [] := by
  induction pieces generalizing off with
  | nil => exact Nat.zero_le _
  | cons piece rest ih =>
    obtain ⟨raw,encoded,-⟩ : ∃ raw, encodeFileChunk ⟨off,piece⟩ = .ok raw ∧ raw.head? = some msgFileChunk :=
      encodeFileChunk_short (chunks piece List.mem_cons_self)
    rw [sendPieces,saying_ok encoded,Client.pending]
    exact Nat.succ_le_succ (ih (fun x hx => chunks x (List.mem_cons_of_mem _ hx)) _)

/-- The program does not return. -/
structure Refuses (m : Prog ρ σ ε α) (env : ρ) (s : σ) : Prop where
  never : wp m env s (fun _ _ => False) (fun _ _ => True) fun _ => True

theorem Refuses.of_eq {m n : Prog ρ σ ε α} (no : Refuses n env t) (same : m env s = n env t) : Refuses m env s := by
  refine ⟨?_⟩
  rw [wp,same]
  exact no.never

theorem Refuses.of_failed {m : Prog ρ σ ε α} {e : ε} (run : m env s = (.error e,t)) : Refuses m env s :=
  Refuses.of_eq (n := Prog.throw e) ⟨trivial⟩ run

theorem Refuses.bind {m : Prog ρ σ ε α} {s : σ} (h : Refuses m env s) (f : α → Prog ρ σ ε β) : Refuses (m >>= f) env s :=
  ⟨wp_bind.mpr (h.never.imp (fun _ _ no => no.elim))⟩

theorem Refuses.not_ok {m : Prog ρ σ ε α} {s : σ} (h : Refuses m env s) (a : α) : (m env s).1 ≠ .ok a :=
  fun ran => h.never.ok_of (run_eq ran)

theorem refuses_throw_after (m : Prog ρ σ ε β) (e : ε) (env : ρ) (s : σ) :
    Refuses (m >>= fun _ => (Prog.throw e : Prog ρ σ ε α)) env s :=
  ⟨wp_bind.mpr (wp_always fun _ => trivial)⟩

theorem Refuses.onError {m : Prog ρ σ ε α} {e : ε} (run : m env s = (.error e,t))
    (cleanup : Prog ρ σ ε' Unit) : Refuses (onError m cleanup) env s := by
  refine (refuses_throw_after (ignore cleanup) e env t).of_eq ?_
  rw [Prog.onError,bind_run (attempt_failed run)]

theorem Refuses.answering {out : Outside} {m : SS α} {host : Host} {s : Session} (h : Refuses m host s) :
    Refuses (answering out m) host s := by
  refine ⟨wp_bind.mpr (wp_attempt.mpr (h.never.ends (fun _ _ no => no.elim) (fun e t _ => ?_)))⟩
  exact (refuses_throw_after _ e host t).never

section transfer

variable {out : Outside} {host : Host} {s₀ : Store} {Kept : FS → Prop} {S P M : Path} {t : SourceTree} {e : Entry}
  {next : Client} {replies : List Bytes} {r : Receiver}

theorem sendData_waits (raw : Bytes) : onConn (Conn.sendData raw) host ⟨⟨waits t e next,[],replies⟩,r⟩ =
    (.ok (),⟨⟨waits t e next,[raw],replies ++ [raw]⟩,r⟩) := by
  refine zoom_run ?_
  rw [Conn.sendData,get_bind]
  rfl

theorem sendAck_run (raw : Bytes) : saving out (onConn (Conn.sendData raw)) host ⟨⟨waits t e next,[],replies⟩,r⟩ =
    (.ok (),⟨⟨waits t e next,[raw],replies ++ [raw]⟩,r⟩) := onError_run (sendData_waits raw) _

theorem recvFiles_one (fits : Sendable t e) : recvFiles out 1 host ⟨⟨sendFileChunked t e next,[],replies⟩,r⟩ =
    (answering out (recvFileChunked out (beginOf e)) >>= fun _ => pure ()) host ⟨⟨waits t e next,[],replies⟩,r⟩ := by
  obtain ⟨raw,decoded,other,said⟩ := fits.starts next
  have received : saving out (onConn Conn.recvData) host ⟨⟨sendFileChunked t e next,[],replies⟩,r⟩ =
      (.ok raw,⟨⟨waits t e next,[],replies⟩,r⟩) := by
    refine onError_run (recvData_said ?_) _
    rw [said,settle_nil]
  have file : recvFile out raw = recvFileChunked out (beginOf e) := by
    rw [recvFile,if_neg other,decoded]
    rfl
  rw [recvFiles,bind_run received,file]
  rfl

theorem recvChunks_over {b : FileBegin} {s : Session} (beyond : ¬s.receiver.store.off < b.size) (n : Nat) :
    recvChunks out b (n + 1) host s = (.ok (),s) := by
  rw [recvChunks,get_bind,when_skipped beyond]

variable (bench : Bench out.toLibrary host s₀ (beginOf e) Kept S P M) (fits : Sendable t e)

include bench fits

theorem recvFileChunked_staged (alike : SameDirs s₀ r.store) (idle : r.store.active = false) (kept : Kept r.world.fs)
    (already : Staged S (beginOf e) r.world.fs) : ∃ s',
      recvFileChunked out (beginOf e) host ⟨⟨waits t e next,[],replies⟩,r⟩ = (.ok (),s') ∧
      s'.receiver.world.fs.node S = r.world.fs.node S ∧
      s'.conn.replies = replies ++ [encodeFileAck (beginOf e).size] := by
  obtain ⟨r',begun,idle',same⟩ := beginFile_staged bench alike idle kept already
  obtain ⟨raw,decoded,said⟩ := fits.ends
  have goes : (waits t e next).settle [encodeFileAck (beginOf e).size] = (.say raw next,[]) := by
    have whole : ¬sizeOf64 e < (beginOf e).size := UInt64.lt_irrefl _
    rw [settle_acked,goesOn,if_neg whole,fits.size_nat,fits.reads_end]
    exact congrArg (·,[]) (said next)
  have received : onConn Conn.recvData host
      ⟨⟨waits t e next,[encodeFileAck (beginOf e).size],replies ++ [encodeFileAck (beginOf e).size]⟩,r'⟩ =
        (.ok raw,⟨⟨next,[],replies ++ [encodeFileAck (beginOf e).size]⟩,r'⟩) := recvData_said goes
  refine ⟨⟨⟨next,[],replies ++ [encodeFileAck (beginOf e).size]⟩,r'⟩,?_,same,rfl⟩
  rw [recvFileChunked,bind_run (onStore_run begun _),bind_run (sendAck_run _),
    get_bind,if_pos idle',bind_run received,bind_run (ofExcept_ok decoded _)]
  exact require_run ⟨rfl,rfl⟩ _ _ _

variable (quiet : host.Quiet)

include quiet

variable {r₁ : Receiver}

/-- Between the acknowledgement and the end the rest of the file is written behind what is there. -/
theorem recvFileChunked_writes (begun : beginFile out.toLibrary (beginOf e) host r = (.ok (UInt64.ofNat data.length),r₁))
    (writing : Writing s₀ (beginOf e) Kept P data r₁) (within : data.length ≤ (t.content e.rel).length) :
    ∃ c r₂, Writing s₀ (beginOf e) Kept P (data ++ (t.content e.rel).drop data.length) r₂ ∧
      c.replies = replies ++ [encodeFileAck (UInt64.ofNat data.length)] ∧
      ∀ o r₃, endFile out.toLibrary (endOf e) host r₂ = (o,r₃) →
        recvFileChunked out (beginOf e) host ⟨⟨waits t e next,[],replies⟩,r⟩ = (o,⟨c,r₃⟩) := by
  obtain ⟨raw,decoded,said⟩ := fits.ends
  have count : (UInt64.ofNat data.length).toNat = data.length :=
    UInt64.toNat_ofNat_of_lt' (Nat.lt_trans (Nat.lt_of_le_of_lt within fits.small) (by decide))
  have goes : goesOn t e next (UInt64.ofNat data.length) =
      sendPieces (UInt64.ofNat data.length) (t.reads e.rel data.length) (.say raw next) := by
    have inside : ¬sizeOf64 e < UInt64.ofNat data.length := by
      change ¬(beginOf e).size < _
      rw [UInt64.lt_iff_toNat_lt,fits.size_nat,count]
      omega
    rw [goesOn,if_neg inside,count,said next]
  have chunks := fits.chunks data.length
  have total : (data ++ (t.reads e.rel data.length).flatten).length = (beginOf e).size.toNat := by
    rw [fits.whole,fits.size_nat,List.length_append,List.length_drop]
    omega
  have long : (t.reads e.rel data.length).length <
      (waits t e next).pending [encodeFileAck (UInt64.ofNat data.length)] + 1 := by
    rw [pending_acked,goes]
    exact Nat.lt_succ_of_le (pending_sendPieces chunks _ _)
  obtain ⟨⟨c,r₂⟩,ran,written,ended,replied⟩ := recvChunks_run
    (s := ⟨⟨waits t e next,[encodeFileAck (UInt64.ofNat data.length)],
      replies ++ [encodeFileAck (UInt64.ofNat data.length)]⟩,r₁⟩) bench quiet writing
    (by rw [settle_acked,goes]) total (fits.progress data.length) chunks long
  rw [fits.whole] at written
  refine ⟨{ c with client := next, waiting := [] },r₂,written,replied,fun o r₃ ends => ?_⟩
  have busy : ¬r₁.store.active = false := by simp [writing.active]
  have received : saving out (onConn Conn.recvData) host ⟨c,r₂⟩ =
      (.ok raw,⟨{ c with client := next, waiting := [] },r₂⟩) := onError_run (recvData_said ended) _
  rw [recvFileChunked,bind_run (onStore_run begun _),bind_run (sendAck_run _),get_bind,if_neg busy]
  dsimp only
  rw [Conn.pending,bind_run ran,bind_run received,bind_run (ofExcept_ok decoded _)]
  exact onStore_run ends _

omit quiet bench in
theorem recvFileChunked_beyond (begun : beginFile out.toLibrary (beginOf e) host r = (.ok (UInt64.ofNat data.length),r₁))
    (writing : Writing s₀ (beginOf e) Kept P data r₁) (beyond : (t.content e.rel).length < data.length)
    (sized : data.length < 2 ^ 64) :
    Refuses (recvFileChunked out (beginOf e)) host ⟨⟨waits t e next,[],replies⟩,r⟩ := by
  have after : sizeOf64 e < UInt64.ofNat data.length := by
    change (beginOf e).size < _
    rwa [UInt64.lt_iff_toNat_lt,fits.size_nat,UInt64.toNat_ofNat_of_lt' sized]
  have beyond : ¬r₁.store.off < (beginOf e).size := by
    rw [writing.off]
    exact UInt64.lt_asymm after
  have busy : ¬r₁.store.active = false := by simp [writing.active]
  have stopped : (waits t e next).settle [encodeFileAck (UInt64.ofNat data.length)] = (.stop false,[]) := by
    rw [settle_acked,goesOn,if_pos after]
  let told : Session := ⟨⟨waits t e next,[encodeFileAck (UInt64.ofNat data.length)],
    replies ++ [encodeFileAck (UInt64.ofNat data.length)]⟩,r₁⟩
  have skipped : recvChunks out (beginOf e) (told.conn.pending + 1) host told = (.ok (),told) := recvChunks_over beyond _
  have reaches : recvFileChunked out (beginOf e) host ⟨⟨waits t e next,[],replies⟩,r⟩ =
      (saving out (onConn Conn.recvData) >>= fun raw => do
        let x ← ofExcept (decodeFileEnd raw)
        onStore (endFile out.toLibrary x)) host told := by
    rw [recvFileChunked,bind_run (onStore_run begun _),bind_run (sendAck_run _),get_bind,if_neg busy]
    exact bind_run skipped
  have quit : onConn Conn.recvData host told = (.error (.fail .transport "peer closed"),told) := recvData_stopped stopped
  exact ((Refuses.onError quit _).bind _).of_eq reaches

end transfer

/-- What an honest transfer comes to: an acknowledgement within the file, and the file staged. -/
def Delivered (S : Path) (content : Bytes) (replies : List Bytes) (result : Outcome Fault Unit × Session) : Prop :=
  result.1 = .ok () ∧ (∃ mode, result.2.receiver.world.fs.node S = some (.file mode content)) ∧
    ∃ start : UInt64, start.toNat ≤ content.length ∧ result.2.conn.replies = replies ++ [encodeFileAck start]

section outcome

variable {out : Outside} {host : Host} {s₀ : Store} {Kept : FS → Prop} {S P M : Path} {t : SourceTree} {e : Entry}
  {next : Client} {replies : List Bytes} {r : Receiver}

theorem Resumes.unique {json : MetaCodec} {b : FileBegin} {fs : FS} {d d' : Bytes} (h : Resumes json P M b fs d)
    (h' : Resumes json P M b fs d') : d = d' := by
  obtain ⟨-,-,-,⟨old,at_⟩,-⟩ := h
  obtain ⟨-,-,-,⟨old',at_'⟩,-⟩ := h'
  rw [at_] at at_'
  cases at_'
  rfl

theorem not_delivered {content : Bytes} (fits : Sendable t e)
    (refused : Refuses (recvFileChunked out (beginOf e)) host ⟨⟨waits t e next,[],replies⟩,r⟩) :
    ¬Delivered S content replies (recvFiles out 1 host ⟨⟨sendFileChunked t e next,[],replies⟩,r⟩) := by
  rintro ⟨ok,-⟩
  rw [recvFiles_one fits] at ok
  exact (refused.answering.bind _).not_ok _ ok

theorem delivered_iff {content data : Bytes} {final : Nat} {start : UInt64} {s : Session} (fits : Sendable t e)
    (ran : recvFileChunked out (beginOf e) host ⟨⟨waits t e next,[],replies⟩,r⟩ = (.ok (),s))
    (staged : s.receiver.world.fs.node S = some (.file final data)) (short : start.toNat ≤ content.length)
    (replied : s.conn.replies = replies ++ [encodeFileAck start]) :
    Delivered S content replies (recvFiles out 1 host ⟨⟨sendFileChunked t e next,[],replies⟩,r⟩) ↔ data = content := by
  have answered : answering out (recvFileChunked out (beginOf e)) host ⟨⟨waits t e next,[],replies⟩,r⟩ = (.ok (),s) := by
    rw [answering,bind_run (attempt_run ran)]
    rfl
  rw [recvFiles_one fits,bind_run answered]
  constructor
  · rintro ⟨-,⟨mode,at_⟩,-⟩
    cases staged.symm.trans at_
    rfl
  · rintro rfl
    exact ⟨rfl,⟨final,staged⟩,start,short,replied⟩

/-- An honest transfer delivers its file exactly if the file is staged already or it resumes, if at
all, from a front part of the file. -/
theorem transfer_delivers_iff (bench : Bench out.toLibrary host s₀ (beginOf e) Kept S P M) (fits : Sendable t e)
    (quiet : host.Quiet) (alike : SameDirs s₀ r.store) (idle : r.store.active = false) (kept : Kept r.world.fs)
    (readable : Readable out.json M r.world.fs)
    (sized : ∀ mode data, r.world.fs.node P = some (.file mode data) → data.length < 2 ^ 64)
    (distinct : ∀ mode data, r.world.fs.node S = some (.file mode data) →
      sha256 data = sha256 (t.content e.rel) → data = t.content e.rel) :
    Delivered S (t.content e.rel) replies (recvFiles out 1 host ⟨⟨sendFileChunked t e next,[],replies⟩,r⟩) ↔
      Staged S (beginOf e) r.world.fs ∨
        ∀ data, Resumes out.json P M (beginOf e) r.world.fs data → data <+: t.content e.rel := by
  have digest : (beginOf e).digest = sha256 (t.content e.rel) := by rw [fits.begin_eq]
  by_cases already : Staged S (beginOf e) r.world.fs
  · obtain ⟨s',ran,same,replied⟩ := recvFileChunked_staged bench fits alike idle kept already
    obtain ⟨mode,data,at_,length,hash⟩ := already
    have whole : data = t.content e.rel := distinct mode data at_ (hash.trans digest)
    rw [delivered_iff fits ran (same.trans at_) fits.size_nat.le replied]
    exact iff_of_true whole (.inl ⟨mode,data,at_,length,hash⟩)
  · have bounded : ∀ data, Resumes out.json P M (beginOf e) r.world.fs data → data.length < 2 ^ 64 := by
      rintro data ⟨-,-,-,⟨old,at_⟩,-⟩
      exact sized old data at_
    obtain ⟨data,r₁,begun,writing,origin⟩ := beginFile_run bench alike idle kept readable already bounded
    -- what is resumed is a front part of the file just when nothing else can be
    have front : (Staged S (beginOf e) r.world.fs ∨
        ∀ d, Resumes out.json P M (beginOf e) r.world.fs d → d <+: t.content e.rel) ↔
          data <+: t.content e.rel := by
      rcases origin with resumes | ⟨rfl,never⟩
      · constructor
        · rintro (staged | all)
          · exact absurd staged already
          · exact all data resumes
        · intro le
          exact .inr fun d h => resumes.unique h ▸ le
      · exact iff_of_true (.inr fun d h => absurd h (never d)) List.nil_prefix
    rw [front]
    by_cases within : data.length ≤ (t.content e.rel).length
    · obtain ⟨c,r₂,written,replied,ends⟩ := recvFileChunked_writes bench fits quiet begun writing within
      have length : (data ++ (t.content e.rel).drop data.length).length = (t.content e.rel).length := by
        rw [List.length_append,List.length_drop]
        omega
      have complete : UInt64.ofNat (data ++ (t.content e.rel).drop data.length).length = (beginOf e).size := by
        rw [length,fits.begin_eq]
      have small : (UInt64.ofNat data.length).toNat ≤ (t.content e.rel).length :=
        Nat.le_trans (by rw [UInt64.toNat_ofNat']; exact Nat.mod_le _ _) within
      have joined : data ++ (t.content e.rel).drop data.length = t.content e.rel ↔ data <+: t.content e.rel := by
        constructor
        · exact fun same => ⟨_,same⟩
        · rintro ⟨rest,same⟩
          rw [← same,List.drop_left]
      by_cases good : sha256 (data ++ (t.content e.rel).drop data.length) = (beginOf e).digest
      · obtain ⟨r₃,final,ended,staged⟩ := endFile_run bench quiet written complete good
        rw [delivered_iff fits (ends _ _ ended) staged small replied,joined]
      · obtain ⟨err,r₃,ended⟩ := endFile_refused bench quiet written complete good
        refine iff_of_false (not_delivered fits (Refuses.of_failed (ends _ _ ended))) fun le => good ?_
        rw [joined.mpr le,digest]
    · have long : data.length < 2 ^ 64 := by
        rcases origin with resumes | ⟨rfl,-⟩
        · exact bounded data resumes
        · exact Nat.two_pow_pos 64
      refine iff_of_false (not_delivered fits ?_) fun le => within le.length_le
      exact recvFileChunked_beyond fits begun writing (Nat.lt_of_not_le within) long

end outcome

end Integris.RemoteSync
