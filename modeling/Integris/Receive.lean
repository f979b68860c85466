import Integris.StoreAt

/-! The receive store as its serving loop drives it: each message is decoded and
handed to the store, in either mode, until one fails or the connection ends. A
serving process starts with a new store; what it leaves behind is the tree. -/
namespace Integris.RemoteSync

open Posix LocalSync Prog PathGrammar

/-- What the store needs from outside its package. -/
structure Library where
  nfc : NFCTables
  json : MetaCodec

variable (lib : Library)

/-! What each message does to the tree, in either mode. -/

def preparing (s : Store) (entries : List Entry) : RS Unit :=
  match s.fds with
  | some fds => prepareDirsAt lib.nfc fds.stage entries
  | none => prepareDirsAmbient s.stageRoot entries

def staging (s : Store) (fw : FileWire) : RS Unit :=
  match s.fds with
  | some fds => stageLegacyAt lib.nfc fds.stage fw
  | none => stageLegacyAmbient s.stageRoot fw

def staged (s : Store) (b : FileBegin) : RS Bool :=
  match s.fds with
  | some fds => stagedAt lib.nfc fds.stage b
  | none => stagedAmbient s.stageRoot b

def clearing (s : Store) (rel : Bytes) : RS Unit :=
  match s.fds with
  | some fds => clearPartialAt fds.partials rel
  | none => clearPartial s.partialRoot rel

def resume (s : Store) (b : FileBegin) : RS UInt64 :=
  match s.fds with
  | some fds => resumeAt lib.nfc lib.json fds.partials b
  | none => resumeAmbient lib.json s.partialRoot b

def openPart (s : Store) (b : FileBegin) (start : UInt64) : RS Path :=
  match s.fds with
  | some fds => openPartAt lib.nfc fds.partials b start
  | none => openPartAmbient s.partialRoot b start

/-- In descriptor mode the name is relative to `recv-partial`. -/
def partName (s : Store) (rel : Bytes) : Bytes :=
  match s.fds with
  | some _ => rel ++ ascii ".part"
  | none => partialDataPath s.partialRoot rel

/-- Save how far the active file has come. -/
def saveMeta (s : Store) : RS Unit :=
  match s.fds with
  | some fds => ignore (writePartialMetaAt lib.nfc lib.json fds.partials s.begin.rel s.metaNow)
  | none => ignore (writePartialMeta lib.json s.partialRoot s.begin.rel s.metaNow)

/-- Every fourth full chunk the position is made durable. -/
def checkpoint (pf : OpenPart) (s : Store) : RS Unit :=
  when (s.off.toNat % (defaultChunkSize * 4) = 0) (do
    ignore (syncFile pf.path)
    saveMeta lib s)

def finalize (s : Store) : RS Unit :=
  match s.fds with
  | some fds => finalizeAt lib.nfc fds s
  | none => finalizeAmbient s

/-! The store's operations. -/

def prepareDirs (entries : List Entry) : SP Unit := do
  let s ← getStore
  onWorld (preparing lib s entries)

def stageLegacy (fw : FileWire) : SP Unit := do
  let s ← getStore
  onWorld (staging lib s fw)

/-- `beginFile` and `beginFileAt` take the same steps. -/
def beginFile (b : FileBegin) : SP UInt64 := do
  let s ← getStore
  require (s.active = false) (.fail .protocol "file already active")
  setStore fun s => { s with lastBegin := b }
  match ← onWorld (staged lib s b) with
  | true => do
    onWorld (clearing s b.rel)
    pure b.size
  | false => do
    let start ← onWorld (resume lib s b)
    let f ← onWorld (openPart lib s b start)
    setStore fun s => s.activate b (partName s b.rel) f start
    pure start

def Store.wrote (s : Store) (pf : OpenPart) (n : Nat) : Store :=
  { s with pf := some ⟨pf.path,pf.pos + n⟩, off := s.off + UInt64.ofNat n }

def writeChunk (c : FileChunk) : SP Unit := do
  let s ← getStore
  match s.active, s.pf with
  | true, some pf => do
    require (c.offset = s.off) (.fail .protocol
      ("chunk offset " ++ toString c.offset.toNat ++ " want " ++ toString s.off.toNat))
    onWorld (wrapping "partial write" (pwrite pf.path pf.pos c.data))
    setStore fun s => s.wrote pf c.data.length
    onWorld (checkpoint lib pf (s.wrote pf c.data.length))
  | _, _ => throw (.fail .protocol "chunk without begin")

def persistActive : SP Unit := do
  let s ← getStore
  match s.active, s.pf with
  | true, some pf => do
    onWorld (saveMeta lib s)
    onWorld (ignore (syncFile pf.path))
  | _, _ => pure ()

def endFile (e : FileEnd) : SP Unit := do
  let s ← getStore
  match s.active, s.pf with
  | true, some pf => do
    require (e.rel = s.begin.rel ∧ e.digest = s.begin.digest) (.fail .protocol "file end mismatch")
    require (s.off = s.begin.size) (.fail .protocol "unexpected file end before size complete")
    onWorld (wrapping "partial sync" (syncFile pf.path))
    onWorld (wrapping "partial close" (close pf.path))
    setStore fun s => { s with pf := none }
    onWorld (finalize lib s)
    setStore fun s => { s with active := false, partPath := [] }
  | _, _ => throw (.fail .protocol "end without begin")

def openLocalStoreAt (destination : Bytes) (destFD : Option Path) : RS Store :=
  match destFD with
  | none => openLocalStoreAmbient destination
  | some fd => do
    let fds ← ensureRecvStageAt fd
    pure { dest := destination, stageRoot := recvStageDir destination,
           partialRoot := recvPartialDir destination, fds := some fds }

inductive Message where
  | manifest (entries : List Entry)
  | file (fw : FileWire)
  | begin (b : FileBegin)
  | chunk (c : FileChunk)
  | finish (e : FileEnd)

def decodeMessage (raw : Bytes) : Except Fault Message :=
  let t := raw.headD 0
  if t = msgManifest then (decodeManifest raw).map .manifest
  else if t = msgFile then (decodeFile raw).map .file
  else if t = msgFileBegin then (decodeFileBegin raw).map .begin
  else if t = msgFileChunk then (decodeFileChunk raw).map .chunk
  else if t = msgFileEnd then (decodeFileEnd raw).map .finish
  else .error (.fail .protocol ("unknown ipc op " ++ toString t.toNat))

/-- The end of a file the store had already; there is nothing to finish. -/
def endOfStaged (s : Store) (e : FileEnd) : SP Unit :=
  require (e.rel = s.lastBegin.rel ∧ e.digest = s.lastBegin.digest)
    (.fail .protocol "file end mismatch")

def handle : Message → SP Unit
  | .manifest entries => prepareDirs lib entries
  | .file fw => stageLegacy lib fw
  | .begin b => do
    let _ ← beginFile lib b
    pure ()
  | .chunk c => writeChunk lib c
  | .finish e => do
    let s ← getStore
    if s.active = false then endOfStaged s e else endFile lib e

/-- `ServeApplyIPC` up to the commit. An empty request is answered and skipped;
when no more requests come the active file is saved. -/
def serveMessages : List Bytes → SP Unit
  | [] => persistActive lib
  | raw :: rest =>
    if raw = [] then serveMessages rest
    else do
      let m ← ofExcept (decodeMessage raw)
      handle lib m
      serveMessages rest

/-- Run a server on its store; the store dies with it. -/
def withStore (s : Store) (m : SP α) : RS α := fun host w =>
  match m host ⟨w,s⟩ with
  | (r, t) => (r, t.world)

def serve (destination : Bytes) (destFD : Option Path) (requests : List Bytes) : RS Unit := do
  let s ← openLocalStoreAt destination destFD
  withStore s (serveMessages lib requests)

/-- One serving process: the host it runs on and the requests it is sent. -/
structure Served where
  host : Host
  requests : List Bytes

/-- The tree after any number of serving processes, one after another. -/
def serveAll (destination : Bytes) (destFD : Option Path) : List Served → World → World
  | [], w => w
  | p :: rest, w => serveAll destination destFD rest (serve lib destination destFD p.requests p.host w).2

/-! Invariants of the tree under serving processes. -/

/-- A store opened as `s₀`, now anywhere in a session: it writes to files in the
area, for a file whose name has passed `Rel`. -/
structure Running (s₀ : Store) (Area : Path → Prop) (Rel : Bytes → Prop) (s : Store) : Prop where
  fds : s.fds = s₀.fds
  stageRoot : s.stageRoot = s₀.stageRoot
  partialRoot : s.partialRoot = s₀.partialRoot
  writes : ∀ pf, s.pf = some pf → Area pf.path
  named : s.active = true → Rel s.begin.rel ∧ s.partPath = partName s₀ s.begin.rel

section invariants

variable {lib} {host : Host} {I : FS → Prop} {s₀ : Store} {Area : Path → Prop} {Rel : Bytes → Prop}
  {Good : Message → Prop}

def Serving (I : FS → Prop) (s₀ : Store) (Area : Path → Prop) (Rel : Bytes → Prop) (r : Receiver) : Prop :=
  I r.world.fs ∧ Running s₀ Area Rel r.store

theorem yields_onWorld {m : Prog Host World ε α} {R : α → Prop}
    (h : Yields host (fun w => I w.fs) m R) : Yields host (Serving I s₀ Area Rel) (onWorld m) R := by
  intro r serving
  rw [onWorld,wp_zoom]
  exact (h r.world serving.1).stops (fun _ _ ht => ⟨⟨ht.1,serving.2⟩,ht.2⟩) (fun _ ht => ⟨ht,serving.2⟩)

theorem keeps_onWorld {m : Prog Host World ε α} (h : Keeps host (fun w => I w.fs) m) :
    Keeps host (Serving I s₀ Area Rel) (onWorld m) :=
  (yields_onWorld h.yields).keeps

theorem keeps_getStore {f : Store → SP α} (h : ∀ s, Running s₀ Area Rel s → Keeps host (Serving I s₀ Area Rel) (f s)) :
    Keeps host (Serving I s₀ Area Rel) (getStore >>= f) :=
  fun r serving => h r.store serving.2 r serving

theorem keeps_setStore {f : Store → Store} (h : ∀ s, Running s₀ Area Rel s → Running s₀ Area Rel (f s)) :
    Keeps host (Serving I s₀ Area Rel) (setStore f) :=
  Keeps.modify fun _ serving => ⟨serving.1,h _ serving.2⟩

/-- What a mode has to show about its own steps on the tree. -/
structure Discipline (lib : Library) (host : Host) (I : FS → Prop) (s₀ : Store) (Area : Path → Prop)
    (Rel : Bytes → Prop) (Good : Message → Prop) : Prop where
  begun : ∀ b, Good (.begin b) → Rel b.rel
  preparing : ∀ s es, Running s₀ Area Rel s → Good (.manifest es) →
    Keeps host (fun w => I w.fs) (preparing lib s es)
  staging : ∀ s fw, Running s₀ Area Rel s → Good (.file fw) →
    Keeps host (fun w => I w.fs) (staging lib s fw)
  staged : ∀ s b, Running s₀ Area Rel s → Rel b.rel → Keeps host (fun w => I w.fs) (staged lib s b)
  clearing : ∀ s rel, Running s₀ Area Rel s → Rel rel → Keeps host (fun w => I w.fs) (clearing s rel)
  resume : ∀ s b, Running s₀ Area Rel s → Rel b.rel → Keeps host (fun w => I w.fs) (resume lib s b)
  openPart : ∀ s b start, Running s₀ Area Rel s → Rel b.rel →
    Yields host (fun w => I w.fs) (openPart lib s b start) Area
  write : ∀ p pos data, Area p → Keeps host (fun w => I w.fs) (pwrite p pos data)
  saveMeta : ∀ s, Running s₀ Area Rel s → Rel s.begin.rel → Keeps host (fun w => I w.fs) (saveMeta lib s)
  finalize : ∀ s, Running s₀ Area Rel s → Rel s.begin.rel → s.partPath = partName s₀ s.begin.rel →
    Keeps host (fun w => I w.fs) (finalize lib s)

variable (own : Discipline lib host I s₀ Area Rel Good)

include own

theorem keeps_beginFile {b : FileBegin} (good : Good (.begin b)) :
    Keeps host (Serving I s₀ Area Rel) (beginFile lib b) := by
  have rel : Rel b.rel := own.begun b good
  refine keeps_getStore fun s run => (Keeps.require _).bind fun _ =>
    Keeps.bind (keeps_setStore ?_) fun _ =>
    (keeps_onWorld (own.staged s b run rel)).bind fun done => ?_
  · exact fun t run => ⟨run.fds,run.stageRoot,run.partialRoot,run.writes,run.named⟩
  cases done with
  | true => exact (keeps_onWorld (own.clearing s b.rel run rel)).bind fun _ => Keeps.pure _
  | false =>
    refine (keeps_onWorld (own.resume s b run rel)).bind fun start => ?_
    refine (yields_onWorld (own.openPart s b start run rel)).bindKeeps fun f inside => ?_
    refine (keeps_setStore fun t run => ?_).bind fun _ => Keeps.pure _
    refine ⟨run.fds,run.stageRoot,run.partialRoot,?_,fun _ => ⟨rel,?_⟩⟩
    · rintro _ ⟨⟩
      exact inside
    · simp only [Store.activate,partName,run.fds,run.partialRoot]

theorem keeps_writeChunk (c : FileChunk) : Keeps host (Serving I s₀ Area Rel) (writeChunk lib c) := by
  refine keeps_getStore fun s run => ?_
  split
  · next pf active file =>
    have wrote : ∀ t, Running s₀ Area Rel t → Running s₀ Area Rel (t.wrote pf c.data.length) :=
      fun t run' => ⟨run'.fds,run'.stageRoot,run'.partialRoot,
        fun _ h => by cases h; exact run.writes pf file,run'.named⟩
    refine (Keeps.require _).bind fun _ =>
      (keeps_onWorld (own.write _ _ _ (run.writes pf file)).mapError).bind fun _ =>
      (keeps_setStore wrote).bind fun _ => keeps_onWorld (Keeps.when ?_)
    exact (keeps_query _).ignore.bind fun _ => own.saveMeta _ (wrote s run) (run.named active).1
  · exact Keeps.throw _

theorem keeps_persistActive : Keeps host (Serving I s₀ Area Rel) (persistActive lib) := by
  refine keeps_getStore fun s run => ?_
  split
  · next pf active _ =>
    exact (keeps_onWorld (own.saveMeta s run (run.named active).1)).bind fun _ => keeps_onWorld (keeps_query _).ignore
  · exact Keeps.pure _

theorem keeps_endFile (e : FileEnd) : Keeps host (Serving I s₀ Area Rel) (endFile lib e) := by
  refine keeps_getStore fun s run => ?_
  split
  · next pf active _ =>
    refine (Keeps.require _).bind fun _ => (Keeps.require _).bind fun _ =>
      (keeps_onWorld (keeps_query _).mapError).bind fun _ =>
      (keeps_onWorld (keeps_query _).mapError).bind fun _ => ?_
    refine Keeps.bind (keeps_setStore ?_) fun _ =>
      (keeps_onWorld (own.finalize s run (run.named active).1 (run.named active).2)).bind fun _ =>
      keeps_setStore ?_
    · exact fun t run => ⟨run.fds,run.stageRoot,run.partialRoot,by simp,run.named⟩
    · exact fun t run => ⟨run.fds,run.stageRoot,run.partialRoot,run.writes,by simp⟩
  · exact Keeps.throw _

theorem keeps_handle {m : Message} (good : Good m) : Keeps host (Serving I s₀ Area Rel) (handle lib m) := by
  cases m with
  | manifest es => exact keeps_getStore fun s run => keeps_onWorld (own.preparing s es run good)
  | file fw => exact keeps_getStore fun s run => keeps_onWorld (own.staging s fw run good)
  | begin b => exact (keeps_beginFile own good).bind fun _ => Keeps.pure _
  | chunk c => exact keeps_writeChunk own c
  | finish e =>
    refine keeps_getStore fun s run => ?_
    split
    · exact Keeps.require _
    · exact keeps_endFile own e

theorem keeps_serveMessages {requests : List Bytes} (good : ∀ raw ∈ requests, ∀ m, decodeMessage raw = .ok m → Good m) :
    Keeps host (Serving I s₀ Area Rel) (serveMessages lib requests) := by
  induction requests with
  | nil => exact keeps_persistActive own
  | cons raw rest ih =>
    have later := ih fun r hr => good r (List.mem_cons_of_mem _ hr)
    unfold serveMessages
    split
    · exact later
    · exact Keeps.ofExcept_bind fun m decoded =>
        (keeps_handle own (good raw List.mem_cons_self m decoded)).bind fun _ => later

end invariants

theorem wp_withStore {host : Host} {w : World} {s : Store} {m : SP α} {Q : α → World → Prop}
    {E : Fault → World → Prop} {C : World → Prop} :
    wp (withStore s m) host w Q E C ↔
      wp m host ⟨w,s⟩ (fun a r => Q a r.world) (fun e r => E e r.world) (fun r => C r.world) := by
  simp only [wp,withStore]
  rcases m host ⟨w,s⟩ with ⟨_ | _ | _,_⟩ <;> rfl

theorem serveAll_keeps {lib : Library} {I : FS → Prop} {s₀ : Store} {Area : Path → Prop}
    {Rel : Bytes → Prop} {Good : Message → Prop} {destination : Bytes} {destFD : Option Path}
    (opens : ∀ host, Yields host (fun w => I w.fs) (openLocalStoreAt destination destFD) (Running s₀ Area Rel))
    (own : ∀ host, Discipline lib host I s₀ Area Rel Good) {served : List Served}
    (good : ∀ p ∈ served, ∀ raw ∈ p.requests, ∀ m, decodeMessage raw = .ok m → Good m) {w : World}
    (start : I w.fs) : I (serveAll lib destination destFD served w).fs := by
  induction served generalizing w with
  | nil => exact start
  | cons p rest ih =>
    have one : Keeps p.host (fun w => I w.fs) (serve lib destination destFD p.requests) := by
      refine (opens p.host).bindKeeps fun s run => ?_
      intro w inv
      rw [wp_withStore]
      exact (keeps_serveMessages (own p.host) (good p List.mem_cons_self) ⟨w,s⟩ ⟨inv,run⟩).stops
        (fun _ _ h => h.1) (fun _ h => h.1)
    exact ih (fun q hq => good q (List.mem_cons_of_mem _ hq)) (one w start).reached

end Integris.RemoteSync
