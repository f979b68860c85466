import Integris.Messages

/-! The receive store of `internal/remotesync` without directory descriptors:
inbound files are collected under `recv-partial` and, once complete and verified,
moved to `recv-stage`, both inside the destination's metadata directory. Paths
come from the peer's relative paths through `filepath.Join`. -/
namespace Integris.RemoteSync

open Posix LocalSync Prog

abbrev RS := Prog Host World Fault

/-- A system call's error, wrapped. -/
def wrapping (message : String) (m : Os α) : RS α :=
  mapError (fun e => .wrap .apply message (.errno e)) m

/-- A system call's error as it is. -/
def bare (m : Os α) : RS α := mapError .errno m

def hashing (m : LS α) : RS α := mapError .localsync m

structure PartialMeta where
  rel : Bytes
  mode : Nat
  size : Int
  digest : Digest
  offset : Int

/-- `encoding/json` at type `partialMeta`. -/
structure MetaCodec where
  marshal : PartialMeta → Bytes
  unmarshal : Bytes → Option PartialMeta

/-- Nothing to read back: enough where no partial file is resumed. -/
def MetaCodec.blank : MetaCodec := ⟨fun _ => [],fun _ => none⟩

def recvStageDir (destRoot : Bytes) : Bytes := join (join destRoot metaDirName) (ascii "recv-stage")

def recvPartialDir (destRoot : Bytes) : Bytes := join (join destRoot metaDirName) (ascii "recv-partial")

variable (partialRoot rel : Bytes)

def partialMetaPath : Bytes := join partialRoot (rel ++ ascii ".meta.json")

def partialDataPath : Bytes := join partialRoot (rel ++ ascii ".part")

def finalStagePath (stageRoot rel : Bytes) : Bytes := join stageRoot rel

def ensureRecvStage (destRoot : Bytes) : RS Unit := do
  wrapping "recv-stage" (mkdirAll (recvStageDir destRoot) 0o700)
  wrapping "recv-partial" (mkdirAll (recvPartialDir destRoot) 0o700)

def writePartialMeta (json : MetaCodec) (partialRoot rel : Bytes) (m : PartialMeta) : Os Unit := do
  let path := partialMetaPath partialRoot rel
  mkdirAll (dir path) 0o700
  writeFile (path ++ ascii ".tmp") (json.marshal m) 0o600
  rename (path ++ ascii ".tmp") path

def loadPartialMeta (json : MetaCodec) (partialRoot rel : Bytes) : RS (Option PartialMeta) := do
  match ← attempt (readFile (partialMetaPath partialRoot rel)) with
  | .error e => if IsNotExist e then pure none else throw (.errno e)
  | .ok raw =>
    match json.unmarshal raw with
    | some m => pure (some m)
    | none => throw .json

def clearPartial : RS Unit := do
  ignore (remove (partialMetaPath partialRoot rel))
  ignore (remove (partialDataPath partialRoot rel))

/-- A file open for writing and its position. -/
structure OpenPart where
  path : Path
  pos : Nat

/-- The directories conferred in descriptor mode. -/
structure Descriptors where
  dest : Path
  stage : Path
  partials : Path

structure Store where
  dest : Bytes
  stageRoot : Bytes
  partialRoot : Bytes
  fds : Option Descriptors := none
  active : Bool := false
  begin : FileBegin := ⟨[],0,Fixed.zero 32,0⟩
  lastBegin : FileBegin := ⟨[],0,Fixed.zero 32,0⟩
  partPath : Bytes := []
  pf : Option OpenPart := none
  off : UInt64 := 0

/-- The record `writeChunk` and `persistActive` save. -/
def Store.metaNow (s : Store) : PartialMeta :=
  ⟨s.begin.rel,s.begin.mode,s.begin.size.toInt64.toInt,s.begin.digest,s.off.toInt64.toInt⟩

/-- A serving process: the tree and its store. -/
structure Receiver where
  world : World
  store : Store

abbrev SP := Prog Host Receiver Fault

def onWorld (m : Prog Host World ε α) : Prog Host Receiver ε α :=
  zoom Receiver.world (fun w r => { r with world := w }) m

def getStore : SP Store := do
  let r ← get
  pure r.store

def setStore (f : Store → Store) : SP Unit := modify fun r => { r with store := f r.store }

/-- Is this the content the peer announced? -/
def digestIs (m : RS Hashed) (want : Digest) : RS Bool := do
  match ← attempt m with
  | .ok h => pure (h.digest = want)
  | .error _ => pure false

theorem keeps_digestIs {I : FS → Prop} {host : Host} {m : RS Hashed} (want : Digest)
    (h : Keeps host (fun w => I w.fs) m) : Keeps host (fun w => I w.fs) (digestIs m want) := by
  refine h.attempt.bind fun r => ?_
  cases r <;> exact Keeps.pure _

def expectDigest (m : RS Hashed) (want : Digest) (message : String) : RS Unit := do
  let same ← digestIs m want
  require (same = true) (.fail .apply message)

def orDefault (mode fallback : Nat) : Nat := if mode = 0 then fallback else mode

/-- The size an `lstat` reports; only files have one here. -/
def nodeSize : Node → Int
  | .file _ data => data.length
  | _ => 0

def openLocalStoreAmbient (destination : Bytes) : RS Store := do
  wrapping "destination" (mkdirAll destination 0o755)
  ensureRecvStage destination
  pure { dest := destination, stageRoot := recvStageDir destination,
         partialRoot := recvPartialDir destination }

def prepareDirsAmbient (stageRoot : Bytes) : List Entry → RS Unit
  | [] => pure ()
  | e :: rest => do
    when (e.type = .dir)
      (wrapping "mkdir" (mkdirAll (join stageRoot e.rel) (orDefault e.mode 0o755)))
    prepareDirsAmbient stageRoot rest

def stageLegacyAmbient (stageRoot : Bytes) (fw : FileWire) : RS Unit := do
  let native := join stageRoot fw.rel
  wrapping "mkdir parent" (mkdirAll (dir native) 0o755)
  wrapping "write" (writeFile native fw.data (orDefault fw.mode 0o644))
  expectDigest (hashing (hashFile native)) fw.digest ("staged digest mismatch for " ++ text fw.rel)

/-- Has the file been staged by an earlier session? -/
def stagedAmbient (stageRoot : Bytes) (b : FileBegin) : RS Bool := do
  match ← attempt (lstat (finalStagePath stageRoot b.rel)) with
  | .error _ => pure false
  | .ok x =>
    if isRegular x = true ∧ nodeSize x = b.size.toInt64.toInt then
      digestIs (hashing (hashFile (finalStagePath stageRoot b.rel))) b.digest
    else pure false

/-- A partial file goes on only where its record says it stopped. -/
def PartialMeta.matches (m : PartialMeta) (b : FileBegin) : Bool :=
  m.digest = b.digest ∧ m.size = b.size.toInt64.toInt ∧ m.rel = b.rel

def startFresh : RS UInt64 := do
  clearPartial partialRoot rel
  pure 0

/-- Where to go on: the modes differ in how they load the record, look at the partial file and clear. -/
def resumeFrom (load : RS (Option PartialMeta)) (look : Os Node) (fresh : RS UInt64) (b : FileBegin) :
    RS UInt64 := do
  match ← load with
  | none => fresh
  | some m =>
    if m.matches b then do
      match ← attempt look with
      | .ok x => if nodeSize x = m.offset then pure (UInt64.ofInt m.offset) else fresh
      | .error _ => fresh
    else fresh

def resumeAmbient (json : MetaCodec) (partialRoot : Bytes) (b : FileBegin) : RS UInt64 :=
  resumeFrom (loadPartialMeta json partialRoot b.rel) (lstat (partialDataPath partialRoot b.rel))
    (startFresh partialRoot b.rel) b

def openPartAmbient (partialRoot : Bytes) (b : FileBegin) (start : UInt64) : RS Path := do
  let partPath := partialDataPath partialRoot b.rel
  wrapping "partial dir" (mkdirAll (dir partPath) 0o700)
  wrapping "partial open"
    (openFile partPath { write := true, create := true, trunc := start = 0 } 0o600)

/-- The new active file. -/
def Store.activate (s : Store) (b : FileBegin) (partPath : Bytes) (f : Path) (start : UInt64) : Store :=
  { s with active := true, begin := b, partPath, pf := some ⟨f,start.toNat⟩, off := start }

/-- Move the verified partial file to its staged name. -/
def publishPart (partPath final : Bytes) (mode : Nat) : RS Unit := do
  match ← attempt (rename partPath final) with
  | .ok () => wrapping "chmod" (chmod final mode)
  | .error _ => do
    let data ← wrapping "finalize read" (readFile partPath)
    wrapping "finalize write" (writeFile final data mode)
    ignore (remove partPath)

def finalizeAmbient (s : Store) : RS Unit := do
  expectDigest (hashing (hashFile s.partPath)) s.begin.digest
    ("chunked digest mismatch for " ++ text s.begin.rel)
  let final := finalStagePath s.stageRoot s.begin.rel
  wrapping "final mkdir" (mkdirAll (dir final) 0o755)
  publishPart s.partPath final (orDefault s.begin.mode 0o644)
  clearPartial s.partialRoot s.begin.rel
  ignore (syncDir (dir final))

def defaultChunkSize : Nat := 256 * 2 ^ 10

end Integris.RemoteSync
