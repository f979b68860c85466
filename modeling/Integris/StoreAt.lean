import Integris.Store

/-! The receive store on directory descriptors: `mkdiratAll` and `openatCreate` go
down one checked component at a time, while the final and the metadata rename
hand the peer's path to the kernel as it came. -/
namespace Integris.RemoteSync

open Posix LocalSync Prog PathGrammar

def pathUnsafe (op msg : String) : Fault := .fail .apply (op ++ ": " ++ msg)

def ensureRecvStageAt (destFD : Path) : RS Descriptors := do
  wrapping "recv-meta" (mkdiratOne destFD metaDirName 0o700)
  let metaFD ← wrapping "recv-meta open" (openDirectory destFD metaDirName)
  wrapping "recv-stage" (mkdiratOne metaFD (ascii "recv-stage") 0o700)
  wrapping "recv-partial" (mkdiratOne metaFD (ascii "recv-partial") 0o700)
  let stageFD ← wrapping "recv-stage open" (openDirectory metaFD (ascii "recv-stage"))
  let partialFD ← wrapping "recv-partial open" (openDirectory metaFD (ascii "recv-partial"))
  pure ⟨destFD,stageFD,partialFD⟩

variable (nfc : NFCTables)

/-- One component of `mkdiratAll`. -/
def enterComponent (perm : Nat) (cur : Path) (comp : Name) : RS Path := do
  require (comp ≠ dotdot) (pathUnsafe "mkdirat" "path escapes root")
  require ((92 : UInt8) ∉ comp ∧ (0 : UInt8) ∉ comp) (pathUnsafe "mkdirat" "invalid component")
  match validateJoined nfc comp with
  | .error e => throw (.wrap .apply ("mkdirat " ++ text comp) (.grammar e))
  | .ok _ => do
    bare (mkdiratOne cur comp perm)
    bare (openDirectory cur comp)

def enterComponents (nfc : NFCTables) (perm : Nat) : Path → List Name → RS Path
  | cur, [] => pure cur
  | cur, comp :: rest =>
    if comp = [] ∨ comp = dot then enterComponents nfc perm cur rest
    else do
      let next ← enterComponent nfc perm cur comp
      enterComponents nfc perm next rest

def mkdiratAll (dirfd : Path) (rel : Bytes) (perm : Nat) : RS Path := do
  let cur ← bare (Unix.dup dirfd)
  if rel = [] ∨ rel = dot then pure cur
  else enterComponents nfc perm cur (rel.splitOn slash)

/-- The directory of a path's last element, made on the way. -/
def parentFD (dirfd : Path) (rel : Bytes) (perm : Nat) : RS Path :=
  if dir rel ≠ dot ∧ dir rel ≠ [] then mkdiratAll nfc dirfd (dir rel) perm else pure dirfd

def openatCreate (dirfd : Path) (rel : Bytes) (flags : FS.OpenFlags) (mode : Nat) :
    RS Path := do
  let pfd ← parentFD nfc dirfd rel 0o700
  bare (Unix.openat pfd (base rel) flags mode)

def openatRead (dirfd : Path) (rel : Bytes) : RS Path :=
  openatCreate nfc dirfd rel { nofollow := true } 0

def hashAt (dirfd : Path) (rel : Bytes) : RS Hashed := do
  let f ← openatRead nfc dirfd rel
  hashing (hashOpenedFile f)

def fstatatRegular (dirfd : Path) (rel : Bytes) : Os Node := do
  let x ← Unix.fstatat dirfd rel
  require (isRegular x = true) .noent
  pure x

def openDirAt (dirfd : Path) (rel : Bytes) : Os Path := do
  let cur ← Unix.dup dirfd
  stepInto cur (rel.splitOn slash)

/-- The existing directory of a path's last element. -/
def existingParent (dirfd : Path) (rel : Bytes) : Os Path :=
  if dir rel = dot ∨ dir rel = [] then pure dirfd else openDirAt dirfd (dir rel)

def unlinkatPath (dirfd : Path) (rel : Bytes) : Os Unit := do
  let pfd ← existingParent dirfd rel
  Unix.unlinkat pfd (base rel)

def fchmodatPath (dirfd : Path) (rel : Bytes) (mode : Nat) : Os Unit := do
  let pfd ← existingParent dirfd rel
  Unix.fchmodat pfd (base rel) mode

def clearPartialAt (partialFD : Path) (rel : Bytes) : RS Unit := do
  ignore (unlinkatPath partialFD (rel ++ ascii ".meta.json"))
  ignore (unlinkatPath partialFD (rel ++ ascii ".part"))

/-- Write and close; both happen before an error is looked at. -/
def writeAndClose (f : Path) (data : Bytes) : Os Unit := do
  let wrote ← attempt (pwrite f 0 data)
  let closed ← attempt (close f)
  ofExcept wrote
  ofExcept closed

def writePartialMetaAt (json : MetaCodec) (partialFD : Path) (rel : Bytes)
    (m : PartialMeta) : RS Unit := do
  let metaRel := rel ++ ascii ".meta.json"
  let tmpRel := metaRel ++ ascii ".tmp"
  let f ← openatCreate nfc partialFD tmpRel { write := true, create := true, trunc := true, nofollow := true } 0o600
  bare (writeAndClose f (json.marshal m))
  onError (bare (Unix.renameat partialFD tmpRel partialFD metaRel)) (unlinkatPath partialFD tmpRel)

def loadPartialMetaAt (json : MetaCodec) (partialFD : Path) (rel : Bytes) :
    RS (Option PartialMeta) := do
  match ← attempt (openatRead nfc partialFD (rel ++ ascii ".meta.json")) with
  | .error e => if e = .errno .noent then pure none else throw e
  | .ok f => do
    let raw ← bare (readAll f)
    match json.unmarshal raw with
    | some m => pure (some m)
    | none => throw .json

def prepareDirsAt (nfc : NFCTables) (stageFD : Path) : List Entry → RS Unit
  | [] => pure ()
  | e :: rest => do
    when (e.type = .dir) (do
      let _ ← mapError (.wrap .apply "mkdir") (mkdiratAll nfc stageFD e.rel (orDefault e.mode 0o755))
      pure ())
    prepareDirsAt nfc stageFD rest

def stageLegacyAt (stageFD : Path) (fw : FileWire) : RS Unit := do
  let pfd ← mapError (.wrap .apply "mkdir parent") (parentFD nfc stageFD fw.rel 0o755)
  let f ← wrapping "write" (Unix.openat pfd (base fw.rel)
    { write := true, create := true, trunc := true, nofollow := true } (orDefault fw.mode 0o644))
  wrapping "write" (writeAndClose f fw.data)
  expectDigest (hashAt nfc stageFD fw.rel) fw.digest ("staged digest mismatch for " ++ text fw.rel)

def stagedAt (stageFD : Path) (b : FileBegin) : RS Bool := do
  match ← attempt (fstatatRegular stageFD b.rel) with
  | .error _ => pure false
  | .ok x =>
    if nodeSize x = b.size.toInt64.toInt then digestIs (hashAt nfc stageFD b.rel) b.digest
    else pure false

def startFreshAt (partialFD : Path) (rel : Bytes) : RS UInt64 := do
  clearPartialAt partialFD rel
  pure 0

def resumeAt (json : MetaCodec) (partialFD : Path) (b : FileBegin) : RS UInt64 :=
  resumeFrom (loadPartialMetaAt nfc json partialFD b.rel) (fstatatRegular partialFD (b.rel ++ ascii ".part"))
    (startFreshAt partialFD b.rel) b

def openPartAt (partialFD : Path) (b : FileBegin) (start : UInt64) : RS Path :=
  mapError (.wrap .apply "partial open")
    (openatCreate nfc partialFD (b.rel ++ ascii ".part")
      { write := true, create := true, nofollow := true, trunc := start = 0 } 0o600)

/-- The copy that replaces a refused rename. -/
def copyPart (fds : Descriptors) (partPath rel : Bytes) (mode : Nat) : RS Unit := do
  let src ← mapError (.wrap .apply "finalize read") (openatRead nfc fds.partials partPath)
  let data ← wrapping "finalize read" (readAll src)
  let dst ← mapError (.wrap .apply "finalize write") (openatCreate nfc fds.stage rel
    { write := true, create := true, trunc := true, nofollow := true } mode)
  wrapping "finalize write" (writeAndClose dst data)
  ignore (unlinkatPath fds.partials partPath)

def publishPartAt (fds : Descriptors) (partPath rel : Bytes) (mode : Nat) : RS Unit := do
  match ← attempt (Unix.renameat fds.partials partPath fds.stage rel) with
  | .ok () => ignore (fchmodatPath fds.stage rel mode)
  | .error _ => copyPart nfc fds partPath rel mode

def finalizeAt (fds : Descriptors) (s : Store) : RS Unit := do
  expectDigest (hashAt nfc fds.partials s.partPath) s.begin.digest
    ("chunked digest mismatch for " ++ text s.begin.rel)
  let _ ← mapError (.wrap .apply "final mkdir") (parentFD nfc fds.stage s.begin.rel 0o755)
  publishPartAt nfc fds s.partPath s.begin.rel (orDefault s.begin.mode 0o644)
  clearPartialAt fds.partials s.begin.rel
  ignore (Unix.fsync fds.stage)

end Integris.RemoteSync
