import Integris.Scan

/-! The executor of a plan on directory descriptors, `localsync.ApplyWithAt`: every
directory on the way is opened without following links, and what changes the tree
names a single entry of a directory so opened. Test hooks are left out. -/
namespace Integris.LocalSync.Openat

open Posix Prog PathGrammar

variable (dirfd : Path)

/-- The caller's error for an error number; an escape has its own. -/
def makeInto (wrapping : Errno → Error) (perm : Nat) : Path → List Name → LS Path
  | cur, [] => pure cur
  | cur, comp :: rest =>
    if comp = [] ∨ comp = dot then makeInto wrapping perm cur rest
    else do
      require (comp ≠ dotdot) (pathUnsafe "mkdirat" "path escapes root")
      mapError wrapping (mkdiratOne cur comp perm)
      let next ← mapError wrapping (openDirectory cur comp)
      makeInto wrapping perm next rest

variable (wrapping : Errno → Error)

def mkdiratAll (dirfd : Path) (rel : Bytes) (perm : Nat) : LS Path := do
  let cur ← mapError wrapping (Unix.dup dirfd)
  if rel = [] ∨ rel = dot then pure cur else makeInto wrapping perm cur (rel.splitOn slash)

def openDirAt (rel : Bytes) : Os Path := do
  let cur ← Unix.dup dirfd
  if rel = [] ∨ rel = dot then pure cur else stepInto cur (rel.splitOn slash)

/-- Does the path have a directory part? -/
def Nested (rel : Bytes) : Prop := dir rel ≠ dot ∧ dir rel ≠ []

instance (rel : Bytes) : Decidable (Nested rel) := inferInstanceAs (Decidable (_ ∧ _))

def openParent (rel : Bytes) : Os Path :=
  if Nested rel then openDirAt dirfd (dir rel) else pure dirfd

def openName (name : Name) : Os Path := Unix.openat dirfd name { nofollow := true } 0

def openatRead (rel : Bytes) : Os Path := do
  let pfd ← openParent dirfd rel
  openName pfd (base rel)

def hashAt (dirfd : Path) (rel : Bytes) : LS Hashed := do
  let f ← mapError wrapping (openatRead dirfd rel)
  hashOpenedFile f

def hashAtName (dirfd : Path) (name : Name) : LS Hashed := do
  let f ← mapError wrapping (openName dirfd name)
  hashOpenedFile f

def syncParent (dstDir : Path) (rel : Bytes) : Os Unit := do
  let pfd ← openParent dstDir rel
  Unix.fsync pfd

def applyMkdirAt (dstDir : Path) (op : Op) : LS Unit := do
  match ← attempt (Unix.fstatat dstDir op.rel) with
  | .ok x => acceptDirectory op x
  | .error e => do
    require (IsNotExist e) (wrapErrno .write "mkdir" op.rel e)
    let _ ← mkdiratAll (mapWriteErr "mkdir" op.rel) dstDir op.rel
      (if op.expectedMode = 0 then 0o755 else op.expectedMode)
    ignore (syncParent dstDir op.rel)

def checkTargetAt (dstDir : Path) (op : Op) : LS Unit := do
  acceptTarget op (← attempt (Unix.fstatat dstDir op.rel))

def removeTempsAt (dirfd : Path) : List Name → Os Unit
  | [] => pure ()
  | n :: rest => do
    when (isTempName n = true) (ignore (Unix.unlinkat dirfd n))
    removeTempsAt dirfd rest

def cleanupTempsAt : Os Unit := do
  let names ← readDirNamesAt dirfd
  removeTempsAt dirfd names

def createTempAt : Os Name := do
  let b ← random 16
  let f ← Unix.openat dirfd (tempName b) { write := true, create := true, excl := true, nofollow := true } 0o600
  ignore (close f)
  pure (tempName b)

def fillTempAt (srcDir parentFD : Path) (tmp : Name) (rel : Bytes) : LS Nat := do
  let src ← mapError (wrapErrno .read "apply" rel) (openatRead srcDir rel)
  let f ← mapError (mapWriteErr "apply" rel)
    (Unix.openat parentFD tmp { write := true, trunc := true, nofollow := true } 0)
  copyInto src f rel

def verifiedAt (name : Name) (rel : Bytes) (want : Digest) (message : String) : LS Unit := do
  let h ← hashAtName (wrapErrno .verify "apply" rel) dirfd name
  require (h.digest = want) ⟨.verify,"apply",rel,message,none⟩

def publishAt (srcDir parentFD : Path) (tmp : Name) (op : Op) (want : Digest) : LS Nat := do
  let written ← fillTempAt srcDir parentFD tmp op.rel
  verifiedAt parentFD tmp op.rel want "staged content digest mismatch"
  mapError (wrapErrno .write "apply" op.rel)
    (Unix.fchmodat parentFD tmp (if op.expectedMode = 0 then 0o644 else op.expectedMode))
  mapError (mapWriteErr "apply" op.rel) (Unix.renameat parentFD tmp parentFD (base op.rel))
  pure written

def applyFileAt (srcDir dstDir : Path) (op : Op) : LS Nat := do
  let want ← ofExcept (digestFromHex op.rel op.expectedDigestHex)
  let got ← hashAt (wrapErrno .read "apply" op.rel) srcDir op.rel
  require (got.digest = want ∧ (op.expectedSize = 0 ∨ got.size = op.expectedSize))
    (conflict "apply" op.rel "source changed between plan and apply")
  when (Nested op.rel) (do
    let _ ← mkdiratAll (mapWriteErr "apply" op.rel) dstDir (dir op.rel) 0o755
    pure ())
  checkTargetAt dstDir op
  let parentFD ← mapError (mapWriteErr "apply" op.rel) (openParent dstDir op.rel)
  ignore (cleanupTempsAt parentFD)
  let tmp ← mapError (mapWriteErr "apply" op.rel) (createTempAt parentFD)
  let written ← onError (publishAt srcDir parentFD tmp op want) (Unix.unlinkat parentFD tmp)
  ignore (Unix.fsync parentFD)
  verifiedAt parentFD (base op.rel) op.rel want "published content digest mismatch"
  pure written

def applyOpAt (srcDir dstDir : Path) (op : Op) : ApplyResult → LS ApplyResult :=
  performOp "applyat" (applyMkdirAt dstDir op) (applyFileAt srcDir dstDir op) op

/-- The roots are labels here; a missing descriptor is `none`. -/
def applyWithAt {σ : Type} (nfc : NFCTables) (srcFD dstFD : Option Path) (roots : Roots) (plan : Plan)
    (opts : ApplyOptions σ) (s : σ) : LS (ApplyResult × σ) :=
  match srcFD, dstFD with
  | some srcDir, some dstDir => do
    checkPlan "applyat" roots plan opts.startAt
    runPlan nfc (applyOpAt srcDir dstDir) plan opts s
  | _, _ => throw (invalidArg "applyat" "nil source or destination fd")

end Integris.LocalSync.Openat
