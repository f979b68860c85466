import Integris.Apply
import Integris.ReadOnly

/-! The two scanners. `Scan` walks path texts with `filepath.WalkDir` and classifies
what `lstat` reports; `ScanAt` opens each entry below an open directory and classifies
what it opened. -/
namespace Integris.LocalSync

open Posix Prog PathGrammar

/-- No object lies deeper. -/
def depth (fs : FS) : Nat := (fs.support.map List.length).foldr max 0

/-- How many levels a walk can have. -/
def levels : LS Nat := fun _ w => (.ok (depth w.fs + 1), w)

def isMetaRel (rel : Bytes) : Bool := rel = metaDirName ∨ (metaDirName ++ [slash]) <+: rel

def byRel (entries : List Entry) : List Entry := entries.insertionSort fun a b => a.rel ≤ b.rel

def directoryEntry (rel : Bytes) (mode : Nat) : Entry := { rel, type := .dir, mode := mode &&& 0o777 }

def fileEntry (rel : Bytes) (mode : Nat) (h : Hashed) : Entry :=
  { rel, type := .file, size := h.size, mode := mode &&& 0o777, digest := some h.digest }

def rejected (op : String) (rel : Bytes) (e : PathGrammar.Error) : Error :=
  ⟨.pathUnsafe,op,rel,"logical path rejected by grammar",some (.grammar e)⟩

def kindText : Special → String
  | .pipe => "named pipe"
  | .socket => "socket"
  | .device => "device"

/-- What the walk does next: go on, into a directory, or leave the directory out. -/
inductive Visit where
  | go | skipDir
  deriving DecidableEq

/-- An object `lstat` reports below the root. -/
def scanObject (native rel : Bytes) : Node → LS (List Entry)
  | .link _ => throw (unsupported "scan" rel "symbolic link")
  | .special kind => throw (unsupported "scan" rel (kindText kind))
  | .dir mode => pure [directoryEntry rel mode]
  | .file mode _ => do
    let h ← hashFile native
    pure [fileEntry rel mode h]

/-- The callback on an entry below the root. -/
def scanEntry (nfc : NFCTables) (native rel : Bytes) (listed : Node) : LS (Visit × List Entry) := do
  require (¬ ((dotdot ++ [slash]) <+: rel ∨ rel = dotdot)) (pathUnsafe "scan" "path escapes root")
  if isMetaRel rel then pure (if listed.isDir then .skipDir else .go, [])
  else do
    let _ ← ofExcept ((validateJoined nfc rel).mapError (rejected "scan" rel))
    let x ← mapError (wrapErrno .read "scan" rel) (lstat native)
    let found ← scanObject native rel x
    pure (.go, found)

/-- The callback of the walk, for a path and the kind of object its directory lists. -/
def scanVisit (nfc : NFCTables) (root native : Bytes) (listed : Node) : LS (Visit × List Entry) := do
  if native = root then pure (.go, [])
  else
    match Posix.rel root native with
    | none => throw (wrap .internal "scan" [] (.text "Rel: can't make relative"))
    | some rel =>
      if rel = dot ∨ rel = [] then pure (.go, []) else scanEntry nfc native rel listed

/-- `filepath.WalkDir`: a directory comes before what it lists, and its entries come
in the order of their names. -/
def walkDir (nfc : NFCTables) (root : Bytes) : Nat → Bytes → Node → LS (List Entry)
  | 0, _, _ => stuck
  | fuel + 1, native, listed => do
    let (visit, found) ← scanVisit nfc root native listed
    if visit = .skipDir ∨ listed.isDir = false then pure found
    else do
      let entries ← mapError (wrapErrno .read "scan" []) (osReadDir native)
      let more ← visitAll (fun e => walkDir nfc root fuel (join native e.1) e.2) entries
      pure (found ++ more)

def scan (nfc : NFCTables) (root : Bytes) : LS Manifest := do
  let x ← mapError (wrapErrno .read "scan" []) (lstat root)
  require (x.isLink = false) (pathUnsafe "scan" "root must not be a symbolic link")
  require (x.isDir = true) (invalidArg "scan" "root must be a directory")
  let top ← mapError (wrapErrno .read "scan" []) (lstat root)
  let n ← levels
  let entries ← walkDir nfc root n root top
  pure ⟨root,byRel entries⟩

/-- `openat` for reading, without following: the opening of a pipe waits for a writer,
a socket cannot be opened, a device can. -/
def openatEntry (fd : Path) (name : Name) : Os Path := fun host w =>
  match host.verdict .open w.tick, w.fs.locate false fd name with
  | .go, .ok (_, .special .pipe) => (.crashed, w)
  | .go, .ok (p, .special .device) => (.ok p, w.next w.fs)
  | _, _ => Unix.openat fd name { nofollow := true } 0 host w

/-- `Readdirnames` of a duplicate, in no order the caller relies on. -/
def readDirNamesAt (fd : Path) : Os (List Name) := do
  let copy ← Unix.dup fd
  query .readDir fun _ fs => (fs.readDir copy).map (List.map Prod.fst)

/-- A failed open of a link is told from other failures. -/
def openFailure (rel : Bytes) (e : Errno) : Error :=
  if e = .loop then unsupported "scanat" rel "symbolic link" else wrapErrno .read "scanat" rel e

/-- An opened entry; a directory is scanned by `inner`. -/
def scanOpened (inner : Path → Bytes → LS (List Entry)) (f : Path) (rel : Bytes) : Node → LS (List Entry)
  | .link _ => throw (unsupported "scanat" rel "symbolic link")
  | .special kind => throw (unsupported "scanat" rel (kindText kind))
  | .dir mode => do
    let more ← inner f rel
    pure (directoryEntry rel mode :: more)
  | .file mode _ => do
    let h ← hashOpenedFile f
    pure [fileEntry rel mode h]

def scanName (nfc : NFCTables) (inner : Path → Bytes → LS (List Entry)) (fd : Path) (relPrefix : Bytes)
    (name : Name) : LS (List Entry) := do
  if name = dot ∨ name = dotdot then pure []
  else do
    let rel := if relPrefix = [] then name else relPrefix ++ slash :: name
    require (¬ ((dotdot ++ [slash]) <+: rel ∨ rel = dotdot)) (pathUnsafe "scanat" "path escapes root")
    if isMetaRel rel then pure []
    else do
      let _ ← ofExcept ((validateJoined nfc rel).mapError (rejected "scanat" rel))
      let f ← mapError (openFailure rel) (openatEntry fd name)
      let x ← mapError (wrapErrno .read "scanat" rel) (fstat f)
      scanOpened inner f rel x

def scanAtDir (nfc : NFCTables) : Nat → Path → Bytes → LS (List Entry)
  | 0, _, _ => stuck
  | fuel + 1, fd, relPrefix => do
    let names ← mapError (wrapErrno .read "scanat" relPrefix) (readDirNamesAt fd)
    visitAll (scanName nfc (scanAtDir nfc fuel) fd relPrefix) (names.insertionSort (· ≤ ·))

def scanAt (nfc : NFCTables) (rootFD : Path) (rootLabel : Bytes) : LS Manifest := do
  let x ← mapError (wrapErrno .read "scanat" []) (fstat rootFD)
  require (x.isLink = false) (pathUnsafe "scanat" "root must not be a symbolic link")
  require (x.isDir = true) (invalidArg "scanat" "root must be a directory")
  let n ← levels
  let entries ← scanAtDir nfc n rootFD []
  pure ⟨rootLabel,byRel entries⟩

end Integris.LocalSync
