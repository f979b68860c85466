import Integris.Effect
import Integris.FilePath

/-! The system calls as steps of a process: each one takes a tick, and at each
tick the host lets the call go through, fails it with an error number, or kills
the process. A failed or killed write may have written a part of its buffer.
Above the calls stand the functions of Go's `os` package the program uses. -/
namespace Integris.Posix

open Prog

inductive Call where
  | lstat | stat | readDir | «open» | openExcl | read | write | fsync | close | truncate
  | mkdir | chmod | rename | unlink | rmdir | random | dup
  deriving DecidableEq, Repr

inductive Verdict where
  | go
  | fail (e : Errno) (written : Nat)
  | crash (written : Nat)

/-- What one process meets: the fate of its calls, random bytes, its mask and directory. -/
structure Host where
  verdict : Call → Nat → Verdict
  random : Nat → Bytes
  umask : Nat
  cwd : Path

/-- The host never interferes with this kind of call. -/
def Host.Grants (host : Host) (c : Call) : Prop := ∀ t, host.verdict c t = .go

def Host.Quiet (host : Host) : Prop := ∀ c, host.Grants c

/-- Only the making of new files may be refused. -/
def Host.Calm (host : Host) : Prop := ∀ c, c ≠ .openExcl → host.Grants c

/-- A host on which nothing fails. -/
def quietHost : Host := ⟨fun _ _ => .go,fun t => [UInt8.ofNat t],0o022,[]⟩

theorem Host.Quiet.calm {host : Host} (h : host.Quiet) : host.Calm := fun c _ => h c

structure World where
  fs : FS
  tick : Nat

def World.next (w : World) (fs : FS) : World := ⟨fs,w.tick + 1⟩

@[simp] theorem World.next_fs (w : World) (fs : FS) : (w.next fs).fs = fs := rfl

abbrev Os := Prog Host World Errno

def sys (c : Call) (act : Host → FS → Except Errno (α × FS)) : Os α := fun host w =>
  match host.verdict c w.tick with
  | .go =>
    match act host w.fs with
    | .ok (a, fs) => (.ok a, w.next fs)
    | .error e => (.error e, w.next w.fs)
  | .fail e _ => (.error e, w.next w.fs)
  | .crash _ => (.crashed, w)

/-- A call that only looks. -/
def query (c : Call) (look : Host → FS → Except Errno α) : Os α :=
  sys c fun host fs => (look host fs).map (·, fs)

/-- What a write leaves when the host stops it. -/
def torn (p : Path) (offset : Nat) (data : Bytes) (fs : FS) : FS :=
  match fs.pwrite p offset data with
  | .ok ((), fs') => fs'
  | .error _ => fs

def pwrite (p : Path) (offset : Nat) (data : Bytes) : Os Unit := fun host w =>
  match host.verdict .write w.tick with
  | .go =>
    match w.fs.pwrite p offset data with
    | .ok ((), fs) => (.ok (), w.next fs)
    | .error e => (.error e, w.next w.fs)
  | .fail e n => (.error e, w.next (torn p offset (data.take n) w.fs))
  | .crash n => (.crashed, ⟨torn p offset (data.take n) w.fs,w.tick⟩)

section rules

variable {host : Host} {w : World}

theorem wp_sys {c : Call} {act : Host → FS → Except Errno (α × FS)} {Q : α → World → Prop}
    {E : Errno → World → Prop} {C : World → Prop}
    (ok : ∀ a fs, act host w.fs = .ok (a,fs) → Q a (w.next fs))
    (error : ∀ e, act host w.fs = .error e → E e (w.next w.fs))
    (fault : ¬ host.Grants c → (∀ e, E e (w.next w.fs)) ∧ C w) :
    wp (sys c act) host w Q E C := by
  unfold wp sys
  rcases verdict : host.verdict c w.tick with _ | ⟨e,_⟩ | _
  · rcases run : act host w.fs with e | ⟨a,fs⟩
    · exact error e run
    · exact ok a fs run
  · exact (fault fun grants => by simp [grants w.tick] at verdict).1 e
  · exact (fault fun grants => by simp [grants w.tick] at verdict).2

theorem wp_query {c : Call} {look : Host → FS → Except Errno α} {Q : α → World → Prop}
    {E : Errno → World → Prop} {C : World → Prop}
    (ok : ∀ a, look host w.fs = .ok a → Q a (w.next w.fs))
    (error : ∀ e, look host w.fs = .error e → E e (w.next w.fs))
    (fault : ¬ host.Grants c → (∀ e, E e (w.next w.fs)) ∧ C w) :
    wp (query c look) host w Q E C := by
  apply wp_sys
  · intro a fs run
    rcases found : look host w.fs with e | b
    · simp [found,Except.map] at run
    · simp only [found,Except.map,Except.ok.injEq,Prod.mk.injEq] at run
      obtain ⟨rfl,rfl⟩ := run
      exact ok b found
  · intro e run
    rcases found : look host w.fs with e' | b
    · simp only [found,Except.map,Except.error.injEq] at run
      subst run
      exact error e' found
    · simp [found,Except.map] at run
  · exact fault

/-! A call that fails leaves the tree as it was. -/

theorem wp_sys_kept {I : FS → Prop} {c : Call} {act : Host → FS → Except Errno (α × FS)} {Q : α → World → Prop}
    (inv : I w.fs) (ok : ∀ a fs, act host w.fs = .ok (a,fs) → Q a (w.next fs)) :
    wp (sys c act) host w Q (fun _ w' => I w'.fs) (fun w' => I w'.fs) :=
  wp_sys ok (fun _ _ => inv) fun _ => ⟨fun _ => inv,inv⟩

theorem wp_query_kept {I : FS → Prop} {c : Call} {look : Host → FS → Except Errno α} {Q : α → World → Prop}
    (inv : I w.fs) (ok : ∀ a, look host w.fs = .ok a → Q a (w.next w.fs)) :
    wp (query c look) host w Q (fun _ w' => I w'.fs) (fun w' => I w'.fs) :=
  wp_query ok (fun _ _ => inv) fun _ => ⟨fun _ => inv,inv⟩

theorem wp_pwrite {p : Path} {offset : Nat} {data : Bytes} {Q : Unit → World → Prop}
    {E : Errno → World → Prop} {C : World → Prop}
    (ok : ∀ fs, w.fs.pwrite p offset data = .ok ((),fs) → Q () (w.next fs))
    (error : ∀ e, w.fs.pwrite p offset data = .error e → E e (w.next w.fs))
    (fault : ¬ host.Grants .write → ∀ n, (∀ e, E e (w.next (torn p offset (data.take n) w.fs))) ∧
      C ⟨torn p offset (data.take n) w.fs,w.tick⟩) :
    wp (pwrite p offset data) host w Q E C := by
  unfold wp pwrite
  rcases verdict : host.verdict .write w.tick with _ | ⟨e,n⟩ | n
  · rcases run : w.fs.pwrite p offset data with e | ⟨⟨⟩,fs⟩
    · exact error e run
    · exact ok fs run
  · exact (fault (fun grants => by simp [grants w.tick] at verdict) n).1 e
  · exact (fault (fun grants => by simp [grants w.tick] at verdict) n).2

theorem keeps_sys {I : FS → Prop} {c : Call} {act : Host → FS → Except Errno (α × FS)}
    (step : ∀ fs a fs', I fs → act host fs = .ok (a,fs') → I fs') :
    Keeps host (fun w => I w.fs) (sys c act) := by
  intro w inv
  exact wp_sys_kept inv fun a fs run => step _ _ _ inv run

theorem keeps_query {I : FS → Prop} {c : Call} (look : Host → FS → Except Errno α) :
    Keeps host (fun w => I w.fs) (query c look) := by
  intro w inv
  exact wp_query_kept inv fun _ _ => inv

theorem torn_cases (p : Path) (offset : Nat) (data : Bytes) (fs : FS) : torn p offset data fs = fs ∨
      fs.pwrite p offset data = .ok ((),torn p offset data fs) := by
  unfold torn
  rcases run : fs.pwrite p offset data with e | ⟨⟨⟩,fs'⟩
  · exact .inl rfl
  · exact .inr rfl

theorem keeps_pwrite {I : FS → Prop} {p : Path} {offset : Nat} {data : Bytes}
    (step : ∀ fs new fs', I fs → fs.pwrite p offset new = .ok ((),fs') → I fs') :
    Keeps host (fun w => I w.fs) (pwrite p offset data) := by
  intro w inv
  have part : ∀ n, I (torn p offset (data.take n) w.fs) := by
    intro n
    rcases torn_cases p offset (data.take n) w.fs with same | wrote
    · rw [same]; exact inv
    · exact step _ _ _ inv wrote
  exact wp_pwrite (fun fs run => step _ _ _ inv run) (fun _ _ => inv) fun _ n => ⟨fun _ => part n,part n⟩

end rules

/-! Package `os`. A path error is its error number; an `os.File` is the path it was opened on. -/

/-- Mode bits the kernel is given for an `os.FileMode`. -/
def syscallMode (perm : Nat) : Nat :=
  (perm &&& 0o777) ||| (if perm.testBit 23 then 0o4000 else 0) |||
    (if perm.testBit 22 then 0o2000 else 0) ||| (if perm.testBit 20 then 0o1000 else 0)

def IsNotExist (e : Errno) : Prop := e = .noent

instance (e : Errno) : Decidable (IsNotExist e) := inferInstanceAs (Decidable (_ = _))

def lstat (s : Bytes) : Os Node :=
  query .lstat fun host fs => (fs.locate false host.cwd s).map Prod.snd

def stat (s : Bytes) : Os Node :=
  query .stat fun host fs => (fs.locate true host.cwd s).map Prod.snd

def mkdir (s : Bytes) (perm : Nat) : Os Unit :=
  sys .mkdir fun host fs => fs.mkdirat host.umask host.cwd s (syscallMode perm)

def openFile (s : Bytes) (flags : FS.OpenFlags) (perm : Nat) : Os Path :=
  sys (if flags.excl then .openExcl else .open) fun host fs =>
    fs.openat host.umask host.cwd s flags (syscallMode perm)

theorem keeps_openRead {I : FS → Prop} {host : Host} (s : Bytes) {flags : FS.OpenFlags} (perm : Nat)
    (new : flags.create = false) (kept : flags.trunc = false) :
    Keeps host (fun w => I w.fs) (openFile s flags perm) := by
  apply keeps_sys
  intro fs p fs' inv run
  rcases FS.openat_ok run with ⟨_,_,create,-⟩ | ⟨_,-,-,same | ⟨trunc,-⟩,-⟩
  · simp [new] at create
  · rw [same]; exact inv
  · simp [kept] at trunc

def readAll (p : Path) : Os Bytes := query .read fun _ fs => fs.readAll p

def syncFile (_ : Path) : Os Unit := query .fsync fun _ _ => .ok ()

def close (_ : Path) : Os Unit := query .close fun _ _ => .ok ()

/-- `File.Stat`. -/
def fstat (p : Path) : Os Node := query .stat fun _ fs =>
  match fs.node p with
  | some x => .ok x
  | none => .error .badf

def chmod (s : Bytes) (mode : Nat) : Os Unit :=
  sys .chmod fun host fs => fs.fchmodat host.cwd s (syscallMode mode)

def unlink (s : Bytes) : Os Unit := sys .unlink fun host fs => fs.unlinkat host.cwd s

def rmdir (s : Bytes) : Os Unit := sys .rmdir fun host fs => fs.rmdirat host.cwd s

/-- `os.Remove` tries both and reports the more telling error. -/
def remove (s : Bytes) : Os Unit := do
  match ← attempt (unlink s) with
  | .ok () => pure ()
  | .error e => mapError (fun e' => if e' ≠ .notdir then e' else e) (rmdir s)

def renameCall (old new : Bytes) : Os Unit :=
  sys .rename fun host fs => fs.renameat host.cwd old host.cwd new

/-- A directory in the way of `os.Rename` is refused before the call. -/
def refuseDirectory (old new : Bytes) : Os Unit := do
  match ← attempt (lstat new) with
  | .error _ => pure ()
  | .ok x => when (x.isDir = true) do
      let _ ← lstat old
      throw .exist

def rename (old new : Bytes) : Os Unit := do
  refuseDirectory old new
  renameCall old new

/-- `os.ReadDir`: the entries sorted by name. -/
def osReadDir (s : Bytes) : Os (List (Name × Node)) :=
  query .readDir fun host fs =>
    match fs.locate true host.cwd s with
    | .error e => .error e
    | .ok (p, _) => fs.readDir p

/-- `platform.SyncDir`: open the directory and flush it. -/
def syncDir (s : Bytes) : Os Unit := query .fsync fun host fs =>
  match fs.locate true host.cwd s with
  | .error e => .error e
  | .ok (_, x) => if x.isDir then .ok () else .error .notdir

/-- `rand.Read` of `n` bytes. -/
def random (n : Nat) : Os (Fixed n) := fun host w =>
  match host.verdict .random w.tick with
  | .go => (.ok (Fixed.ofBytes n (host.random w.tick)), w.next w.fs)
  | .fail e _ => (.error e, w.next w.fs)
  | .crash _ => (.crashed, w)

/-- The text before the last element, its slash included. -/
def parentText (s : Bytes) : Bytes :=
  ((s.reverse.dropWhile (· = slash)).dropWhile (· ≠ slash)).reverse

/-- The end of `os.MkdirAll`: a directory that is there after all is no error. -/
def makeDirectory (s : Bytes) (perm : Nat) : Os Unit := do
  match ← attempt (mkdir s perm) with
  | .ok () => pure ()
  | .error e =>
    match ← attempt (lstat s) with
    | .ok x => require (x.isDir = true) e
    | .error _ => throw e

/-- `os.MkdirAll`; each round goes to a text with one element less. -/
def mkdirAllFrom (perm : Nat) : Nat → Bytes → Os Unit
  | rounds, s => do
    match ← attempt (stat s) with
    | .ok x => require (x.isDir = true) .notdir
    | .error _ =>
      match rounds with
      | 0 => makeDirectory s perm
      | rounds + 1 => do
        when (parentText s ≠ []) (mkdirAllFrom perm rounds (parentText s))
        makeDirectory s perm

def mkdirAll (s : Bytes) (perm : Nat) : Os Unit := mkdirAllFrom perm (components s).length s

/-- `os.ReadFile`. -/
def readFile (s : Bytes) : Os Bytes := do
  let f ← openFile s {} 0
  let data ← readAll f
  ignore (close f)
  pure data

/-- `os.WriteFile`. -/
def writeFile (s : Bytes) (data : Bytes) (perm : Nat) : Os Unit := do
  let f ← openFile s { write := true, create := true, trunc := true } perm
  match ← attempt (pwrite f 0 data) with
  | .ok () => close f
  | .error e => do
    ignore (close f)
    throw e

/-! Package `unix`: calls on a directory that is already open. A descriptor is the
canonical path of its object. -/
namespace Unix

def mkdirat (fd : Path) (s : Bytes) (perm : Nat) : Os Unit :=
  sys .mkdir fun host fs => fs.mkdirat host.umask fd s perm

def openat (fd : Path) (s : Bytes) (flags : FS.OpenFlags) (mode : Nat) : Os Path :=
  sys (if flags.excl then .openExcl else .open) fun host fs => fs.openat host.umask fd s flags mode

def renameat (oldFD : Path) (old : Bytes) (newFD : Path) (new : Bytes) : Os Unit :=
  sys .rename fun _ fs => fs.renameat oldFD old newFD new

def unlinkat (fd : Path) (s : Bytes) : Os Unit := sys .unlink fun _ fs => fs.unlinkat fd s

def fchmodat (fd : Path) (s : Bytes) (mode : Nat) : Os Unit :=
  sys .chmod fun _ fs => fs.fchmodat fd s mode

/-- With `AT_SYMLINK_NOFOLLOW`. -/
def fstatat (fd : Path) (s : Bytes) : Os Node :=
  query .lstat fun _ fs => (fs.locate false fd s).map Prod.snd

def dup (fd : Path) : Os Path := query .dup fun _ _ => .ok fd

def fsync (_ : Path) : Os Unit := query .fsync fun _ _ => .ok ()

end Unix

/-! What `localsync` and `remotesync` both have of their own. -/

def mkdiratOne (dirfd : Path) (name : Name) (perm : Nat) : Os Unit := do
  match ← attempt (Unix.mkdirat dirfd name perm) with
  | .ok () => pure ()
  | .error e => require (e = .exist) e

/-- Open a real subdirectory. -/
def openDirectory (dirfd : Path) (name : Name) : Os Path :=
  Unix.openat dirfd name { directory := true, nofollow := true } 0

/-- The components of `openDirAt`. -/
def stepInto : Path → List Name → Os Path
  | cur, [] => pure cur
  | cur, comp :: rest =>
    if comp = [] ∨ comp = dot then stepInto cur rest
    else do
      require (comp ≠ dotdot) .perm
      let next ← openDirectory cur comp
      stepInto next rest

end Integris.Posix
