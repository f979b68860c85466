import Integris.Plan

/-! The executor of a plan, `localsync.ApplyWith`, on path texts: directories are
made with `MkdirAll`, files are staged in a temporary next to their target,
verified, and renamed. Test hooks are left out. -/
namespace Integris.LocalSync

open Posix Prog PathGrammar

abbrev LS := Prog Host World Error

def tmpPrefix : Bytes := ascii ".integris."
def tmpSuffix : Bytes := ascii ".tmp"

def isTempName (n : Name) : Bool := tmpPrefix.isPrefixOf n && tmpSuffix.isSuffixOf n

def mapWriteErr (op : String) (rel : Bytes) (e : Errno) : Error :=
  if e = .perm ∨ e = .acces then wrapErrno .permission op rel e
  else if e = .nospc ∨ e = .dquot then wrapErrno .noSpace op rel e
  else wrapErrno .write op rel e

def validateRel (nfc : NFCTables) (rel : Bytes) : Except Error Unit := do
  demand (rel ≠ [] ∧ rel.head? ≠ some slash ∧ (92 : UInt8) ∉ rel)
    (pathUnsafe "apply" "invalid relative path")
  match validateJoined nfc rel with
  | .ok _ => .ok ()
  | .error e => .error ⟨.pathUnsafe,"apply",rel,"logical path rejected",some (.grammar e)⟩

/-- The native text of a relative path below a root; empty when it is refused. -/
def joinUnder (nfc : NFCTables) (root rel : Bytes) : Bytes :=
  match validateRel nfc rel with
  | .error _ => []
  | .ok () =>
    let native := (rel.splitOn slash).foldl join root
    match Posix.rel (clean root) (clean native) with
    | none => []
    | some out => if out = dotdot ∨ (dotdot ++ [slash]) <+: out then [] else clean native

structure Hashed where
  digest : Digest
  size : Int

def isRegular : Node → Bool
  | .file _ _ => true
  | _ => false

def hashOpenedFile (f : Path) : LS Hashed := do
  let x ← mapError (wrapErrno .read "hash" []) (fstat f)
  require (isRegular x = true) (unsupported "hash" [] "not a regular file")
  let data ← mapError (wrapErrno .read "hash" []) (readAll f)
  pure ⟨sha256 data,data.length⟩

/-- `HashFile`: a final link is not followed. -/
def hashFile (native : Bytes) : LS Hashed := do
  let f ← mapError (wrapErrno .read "hash" []) (openFile native { nofollow := true } 0)
  hashOpenedFile f

variable {I : FS → Prop} {host : Host}

theorem keeps_hashOpenedFile (f : Path) : Keeps host (fun w => I w.fs) (hashOpenedFile f) :=
  (keeps_query _).mapError.bind fun _ => (Keeps.require _).bind fun _ =>
    (keeps_query _).mapError.bind fun _ => Keeps.pure _

theorem keeps_hashFile (native : Bytes) : Keeps host (fun w => I w.fs) (hashFile native) :=
  (keeps_openRead _ _ rfl rfl).mapError.bind fun f => keeps_hashOpenedFile f

theorem hashFile_wp {w : World} (native : Bytes) : wp (hashFile native) host w
      (fun h w' => w'.fs = w.fs ∧ ∃ p mode data, w.fs.locate false host.cwd native = .ok (p,.file mode data) ∧
        h = ⟨sha256 data,data.length⟩)
      (fun _ w' => w'.fs = w.fs ∧ (host.Calm → ∀ p mode data,
        w.fs.locate false host.cwd native ≠ .ok (p,.file mode data)))
      (fun w' => w'.fs = w.fs ∧ ¬ host.Calm) := by
  have refused : ∀ {c}, c ≠ .openExcl → ¬ host.Grants c → ¬ host.Calm := fun ne faulty calm => faulty (calm _ ne)
  unfold hashFile
  rw [wp_bind,wp_mapError]
  refine wp_sys ?_ ?_ fun faulty => ?_
  · intro p fs run
    obtain ⟨_,_,create,-⟩ | ⟨x,at_,-,same | ⟨trunc,-⟩,⟨create,-⟩ | ⟨-,where_⟩⟩ := FS.openat_ok run
    · cases create
    · cases create
    · subst same
      unfold hashOpenedFile
      rw [wp_bind,wp_mapError]
      refine wp_query ?_ ?_ fun faulty => ?_
      · intro y found
        simp only [World.next_fs,at_,Except.ok.injEq] at found
        subst found
        rw [wp_bind,wp_require]
        refine ⟨fun regular => ?_,fun special => ⟨rfl,fun _ q mode data file => ?_⟩⟩
        · cases x with
          | file mode data =>
            rw [wp_bind,wp_mapError]
            refine wp_query ?_ ?_ fun faulty => ?_
            · intro read got
              simp only [World.next_fs,FS.readAll,at_,Except.ok.injEq] at got
              subst got
              exact ⟨rfl,p,mode,data,where_,rfl⟩
            · intro e failed
              simp [FS.readAll,at_] at failed
            · exact ⟨fun _ => ⟨rfl,fun calm => absurd calm (refused (by decide) faulty)⟩,
                rfl,refused (by decide) faulty⟩
          | dir | link | special => cases regular
        · change w.fs.locate false host.cwd native = _ at where_
          rw [where_] at file
          cases file
          exact special rfl
      · intro e failed
        simp [at_] at failed
      · exact ⟨fun _ => ⟨rfl,fun calm => absurd calm (refused (by decide) faulty)⟩,
          rfl,refused (by decide) faulty⟩
    · cases trunc
    · cases trunc
  · intro e failed
    refine ⟨rfl,fun _ p mode data file => ?_⟩
    simp [FS.openat,file,FS.openExisting] at failed
  · exact ⟨fun _ => ⟨rfl,fun calm => absurd calm (refused (by decide) faulty)⟩,
      rfl,refused (by decide) faulty⟩

def acceptDirectory (op : Op) (x : Node) : LS Unit := do
  require (x.isLink = false) (unsupported "mkdir" op.rel "destination is a symbolic link")
  require (x.isDir = true) (conflict "mkdir" op.rel "destination exists and is not a directory")

def applyMkdir (nfc : NFCTables) (dstRoot : Bytes) (op : Op) : LS Unit := do
  let native := joinUnder nfc dstRoot op.rel
  require (native ≠ []) (pathUnsafe "mkdir" "escaped destination root")
  match ← attempt (lstat native) with
  | .ok x => acceptDirectory op x
  | .error e => do
    require (IsNotExist e) (wrapErrno .write "mkdir" op.rel e)
    mapError (mapWriteErr "mkdir" op.rel)
      (mkdirAll native (if op.expectedMode = 0 then 0o755 else op.expectedMode))
    ignore (syncDir (dir native))

/-- Refuse a link or a directory on the final path. -/
def acceptTarget (op : Op) : Except Errno Node → LS Unit
  | .ok x => do
    require (x.isLink = false) (unsupported "apply" op.rel "destination is a symbolic link")
    require (x.isDir = false) (conflict "apply" op.rel "destination is a directory")
  | .error e => require (IsNotExist e) (wrapErrno .read "apply" op.rel e)

def checkTarget (dstNative : Bytes) (op : Op) : LS Unit := do
  acceptTarget op (← attempt (lstat dstNative))

def removeTemps (directory : Bytes) : List Name → Os Unit
  | [] => pure ()
  | n :: rest => do
    when (isTempName n = true) (ignore (remove (join directory n)))
    removeTemps directory rest

def cleanupTemps (directory : Bytes) : Os Unit := do
  let entries ← osReadDir directory
  removeTemps directory (entries.map Prod.fst)

def tempName (b : Fixed 16) : Name := tmpPrefix ++ hexOf b.val ++ tmpSuffix

/-- The close error of a new temporary takes it away again. -/
def createTemp (directory : Bytes) : Os Bytes := do
  let b ← random 16
  let f ← openFile (join directory (tempName b)) { write := true, create := true, excl := true } 0o600
  onError (close f) (remove (join directory (tempName b)))
  pure (join directory (tempName b))

/-- `io.Copy` into the freshly emptied file. -/
def copyAll (src tmp : Path) : Os Nat := do
  let data ← readAll src
  pwrite tmp 0 data
  pure data.length

/-- Copy, flush and close; all three happen before an error is looked at. -/
def copyInto (src tmp : Path) (rel : Bytes) : LS Nat := do
  let copied ← attempt (copyAll src tmp)
  let synced ← attempt (syncFile tmp)
  let closed ← attempt (close tmp)
  let written ← mapError (mapWriteErr "apply" rel) (ofExcept copied)
  mapError (wrapErrno .write "apply" rel) (ofExcept synced)
  mapError (wrapErrno .write "apply" rel) (ofExcept closed)
  pure written

def fillTemp (srcNative tmpPath rel : Bytes) : LS Nat := do
  let src ← mapError (wrapErrno .read "apply" rel) (openFile srcNative { nofollow := true } 0)
  let tmp ← mapError (mapWriteErr "apply" rel) (openFile tmpPath { write := true, trunc := true } 0o600)
  copyInto src tmp rel

def verified (native rel : Bytes) (want : Digest) (message : String) : LS Unit := do
  let h ← hashFile native
  require (h.digest = want) ⟨.verify,"apply",rel,message,none⟩

/-- From the empty temporary to the renamed file. -/
def publish (srcNative tmpPath dstNative : Bytes) (op : Op) (want : Digest) : LS Nat := do
  let written ← fillTemp srcNative tmpPath op.rel
  verified tmpPath op.rel want "staged content digest mismatch"
  mapError (wrapErrno .write "apply" op.rel)
    (chmod tmpPath (if op.expectedMode = 0 then 0o644 else op.expectedMode))
  mapError (mapWriteErr "apply" op.rel) (rename tmpPath dstNative)
  pure written

/-- The source must still be what was planned. -/
def revalidate (srcNative : Bytes) (op : Op) (want : Digest) : LS Unit := do
  let got ← hashFile srcNative
  require (got.digest = want ∧ (op.expectedSize = 0 ∨ got.size = op.expectedSize))
    (conflict "apply" op.rel "source changed between plan and apply")

def applyFile (nfc : NFCTables) (roots : Roots) (op : Op) : LS Nat := do
  let want ← ofExcept (digestFromHex op.rel op.expectedDigestHex)
  let srcNative := joinUnder nfc roots.source op.rel
  let dstNative := joinUnder nfc roots.destination op.rel
  require (srcNative ≠ [] ∧ dstNative ≠ []) (pathUnsafe "apply" "path escapes sync root")
  revalidate srcNative op want
  mapError (mapWriteErr "apply" op.rel) (mkdirAll (dir dstNative) 0o755)
  checkTarget dstNative op
  ignore (cleanupTemps (dir dstNative))
  let tmpPath ← mapError (mapWriteErr "apply" op.rel) (createTemp (dir dstNative))
  let written ← onError (publish srcNative tmpPath dstNative op want) (remove tmpPath)
  ignore (syncDir (dir dstNative))
  verified dstNative op.rel want "published content digest mismatch"
  pure written

/-- The counters are `int`s, the byte count an `int64`. -/
structure ApplyResult where
  completed : Nat := 0
  skipped : Nat := 0
  bytes : UInt64 := 0
  deriving DecidableEq

/-- One operation; the modes differ in how they make a directory and a file. -/
def performOp (mode : String) (make : LS Unit) (copy : LS Nat) (op : Op) (out : ApplyResult) : LS ApplyResult :=
  match op.action with
  | .skip => pure { out with skipped := out.skipped + 1 }
  | .mkdir => do
    make
    pure { out with completed := out.completed + 1 }
  | .copy | .replace => do
    let n ← copy
    pure { out with completed := out.completed + 1, bytes := out.bytes + UInt64.ofNat n }
  | .other _ => throw (unsupported mode op.rel "unknown action")

def applyOp (nfc : NFCTables) (roots : Roots) (op : Op) : ApplyResult → LS ApplyResult :=
  performOp "apply" (applyMkdir nfc roots.destination op) (applyFile nfc roots op) op

/-- `σ` is what the completion callback closes over. -/
structure ApplyOptions (σ : Type) where
  startAt : Int := 0
  countPrior : Bool := false
  initialBytes : UInt64 := 0
  onOpComplete : Nat → Op → UInt64 → σ → LS σ

/-- The operations in order, each after a check of its path. -/
def runOps {σ : Type} (nfc : NFCTables) (act : Op → ApplyResult → LS ApplyResult) (onOp : Nat → Op → UInt64 → σ → LS σ) :
    Nat → List Op → ApplyResult → σ → LS (ApplyResult × σ)
  | _, [], out, s => pure (out, s)
  | i, op :: rest, out, s => do
    ofExcept (validateRel nfc op.rel)
    let out ← act op out
    let s ← onOp i op out.bytes s
    runOps nfc act onOp (i + 1) rest out s

/-- The counts of the operations before the first one of this call. -/
def priorCounts (ops : List Op) : ApplyResult where
  completed := ops.countP (·.action ≠ .skip)
  skipped := ops.countP (·.action = .skip)

def checkPlan (mode : String) (roots : Roots) (plan : Plan) (startAt : Int) : LS Unit := do
  require (plan.sourceRoot = [] ∨ plan.sourceRoot = roots.source)
    (invalidArg mode "plan source_root does not match roots")
  require (plan.destRoot = [] ∨ plan.destRoot = roots.destination)
    (invalidArg mode "plan destination_root does not match roots")
  require (0 ≤ startAt ∧ startAt ≤ plan.ops.length) (invalidArg mode "StartAt out of range")

def runPlan {σ : Type} (nfc : NFCTables) (act : Op → ApplyResult → LS ApplyResult) (plan : Plan) (opts : ApplyOptions σ)
    (s : σ) : LS (ApplyResult × σ) :=
  let start := opts.startAt.toNat
  let out := if opts.countPrior then priorCounts (plan.ops.take start) else {}
  runOps nfc act opts.onOpComplete start (plan.ops.drop start) { out with bytes := opts.initialBytes } s

def applyWith {σ : Type} (nfc : NFCTables) (roots : Roots) (plan : Plan) (opts : ApplyOptions σ)
    (s : σ) : LS (ApplyResult × σ) := do
  checkPlan "apply" roots plan opts.startAt
  mapError (wrapErrno .write "apply" []) (mkdirAll roots.destination 0o755)
  runPlan nfc (applyOp nfc roots) plan opts s

/-- `Apply`: from the first operation, without a callback. -/
def apply (nfc : NFCTables) (roots : Roots) (plan : Plan) : LS ApplyResult := do
  let (out, _) ← applyWith nfc roots plan { onOpComplete := fun _ _ _ s => pure s } ()
  pure out

section paths

variable {nfc : NFCTables} {relPath : Bytes} {a : Path}

/-- An accepted relative path is the text of a path of legal names. -/
structure GoodRel (relPath : Bytes) (p : Path) : Prop where
  split : relPath.splitOn slash = p
  text : relPath = relText p
  nonempty : p ≠ []
  plain : Plain p
  utf8 : ∀ c ∈ p, validUTF8 c = true
  short : relPath.length ≤ maxPathBytes + maxComponents

theorem validateRel_ok (h : validateRel nfc relPath = .ok ()) : ∃ p, GoodRel relPath p := by
  simp only [validateRel,except_unit_bind_ok,demand_ok] at h
  rcases joined : validateJoined nfc relPath with e | comps
  · simp [joined] at h
  · obtain ⟨split,text,nonempty,plain,utf8,count,total⟩ := validateJoined_ok joined
    refine ⟨comps,split.symm,text,nonempty,plain,utf8,?_⟩
    have := relText_length comps
    rw [text]
    omega

variable {p : Path}

theorem foldl_join_plain (root : Lexical a) (plain : Plain p) : p.foldl join (absText a) = absText (a ++ p) := by
  induction p generalizing a with
  | nil => simp
  | cons n p ih =>
    obtain ⟨valid,rest⟩ := plain_cons.mp plain
    rw [List.foldl_cons,join_name root valid.segment,ih (by simp [root,valid.segment]) rest]
    simp

theorem joinUnder_lexical (root : Lexical a) (good : GoodRel relPath p) (ok : validateRel nfc relPath = .ok ()) :
    joinUnder nfc (absText a) relPath = absText (a ++ p) := by
  have both : Lexical (a ++ p) := lexical_append.mpr ⟨root,good.plain.lexical⟩
  have first : ∀ rest, components (relText p) ≠ dotdot :: rest := by
    intro rest h
    rw [components_relText good.plain.lexical] at h
    exact (good.plain dotdot (by simp [h])).2.2.1 rfl
  have inside : ¬ (relText p = dotdot ∨ (dotdot ++ [slash]) <+: relText p) := by
    rintro (up | ⟨rest,up⟩)
    · exact first [] (by rw [up]; decide)
    · rw [List.append_assoc,List.singleton_append] at up
      exact first (components rest) (by rw [← up,components_append]; rfl)
  rw [joinUnder,ok]
  simp only [good.split,foldl_join_plain root good.plain,clean_absText root,
    clean_absText both,rel_absText root good.plain.lexical good.nonempty,if_neg inside]

theorem joinUnder_eq (root : Plain a) (good : GoodRel relPath p) (ok : validateRel nfc relPath = .ok ()) :
    joinUnder nfc (absText a) relPath = absText (a ++ p) :=
  joinUnder_lexical root.lexical good ok

theorem joinUnder_of_ne {root : Bytes} (h : joinUnder nfc root relPath ≠ []) : validateRel nfc relPath = .ok () := by
  unfold joinUnder at h
  split at h
  · exact absurd rfl h
  · next ok => exact ok

end paths

end Integris.LocalSync
