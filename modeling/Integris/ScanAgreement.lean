import Integris.ScanOrder

/-! `Scan` against `ScanAt`. Both walk the same list of objects, but `ScanAt` opens an
object before it looks at it: at a named pipe it waits for a writer, and at a socket it
reports the failed open. They agree on the trees where neither is met first. -/
namespace Integris.LocalSync

open Posix Prog PathGrammar Outcome

/-- What `ScanAt` makes of one object. -/
def recordedAt (nfc : NFCTables) (fs : FS) (d r : Path) : Outcome Error Entry :=
  match validateJoined nfc (relText r) with
  | .error e => .error (rejected "scanat" (relText r) e)
  | .ok _ =>
    match fs.node (d ++ r) with
    | none => .crashed
    | some (.link _) => .error (unsupported "scanat" (relText r) "symbolic link")
    | some (.special .pipe) => .crashed
    | some (.special .socket) => .error (wrapErrno .read "scanat" (relText r) .nxio)
    | some (.special .device) => .error (unsupported "scanat" (relText r) "device")
    | some (.dir mode) => .ok (directoryEntry (relText r) mode)
    | some (.file mode data) => .ok (fileEntry (relText r) mode ⟨sha256 data,data.length⟩)

section scanning

variable {nfc : NFCTables} {host : Host} {fs : FS} {d r : Path} {n : Name} {x : Node}

theorem locate_entry (valid : ValidName n) (at_ : fs.node (d ++ [n]) = some x) :
    fs.locate false d n = .ok (d ++ [n],x) := by
  have text : endsInSlash n = false := by
    simp only [endsInSlash,decide_eq_false_iff_not]
    exact fun h => valid.2.2.2.1 (List.mem_of_getLast? h)
  have reached : fs.walk false FS.maxLinks d [n] = .ok (.entry d n) := FS.pass_last ⟨valid.2.1,valid.2.2.1⟩ (by simp)
  rw [FS.locate_place text,FS.place,FS.resolve,if_neg valid.1,if_neg valid.2.2.2.2,
    not_isRooted valid.2.2.2.1,components_name valid.1 valid.2.2.2.1]
  simp only [Bool.false_eq_true,if_false,reached]
  exact FS.present_some at_

/-- The open of an object, by its kind. -/
def openOutcome (p : Path) : Node → Outcome Errno Path
  | .link _ => .error .loop
  | .special .pipe => .crashed
  | .special .socket => .error .nxio
  | .special .device | .dir _ | .file _ _ => .ok p

theorem reads_openatEntry (quiet : host.Quiet) (valid : ValidName n) (at_ : fs.node (d ++ [n]) = some x) :
    Reads host fs (openatEntry d n) (openOutcome (d ++ [n]) x) := by
  have found := locate_entry valid at_
  intro w same
  subst same
  unfold openatEntry
  rw [quiet,found]
  have failed : ∀ e, w.fs.openat host.umask d n { nofollow := true } 0 = .error e →
      Unix.openat d n { nofollow := true } 0 host w = (.error e,w.next w.fs) := fun e h => sys_failed quiet h
  have opened : w.fs.openat host.umask d n { nofollow := true } 0 = .ok (d ++ [n],w.fs) →
      Unix.openat d n { nofollow := true } 0 host w = (.ok (d ++ [n]),w.next w.fs) := fun h => sys_run quiet h
  cases x with
  | link target => exact ⟨_,failed .loop (by simp [FS.openat,found,FS.openExisting]),rfl⟩
  | dir mode => exact ⟨_,opened (by simp [FS.openat,found,FS.openExisting]),rfl⟩
  | file mode data => exact ⟨_,opened (by simp [FS.openat,found,FS.openExisting]),rfl⟩
  | special kind =>
    cases kind with
    | pipe => exact ⟨_,rfl,rfl⟩
    | socket => exact ⟨_,failed .nxio (by simp [FS.openat,found,FS.openExisting]),rfl⟩
    | device => exact ⟨_,rfl,rfl⟩

theorem relText_below (plain : Plain r) (n : Name) :
    (if relText r = [] then n else relText r ++ slash :: n) = relText (r ++ [n]) := by
  rw [relText_snoc]
  by_cases top : r = []
  · rw [if_pos top,if_pos (by rw [top]; rfl)]
  · rw [if_neg top,if_neg (relText_ne_nil plain.lexical top)]

variable {inner : Path → Bytes → LS (List Entry)} {below : List Path}

/-- One name of a directory: skipped, refused, or taken with what `inner` finds. -/
theorem reads_scanName (quiet : host.Quiet) (dir : Plain r) (at_ : fs.node (d ++ (r ++ [n])) = some x)
    (outside : (r ++ [n]).head? ≠ some metaDirName)
    (inside : fs.IsDir (d ++ (r ++ [n])) → Reads host fs (inner (d ++ (r ++ [n])) (relText (r ++ [n])))
      (gather (recordedAt nfc fs d) below)) :
    Reads host fs (scanName nfc inner (d ++ r) (relText r) n)
      (gather (recordedAt nfc fs d) ((r ++ [n]) :: if fs.IsDir (d ++ (r ++ [n])) then below else [])) := by
  have plain : Plain (r ++ [n]) := plain_of_object at_
  have valid : ValidName n := plain n (by simp)
  have notMeta : ¬isMetaRel (relText (r ++ [n])) = true := fun h => outside ((isMetaRel_relText plain (by simp)).mp h)
  have opened := reads_openatEntry quiet valid (List.append_assoc d r [n] ▸ at_)
  unfold scanName
  rw [if_neg (not_or.mpr ⟨valid.2.1,valid.2.2.1⟩),relText_below dir]
  dsimp only
  refine (Reads.require (relText_stays plain) _).then_ ?_
  rw [if_neg notMeta,gather,recordedAt]
  cases validateJoined nfc (relText (r ++ [n])) with
  | error e => exact (Reads.throw _).failing
  | ok comps =>
    refine Reads.then_ (Reads.pure comps) ?_
    rw [List.append_assoc] at opened
    have looked : Reads host fs (fstat (d ++ (r ++ [n]))) (.ok x) := Reads.query quiet (by rw [at_])
    dsimp only
    rw [at_]
    cases x with
    | link target => exact (opened.mapError_error _).failing
    | special kind =>
      cases kind with
      | pipe => exact (opened.mapError_crashed _).sticking
      | socket => exact (opened.mapError_error _).failing
      | device =>
        refine (opened.mapError_ok _).then_ ((looked.mapError_ok _).then_ ?_)
        exact Reads.throw _
    | dir mode =>
      have isDir : fs.IsDir (d ++ (r ++ [n])) := FS.isDir_iff.mpr ⟨mode,at_⟩
      refine (opened.mapError_ok _).then_ ((looked.mapError_ok _).then_ ?_)
      rw [if_pos isDir]
      exact (inside isDir).bind fun more _ => Reads.pure _
    | file mode data =>
      have notDir : ¬fs.IsDir (d ++ (r ++ [n])) := by simp [FS.IsDir,at_,Node.isDir]
      refine (opened.mapError_ok _).then_ ((looked.mapError_ok _).then_ ?_)
      rw [if_neg notDir]
      exact (reads_hashOpenedFile quiet at_).then_ (Reads.pure _)

theorem reads_readDirNamesAt (quiet : host.Quiet) {p : Path} (dir : fs.IsDir p) :
    Reads host fs (readDirNamesAt p) (.ok (fs.children p)) := by
  obtain ⟨entries,listed⟩ := readDir_dir dir
  have copied : Reads host fs (Unix.dup p) (.ok p) := Reads.query quiet rfl
  refine copied.then_ (Reads.query quiet ?_)
  rw [listed]
  exact congrArg Except.ok (readDir_names listed).1

theorem reads_scanAtDir (quiet : host.Quiet) {fuel : Nat} (dir : fs.IsDir (d ++ r))
    (content : r.head? ≠ some metaDirName) (enough : depth fs < (d ++ r).length + fuel) :
    Reads host fs (scanAtDir nfc fuel (d ++ r) (relText r))
      (gather (recordedAt nfc fs d) ((fs.children (d ++ r)).flatMap fun n => subtree fs d fuel (r ++ [n]))) := by
  induction fuel generalizing r with
  | zero =>
    have := length_le_depth dir.present
    omega
  | succ fuel ih =>
    obtain ⟨mode,here⟩ := FS.isDir_iff.mp dir
    have plain : Plain r := plain_of_object here
    rw [scanAtDir]
    refine ((reads_readDirNamesAt quiet dir).mapError_ok _).then_ ?_
    rw [(fs.children_sorted (d ++ r)).insertionSort_eq]
    refine Reads.visitAll fun n hn => ?_
    obtain ⟨x,at_⟩ := Option.ne_none_iff_exists'.mp (FS.mem_children.mp hn)
    rw [List.append_assoc] at at_
    rw [subtree]
    by_cases metadata : r ++ [n] = [metaDirName]
    · -- the metadata directory can only be at the top
      obtain ⟨rfl,rfl⟩ : r = [] ∧ n = metaDirName := by
        cases r with
        | nil => exact ⟨rfl,(List.cons.inj metadata).1⟩
        | cons m r => simp at metadata
      rw [if_pos metadata]
      have valid : ValidName metaDirName := by decide
      unfold scanName
      rw [if_neg (not_or.mpr ⟨valid.2.1,valid.2.2.1⟩),relText_below plain]
      dsimp only
      refine (Reads.require (relText_stays (plain_of_object at_)) _).then_ ?_
      rw [if_pos (by decide)]
      exact Reads.pure _
    · have outside : (r ++ [n]).head? ≠ some metaDirName := by
        cases r with
        | nil =>
          intro head
          rw [List.nil_append,List.head?_cons,Option.some.injEq] at head
          exact metadata (by rw [head]; rfl)
        | cons m r => exact content
      rw [if_neg metadata]
      refine reads_scanName quiet plain at_ outside fun isDir => ih isDir outside ?_
      simp only [List.length_append,List.length_singleton] at enough ⊢
      omega

theorem reads_scanAt (quiet : host.Quiet) (dir : fs.IsDir d) (label : Bytes) : Reads host fs (scanAt nfc d label)
      ((gather (recordedAt nfc fs d) (contents fs d)).bind fun entries => .ok ⟨label,byRel entries⟩) := by
  obtain ⟨mode,at_⟩ := FS.isDir_iff.mp dir
  have looked : Reads host fs (fstat d) (.ok (.dir mode)) := Reads.query quiet (by rw [at_])
  refine (looked.mapError_ok _).then_ ?_
  refine (Reads.require rfl _).then_ ?_
  refine (Reads.require rfl _).then_ ?_
  refine reads_levels.then_ ?_
  refine Reads.bind ?_ fun entries _ => Reads.pure _
  have top : fs.IsDir (d ++ []) := by rw [List.append_nil]; exact dir
  have walked : Reads host fs (scanAtDir nfc (depth fs + 1) (d ++ []) (relText []))
      (gather (recordedAt nfc fs d) ((fs.children (d ++ [])).flatMap fun n => subtree fs d (depth fs + 1) ([] ++ [n]))) :=
    reads_scanAtDir quiet top nofun (by omega)
  rw [List.append_nil] at walked
  rw [contents_eq]
  exact walked

end scanning

/-- An object neither scanner takes. -/
def Refused (nfc : NFCTables) (fs : FS) (d r : Path) : Prop :=
  (validateJoined nfc (relText r)).isOk = false ∨ fs.IsLink (d ++ r) ∨ ∃ kind, fs.node (d ++ r) = some (.special kind)

/-- An object that cannot be opened to be looked at. -/
def Unopenable (fs : FS) (p : Path) : Prop :=
  fs.node p = some (.special .pipe) ∨ fs.node p = some (.special .socket)

instance (nfc : NFCTables) (fs : FS) (d r : Path) : Decidable (Refused nfc fs d r) :=
  decidable_of_iff ((validateJoined nfc (relText r)).isOk = false ∨ fs.IsLink (d ++ r) ∨
    ∃ kind ∈ [Special.pipe,.socket,.device], fs.node (d ++ r) = some (.special kind)) <| by
    refine or_congr_right (or_congr_right ⟨fun ⟨kind,_,at_⟩ => ⟨kind,at_⟩,fun ⟨kind,at_⟩ => ⟨kind,?_,at_⟩⟩)
    cases kind <;> simp

/-- The same entries, or failures of one kind; a scan that does not return agrees with nothing. -/
def ScansAgree (s t : Outcome Error Manifest) : Prop :=
  (∃ m m', s = .ok m ∧ t = .ok m' ∧ m.entries = m'.entries) ∨
    ∃ e e', s = .error e ∧ t = .error e' ∧ e.kind = e'.kind

section agreement

variable {nfc : NFCTables} {fs : FS} {d r : Path}

theorem recorded_taken (present : fs.node (d ++ r) ≠ none) (taken : ¬Refused nfc fs d r) :
    ∃ e, recorded nfc fs d r = .ok e ∧ recordedAt nfc fs d r = .ok e := by
  obtain ⟨valid,link,special⟩ : (validateJoined nfc (relText r)).isOk ≠ false ∧ ¬fs.IsLink (d ++ r) ∧
      ¬∃ kind, fs.node (d ++ r) = some (.special kind) := by
    simpa only [Refused,not_or] using taken
  unfold recorded recordedAt
  cases accepted : validateJoined nfc (relText r) with
  | error e => simp [accepted,Except.isOk,Except.toBool] at valid
  | ok comps =>
    rcases at_ : fs.node (d ++ r) with _ | ⟨mode | ⟨mode,data⟩ | target | kind⟩
    · exact absurd at_ present
    · exact ⟨_,rfl,rfl⟩
    · exact ⟨_,rfl,rfl⟩
    · exact absurd (FS.isLink_iff.mpr ⟨target,at_⟩) link
    · exact absurd ⟨kind,at_⟩ special

/-- Of a refused object the two report the same kind of error exactly when it was refused for
its name or could be opened. -/
theorem recorded_refused (present : fs.node (d ++ r) ≠ none) (refused : Refused nfc fs d r) :
    ∃ e, recorded nfc fs d r = .error e ∧ ((∃ e', recordedAt nfc fs d r = .error e' ∧ e.kind = e'.kind) ↔
        ((validateJoined nfc (relText r)).isOk = true → ¬Unopenable fs (d ++ r))) ∧
      ∀ e', recordedAt nfc fs d r ≠ .ok e' := by
  unfold Refused FS.IsLink at refused
  unfold recorded recordedAt Unopenable
  cases accepted : validateJoined nfc (relText r) with
  | error e => simp [rejected,Except.isOk,Except.toBool]
  | ok comps =>
    rw [accepted] at refused
    rcases at_ : fs.node (d ++ r) with _ | ⟨mode | ⟨mode,data⟩ | target | kind⟩
    · exact absurd at_ present
    · simp [at_,Except.isOk,Except.toBool,Node.isLink] at refused
    · simp [at_,Except.isOk,Except.toBool,Node.isLink] at refused
    · simp [unsupported,Except.isOk,Except.toBool]
    · cases kind <;> simp [unsupported,wrapErrno,wrap,kindText,Except.isOk,Except.toBool]

variable (nfc) in
/-- Over a walk the first refused object decides. -/
theorem gather_agree {rs : List Path} (present : ∀ r ∈ rs, fs.node (d ++ r) ≠ none) :
    match rs.find? fun r => Refused nfc fs d r with
    | none => ∃ es, gather (recorded nfc fs d) rs = .ok es ∧ gather (recordedAt nfc fs d) rs = .ok es
    | some r => ∃ e, recorded nfc fs d r = .error e ∧ gather (recorded nfc fs d) rs = .error e ∧
        gather (recordedAt nfc fs d) rs = (recordedAt nfc fs d r).bind fun _ => .crashed := by
  induction rs with
  | nil => exact ⟨[],rfl,rfl⟩
  | cons r rs ih =>
    have here := present r List.mem_cons_self
    have rest := ih fun x hx => present x (List.mem_cons_of_mem _ hx)
    by_cases refused : Refused nfc fs d r
    · rw [List.find?_cons_of_pos (by simpa using refused)]
      obtain ⟨e,failed,-,never⟩ := recorded_refused here refused
      refine ⟨e,failed,by rw [gather,failed]; rfl,?_⟩
      rw [gather]
      cases outcome : recordedAt nfc fs d r with
      | ok x => exact absurd outcome (never x)
      | error _ => rfl
      | crashed => rfl
    · rw [List.find?_cons_of_neg (by simpa using refused)]
      obtain ⟨x,taken,taken'⟩ := recorded_taken here refused
      rw [gather,gather,taken,taken']
      cases first : rs.find? fun r => Refused nfc fs d r with
      | none =>
        rw [first] at rest
        obtain ⟨es,found,found'⟩ := rest
        exact ⟨x :: es,by rw [found]; rfl,by rw [found']; rfl⟩
      | some q =>
        rw [first] at rest
        obtain ⟨e,failed,stopped,stopped'⟩ := rest
        refine ⟨e,failed,by rw [stopped]; rfl,?_⟩
        rw [stopped',ok_bind,bind_assoc]
        cases recordedAt nfc fs d q <;> rfl

end agreement

/-- The two scanners agree on a tree, and both return, exactly when the first object in walk
order that is refused is not a named pipe or a socket under an acceptable name. -/
theorem scanners_agree_iff (nfc : NFCTables) (host : Host) (quiet : host.Quiet) (w : World) (a d : Path)
    (root : Plain a) (leads : w.fs.Leads a d) (label : Bytes) :
    ScansAgree (scan nfc (absText a) host w).1 (scanAt nfc d label host w).1 ↔
      ∀ r, (contents w.fs d).find? (fun r => Refused nfc w.fs d r) = some r →
        (validateJoined nfc (relText r)).isOk = true → ¬Unopenable w.fs (d ++ r) := by
  have scanned : Reads host w.fs (scan nfc (absText a)) _ := reads_scan quiet leads root
  have scannedAt : Reads host w.fs (scanAt nfc d label) _ := reads_scanAt quiet leads.1 label
  obtain ⟨_,ran,-⟩ := scanned w rfl
  obtain ⟨_,ran',-⟩ := scannedAt w rfl
  rw [ran,ran']
  have present : ∀ r ∈ contents w.fs d, w.fs.node (d ++ r) ≠ none := fun r hr => (mem_contents hr).1
  have both := gather_agree nfc present
  cases first : (contents w.fs d).find? fun r => Refused nfc w.fs d r with
  | none =>
    rw [first] at both
    obtain ⟨es,found,found'⟩ := both
    rw [found,found']
    exact ⟨fun _ => nofun,fun _ => .inl ⟨_,_,rfl,rfl,rfl⟩⟩
  | some r =>
    rw [first] at both
    obtain ⟨e,failed,stopped,stopped'⟩ := both
    have refused : Refused nfc w.fs d r := by simpa using List.find?_some first
    obtain ⟨e₂,failed₂,kinds,never⟩ := recorded_refused (present r (List.mem_of_find?_eq_some first)) refused
    rw [failed] at failed₂
    cases failed₂
    rw [stopped,stopped',Outcome.bind_assoc]
    refine Iff.trans ?_ (kinds.trans ⟨fun h x same => by cases same; exact h,fun h => h r rfl⟩)
    cases outcome : recordedAt nfc w.fs d r with
    | ok x => exact absurd outcome (never x)
    | error e' => simp [ScansAgree]
    | crashed => simp [ScansAgree]

/-- A directory with a file and one other object in it. -/
def sampleTree (x : Node) : FS :=
  FS.build [([ascii "t"],.dir 0o755),([ascii "t",ascii "f"],.file 0o644 [1,2]),([ascii "t",ascii "o"],x)]

theorem scanners_agree_device : ∃ w a d, quietHost.Quiet ∧ Plain a ∧ w.fs.Leads a d ∧
    w.fs.node (d ++ [ascii "o"]) = some (.special .device) ∧
    ScansAgree (scan asciiTables (absText a) quietHost w).1 (scanAt asciiTables d (absText a) quietHost w).1 := by
  have quiet : quietHost.Quiet := fun _ _ => rfl
  obtain ⟨w,plain,dir,device,opened⟩ : ∃ w : World, Plain [ascii "t"] ∧ w.fs.IsDir [ascii "t"] ∧
      w.fs.node ([ascii "t"] ++ [ascii "o"]) = some (.special .device) ∧
      (contents w.fs [ascii "t"]).find? (fun r => Refused asciiTables w.fs [ascii "t"] r) = some [ascii "o"] :=
    ⟨⟨sampleTree (.special .device),0⟩,by decide +kernel⟩
  refine ⟨w,[ascii "t"],[ascii "t"],quiet,plain,FS.leads_self dir,device,?_⟩
  refine (scanners_agree_iff asciiTables quietHost quiet w _ _ plain (FS.leads_self dir) _).mpr fun r first _ => ?_
  rw [opened] at first
  cases first
  rw [Unopenable,device]
  simp

deriving instance DecidableEq for Manifest

/-- At a named pipe `Scan` refuses and `ScanAt` does not return; at a socket they refuse for
different reasons. -/
theorem scanners_differ :
    ¬ScansAgree (scan asciiTables (ascii "/t") quietHost ⟨sampleTree (.special .pipe),0⟩).1
      (scanAt asciiTables [ascii "t"] (ascii "/t") quietHost ⟨sampleTree (.special .pipe),0⟩).1 ∧
    ¬ScansAgree (scan asciiTables (ascii "/t") quietHost ⟨sampleTree (.special .socket),0⟩).1
      (scanAt asciiTables [ascii "t"] (ascii "/t") quietHost ⟨sampleTree (.special .socket),0⟩).1 := by
  have pipe : (scan asciiTables (ascii "/t") quietHost ⟨sampleTree (.special .pipe),0⟩).1 =
      .error (unsupported "scan" (ascii "o") "named pipe") := by decide +kernel
  have pipeAt : (scanAt asciiTables [ascii "t"] (ascii "/t") quietHost ⟨sampleTree (.special .pipe),0⟩).1 =
      .crashed := by decide +kernel
  have socket : (scan asciiTables (ascii "/t") quietHost ⟨sampleTree (.special .socket),0⟩).1 =
      .error (unsupported "scan" (ascii "o") "socket") := by decide +kernel
  have socketAt : (scanAt asciiTables [ascii "t"] (ascii "/t") quietHost ⟨sampleTree (.special .socket),0⟩).1 =
      .error (wrapErrno .read "scanat" (ascii "o") .nxio) := by decide +kernel
  rw [pipe,pipeAt,socket,socketAt]
  simp [ScansAgree,unsupported,wrapErrno,wrap]

end Integris.LocalSync
