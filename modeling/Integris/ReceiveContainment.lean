import Integris.Receive
import Integris.Confinement

/-! Containment of the receive store without descriptors. The peer's relative
path is joined to the staging and the partial directory without a check, so the
store stays inside its two directories exactly as far as those paths do not
climb: if none does, no message sequence and no host makes it touch anything
else. -/
namespace Integris.RemoteSync.Ambient

open Posix LocalSync Prog

def stageText (a : Path) : Path := a ++ [metaDirName,ascii "recv-stage"]

def partialText (a : Path) : Path := a ++ [metaDirName,ascii "recv-partial"]

/-- Strictly inside one of the store's two directories. -/
def Inside (stage partials p : Path) : Prop := FS.Below stage p ∨ FS.Below partials p

/-- A store whose directories exist: the texts it builds from the destination's
name lead to them, and nobody has left a link inside. -/
structure Site (before : FS) (a stage partials : Path) : Prop where
  plain : Plain a
  stageDir : before.Anchored (Inside stage partials) (stageText a) stage
  partialDir : before.Anchored (Inside stage partials) (partialText a) partials
  bare : ∀ p, Inside stage partials p → ¬ before.IsLink p

/-- The relative paths a message makes the store act on. -/
def rels : Message → List Bytes
  | .manifest es => (es.filter (·.type = .dir)).map Entry.rel
  | .file fw => [fw.rel]
  | .begin b => [b.rel]
  | .chunk _ => []
  | .finish _ => []

section containment

variable {lib : Library} {host : Host} {before : FS} {a stage partials : Path}

theorem plain_stageText (plain : Plain a) : Plain (stageText a) := plain_append.mpr ⟨plain,by decide⟩

theorem plain_partialText (plain : Plain a) : Plain (partialText a) := plain_append.mpr ⟨plain,by decide⟩

theorem metaDir_text (plain : Plain a) (valid : ValidName n) :
    join (join (absText a) metaDirName) n = absText (a ++ ([metaDirName] ++ [n])) := by
  have inner : Lexical (a ++ [metaDirName]) := (plain_append.mpr ⟨plain,by decide⟩ : Plain _).lexical
  rw [join_name plain.lexical (by decide : ValidName metaDirName).segment,join_name inner valid.segment,List.append_assoc]

theorem recvStageDir_eq (plain : Plain a) : recvStageDir (absText a) = absText (stageText a) :=
  metaDir_text plain (by decide)

theorem recvPartialDir_eq (plain : Plain a) : recvPartialDir (absText a) = absText (partialText a) :=
  metaDir_text plain (by decide)

theorem inside_closed (p q : Path) (inside : Inside stage partials p) : Inside stage partials (p ++ q) :=
  inside.imp FS.Below.append FS.Below.append

theorem Site.region (site : Site before a stage partials) : Region before (Inside stage partials) :=
  ⟨inside_closed,site.bare⟩

theorem Site.stageRoot (site : Site before a stage partials) : Root before (Inside stage partials) (stageText a) stage :=
  ⟨plain_stageText site.plain,site.stageDir,fun _ more => .inl (FS.below_append more)⟩

theorem Site.partialRoot (site : Site before a stage partials) :
    Root before (Inside stage partials) (partialText a) partials :=
  ⟨plain_partialText site.plain,site.partialDir,fun _ more => .inr (FS.below_append more)⟩

variable {rel : Bytes} {I : FS → Prop} {b : FileBegin}

/-- A file name below `recv-partial`: the peer's path with an ending of ours. -/
theorem partial_text (site : Site before a stage partials) (stays : Stays rel) :
    ∃ q n, ∀ t : Bytes, slash ∉ t → 3 ≤ t.length → Lexical (q ++ [n ++ t]) ∧
      join (absText (partialText a)) (rel ++ t) = absText (partialText a ++ (q ++ [n ++ t])) := by
  obtain ⟨q,n,named⟩ := stays.suffixed
  refine ⟨q,n,fun t ht long => ?_⟩
  obtain ⟨shape,lexical,inner⟩ := named t ht long
  exact ⟨lexical,by rw [inner.join (plain_partialText site.plain).lexical,shape]⟩

theorem keeps_removePartial (site : Site before a stage partials) (stays : Stays rel)
    {t : Bytes} (ht : slash ∉ t) (long : 3 ≤ t.length) :
    Keeps host (Intact before (Inside stage partials)) (remove (join (absText (partialText a)) (rel ++ t))) := by
  obtain ⟨q,n,named⟩ := partial_text site stays
  rw [(named t ht long).2]
  exact keeps_remove fun fs conf => (site.partialRoot.lands site.region (named t ht long).1 conf).names

theorem keeps_clearPartial (site : Site before a stage partials) (stays : Stays rel) :
    Keeps host (Intact before (Inside stage partials)) (clearPartial (absText (partialText a)) rel) :=
  (keeps_removePartial site stays (by decide) (by decide)).ignore.bind fun _ =>
    (keeps_removePartial site stays (by decide) (by decide)).ignore

variable (site : Site before a stage partials)

include site

theorem keeps_prepareDirs {es : List Entry} (stays : ∀ e ∈ es, e.type = .dir → Stays e.rel) :
    Keeps host (Intact before (Inside stage partials)) (prepareDirsAmbient (absText (stageText a)) es) := by
  induction es with
  | nil => exact Keeps.pure _
  | cons e es ih =>
    refine Keeps.bind ?_ fun _ => ih fun x hx => stays x (List.mem_cons_of_mem _ hx)
    intro w inv
    rw [wp_when]
    refine ⟨fun isDir => ?_,fun _ => inv⟩
    have below := stays e List.mem_cons_self isDir
    rw [below.join (plain_stageText site.plain).lexical]
    exact (site.stageRoot.keeps_mkdirAll site.region below.lexical (List.prefix_refl _) _).mapError w inv

theorem keeps_stageLegacy {fw : FileWire} (stays : Stays fw.rel) :
    Keeps host (Intact before (Inside stage partials)) (stageLegacyAmbient (absText (stageText a)) fw) := by
  obtain ⟨y,on,above⟩ := site.stageRoot.dir_prefix (by simp [stageText]) stays.lexical
  unfold stageLegacyAmbient
  rw [stays.join (plain_stageText site.plain).lexical]
  dsimp only
  rw [above]
  exact (site.stageRoot.keeps_mkdirAll site.region stays.lexical on _).mapError.bind fun _ =>
    (site.stageRoot.keeps_writeFile site.region stays.lexical _ _).mapError.bind fun _ =>
    (keeps_digestIs _ (keeps_hashFile _).mapError).bind fun _ => Keeps.require _

omit site in
theorem keeps_staged (stageRoot : Bytes) (b : FileBegin) : Keeps host (fun w => I w.fs) (stagedAmbient stageRoot b) := by
  refine (keeps_query _).attempt.bind fun r => ?_
  cases r with
  | error e => exact Keeps.pure _
  | ok x =>
    dsimp only
    split
    · exact keeps_digestIs _ (keeps_hashFile _).mapError
    · exact Keeps.pure _

omit site in
theorem keeps_loadPartialMeta (json : MetaCodec) (partialRoot rel : Bytes) :
    Keeps host (fun w => I w.fs) (loadPartialMeta json partialRoot rel) := by
  refine (keeps_readFile _).attempt.bind fun r => ?_
  cases r with
  | error e =>
    dsimp only
    split
    · exact Keeps.pure _
    · exact Keeps.throw _
  | ok raw =>
    dsimp only
    split
    · exact Keeps.pure _
    · exact Keeps.throw _

omit site in
theorem keeps_resumeFrom {I : World → Prop} {load : RS (Option PartialMeta)} {look : Os Node} {start : RS UInt64}
    (loads : Keeps host I load) (looks : Keeps host I look) (fresh : Keeps host I start) (b : FileBegin) :
    Keeps host I (resumeFrom load look start b) := by
  refine loads.bind fun saved => ?_
  cases saved with
  | none => exact fresh
  | some m =>
    dsimp only
    split
    · refine looks.attempt.bind fun r => ?_
      cases r with
      | error e => exact fresh
      | ok x =>
        dsimp only
        split
        · exact Keeps.pure _
        · exact fresh
    · exact fresh

theorem keeps_resume (json : MetaCodec) (stays : Stays b.rel) :
    Keeps host (Intact before (Inside stage partials)) (resumeAmbient json (absText (partialText a)) b) :=
  keeps_resumeFrom (keeps_loadPartialMeta _ _ _) (keeps_query _) ((keeps_clearPartial site stays).bind fun _ => Keeps.pure _) b

theorem keeps_partialParent {q : Path} {n : Name} (lexical : Lexical (q ++ [n])) (perm : Nat) :
    Keeps host (Intact before (Inside stage partials)) (mkdirAll (dir (absText (partialText a ++ (q ++ [n])))) perm) := by
  obtain ⟨y,on,above⟩ := site.partialRoot.dir_prefix (by simp [partialText]) lexical
  rw [above]
  exact site.partialRoot.keeps_mkdirAll site.region lexical on perm

theorem yields_openPart (stays : Stays b.rel) (start : UInt64) : Yields host (Intact before (Inside stage partials))
      (openPartAmbient (absText (partialText a)) b start) (Inside stage partials) := by
  obtain ⟨q,n,named⟩ := partial_text site stays
  obtain ⟨lexical,path⟩ := named (ascii ".part") (by decide) (by decide)
  unfold openPartAmbient partialDataPath
  rw [path]
  exact (keeps_partialParent site lexical _).mapError.yields.bind fun _ _ =>
    (yields_openFile (fun _ => site.partialRoot.lands site.region lexical) _ _).mapError

theorem keeps_writePartialMeta (json : MetaCodec) (stays : Stays rel) (m : PartialMeta) :
    Keeps host (Intact before (Inside stage partials)) (writePartialMeta json (absText (partialText a)) rel m) := by
  obtain ⟨q,n,named⟩ := partial_text site stays
  obtain ⟨lexical,path⟩ := named (ascii ".meta.json") (by decide) (by decide)
  have temp : Lexical (q ++ [n ++ ascii ".meta.json" ++ ascii ".tmp"]) := by
    rw [List.append_assoc]
    exact (named _ (by decide) (by decide)).1
  have text : absText (partialText a ++ (q ++ [n ++ ascii ".meta.json"])) ++ ascii ".tmp" =
      absText (partialText a ++ (q ++ [n ++ ascii ".meta.json" ++ ascii ".tmp"])) := by
    rw [← List.append_assoc,absText_suffix,List.append_assoc]
  unfold writePartialMeta partialMetaPath
  rw [path]
  dsimp only
  rw [text]
  exact (keeps_partialParent site lexical _).bind fun _ =>
    (keeps_writeInside (fun _ => site.partialRoot.lands site.region temp) _ _).bind fun _ =>
    keeps_rename site.region (fun _ => site.partialRoot.lands site.region temp)
      fun _ => site.partialRoot.lands site.region lexical

/-- The verified partial file is a regular file; it takes its place below the stage,
and it cannot take the place of the stage itself. -/
theorem publishPart_wp {q p : Path} {n : Name} (part : Lexical (q ++ [n])) (final : Lexical p)
    (mode : Nat) {w : World} {old : Nat} {data : Bytes}
    (inv : Confined before (Inside stage partials) w.fs ∧ w.fs.node (partials ++ q ++ [n]) = some (.file old data)) :
    wp (publishPart (absText (partialText a ++ (q ++ [n]))) (absText (stageText a ++ p)) mode) host w
      (fun _ w' => Confined before (Inside stage partials) w'.fs)
      (fun _ w' => Confined before (Inside stage partials) w'.fs)
      (fun w' => Confined before (Inside stage partials) w'.fs) := by
  have copy : Keeps host (Intact before (Inside stage partials))
      (do let data ← wrapping "finalize read" (readFile (absText (partialText a ++ (q ++ [n]))))
          wrapping "finalize write" (writeFile (absText (stageText a ++ p)) data mode)
          ignore (remove (absText (partialText a ++ (q ++ [n]))) : Os Unit) : RS Unit) :=
    (keeps_readFile _).mapError.bind fun _ =>
      (site.stageRoot.keeps_writeFile site.region final _ _).mapError.bind fun _ =>
      (keeps_remove fun fs conf => (site.partialRoot.lands site.region part conf).names).ignore
  unfold publishPart
  rw [wp_bind,wp_attempt]
  rcases List.eq_nil_or_concat' p with rfl | ⟨p,m,rfl⟩
  · rw [List.append_nil] at copy ⊢
    exact (site.stageRoot.rename_refused site.partialRoot site.region part inv).ends
      (fun _ _ h => h.elim) (fun _ w₁ conf => copy w₁ conf)
  · refine (keeps_rename site.region (fun _ => site.partialRoot.lands site.region part)
      (fun _ => site.stageRoot.lands site.region final) w inv.1).ends ?_
      (fun _ w₁ conf => copy w₁ conf)
    exact fun _ w₁ conf => (keeps_chmod (fun _ => site.stageRoot.lands site.region final) mode).mapError w₁ conf

theorem keeps_finalize {s : Store} (stays : Stays s.begin.rel)
    (stageRoot : s.stageRoot = absText (stageText a)) (partialRoot : s.partialRoot = absText (partialText a))
    (partPath : s.partPath = partialDataPath (absText (partialText a)) s.begin.rel) :
    Keeps host (Intact before (Inside stage partials)) (finalizeAmbient s) := by
  obtain ⟨q,n,named⟩ := partial_text site stays
  obtain ⟨part,path⟩ := named (ascii ".part") (by decide) (by decide)
  obtain ⟨y,on,above⟩ := site.stageRoot.dir_prefix (by simp [stageText]) stays.lexical
  intro w inv
  unfold finalizeAmbient finalStagePath
  rw [partPath,partialDataPath,path,stageRoot,partialRoot,
    stays.join (plain_stageText site.plain).lexical]
  dsimp only
  rw [above,wp_bind]
  -- the digest check has seen a regular file under the partial name
  unfold expectDigest digestIs
  rw [wp_bind,wp_bind,wp_attempt,hashing,wp_mapError]
  refine (hashFile_wp _).mono ?_ ?_ ?_
  · rintro h w₁ ⟨kept,f,old,data,found,rfl⟩
    rw [wp_pure,wp_require]
    have conf : Confined before (Inside stage partials) w₁.fs := kept ▸ inv
    refine ⟨fun _ => ?_,fun _ => conf⟩
    have there := site.partialRoot.locate_eq site.region part inv found
    subst there
    have file : w₁.fs.node (partials ++ q ++ [n ++ ascii ".part"]) = some (.file old data) := by
      rw [kept]
      exact FS.locate_ok found
    rw [wp_bind,wrapping,wp_mapError]
    refine (((site.stageRoot.keeps_mkdirAll site.region stays.lexical on _).and
      (keeps_mkdirAll_present _ _)) w₁ ⟨conf,file⟩).stops ?_ (fun _ h => h.1)
    intro _ w₂ inv₂
    rw [wp_bind]
    refine (publishPart_wp site part stays.lexical _ inv₂).imp ?_
    exact fun _ w₃ conf => ((keeps_clearPartial site stays).bind fun _ => (keeps_query _).ignore) w₃ conf
  · rintro e w₁ ⟨kept,-⟩
    rw [wp_pure,wp_require]
    have conf : Confined before (Inside stage partials) w₁.fs := kept ▸ inv
    exact ⟨by simp,fun _ => conf⟩
  · rintro w₁ ⟨kept,-⟩
    rwa [Intact,kept]

/-- The store as `openLocalStoreAmbient` returns it. -/
def opened (a : Path) : Store where
  dest := absText a
  stageRoot := absText (stageText a)
  partialRoot := absText (partialText a)

theorem yields_open : Yields host (Intact before (Inside stage partials))
      (openLocalStoreAmbient (absText a)) (Running (opened a) (Inside stage partials) Stays) := by
  unfold openLocalStoreAmbient ensureRecvStage
  rw [recvStageDir_eq site.plain,recvPartialDir_eq site.plain]
  have dest : a <+: stageText a ++ [] := by simp [stageText]
  refine (site.stageRoot.keeps_mkdirAll site.region lexical_nil dest _).mapError.yields.bind fun _ _ => ?_
  refine ((site.stageRoot.keeps_mkdirAll site.region lexical_nil (by simp) _).mapError.bind fun _ =>
    (site.partialRoot.keeps_mkdirAll site.region lexical_nil (by simp) _).mapError).yields.bind fun _ _ => ?_
  exact Yields.pure ⟨rfl,rfl,rfl,by simp,by simp⟩

theorem discipline (lib : Library) (host : Host) :
    Discipline lib host (Confined before (Inside stage partials)) (opened a) (Inside stage partials) Stays
      fun m => ∀ rel ∈ rels m, Stays rel where
  begun b good := good b.rel (by simp [rels])
  preparing s es run good := by
    unfold preparing
    rw [run.fds,run.stageRoot]
    refine keeps_prepareDirs site fun e he isDir => good e.rel ?_
    exact List.mem_map.mpr ⟨e,List.mem_filter.mpr ⟨he,by simpa using isDir⟩,rfl⟩
  staging s fw run good := by
    unfold staging
    rw [run.fds,run.stageRoot]
    exact keeps_stageLegacy site (good fw.rel (by simp [rels]))
  staged s b run _ := by
    unfold staged
    rw [run.fds]
    exact keeps_staged _ b
  clearing s rel run stays := by
    unfold clearing
    rw [run.fds,run.partialRoot]
    exact keeps_clearPartial site stays
  resume s b run stays := by
    unfold resume
    rw [run.fds,run.partialRoot]
    exact keeps_resume site _ stays
  openPart s b start run stays := by
    unfold openPart
    rw [run.fds,run.partialRoot]
    exact yields_openPart site stays start
  write p pos data inside := keeps_pwrite_inside inside pos data
  saveMeta s run stays := by
    unfold saveMeta
    rw [run.fds,run.partialRoot]
    exact (keeps_writePartialMeta site _ stays _).ignore
  finalize s run stays partPath := by
    unfold finalize
    rw [run.fds]
    exact keeps_finalize site stays run.stageRoot run.partialRoot partPath

end containment

/-- For every list of serving processes, each on its own host that may fail or kill
any call, and every sequence of requests they are sent: if no path in them climbs,
whatever lies outside `recv-stage` and `recv-partial` stays as it was. -/
theorem receive_contained (lib : Library) (w : World) (a stage partials : Path)
    (site : Site w.fs a stage partials) (served : List Served)
    (stays : ∀ p ∈ served, ∀ raw ∈ p.requests, ∀ m, decodeMessage raw = .ok m → ∀ rel ∈ rels m, Stays rel)
    (p : Path) (outside : ¬ FS.Below stage p ∧ ¬ FS.Below partials p) :
    (serveAll lib (absText a) none served w).fs.node p = w.fs.node p :=
  (serveAll_keeps (fun _ => yields_open site) (discipline site lib) stays
    (Confined.refl w.fs _)).outside p fun inside => inside.elim outside.1 outside.2

/-! One destination `/d` with its store, and requests with a path that stays or climbs. -/

def sampleLibrary : Library := ⟨PathGrammar.asciiTables,MetaCodec.blank⟩

def sampleStore : World :=
  ⟨FS.build [([ascii "d"],.dir 0o755),([ascii "d",ascii "f"],.file 0o644 (ascii "x")),
    ([ascii "d",metaDirName],.dir 0o700),(stageText [ascii "d"],.dir 0o700),
    (partialText [ascii "d"],.dir 0o700)],0⟩

/-- A whole-file message. -/
def fileRequest (rel data : Bytes) : Bytes :=
  msgFile :: leBytes 2 rel.length ++ rel ++ leBytes 4 0o644 ++ (sha256 data).val ++
    leBytes 4 data.length ++ data

/-- A manifest that names one directory. -/
def directoryRequest (rel : Bytes) : Bytes :=
  msgManifest :: leBytes 4 1 ++ [1] ++ leBytes 2 rel.length ++ rel ++ leBytes 4 0o755 ++ leBytes 8 0

theorem receive_contained_sample :
    (∀ p ∈ [Served.mk quietHost [directoryRequest (ascii "a/b")]], ∀ raw ∈ p.requests, ∀ m,
      decodeMessage raw = .ok m → ∀ rel ∈ rels m, Stays rel) ∧
    (serveAll sampleLibrary (absText [ascii "d"]) none
      [⟨quietHost,[directoryRequest (ascii "a/b")]⟩] sampleStore).fs.node [ascii "d",ascii "f"] =
        some (.file 0o644 (ascii "x")) := by
  have site : Site sampleStore.fs [ascii "d"] (stageText [ascii "d"]) (partialText [ascii "d"]) := by
    refine ⟨by decide,FS.anchored_self (by decide +kernel) ?_,FS.anchored_self (by decide +kernel) ?_,
      fun p _ => FS.no_links (by decide +kernel) p⟩
    · rintro (⟨-,ne⟩ | ⟨le,-⟩)
      · exact ne rfl
      · revert le; decide
    · rintro (⟨le,-⟩ | ⟨-,ne⟩)
      · revert le; decide
      · exact ne rfl
  have stays : ∀ p ∈ [Served.mk quietHost [directoryRequest (ascii "a/b")]], ∀ raw ∈ p.requests, ∀ m,
      decodeMessage raw = .ok m → ∀ rel ∈ rels m, Stays rel := by
    intro p hp raw hraw m decoded
    obtain rfl := List.mem_singleton.mp hp
    obtain rfl := List.mem_singleton.mp hraw
    have only : decodeMessage (directoryRequest (ascii "a/b")) =
        .ok (.manifest [⟨ascii "a/b",.dir,0,0o755,none⟩]) := rfl
    rw [only] at decoded
    cases decoded
    decide
  exact ⟨stays,(receive_contained sampleLibrary sampleStore [ascii "d"] _ _ site _ stays
    [ascii "d",ascii "f"] (by simp [FS.Below,stageText,partialText,metaDirName,ascii])).trans
      (by decide +kernel)⟩

theorem climbing_path_written :
    (decodeMessage (fileRequest (ascii "../../../evil") (ascii "x"))).isOk = true ∧
    sampleStore.fs.node [ascii "evil"] = none ∧
    (serveAll sampleLibrary (ascii "/d") none
      [⟨quietHost,[fileRequest (ascii "../../../evil") (ascii "x")]⟩] sampleStore).fs.node
        [ascii "evil"] = some (.file 0o644 (ascii "x")) := by
  decide +kernel

end Integris.RemoteSync.Ambient
