import Integris.ReceiveContainment

/-! Containment of the receive store on descriptors. Every step that goes down one
checked component stays inside by itself. The two renames pass the peer's path to
the kernel unchanged: a path that starts with a slash leaves the descriptor, any
other shape stays, because the component walk before the rename has refused it if
it climbs. -/
namespace Integris.RemoteSync.Descriptor

open Posix LocalSync Prog PathGrammar Ambient

/-- The store's directories below the conferred one, without links inside. -/
structure Site (before : FS) (dest : Path) : Prop where
  stageDir : before.IsDir (stageText dest)
  partialDir : before.IsDir (partialText dest)
  bare : ∀ p, Inside (stageText dest) (partialText dest) p → ¬ before.IsLink p

section steps

variable {nfc : NFCTables} {host : Host} {before : FS} {Area : Path → Prop} {I : FS → Prop}
  {fd : Path} {n : Name}

theorem keeps_mkdirat (perm : Nat) (names : ∀ fs, Confined before Area fs → Makes fd Area n fs) :
    Keeps host (Intact before Area) (Unix.mkdirat fd n perm) := by
  apply keeps_sys
  intro fs _ fs' inv run
  obtain ⟨d,m,where_,absent,changed⟩ := FS.mkdirat_ok run
  exact inv.change changed (names fs inv d m where_ absent) (by simp [Node.isLink])

theorem keeps_mkdiratOne (perm : Nat) (names : ∀ fs, Confined before Area fs → Makes fd Area n fs) :
    Keeps host (Intact before Area) (mkdiratOne fd n perm) := by
  refine (keeps_mkdirat perm names).attempt.bind fun r => ?_
  cases r with
  | ok _ => exact Keeps.pure _
  | error e => exact Keeps.require _

theorem makes_name (under : Under Area fd) (segment : Segment n) (fs : FS) : Makes fd Area n fs := by
  intro d m where_ _
  cases place_name segment where_
  exact under [n] (by simp)

theorem yields_enterComponent (under : Under Area fd) (nonempty : n ≠ []) (isDot : n ≠ dot)
    (plain : slash ∉ n) (perm : Nat) :
    Yields host (Intact before Area) (enterComponent nfc perm fd n) (fun f => f = fd ++ [n] ∧ n ≠ dotdot) := by
  intro w inv
  unfold enterComponent
  rw [wp_bind,wp_require]
  refine ⟨fun isUp => ?_,fun _ => inv⟩
  rw [wp_bind,wp_require]
  refine ⟨fun _ => ?_,fun _ => inv⟩
  split
  · exact inv
  · have segment : Segment n := ⟨nonempty,isDot,isUp,plain⟩
    refine ((keeps_mkdiratOne perm fun fs _ => makes_name under segment fs).mapError.yields.bind
      fun _ _ => (yields_openDirectory segment).mapError) w inv |>.imp ?_
    exact fun _ _ h => ⟨h.1,h.2,isUp⟩

theorem mem_splitOn_plain {s : Bytes} (h : n ∈ s.splitOn slash) : slash ∉ n := by
  by_cases empty : n = []
  · simp [empty]
  · exact (mem_components (s := s) (List.mem_filter.mpr ⟨h,by simpa using empty⟩)).2

variable {comps : List Name} {flags : FS.OpenFlags} {rel : Bytes}

theorem yields_enterComponents (under : Under Area fd) (plain : ∀ c ∈ comps, slash ∉ c) (perm : Nat) :
    Yields host (Intact before Area) (enterComponents nfc perm fd comps)
      (fun f => (∃ q, f = fd ++ q) ∧ dotdot ∉ comps) := by
  induction comps generalizing fd with
  | nil => exact Yields.pure ⟨⟨[],by simp⟩,by simp⟩
  | cons c comps ih =>
    have later : ∀ c ∈ comps, slash ∉ c := fun c hc => plain c (List.mem_cons_of_mem _ hc)
    unfold enterComponents
    split
    · next trivial =>
      intro w inv
      refine (ih under later w inv).imp (fun f w' h => ⟨h.1,h.2.1,?_⟩)
      have other : dotdot ≠ c := by rcases trivial with rfl | rfl <;> decide
      simp [other,h.2.2]
    · next real =>
      rw [not_or] at real
      refine (yields_enterComponent under real.1 real.2 (plain c List.mem_cons_self) perm).bind ?_
      rintro _ ⟨rfl,isUp⟩ w inv
      refine (ih (under.append [c]) later w inv).imp ?_
      rintro _ w' ⟨conf,⟨q,rfl⟩,rest⟩
      exact ⟨conf,⟨c :: q,by simp⟩,by simp [Ne.symm isUp,rest]⟩

theorem yields_mkdiratAll (under : Under Area fd) (rel : Bytes) (perm : Nat) :
    Yields host (Intact before Area) (mkdiratAll nfc fd rel perm)
      (fun f => (∃ q, f = fd ++ q) ∧ dotdot ∉ rel.splitOn slash) := by
  refine yields_dup.mapError.bind ?_
  rintro _ rfl
  split
  · next trivial =>
    refine Yields.pure ⟨⟨[],by simp⟩,?_⟩
    rcases trivial with rfl | rfl <;> decide
  · exact yields_enterComponents under (fun _ => mem_splitOn_plain) perm

/-- Going to the parent of a relative path also checks that the path does not climb. -/
theorem yields_parentFD (under : Under Area fd) (rel : Bytes) (perm : Nat) :
    Yields host (Intact before Area) (parentFD nfc fd rel perm)
      (fun f => (∃ q, f = fd ++ q) ∧ (isRooted rel = false → Stays (upToSlash rel))) := by
  unfold parentFD
  split
  · intro w inv
    refine (yields_mkdiratAll under (dir rel) perm w inv).imp ?_
    exact fun f w' h => ⟨h.1,h.2.1,fun rooted => stays_of_dir rooted fun _ => h.2.2⟩
  · next here =>
    exact Yields.pure ⟨⟨[],by simp⟩,fun rooted => stays_of_dir rooted fun other => absurd other here⟩

theorem yields_existingParent (rel : Bytes) :
    Yields host (fun w => I w.fs) (existingParent fd rel) (fun f => ∃ q, f = fd ++ q) := by
  unfold existingParent
  split
  · exact Yields.pure ⟨[],by simp⟩
  · refine yields_dup.bind ?_
    rintro _ rfl
    exact fun w inv => (yields_stepInto (fun _ => mem_splitOn_plain) w inv).imp fun _ _ h => ⟨h.1,_,h.2⟩

theorem keeps_unlinkatPath (under : Under Area fd) (rel : Bytes) :
    Keeps host (Intact before Area) (unlinkatPath fd rel) := by
  refine (yields_existingParent rel).bindKeeps ?_
  rintro _ ⟨q,rfl⟩
  refine keeps_sys fun fs _ fs' inv run => ?_
  obtain ⟨d,n,x,where_,-,-,changed⟩ := FS.unlinkat_ok run
  exact inv.change changed (names_base (under.append q) rel d n where_) (by simp)

theorem keeps_clearPartialAt (under : Under Area fd) (rel : Bytes) :
    Keeps host (Intact before Area) (clearPartialAt fd rel) :=
  (keeps_unlinkatPath under _).ignore.bind fun _ => (keeps_unlinkatPath under _).ignore

theorem keeps_writeAndClose {f : Path} (inside : Area f) (data : Bytes) :
    Keeps host (Intact before Area) (writeAndClose f data) :=
  (keeps_pwrite_inside inside 0 data).attempt.bind fun _ => (keeps_query _).attempt.bind fun _ =>
    (Keeps.ofExcept _).bind fun _ => Keeps.ofExcept _

theorem isRooted_append (rooted : isRooted rel = false) {t : Bytes} (plain : slash ∉ t) : isRooted (rel ++ t) = false := by
  cases rel with
  | nil => exact not_isRooted plain
  | cons c rel => exact rooted

theorem keeps_prepareDirsAt (under : Under Area fd) (es : List Entry) :
    Keeps host (Intact before Area) (prepareDirsAt nfc fd es) := by
  induction es with
  | nil => exact Keeps.pure _
  | cons e es ih =>
    exact (Keeps.when ((yields_mkdiratAll under e.rel _).keeps.mapError.bind fun _ => Keeps.pure _)).bind fun _ => ih

theorem keeps_fstatatRegular (rel : Bytes) : Keeps host (fun w => I w.fs) (fstatatRegular fd rel) :=
  (keeps_query _).bind fun _ => (Keeps.require _).bind fun _ => Keeps.pure _

section inside

variable (region : Region before Area) (under : Under Area fd)

include region under

/-- What `openatCreate` may be asked for: to create, or not to change anything. -/
theorem yields_openBase (rel : Bytes)
    (harmless : flags.create = true ∨ flags.trunc = false) (mode : Nat) :
    Yields host (Intact before Area) (Unix.openat fd (base rel) flags mode)
      (fun f => flags.create = true → Area f) := by
  intro w inv
  refine wp_sys_kept inv ?_
  intro f fs run
  have cases := base_cases rel
  rw [← or_assoc,← or_assoc,or_assoc (a := base rel = dot)] at cases
  rcases cases with nowhere | segment
  · rcases FS.openat_ok run with ⟨d,n,-,where_,-⟩ | ⟨x,-,-,effect,how⟩
    · exact absurd where_ (place_nowhere nowhere)
    · rcases how with ⟨create,pl,where_,-⟩ | ⟨create,-⟩
      · -- these texts lead to a directory itself, which is never created
        exfalso
        rw [FS.openat,if_pos create,FS.openCreate] at run
        split at run
        · cases run
        · cases pl with
          | entry d n => exact place_nowhere nowhere where_
          | top d =>
            rw [where_] at run
            cases run
      · refine ⟨?_,fun h => by simp [create] at h⟩
        rcases effect with same | ⟨trunc,-⟩
        · exact same ▸ inv
        · simp [create,trunc] at harmless
  · obtain ⟨conf,inside⟩ := inv.opened (lands_name region under segment inv) run
    exact ⟨conf,fun _ => inside⟩

theorem yields_openatCreate (rel : Bytes)
    (harmless : flags.create = true ∨ flags.trunc = false) (mode : Nat) :
    Yields host (Intact before Area) (openatCreate nfc fd rel flags mode)
      (fun f => (flags.create = true → Area f) ∧ (isRooted rel = false → Stays (upToSlash rel))) := by
  refine (yields_parentFD under rel _).bind ?_
  rintro _ ⟨⟨q,rfl⟩,stays⟩ w inv
  exact ((yields_openBase region (under.append q) rel harmless mode).mapError w inv).imp (fun f w' h => ⟨h.1,h.2,stays⟩)

theorem yields_openatRead (rel : Bytes) :
    Yields host (Intact before Area) (openatRead nfc fd rel) (fun _ => isRooted rel = false → Stays (upToSlash rel)) := by
  intro w inv
  exact (yields_openatCreate region under rel (.inr rfl) 0 w inv).imp (fun f w' h => ⟨h.1,h.2.2⟩)

theorem yields_hashAt (rel : Bytes) :
    Yields host (Intact before Area) (hashAt nfc fd rel) (fun _ => isRooted rel = false → Stays (upToSlash rel)) := by
  refine (yields_openatRead region under rel).bind fun f stays w inv => ?_
  exact ((keeps_hashOpenedFile f).mapError w inv).imp (fun _ _ h => ⟨h,stays⟩)

theorem keeps_fchmodatPath (segment : Segment (base rel)) (mode : Nat) :
    Keeps host (Intact before Area) (fchmodatPath fd rel mode) := by
  refine (yields_existingParent rel).bindKeeps ?_
  rintro _ ⟨q,rfl⟩
  exact keeps_sys fun fs _ fs' inv run => inv.chmodded (lands_name region (under.append q) segment inv) run

/-- Two relative paths that do not climb before their last element: the rename stays
inside, and the new name is the last element of its path. -/
theorem yields_renameat {fd' : Path} (to_ : Under Area fd') {old new : Bytes} (relOld : isRooted old = false)
    (relNew : isRooted new = false) (staysOld : Stays (upToSlash old)) (staysNew : Stays (upToSlash new)) :
    Yields host (Intact before Area) (Unix.renameat fd old fd' new) (fun _ => Segment (base new)) := by
  intro w inv
  refine wp_sys_kept inv ?_
  intro _ fs run
  have there : Names fd Area old w.fs := fun d n where_ => (place_raw region under inv relOld staysOld where_).1
  have here : Names fd' Area new w.fs := fun d n where_ => (place_raw region to_ inv relNew staysNew where_).1
  refine ⟨inv.renamed region there here run,?_⟩
  obtain ⟨_,_,d,n,_,-,where_,-⟩ := FS.renameat_ok run
  obtain ⟨-,named,segment⟩ := place_raw region to_ inv relNew staysNew where_
  exact named ▸ segment

theorem keeps_writePartialMetaAt (json : MetaCodec) (rooted : isRooted rel = false) (m : PartialMeta) :
    Keeps host (Intact before Area) (writePartialMetaAt nfc json fd rel m) := by
  have suffix : slash ∉ ascii ".meta.json" := by decide
  have temp : slash ∉ ascii ".tmp" := by decide
  have relMeta := isRooted_append rooted suffix
  have relTemp := isRooted_append relMeta temp
  refine (yields_openatCreate region under _ (.inl rfl) _).bindKeeps fun f opened => ?_
  have stays := opened.2 relTemp
  rw [upToSlash_suffix temp] at stays
  refine (keeps_writeAndClose (opened.1 rfl) _).mapError.bind fun _ => ?_
  exact Keeps.onError (yields_renameat region under under relTemp relMeta
    (by rwa [upToSlash_suffix temp]) stays).keeps.mapError (keeps_unlinkatPath under _)

theorem keeps_loadPartialMetaAt (json : MetaCodec) (rel : Bytes) :
    Keeps host (Intact before Area) (loadPartialMetaAt nfc json fd rel) := by
  refine (yields_openatRead region under _).keeps.attempt.bind fun r => ?_
  cases r with
  | error e =>
    dsimp only
    split
    · exact Keeps.pure _
    · exact Keeps.throw _
  | ok f =>
    refine (keeps_query _).mapError.bind fun raw => ?_
    split
    · exact Keeps.pure _
    · exact Keeps.throw _

theorem keeps_stageLegacyAt (fw : FileWire) : Keeps host (Intact before Area) (stageLegacyAt nfc fd fw) := by
  refine (yields_parentFD under fw.rel _).mapError.bindKeeps ?_
  rintro _ ⟨⟨q,rfl⟩,-⟩
  refine (yields_openBase region (under.append q) fw.rel (.inl rfl) _).mapError.bindKeeps fun f inside => ?_
  exact (keeps_writeAndClose (inside rfl) _).mapError.bind fun _ =>
    (keeps_digestIs _ (yields_hashAt region under _).keeps).bind fun _ => Keeps.require _

theorem keeps_stagedAt (b : FileBegin) : Keeps host (Intact before Area) (stagedAt nfc fd b) := by
  refine (keeps_fstatatRegular _).attempt.bind fun r => ?_
  cases r with
  | error e => exact Keeps.pure _
  | ok x =>
    dsimp only
    split
    · exact keeps_digestIs _ (yields_hashAt region under _).keeps
    · exact Keeps.pure _

theorem keeps_resumeAt (json : MetaCodec) (b : FileBegin) : Keeps host (Intact before Area) (resumeAt nfc json fd b) :=
  keeps_resumeFrom (keeps_loadPartialMetaAt region under json _) (keeps_fstatatRegular _)
    ((keeps_clearPartialAt under _).bind fun _ => Keeps.pure _) b

theorem yields_openPartAt (b : FileBegin) (start : UInt64) :
    Yields host (Intact before Area) (openPartAt nfc fd b start) Area := by
  intro w inv
  exact ((yields_openatCreate region under _ (.inl rfl) _).mapError w inv).imp (fun f w' h => ⟨h.1,h.2.1 rfl⟩)

end inside

variable {fds : Descriptors}

section

variable (region : Region before Area) (stage : Under Area fds.stage) (partials : Under Area fds.partials)
include region stage partials

theorem keeps_copyPart (partPath rel : Bytes) (mode : Nat) :
    Keeps host (Intact before Area) (copyPart nfc fds partPath rel mode) := by
  refine (yields_openatRead region partials partPath).keeps.mapError.bind fun src =>
    (keeps_query _).mapError.bind fun data => ?_
  refine (yields_openatCreate region stage rel (.inl rfl) mode).mapError.bindKeeps fun dst opened => ?_
  exact (keeps_writeAndClose (opened.1 rfl) data).mapError.bind fun _ => (keeps_unlinkatPath partials partPath).ignore

theorem keeps_publishPartAt {partPath rel : Bytes} (relPart : isRooted partPath = false)
    (rooted : isRooted rel = false) (staysPart : Stays (upToSlash partPath))
    (stays : Stays (upToSlash rel)) (mode : Nat) :
    Keeps host (Intact before Area) (publishPartAt nfc fds partPath rel mode) := by
  intro w inv
  unfold publishPartAt
  rw [wp_bind,wp_attempt]
  refine (yields_renameat region partials stage relPart rooted staysPart stays w inv).ends ?_ ?_
  · exact fun _ w₁ h => (keeps_fchmodatPath region stage h.2 mode).ignore w₁ h.1
  · exact fun _ w₁ conf => keeps_copyPart region stage partials partPath rel mode w₁ conf

theorem keeps_finalizeAt {s : Store} (rooted : isRooted s.begin.rel = false)
    (partPath : s.partPath = s.begin.rel ++ ascii ".part") :
    Keeps host (Intact before Area) (finalizeAt nfc fds s) := by
  have plain : slash ∉ ascii ".part" := by decide
  have relPart : isRooted s.partPath = false := partPath ▸ isRooted_append rooted plain
  refine ((keeps_digestIs _ (yields_hashAt region partials s.partPath).keeps).bind fun _ =>
    Keeps.require _).bind fun _ => ?_
  refine (yields_parentFD stage s.begin.rel _).mapError.bindKeeps fun _ checked => ?_
  have stays := checked.2 rooted
  have staysPart : Stays (upToSlash s.partPath) := by rwa [partPath,upToSlash_suffix plain]
  exact (keeps_publishPartAt region stage partials relPart rooted staysPart stays _).bind fun _ =>
    (keeps_clearPartialAt partials _).bind fun _ => (keeps_query _).ignore

end

end steps

section store

variable {lib : Library} {host : Host} {before : FS} {dest : Path}

/-- The store as `openLocalStoreAt` returns it with a descriptor. -/
def opened (destination : Bytes) (dest : Path) : Store where
  dest := destination
  stageRoot := recvStageDir destination
  partialRoot := recvPartialDir destination
  fds := some ⟨dest,stageText dest,partialText dest⟩

theorem under_stage : Under (Inside (stageText dest) (partialText dest)) (stageText dest) :=
  fun _ more => .inl (FS.below_append more)

theorem under_partial : Under (Inside (stageText dest) (partialText dest)) (partialText dest) :=
  fun _ more => .inr (FS.below_append more)

theorem Site.region (site : Site before dest) : Region before (Inside (stageText dest) (partialText dest)) :=
  ⟨inside_closed,site.bare⟩

theorem not_inside_stage : ¬ Inside (stageText dest) (partialText dest) (stageText dest) := by
  rintro (⟨-,ne⟩ | ⟨le,-⟩)
  · exact ne rfl
  · have same := (List.prefix_append_right_inj dest).mp le
    revert same
    decide

theorem not_inside_partial : ¬ Inside (stageText dest) (partialText dest) (partialText dest) := by
  rintro (⟨le,-⟩ | ⟨-,ne⟩)
  · have same := (List.prefix_append_right_inj dest).mp le
    revert same
    decide
  · exact ne rfl

theorem Site.stands {fs : FS} (site : Site before dest)
    (conf : Confined before (Inside (stageText dest) (partialText dest)) fs) :
    fs.IsDir (stageText dest) ∧ fs.IsDir (partialText dest) := by
  rw [FS.IsDir,FS.IsDir,conf.outside _ not_inside_stage,conf.outside _ not_inside_partial]
  exact ⟨site.stageDir,site.partialDir⟩

theorem makes_present {Area : Path → Prop} {fs : FS} {fd : Path} {n : Name} (segment : Segment n)
    (there : fs.IsDir (fd ++ [n])) : Makes fd Area n fs := by
  intro d m where_ absent
  cases place_name segment where_
  exact absurd absent there.present

theorem yields_ensureRecvStageAt (site : Site before dest) :
    Yields host (Intact before (Inside (stageText dest) (partialText dest)))
      (ensureRecvStageAt dest) (· = ⟨dest,stageText dest,partialText dest⟩) := by
  have metaName : Segment metaDirName := (by decide : ValidName metaDirName).segment
  have stageName : Segment (ascii "recv-stage") := (by decide : ValidName (ascii "recv-stage")).segment
  have partialName : Segment (ascii "recv-partial") := (by decide : ValidName (ascii "recv-partial")).segment
  have stageShape : stageText dest = dest ++ [metaDirName] ++ [ascii "recv-stage"] := by simp [stageText]
  have partialShape : partialText dest = dest ++ [metaDirName] ++ [ascii "recv-partial"] := by simp [partialText]
  refine (keeps_mkdiratOne _ fun fs conf => makes_present metaName ?_).mapError.yields.bind fun _ _ => ?_
  · exact (site.stands conf).1.above (by rw [stageShape]; exact List.prefix_append _ _)
  refine (yields_openDirectory metaName).mapError.bind ?_
  rintro _ rfl
  refine (keeps_mkdiratOne _ fun fs conf => makes_present stageName ?_).mapError.yields.bind fun _ _ => ?_
  · exact stageShape ▸ (site.stands conf).1
  refine (keeps_mkdiratOne _ fun fs conf => makes_present partialName ?_).mapError.yields.bind fun _ _ => ?_
  · exact partialShape ▸ (site.stands conf).2
  refine (yields_openDirectory stageName).mapError.bind ?_
  rintro _ rfl
  refine (yields_openDirectory partialName).mapError.bind ?_
  rintro _ rfl
  exact Yields.pure (by rw [stageShape,partialShape])

theorem yields_open (site : Site before dest) (destination : Bytes) :
    Yields host (Intact before (Inside (stageText dest) (partialText dest))) (openLocalStoreAt destination (some dest))
      (Running (opened destination dest) (Inside (stageText dest) (partialText dest)) fun rel => isRooted rel = false) := by
  refine (yields_ensureRecvStageAt site).bind ?_
  rintro _ rfl
  exact Yields.pure ⟨rfl,rfl,rfl,by simp,by simp⟩

theorem discipline (site : Site before dest) (destination : Bytes) (lib : Library) (host : Host) :
    Discipline lib host (Confined before (Inside (stageText dest) (partialText dest)))
      (opened destination dest) (Inside (stageText dest) (partialText dest))
      (fun rel => isRooted rel = false) fun m => ∀ b, m = .begin b → isRooted b.rel = false where
  begun b good := good b rfl
  preparing s es run _ := by
    unfold preparing
    rw [run.fds]
    exact keeps_prepareDirsAt under_stage es
  staging s fw run _ := by
    unfold staging
    rw [run.fds]
    exact keeps_stageLegacyAt site.region under_stage fw
  staged s b run _ := by
    unfold staged
    rw [run.fds]
    exact keeps_stagedAt site.region under_stage b
  clearing s rel run _ := by
    unfold clearing
    rw [run.fds]
    exact keeps_clearPartialAt under_partial rel
  resume s b run _ := by
    unfold resume
    rw [run.fds]
    exact keeps_resumeAt site.region under_partial _ b
  openPart s b start run _ := by
    unfold openPart
    rw [run.fds]
    exact yields_openPartAt site.region under_partial b start
  write p pos data inside := keeps_pwrite_inside inside pos data
  saveMeta s run rooted := by
    unfold saveMeta
    rw [run.fds]
    exact (keeps_writePartialMetaAt site.region under_partial _ rooted _).ignore
  finalize s run rooted partPath := by
    unfold finalize
    rw [run.fds]
    exact keeps_finalizeAt site.region under_stage under_partial rooted partPath

end store

/-- For every list of serving processes on a conferred directory, each on its own host,
and every sequence of requests: if no file is begun under a path that starts with a
slash, whatever lies outside `recv-stage` and `recv-partial` stays as it was. -/
theorem receive_contained_at (lib : Library) (w : World) (destination : Bytes) (dest : Path)
    (site : Site w.fs dest) (served : List Served)
    (relative : ∀ p ∈ served, ∀ raw ∈ p.requests, ∀ b, decodeMessage raw = .ok (.begin b) →
      isRooted b.rel = false)
    (p : Path) (outside : ¬ FS.Below (stageText dest) p ∧ ¬ FS.Below (partialText dest) p) :
    (serveAll lib destination (some dest) served w).fs.node p = w.fs.node p := by
  refine (serveAll_keeps (fun _ => yields_open site destination) (discipline site destination lib) ?_
    (Confined.refl w.fs _)).outside p fun inside => inside.elim outside.1 outside.2
  intro q hq raw hraw m decoded b begun
  exact relative q hq raw hraw b (begun ▸ decoded)

/-! An empty file sent under a relative and under a rooted path. -/

def beginRequest (rel : Bytes) : Bytes :=
  msgFileBegin :: leBytes 2 rel.length ++ rel ++ leBytes 4 0o644 ++ (sha256 []).val ++ leBytes 8 0

def endRequest (rel : Bytes) : Bytes :=
  msgFileEnd :: leBytes 2 rel.length ++ rel ++ (sha256 []).val

/-- The sample store beside somebody else's `/out/f.part`. -/
def sharedStore : World :=
  ⟨FS.build [([ascii "d"],.dir 0o755),([ascii "d",metaDirName],.dir 0o700),
    (stageText [ascii "d"],.dir 0o700),(partialText [ascii "d"],.dir 0o700),
    ([ascii "out"],.dir 0o755),([ascii "out",ascii "f.part"],.file 0o600 (ascii "x"))],0⟩

theorem receive_contained_at_sample :
    (∀ p ∈ [Served.mk quietHost [beginRequest (ascii "out/f"),endRequest (ascii "out/f")]],
      ∀ raw ∈ p.requests, ∀ b, decodeMessage raw = .ok (.begin b) → isRooted b.rel = false) ∧
    (serveAll sampleLibrary (ascii "/d") (some [ascii "d"])
      [⟨quietHost,[beginRequest (ascii "out/f"),endRequest (ascii "out/f")]⟩] sharedStore).fs.node
        [ascii "out",ascii "f.part"] = some (.file 0o600 (ascii "x")) := by
  have site : Site sharedStore.fs [ascii "d"] :=
    ⟨by decide +kernel,by decide +kernel,fun p _ => FS.no_links (by decide +kernel) p⟩
  have relative : ∀ p ∈ [Served.mk quietHost [beginRequest (ascii "out/f"),endRequest (ascii "out/f")]],
      ∀ raw ∈ p.requests, ∀ b, decodeMessage raw = .ok (.begin b) → isRooted b.rel = false := by
    intro p hp raw hraw b decoded
    obtain rfl := List.mem_singleton.mp hp
    have begun : decodeFileBegin (beginRequest (ascii "out/f")) = .ok ⟨ascii "out/f",0o644,sha256 [],0⟩ := by
      decide +kernel
    have ended : decodeFileEnd (endRequest (ascii "out/f")) = .ok ⟨ascii "out/f",sha256 []⟩ := by decide +kernel
    rcases List.mem_pair.mp hraw with rfl | rfl
    · cases (congrArg (Except.map Message.begin) begun).symm.trans decoded
      rfl
    · cases (congrArg (Except.map Message.finish) ended).symm.trans decoded
  exact ⟨relative,(receive_contained_at sampleLibrary sharedStore (ascii "/d") [ascii "d"] site _ relative
    [ascii "out",ascii "f.part"]
      (by simp [FS.Below,stageText,partialText,metaDirName,ascii])).trans (by decide +kernel)⟩

/-- The final rename ignores the descriptors for a rooted path: the file it moves and the
name it takes are somebody else's. -/
theorem rooted_path_renamed :
    sharedStore.fs.node [ascii "out",ascii "f"] = none ∧
    (serveAll sampleLibrary (ascii "/d") (some [ascii "d"])
      [⟨quietHost,[beginRequest (ascii "/out/f"),endRequest (ascii "/out/f")]⟩] sharedStore).fs.node
        [ascii "out",ascii "f.part"] = none ∧
    (serveAll sampleLibrary (ascii "/d") (some [ascii "d"])
      [⟨quietHost,[beginRequest (ascii "/out/f"),endRequest (ascii "/out/f")]⟩] sharedStore).fs.node
        [ascii "out",ascii "f"] = some (.file 0o600 (ascii "x")) := by
  decide +kernel

end Integris.RemoteSync.Descriptor
