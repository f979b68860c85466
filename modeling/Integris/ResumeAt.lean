import Integris.DescriptorReach

/-! The store on descriptors, with room for a file: every step of a transfer goes through
and does to the file's names what it is for. -/
namespace Integris.RemoteSync.Descriptor

open Posix LocalSync Prog PathGrammar Ambient

theorem twoDirs (dest : Path) : TwoDirs (stageText dest) (partialText dest) := by
  constructor <;>
  · intro le
    have same := (List.prefix_append_right_inj dest).mp le
    revert same
    decide

/-- There is room for the file `n` below the directory `q` of the source tree. -/
abbrev Room (before : FS) (dest q : Path) (n : Name) : FS → Prop :=
  Berth before (stageText dest) (partialText dest) q n

section keeping

variable {host : Host} {fd q : Path} {n : Name}

variable {I : FS → Prop}

theorem yields_existingParent_names (plain : Plain (q ++ [n])) :
    Yields host (fun w => I w.fs) (existingParent fd (relText (q ++ [n]))) (· = fd ++ q) := by
  have front : Plain q := (plain_append.mp plain).1
  rw [existingParent,dir_relText plain.lexical]
  by_cases h : q = []
  · subst h
    rw [if_pos rfl,if_pos (.inl rfl)]
    exact Yields.pure (List.append_nil fd).symm
  · have text : relText q ≠ [] := relText_ne_nil front.lexical h
    rw [if_neg h,if_neg (not_or.mpr ⟨relText_ne_dot front.lexical,text⟩),openDirAt,splitOn_relText front.lexical h]
    refine yields_dup.bind ?_
    rintro _ rfl
    exact yields_stepInto_plain front

theorem keeps_unlinkatPath_name {before : FS} {Area : Path → Prop} (plain : Plain (q ++ [n]))
    (mine : Area (fd ++ q ++ [n])) :
    Keeps host (Intact before Area) (unlinkatPath fd (relText (q ++ [n]))) := by
  refine (yields_existingParent_names plain).bindKeeps ?_
  rintro _ rfl
  rw [base_relText plain.lexical]
  refine keeps_sys fun fs _ fs' inv run => ?_
  obtain ⟨d,m,x,where_,-,-,changed⟩ := FS.unlinkat_ok run
  cases place_name (plain n (by simp)).segment where_
  exact inv.change changed mine (by simp)

theorem survives_writeAndClose (quiet : host.Quiet) (f : Path) (data : Bytes) : Survives host (writeAndClose f data) := by
  have given (r : Except Errno Unit) : Survives host (ofExcept r : Os Unit) := by
    cases r with
    | ok _ => exact .pure _
    | error _ => exact .throw _
  have closed : Survives host (close f) := .query quiet _ _
  exact (Survives.pwrite quiet f 0 data).attempt.bind fun wrote => closed.attempt.bind fun shut =>
    (given wrote).bind fun _ => given shut

theorem survives_unlinkatPath (quiet : host.Quiet) (s : Bytes) : Survives host (unlinkatPath fd s) := by
  have into (comps : List Name) (cur : Path) : Survives host (stepInto cur comps) := by
    induction comps generalizing cur with
    | nil => exact .pure _
    | cons m comps ih =>
      unfold stepInto
      split
      · exact ih cur
      · exact (Survives.require _ _).bind fun _ =>
          (Survives.sys quiet _ _ : Survives host (openDirectory cur m)).bind fun next => ih next
  have parent : Survives host (existingParent fd s) := by
    unfold existingParent
    split
    · exact .pure _
    · exact (Survives.query quiet _ _ : Survives host (Unix.dup fd)).bind fun cur => into _ cur
  exact parent.bind fun pfd => (Survives.sys quiet _ _ : Survives host (Unix.unlinkat pfd (base s)))

end keeping

/-! The record, once its directory is open. -/

section record

variable {nfc : NFCTables} {host : Host} {partials q : Path} {n : Name} (json : MetaCodec)

def writeDraft (partials q : Path) (n : Name) (m : PartialMeta) (pfd : Path) : RS Unit := do
  let f ← bare (Unix.openat pfd (draft n) { write := true, create := true, trunc := true, nofollow := true } 0o600)
  bare (writeAndClose f (json.marshal m))
  onError (bare (Unix.renameat partials (relText (q ++ [draft n])) partials (relText (q ++ [record n]))))
    (unlinkatPath partials (relText (q ++ [draft n])))

variable {json : MetaCodec}

theorem writePartialMetaAt_eq {m : PartialMeta} (plain : Plain (q ++ [n])) :
    writePartialMetaAt nfc json partials (relText (q ++ [n])) m =
      parentFD nfc partials (relText (q ++ [draft n])) 0o700 >>= writeDraft json partials q n m := by
  have tmp : relText (q ++ [record n]) ++ ascii ".tmp" = relText (q ++ [draft n]) := relText_suffix _ _ _
  unfold writePartialMetaAt openatCreate
  rw [relText_record]
  dsimp only
  rw [tmp,base_relText (plain_draft plain).lexical,bind_bind]
  rfl

theorem keeps_writeDraft {fs : FS} {stage : Path} (region : Region fs (Records partials q n))
    (two : TwoDirs stage partials) (plain : Plain (q ++ [n])) (dir : fs.IsDir (partials ++ q)) (m : PartialMeta) :
    Keeps host (Intact fs (Records partials q n)) (writeDraft json partials q n m (partials ++ q)) := by
  have mine : Records partials q n (partials ++ q ++ [draft n]) := .inr (List.prefix_refl _)
  have segment : Segment (draft n) := (validName_draft (plain n (by simp))).segment
  have names {k : Name} (valid : Plain (q ++ [k])) (mine : Records partials q n (partials ++ q ++ [k])) (fs' : FS)
      (conf : Confined fs (Records partials q n) fs') :
      Names partials (Records partials q n) (relText (q ++ [k])) fs' := by
    have there : fs'.IsDir (partials ++ q) := by
      rw [FS.IsDir,conf.outside _ fun small => small.off two (.inl ⟨q,List.prefix_refl _,.inr rfl⟩)]
      exact dir
    intro d m where_
    rw [(stands_relText valid there (region.unlinked conf mine)).place] at where_
    cases where_
    exact mine
  have opens : Yields host (Intact fs (Records partials q n)) (Unix.openat (partials ++ q) (draft n)
      { write := true, create := true, trunc := true, nofollow := true } 0o600) (Records partials q n) := by
    intro w inv
    refine wp_sys_kept inv fun f fs' run => inv.opened ?_ run
    have last := region.unlinked inv mine
    constructor
    · exact fun follow pl where_ => ⟨_,_,place_segment segment where_ fun _ => last,mine⟩
    · intro follow p x where_
      rw [locate_segment segment where_ fun _ => last]
      exact mine
  have moves : Keeps host (Intact fs (Records partials q n)) (Unix.renameat partials
      (relText (q ++ [draft n])) partials (relText (q ++ [record n]))) :=
    keeps_sys fun fs' _ _ inv run => inv.renamed region (names (plain_draft plain) mine fs' inv)
      (names (plain_record plain) (.inl (List.prefix_refl _)) fs' inv) run
  refine opens.mapError.bindKeeps fun f small => (keeps_writeAndClose small _).mapError.bind fun _ => ?_
  exact Keeps.onError moves.mapError (keeps_unlinkatPath_name (plain_draft plain) mine)

theorem survives_writeDraft (quiet : host.Quiet) (partials q : Path) (n : Name) (m : PartialMeta)
    (pfd : Path) : Survives host (writeDraft json partials q n m pfd) := by
  have opens (f : Path) (s : Bytes) (flags : FS.OpenFlags) (mode : Nat) :
      Survives host (Unix.openat f s flags mode) := .sys quiet _ _
  have moves (f g : Path) (s t : Bytes) : Survives host (Unix.renameat f s g t) := .sys quiet _ _
  exact ((opens _ _ _ _).mapError _).bind fun f =>
    ((survives_writeAndClose quiet f _).mapError _).bind fun _ =>
      ((moves _ _ _ _).mapError _).onError (survives_unlinkatPath quiet _)

end record

section steps

variable {nfc : NFCTables} {host : Host} {w : World} {before : FS} {dest q : Path} {n : Name} {b : FileBegin}
  (site : Site before dest) (plain : Plain (q ++ [n])) (accepted : ∀ m ∈ q, Accepted nfc m) (quiet : host.Quiet)

include plain quiet

theorem clearPartialAt_run {partials : Path} (here : w.fs.IsDir partials) (way : ∀ r, r <+: q → w.fs.Free (partials ++ r)) :
    ∃ fs₁ w', clearPartialAt partials (relText (q ++ [n])) host w = (.ok (),w') ∧
      Erases w.fs fs₁ (partials ++ q ++ [record n]) ∧ Erases fs₁ w'.fs (partials ++ q ++ [part n]) := by
  obtain ⟨w₁,first,how₁⟩ := unlinkatPath_erases quiet here way (plain_record plain)
  have same (r : Path) (le : r <+: q) : w₁.fs.node (partials ++ r) = w.fs.node (partials ++ r) :=
    (Erases.confined how₁).outside _ (prefix_ne le _)
  have here₁ : w₁.fs.IsDir partials := by
    have := same [] List.nil_prefix
    rw [List.append_nil] at this
    rwa [FS.IsDir,this]
  have way₁ : ∀ r, r <+: q → w₁.fs.Free (partials ++ r) := by
    intro r le
    rw [FS.Free,FS.IsDir,same r le]
    exact way r le
  obtain ⟨w₂,second,how₂⟩ := unlinkatPath_erases quiet here₁ way₁ (plain_part plain)
  refine ⟨w₁.fs,w₂,?_,how₁,how₂⟩
  rw [clearPartialAt,relText_record,relText_part]
  exact (bind_run first).trans second

include site

theorem startFreshAt_run (h : Room before dest q n w.fs) :
    ∃ w', startFreshAt (partialText dest) (relText (q ++ [n])) host w = (.ok 0,w') ∧ Room before dest q n w'.fs := by
  obtain ⟨_,w',cleared,first,second⟩ := clearPartialAt_run plain quiet (site.stands h.conf).2 h.partWay
  refine ⟨w',?_,h.cleared (twoDirs dest) first second⟩
  rw [startFreshAt,bind_run cleared]
  rfl

include accepted

theorem stagedAt_run (h : Room before dest q n w.fs) (named : b.rel = relText (q ++ [n])) :
    ∃ yes w', stagedAt nfc (stageText dest) b host w = (.ok yes,w') ∧ w'.fs = w.fs ∧
      (yes = true ↔ Staged (stageText dest ++ q ++ [n]) b w.fs) := by
  unfold stagedAt
  rw [named]
  exact stagedFrom_run h.stageSlot
    (fun absent => ⟨_,fstatatRegular_missing quiet (site.stands h.conf).1 h.stageWay plain absent⟩)
    (fun mode data file => fstatatRegular_run quiet plain file) (fun mode data => Iff.rfl)
    fun mode data file => hashAt_run (w := w.next w.fs) quiet plain accepted file

theorem loadPartialMetaAt_run (h : Room before dest q n w.fs)
    (readable : Readable json (partialText dest ++ q ++ [record n]) w.fs) :
    ∃ found w', loadPartialMetaAt nfc json (partialText dest) (relText (q ++ [n])) host w = (.ok found,w') ∧
      Deepens w.fs w'.fs (partialText dest) q ∧
      ∀ m, found = some m ↔ Recorded json (partialText dest ++ q ++ [record n]) w.fs m := by
  unfold loadPartialMetaAt
  rw [relText_record]
  rcases readable with absent | ⟨mode,raw,m,file,read⟩
  · obtain ⟨w₁,lost,grown⟩ := openatRead_missing quiet (site.stands h.conf).2 h.partWay (plain_record plain) accepted absent
    exact ⟨none,w₁,(bind_run (attempt_failed lost)).trans rfl,grown,recorded_none absent⟩
  · obtain ⟨w₁,opened,same⟩ := openatRead_run quiet (plain_record plain) accepted file
    have loaded : readAll (partialText dest ++ q ++ [record n]) host w₁ = (.ok raw,w₁.next w₁.fs) :=
      query_run quiet (by rw [same,FS.readAll,file])
    refine ⟨some m,w₁.next w₁.fs,?_,?_,recorded_some file read⟩
    · refine (bind_run (attempt_run opened)).trans ?_
      dsimp only
      rw [bind_run (bare_run loaded),read]
      rfl
    · rw [World.next_fs,same]
      exact Deepens.refl _ _ _

theorem resumeAt_run (h : Room before dest q n w.fs) (named : b.rel = relText (q ++ [n]))
    (readable : Readable json (partialText dest ++ q ++ [record n]) w.fs) :
    ∃ start w', resumeAt nfc json (partialText dest) b host w = (.ok start,w') ∧ Room before dest q n w'.fs ∧
      ((∃ data, Resumes json (partialText dest ++ q ++ [part n]) (partialText dest ++ q ++ [record n]) b w.fs data ∧
          start = UInt64.ofNat data.length ∧
          ∃ mode, w'.fs.node (partialText dest ++ q ++ [part n]) = some (.file mode data)) ∨
        (∀ data, ¬Resumes json (partialText dest ++ q ++ [part n]) (partialText dest ++ q ++ [record n]) b
          w.fs data) ∧ start = 0) := by
  obtain ⟨found,w₁,loaded,grown,recorded⟩ := loadPartialMetaAt_run site plain accepted quiet h readable
  have h₁ : Room before dest q n w₁.fs := h.grown_part (twoDirs dest) grown
  rw [resumeAt,named,relText_part]
  refine resumeFrom_run loaded h₁ (grown.apart fun r le => prefix_ne le _) recorded h.partSlot
    (fun mode data at_ => ?_) (fun gone => ?_) fun w kept => startFreshAt_run site plain quiet kept
  · exact fstatatRegular_run quiet (plain_part plain) at_
  · exact ⟨_,fstatatRegular_missing quiet (site.stands h₁.conf).2 h₁.partWay (plain_part plain) gone⟩

theorem openPartAt_run (h : Room before dest q n w.fs) (named : b.rel = relText (q ++ [n])) {start : UInt64}
    (there : start ≠ 0 → ∃ mode data, w.fs.node (partialText dest ++ q ++ [part n]) = some (.file mode data)) :
    ∃ w', openPartAt nfc (partialText dest) b start host w = (.ok (partialText dest ++ q ++ [part n]),w') ∧
      Room before dest q n w'.fs ∧
      (start = 0 → ∃ mode, w'.fs.node (partialText dest ++ q ++ [part n]) = some (.file mode [])) ∧
      (start ≠ 0 → w'.fs.node (partialText dest ++ q ++ [part n]) = w.fs.node (partialText dest ++ q ++ [part n])) := by
  obtain ⟨w₁,parent,dir,grown,-⟩ := parentFD_run quiet (site.stands h.conf).2 h.partWay (plain_part plain) accepted 0o700
  have h₁ : Room before dest q n w₁.fs := h.grown_part (twoDirs dest) grown
  have stands := stands_name (validName_part (plain n (by simp))) dir h₁.partSlot.plain
  have reaches {p : Path} {w' : World} (ran : Unix.openat (partialText dest ++ q) (part n)
      { write := true, create := true, nofollow := true, trunc := start = 0 } 0o600 host w₁ = (.ok p,w')) :
      openPartAt nfc (partialText dest) b start host w = (.ok p,w') := by
    unfold openPartAt openatCreate
    rw [named,relText_part,base_relText (plain_part plain).lexical]
    exact mapError_run _ ((bind_run parent).trans (bare_run ran))
  by_cases first : start = 0
  · subst first
    obtain ⟨fs',mode,ran,changed⟩ : ∃ fs' final, w₁.fs.openat host.umask (partialText dest ++ q) (part n)
        { write := true, create := true, nofollow := true, trunc := true } 0o600 =
          .ok (partialText dest ++ q ++ [part n],fs') ∧ fs'.node = Function.update w₁.fs.node
            (partialText dest ++ q ++ [part n]) (some (.file final [])) :=
      stands.openat_fresh h₁.partSlot rfl rfl rfl rfl
    refine ⟨w₁.next fs',reaches (openat_run quiet ran),h₁.update_part (twoDirs dest) changed (.inr ⟨_,_,rfl⟩),
      fun _ => ⟨mode,?_⟩,fun moved => absurd rfl moved⟩
    rw [World.next_fs,changed,Function.update_self]
  · obtain ⟨mode,data,file⟩ := there first
    have ran : w₁.fs.openat host.umask (partialText dest ++ q) (part n)
        { write := true, create := true, nofollow := true, trunc := start = 0 } 0o600 =
          .ok (partialText dest ++ q ++ [part n],w₁.fs) :=
      stands.openat_keep (grown.kept file) rfl rfl rfl (decide_eq_false first)
    refine ⟨w₁.next w₁.fs,reaches (openat_run quiet ran),h₁,fun zero => absurd zero first,fun _ => ?_⟩
    rw [World.next_fs,grown.kept file,file]

theorem writePartialMetaAt_run (m : PartialMeta) (h : Room before dest q n w.fs) :
    ∃ w', (ignore (writePartialMetaAt nfc json (partialText dest) (relText (q ++ [n])) m) : RS Unit) host w = (.ok (),w') ∧
      Room before dest q n w'.fs ∧
      w'.fs.node (partialText dest ++ q ++ [part n]) = w.fs.node (partialText dest ++ q ++ [part n]) := by
  have two := twoDirs dest
  obtain ⟨w₁,parent,dir,grown,-⟩ := parentFD_run quiet (site.stands h.conf).2 h.partWay (plain_draft plain) accepted 0o700
  have h₁ : Room before dest q n w₁.fs := h.grown_part two grown
  have keeps : Keeps host (Intact w₁.fs (Records (partialText dest) q n))
      (writeDraft json (partialText dest) q n m (partialText dest ++ q)) :=
    keeps_writeDraft (Records.region site.region h₁.conf) two plain dir m
  obtain ⟨w₂,ran,conf⟩ := (survives_writeDraft quiet _ q n m _).ignored keeps (Confined.refl w₁.fs _)
  refine ⟨w₂,?_,h₁.frame conf (fun _ => Records.inside) fun _ => Records.off two,?_⟩
  · rw [writePartialMetaAt_eq plain,ignore_bind_run parent]
    exact ran
  · rw [conf.outside _ fun small => small.off two (.inr (.inr rfl)),grown.apart fun r le => prefix_ne le _]

variable {data : Bytes} {mode : Nat}

omit accepted site in
variable (nfc) in
/-- The partial file becomes the staged file; its mode is set if it can be. -/
theorem publishPartAt_run (h : Room before dest q n w.fs) (there : w.fs.IsDir (stageText dest ++ q))
    (file : w.fs.node (partialText dest ++ q ++ [part n]) = some (.file mode data)) (perm : Nat) :
    ∃ w' final, publishPartAt nfc ⟨dest,stageText dest,partialText dest⟩ (relText (q ++ [part n])) (relText (q ++ [n]))
        perm host w = (.ok (),w') ∧
      w'.fs.node (stageText dest ++ q ++ [n]) = some (.file final data) ∧
      w'.fs.IsDir (partialText dest ++ q) := by
  have two := twoDirs dest
  have apart (x y : Path) : partialText dest ++ x ≠ stageText dest ++ y := (two.apart y x).symm
  have from_ := stands_relText (plain_part plain) (FS.dir_of_entry file) h.partSlot.plain
  have to_ := stands_relText plain there h.stageSlot.plain
  obtain ⟨fs₁,moved,changed⟩ := from_.renameat_file to_ file h.stageSlot (by
    rw [List.append_assoc,List.append_assoc]
    exact apart _ _)
  have ran : Unix.renameat (partialText dest) (relText (q ++ [part n])) (stageText dest) (relText (q ++ [n])) host w =
      (.ok (),w.next fs₁) := sys_run quiet moved
  have at₁ : fs₁.node (stageText dest ++ q ++ [n]) = some (.file mode data) := by rw [changed,Function.update_self]
  have dir₁ : fs₁.IsDir (partialText dest ++ q) := by
    have old : w.fs.IsDir (partialText dest ++ q) := FS.dir_of_entry file
    rw [FS.IsDir,changed,Function.update_of_ne (by rw [List.append_assoc]; exact apart _ _),
      Function.update_of_ne (prefix_ne (List.prefix_refl q) _)]
    exact old
  have dir₂ : fs₁.IsDir (stageText dest ++ q) := FS.dir_of_entry at₁
  obtain ⟨w₂,same,⟨-,parent⟩ | ⟨gone,-⟩⟩ := existingParent_run (w := w.next fs₁) quiet (dir₂.above (List.prefix_append _ _))
    (fun r le => .inr (dir₂.above ((List.prefix_append_right_inj _).mpr le))) plain
  · have at₂ : w₂.fs.node (stageText dest ++ q ++ [n]) = some (.file mode data) := same ▸ at₁
    have stands := stands_name (plain n (by simp)) (FS.dir_of_entry at₂) (FS.Slot.plain (.inr ⟨_,_,at₂⟩))
    obtain ⟨fs₃,set,changed'⟩ := stands.fchmodat_file at₂
    have chmod : Unix.fchmodat (stageText dest ++ q) n perm host w₂ = (.ok (),w₂.next fs₃) := sys_run quiet set
    have whole : fchmodatPath (stageText dest) (relText (q ++ [n])) perm host (w.next fs₁) = (.ok (),w₂.next fs₃) := by
      rw [fchmodatPath,bind_run parent,base_relText plain.lexical]
      exact chmod
    refine ⟨w₂.next fs₃,perm &&& 0o7777,?_,by rw [World.next_fs,changed',Function.update_self],?_⟩
    · rw [publishPartAt,bind_run (attempt_run ran)]
      exact ignore_run whole
    · rw [World.next_fs,FS.IsDir,changed',Function.update_of_ne (by rw [List.append_assoc]; exact apart _ _),same]
      exact dir₁
  · exact absurd gone dir₂.present

theorem finalizeAt_run {s : Store} (h : Room before dest q n w.fs) (named : b.rel = relText (q ++ [n]))
    (begin : s.begin = b) (path : s.partPath = b.rel ++ ascii ".part")
    (file : w.fs.node (partialText dest ++ q ++ [part n]) = some (.file mode data)) :
    (sha256 data = b.digest → ∃ w' final, finalizeAt nfc ⟨dest,stageText dest,partialText dest⟩ s host w =
        (.ok (),w') ∧ w'.fs.node (stageText dest ++ q ++ [n]) = some (.file final data)) ∧
    (sha256 data ≠ b.digest → ∃ e w', finalizeAt nfc ⟨dest,stageText dest,partialText dest⟩ s host w = (.error e,w')) := by
  unfold finalizeAt
  rw [path,begin,named,relText_part]
  obtain ⟨w₁,hashed,same⟩ := hashAt_run quiet (plain_part plain) accepted file
  have checked := expectDigest_run hashed b.digest ("chunked digest mismatch for " ++ text (relText (q ++ [n])))
  constructor
  · intro good
    rw [if_pos good] at checked
    have h₁ : Room before dest q n w₁.fs := same ▸ h
    obtain ⟨w₂,made,there,grown,-⟩ := parentFD_run quiet (site.stands h₁.conf).1 h₁.stageWay plain accepted 0o755
    have h₂ : Room before dest q n w₂.fs := h₁.grown_stage (twoDirs dest) grown
    obtain ⟨w₃,final,published,staged,dir⟩ := publishPartAt_run nfc plain quiet h₂ there
      (grown.kept (same ▸ file)) (orDefault b.mode 0o644)
    obtain ⟨_,w₄,cleared,first,second⟩ := clearPartialAt_run plain quiet (dir.above (List.prefix_append _ _))
      fun r le => .inr (dir.above ((List.prefix_append_right_inj _).mpr le))
    have synced : Unix.fsync (stageText dest) host w₄ = (.ok (),w₄.next w₄.fs) := query_run quiet rfl
    refine ⟨w₄.next w₄.fs,final,?_,?_⟩
    · rw [bind_run checked,bind_run (mapError_run _ made),bind_run published,bind_run cleared]
      exact ignore_run synced
    · rw [World.next_fs,second.staged (twoDirs dest),first.staged (twoDirs dest)]
      exact staged
  · intro bad
    rw [if_neg bad] at checked
    exact ⟨_,w₁,bind_failed checked⟩

end steps

theorem bench {lib : Library} {host : Host} {before : FS} {dest q : Path} {n : Name} {b : FileBegin}
    (destination : Bytes) (site : Site before dest) (plain : Plain (q ++ [n]))
    (accepted : ∀ m ∈ q, Accepted lib.nfc m) (quiet : host.Quiet) (named : b.rel = relText (q ++ [n])) :
    Bench lib host (opened destination dest) b (Room before dest q n) (stageText dest ++ q ++ [n])
      (partialText dest ++ q ++ [part n]) (partialText dest ++ q ++ [record n]) where
  written fs fs' mode data new h _ changed := h.update_part (twoDirs dest) changed (.inr ⟨mode,new,rfl⟩)
  looks s w same h := by
    unfold staged
    rw [same.fds]
    exact stagedAt_run site plain accepted quiet h named
  clears s w same h := by
    unfold clearing
    rw [same.fds,named]
    obtain ⟨_,w',ran,first,second⟩ := clearPartialAt_run plain quiet (site.stands h.conf).2 h.partWay
    exact ⟨w',ran,h.cleared (twoDirs dest) first second,(second.staged (twoDirs dest)).trans (first.staged (twoDirs dest))⟩
  resumes s w same h readable := by
    unfold resume
    rw [same.fds]
    exact resumeAt_run site plain accepted quiet h named readable
  opens s w start same h there := by
    unfold openPart
    rw [same.fds]
    exact openPartAt_run site plain accepted quiet h named there
  saves s w same begin h _ := by
    unfold saveMeta
    rw [same.fds,begin,named]
    exact writePartialMetaAt_run site plain accepted quiet _ h
  finishes s w mode data same begin path h file good := by
    unfold finalize
    rw [same.fds]
    exact (finalizeAt_run site plain accepted quiet h named begin path file).1 good
  refuses s w mode data same begin path h file bad := by
    unfold finalize
    rw [same.fds]
    exact (finalizeAt_run site plain accepted quiet h named begin path file).2 bad

end Integris.RemoteSync.Descriptor
