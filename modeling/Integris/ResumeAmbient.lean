import Integris.Berth

/-! The store without descriptors, with room for a file: every step of a transfer goes
through and does to the file's names what it is for. -/
namespace Integris.RemoteSync.Ambient

open Posix LocalSync Prog

variable {data : Bytes} {host : Host} {mode : Nat} {b : FileBegin}

theorem hashFile_run {w : World} (quiet : host.Quiet) {s : Bytes} {p : Path}
    (found : w.fs.locate false host.cwd s = .ok (p,.file mode data)) :
    ∃ w', hashing (hashFile s) host w = (.ok ⟨sha256 data,data.length⟩,w') ∧ w'.fs = w.fs := by
  obtain ⟨h,w',ran,same,p',mode',data',found',rfl⟩ := ((hashFile_wp s).mono (fun _ _ h => h)
    (fun _ _ h => h.2 quiet.calm _ _ _ found) fun _ h => h.2 quiet.calm).returns
  rw [found] at found'
  cases found'
  exact ⟨w',mapError_run _ ran,same⟩

section names

variable {before fs : FS} {Area : Path → Prop} {a d stage partials q : Path} {n m : Name}

section

variable (root : Root before Area a d) (conf : Confined before Area fs) (plain : Plain (q ++ [n]))
include root conf plain

theorem stands_below (region : Region before Area) (there : fs.IsDir (d ++ q)) (base : Path) :
    fs.Stands base (absText (a ++ (q ++ [n]))) (d ++ q) n := by
  refine stands_entry (root.leads conf) root.plain plain there ?_ base
  rw [List.append_assoc]
  exact root.clear region conf _

theorem absent_below (region : Region before Area) (way : ∀ r, r <+: q → fs.Free (d ++ r))
    (absent : fs.node (d ++ q ++ [n]) = none) (follow : Bool) (base : Path) :
    fs.locate follow base (absText (a ++ (q ++ [n]))) = .error .noent := by
  rcases way q (List.prefix_refl _) with gone | there
  · exact (lost_entry (root.leads conf) root.plain plain way gone base).locate
  · exact (stands_below root conf plain region there base).locate_absent absent

end

theorem parent_run {w : World} (root : Root before Area a d) (conf : Confined before Area w.fs)
    (plain : Plain (q ++ [n])) (quiet : host.Quiet) (way : ∀ r, r <+: q → w.fs.Free (d ++ r)) (perm : Nat) :
    ∃ w', mkdirAll (dir (absText (a ++ (q ++ [n])))) perm host w = (.ok (),w') ∧
      w'.fs.IsDir (d ++ q) ∧ Deepens w.fs w'.fs d q := by
  have front : Plain q := (plain_append.mp plain).1
  rw [← List.append_assoc,dir_absText (plain_append.mpr ⟨root.plain,front⟩ : Plain _).lexical (plain n (by simp)).segment]
  exact mkdirAll_run quiet (root.anchored.of_confined conf) root.plain front (fun r _ => root.inside r) way perm

variable (site : Site before a stage partials)
include site

theorem part_names (conf : Confined before (Inside stage partials) fs) (plain : Plain (q ++ [m])) (base : Path) :
    Names base (· = partials ++ q ++ [m]) (absText (partialText a ++ (q ++ [m]))) fs := by
  intro d k where_
  cases site.partialRoot.place_eq site.region plain.lexical conf where_
  rfl

end names

section steps

variable {host : Host} {w : World} {before : FS} {a stage partials q : Path} {n : Name}
  (site : Site before a stage partials) (two : TwoDirs stage partials) (plain : Plain (q ++ [n]))
  (quiet : host.Quiet)

section

variable (site : Site before a stage partials) (plain : Plain (q ++ [n]))
include site plain

theorem stage_text : finalStagePath (absText (stageText a)) (relText (q ++ [n])) = absText (stageText a ++ (q ++ [n])) :=
  join_relText (plain_stageText site.plain).lexical plain.lexical

theorem part_text :
    partialDataPath (absText (partialText a)) (relText (q ++ [n])) = absText (partialText a ++ (q ++ [part n])) := by
  rw [partialDataPath,relText_suffix]
  exact join_relText (plain_partialText site.plain).lexical (plain_part plain).lexical

theorem record_text : partialMetaPath (absText (partialText a)) (relText (q ++ [n])) =
      absText (partialText a ++ (q ++ [record n])) := by
  rw [partialMetaPath,relText_suffix]
  exact join_relText (plain_partialText site.plain).lexical (plain_record plain).lexical

end

include site plain quiet

theorem staged_run (h : Berth before stage partials q n w.fs) (named : b.rel = relText (q ++ [n])) :
    ∃ yes w', stagedAmbient (absText (stageText a)) b host w = (.ok yes,w') ∧ w'.fs = w.fs ∧
      (yes = true ↔ Staged (stage ++ q ++ [n]) b w.fs) := by
  unfold stagedAmbient
  rw [named,stage_text site plain]
  have stands {mode : Nat} {data : Bytes} (file : w.fs.node (stage ++ q ++ [n]) = some (.file mode data)) :=
    stands_below site.stageRoot h.conf plain site.region (FS.dir_of_entry file) host.cwd
  exact stagedFrom_run h.stageSlot
    (fun absent => ⟨_,lstat_missing quiet (absent_below site.stageRoot h.conf plain site.region h.stageWay absent false host.cwd)⟩)
    (fun mode data file => lstat_present quiet (stands file) file) (fun mode data => ⟨And.right,fun size => ⟨rfl,size⟩⟩)
    fun mode data file => hashFile_run (w := w.next w.fs) quiet ((stands file).locate_present file)

include two

/-- Neither the record nor the partial file outlives this; nothing else is touched. -/
theorem clearPartial_run (conf : Confined before (Inside stage partials) w.fs) :
    ∃ w', clearPartial (absText (partialText a)) (relText (q ++ [n])) host w = (.ok (),w') ∧
      (Berth before stage partials q n w.fs → Berth before stage partials q n w'.fs) ∧
      w'.fs.node (stage ++ q ++ [n]) = w.fs.node (stage ++ q ++ [n]) := by
  unfold clearPartial
  rw [record_text site plain,part_text site plain]
  obtain ⟨w₁,first,how₁⟩ := remove_erases quiet (part_names site conf (plain_record plain) host.cwd)
  have conf₁ : Confined before (Inside stage partials) w₁.fs := by
    refine conf.trans (Erases.confined how₁) ?_
    rintro _ rfl
    rw [List.append_assoc]
    exact inside_part (by simp)
  obtain ⟨w₂,second,how₂⟩ := remove_erases quiet (part_names site conf₁ (plain_part plain) host.cwd)
  refine ⟨w₂,?_,fun h => h.cleared two how₁ how₂,(Erases.staged two how₂).trans (Erases.staged two how₁)⟩
  rw [bind_run first]
  exact second

theorem startFresh_run (h : Berth before stage partials q n w.fs) :
    ∃ w', startFresh (absText (partialText a)) (relText (q ++ [n])) host w = (.ok 0,w') ∧
      Berth before stage partials q n w'.fs := by
  obtain ⟨w',cleared,kept,-⟩ := clearPartial_run site two plain quiet h.conf
  refine ⟨w',?_,kept h⟩
  rw [startFresh,bind_run cleared]
  rfl

variable {json : MetaCodec}

omit two in
theorem loadPartialMeta_run (h : Berth before stage partials q n w.fs)
    (readable : Readable json (partials ++ q ++ [record n]) w.fs) :
    ∃ found w', loadPartialMeta json (absText (partialText a)) (relText (q ++ [n])) host w = (.ok found,w') ∧
      w'.fs = w.fs ∧ ∀ m, found = some m ↔ Recorded json (partials ++ q ++ [record n]) w.fs m := by
  unfold loadPartialMeta
  rw [record_text site plain]
  rcases readable with absent | ⟨mode,raw,m,file,read⟩
  · have lost := absent_below site.partialRoot h.conf (plain_record plain) site.region h.partWay absent true host.cwd
    obtain ⟨w₁,missing,same⟩ := readFile_missing quiet lost
    refine ⟨none,w₁,?_,same,recorded_none absent⟩
    rw [bind_run (attempt_failed missing)]
    rfl
  · have there : w.fs.IsDir (partials ++ q) := FS.dir_of_entry file
    obtain ⟨w₁,loaded,same⟩ := readFile_present quiet
      (stands_below site.partialRoot h.conf (plain_record plain) site.region there host.cwd) file
    refine ⟨some m,w₁,?_,same,recorded_some file read⟩
    rw [bind_run (attempt_run loaded)]
    dsimp only
    rw [read]
    rfl

theorem resume_run (h : Berth before stage partials q n w.fs)
    (named : b.rel = relText (q ++ [n])) (readable : Readable json (partials ++ q ++ [record n]) w.fs) :
    ∃ start w', resumeAmbient json (absText (partialText a)) b host w = (.ok start,w') ∧
      Berth before stage partials q n w'.fs ∧
      ((∃ data, Resumes json (partials ++ q ++ [part n]) (partials ++ q ++ [record n]) b w.fs data ∧
          start = UInt64.ofNat data.length ∧
          ∃ mode, w'.fs.node (partials ++ q ++ [part n]) = some (.file mode data)) ∨
        (∀ data, ¬Resumes json (partials ++ q ++ [part n]) (partials ++ q ++ [record n]) b w.fs data) ∧ start = 0) := by
  obtain ⟨found,w₁,loaded,same,recorded⟩ := loadPartialMeta_run site plain quiet h readable
  have h₁ : Berth before stage partials q n w₁.fs := same ▸ h
  rw [resumeAmbient,named,part_text site plain]
  refine resumeFrom_run loaded h₁ (by rw [same]) recorded h.partSlot (fun mode data at_ => ?_) (fun gone => ?_)
    fun w kept => startFresh_run site two plain quiet kept
  · exact lstat_present quiet (stands_below site.partialRoot h₁.conf (plain_part plain) site.region (FS.dir_of_entry at_) host.cwd) at_
  · exact ⟨_,lstat_missing quiet (absent_below site.partialRoot h₁.conf (plain_part plain) site.region h₁.partWay gone false host.cwd)⟩

theorem openPart_run (h : Berth before stage partials q n w.fs) (named : b.rel = relText (q ++ [n])) {start : UInt64}
    (there : start ≠ 0 → ∃ mode data, w.fs.node (partials ++ q ++ [part n]) = some (.file mode data)) :
    ∃ w', openPartAmbient (absText (partialText a)) b start host w = (.ok (partials ++ q ++ [part n]),w') ∧
      Berth before stage partials q n w'.fs ∧
      (start = 0 → ∃ mode, w'.fs.node (partials ++ q ++ [part n]) = some (.file mode [])) ∧
      (start ≠ 0 → w'.fs.node (partials ++ q ++ [part n]) = w.fs.node (partials ++ q ++ [part n])) := by
  obtain ⟨w₁,made,dir,grown⟩ := parent_run site.partialRoot h.conf (plain_part plain) quiet h.partWay 0o700
  have h₁ := h.grown_part two grown
  have stands := stands_below site.partialRoot h₁.conf (plain_part plain) site.region dir host.cwd
  have reaches : openPartAmbient (absText (partialText a)) b start host w = wrapping "partial open" (openFile
      (absText (partialText a ++ (q ++ [part n]))) { write := true, create := true, trunc := start = 0 } 0o600)
        host w₁ := by
    unfold openPartAmbient
    rw [named,part_text site plain]
    exact bind_run (wrapping_run _ made)
  rw [reaches]
  by_cases first : start = 0
  · subst first
    obtain ⟨fs',mode,ran,changed⟩ : ∃ fs' final, w₁.fs.openat host.umask host.cwd
        (absText (partialText a ++ (q ++ [part n]))) { write := true, create := true, trunc := true }
          (syscallMode 0o600) = .ok (partials ++ q ++ [part n],fs') ∧ fs'.node = Function.update w₁.fs.node
            (partials ++ q ++ [part n]) (some (.file final [])) := stands.openat_fresh h₁.partSlot rfl rfl rfl rfl
    refine ⟨w₁.next fs',wrapping_run _ (sys_run quiet ran),h₁.update_part two changed (.inr ⟨_,_,rfl⟩),
      fun _ => ⟨mode,?_⟩,fun moved => absurd rfl moved⟩
    rw [World.next_fs,changed,Function.update_self]
  · obtain ⟨mode,data,file⟩ := there first
    have ran : w₁.fs.openat host.umask host.cwd (absText (partialText a ++ (q ++ [part n])))
        { write := true, create := true, trunc := start = 0 } (syscallMode 0o600) = .ok (partials ++ q ++ [part n],w₁.fs) :=
      stands.openat_keep (grown.kept file) rfl rfl rfl (decide_eq_false first)
    refine ⟨w₁.next w₁.fs,wrapping_run _ (sys_run quiet ran),h₁,fun zero => absurd zero first,fun _ => ?_⟩
    rw [World.next_fs,grown.kept file,file]

theorem writePartialMeta_run (m : PartialMeta) (h : Berth before stage partials q n w.fs) :
    ∃ w', (ignore (writePartialMeta json (absText (partialText a)) (relText (q ++ [n])) m) : RS Unit) host w =
        (.ok (),w') ∧
      Berth before stage partials q n w'.fs ∧
      w'.fs.node (partials ++ q ++ [part n]) = w.fs.node (partials ++ q ++ [part n]) := by
  have text : absText (partialText a ++ (q ++ [record n])) ++ ascii ".tmp" =
      absText (partialText a ++ (q ++ [draft n])) := by
    rw [← List.append_assoc,absText_suffix,List.append_assoc]
    rfl
  obtain ⟨w₁,made,dir,grown⟩ := parent_run site.partialRoot h.conf (plain_record plain) quiet h.partWay 0o700
  have h₁ := h.grown_part two grown
  -- only the names of the record can change from here on
  have region : Region w₁.fs (Records partials q n) := Records.region site.region h₁.conf
  have lands {k : Name} (lexical : Lexical (q ++ [k])) (mine : Records partials q n (partials ++ q ++ [k])) (fs : FS)
      (conf : Confined w₁.fs (Records partials q n) fs) :
      Lands host.cwd (Records partials q n) (absText (partialText a ++ (q ++ [k]))) fs := by
    have conf' : Confined before (Inside stage partials) fs := h₁.conf.trans conf fun _ => Records.inside
    constructor
    · intro follow pl where_
      exact ⟨partials ++ q,k,site.partialRoot.place_eq site.region lexical conf' where_,mine⟩
    · intro follow p x where_
      rw [site.partialRoot.locate_eq site.region lexical conf' where_]
      exact mine
  have meta_ := lands (plain_record plain).lexical (.inl (List.prefix_refl _))
  have tmp := lands (plain_draft plain).lexical (.inr (List.prefix_refl _))
  have keeps : Keeps host (Intact w₁.fs (Records partials q n)) (do
      writeFile (absText (partialText a ++ (q ++ [draft n]))) (json.marshal m) 0o600
      rename (absText (partialText a ++ (q ++ [draft n]))) (absText (partialText a ++ (q ++ [record n])))) :=
    (keeps_writeInside tmp _ _).bind fun _ => keeps_rename region tmp meta_
  have survives : Survives host (do
      writeFile (absText (partialText a ++ (q ++ [draft n]))) (json.marshal m) 0o600
      rename (absText (partialText a ++ (q ++ [draft n]))) (absText (partialText a ++ (q ++ [record n])))) :=
    (Survives.writeFile quiet _ _ _).bind fun _ => Survives.rename quiet _ _
  obtain ⟨w₂,ran,conf⟩ := survives.ignored keeps (Confined.refl w₁.fs _)
  refine ⟨w₂,?_,h₁.frame conf (fun _ => Records.inside) fun _ => Records.off two,?_⟩
  · unfold writePartialMeta
    rw [record_text site plain]
    dsimp only
    rw [text,ignore_bind_run made]
    exact ran
  · rw [conf.outside _ fun small => small.off two (.inr (.inr rfl)),grown.apart fun r le => prefix_ne le _]

theorem publishPart_run (h : Berth before stage partials q n w.fs) (there : w.fs.IsDir (stage ++ q))
    (file : w.fs.node (partials ++ q ++ [part n]) = some (.file mode data)) (perm : Nat) :
    ∃ w' final, publishPart (absText (partialText a ++ (q ++ [part n]))) (absText (stageText a ++ (q ++ [n]))) perm
        host w = (.ok (),w') ∧
      Confined before (Inside stage partials) w'.fs ∧
      w'.fs.node (stage ++ q ++ [n]) = some (.file final data) := by
  have from_ := stands_below site.partialRoot h.conf (plain_part plain) site.region (FS.dir_of_entry file) host.cwd
  have to_ := stands_below site.stageRoot h.conf plain site.region there host.cwd
  have apart : partials ++ q ++ [part n] ≠ stage ++ q ++ [n] := by
    rw [List.append_assoc,List.append_assoc]
    exact (two.apart _ _).symm
  obtain ⟨w₁,moved,changed⟩ := rename_run quiet from_ to_ file h.stageSlot apart
  have conf : Confined before (Inside stage partials) w₁.fs :=
    ((keeps_rename site.region (fun _ => site.partialRoot.lands site.region (plain_part plain).lexical)
      (fun _ => site.stageRoot.lands site.region plain.lexical)) w h.conf).ok_of moved
  have at₁ : w₁.fs.node (stage ++ q ++ [n]) = some (.file mode data) := by rw [changed,Function.update_self]
  have lands := stands_below site.stageRoot conf plain site.region (FS.dir_of_entry at₁) host.cwd
  obtain ⟨w₂,set,changed'⟩ := chmod_run quiet lands at₁ perm
  refine ⟨w₂,syscallMode perm &&& 0o7777,?_,?_,by rw [changed',Function.update_self]⟩
  · rw [publishPart,bind_run (attempt_run moved)]
    exact wrapping_run _ set
  · refine conf.trans (confined_update changed' rfl) ?_
    rintro _ rfl
    rw [List.append_assoc]
    exact inside_stage (by simp)

theorem finalize_run {s : Store} (h : Berth before stage partials q n w.fs)
    (named : b.rel = relText (q ++ [n])) (begin : s.begin = b) (stageRoot : s.stageRoot = absText (stageText a))
    (partialRoot : s.partialRoot = absText (partialText a))
    (path : s.partPath = partialDataPath (absText (partialText a)) b.rel)
    (file : w.fs.node (partials ++ q ++ [part n]) = some (.file mode data)) :
    (sha256 data = b.digest → ∃ w' final, finalizeAmbient s host w = (.ok (),w') ∧
      w'.fs.node (stage ++ q ++ [n]) = some (.file final data)) ∧
    (sha256 data ≠ b.digest → ∃ e w', finalizeAmbient s host w = (.error e,w')) := by
  unfold finalizeAmbient
  rw [path,begin,stageRoot,partialRoot,named,part_text site plain,stage_text site plain]
  have stands := stands_below site.partialRoot h.conf (plain_part plain) site.region (FS.dir_of_entry file) host.cwd
  obtain ⟨w₁,hashed,same⟩ := hashFile_run quiet (stands.locate_present file)
  have checked := expectDigest_run hashed b.digest ("chunked digest mismatch for " ++ text (relText (q ++ [n])))
  constructor
  · intro good
    rw [if_pos good] at checked
    have h₁ : Berth before stage partials q n w₁.fs := same ▸ h
    obtain ⟨w₂,made,there,grown⟩ := parent_run (w := w₁) site.stageRoot h₁.conf plain quiet h₁.stageWay 0o755
    have h₂ := h₁.grown_stage two grown
    obtain ⟨w₃,final,published,conf,staged⟩ := publishPart_run site two plain quiet h₂ there
      (grown.kept (same ▸ file)) (orDefault b.mode 0o644)
    obtain ⟨w₄,cleared,-,still⟩ := clearPartial_run site two plain quiet conf
    have synced : Survives host (syncDir (dir (absText (stageText a ++ (q ++ [n]))))) := .query quiet _ _
    have looks : Keeps host (fun w => w.fs.node (stage ++ q ++ [n]) = some (.file final data))
        (syncDir (dir (absText (stageText a ++ (q ++ [n]))))) :=
      keeps_query (I := fun fs => fs.node (stage ++ q ++ [n]) = some (.file final data)) _
    obtain ⟨w₅,ran,kept⟩ := synced.ignored looks (still.trans staged)
    refine ⟨w₅,final,?_,kept⟩
    rw [bind_run checked,bind_run (wrapping_run _ made),bind_run published,bind_run cleared]
    exact ran
  · intro bad
    rw [if_neg bad] at checked
    exact ⟨_,w₁,bind_failed checked⟩

end steps

theorem bench {lib : Library} {before : FS} {a stage partials q : Path} {n : Name}
    (site : Site before a stage partials) (two : TwoDirs stage partials) (plain : Plain (q ++ [n]))
    (quiet : host.Quiet) (named : b.rel = relText (q ++ [n])) :
    Bench lib host (opened a) b (Berth before stage partials q n) (stage ++ q ++ [n]) (partials ++ q ++ [part n])
      (partials ++ q ++ [record n]) where
  written fs fs' mode data new h _ changed := h.update_part two changed (.inr ⟨mode,new,rfl⟩)
  looks s w same h := by
    unfold staged
    rw [same.fds,same.stageRoot]
    exact staged_run site plain quiet h named
  clears s w same h := by
    unfold clearing
    rw [same.fds,same.partialRoot,named]
    obtain ⟨w',ran,kept,still⟩ := clearPartial_run site two plain quiet h.conf
    exact ⟨w',ran,kept h,still⟩
  resumes s w same h readable := by
    unfold resume
    rw [same.fds,same.partialRoot]
    exact resume_run site two plain quiet h named readable
  opens s w start same h there := by
    unfold openPart
    rw [same.fds,same.partialRoot]
    exact openPart_run site two plain quiet h named there
  saves s w same begin h _ := by
    unfold saveMeta
    rw [same.fds,same.partialRoot,begin,named]
    exact writePartialMeta_run site two plain quiet _ h
  finishes s w mode data same begin path h file good := by
    unfold finalize
    rw [same.fds]
    exact (finalize_run site two plain quiet h named begin same.stageRoot same.partialRoot path file).1 good
  refuses s w mode data same begin path h file bad := by
    unfold finalize
    rw [same.fds]
    exact (finalize_run site two plain quiet h named begin same.stageRoot same.partialRoot path file).2 bad

end Integris.RemoteSync.Ambient
