import Integris.ApplyContainment
import Integris.Survey
import Integris.PathMap

/-! `ApplyWith` on a host that refuses nothing, call by call: what an operation does to
the tree, entry by entry. The clean-up before a file is written takes every childless
entry of the directory whose name could be a temporary's. -/
namespace Integris.LocalSync.Delivery

open Posix Prog PathGrammar PathMap Containment

/-- What the clean-up takes for a temporary. -/
def junk (n : Name) : Prop := isTempName n = true

/-- The part of the destination tree that plans are about. -/
def Inside (d x : Path) : Prop := ∃ r, Content r ∧ x = d ++ r

def newDir (umask perm : Nat) : Node := .dir (FS.masked (syscallMode perm &&& 0o1777) umask)

def newFile (mode : Nat) (data : Bytes) : Node :=
  .file (syscallMode (if mode = 0 then 0o644 else mode) &&& 0o7777) data

/-- A task as an edit of the tree. -/
def edit (umask : Nat) : Task → Edit Node
  | .leave => .leave
  | .make mode => .make (newDir umask (if mode = 0 then 0o755 else mode))
  | .write mode data => .write (newDir umask 0o755) (newFile mode data)

section calls

variable {host : Host} {w : World} {a d p q : Path} {n : Name} {s : Bytes} {Area : Path → Prop}

theorem anchored_of_same {fs fs' : FS} (h : fs.Anchored Area a d)
    (same : ∀ x, ¬Area x → fs'.node x = fs.node x) : fs'.Anchored Area a d :=
  fun fs₂ same₂ => h fs₂ fun x out => (same₂ x out).trans (same x out)

variable (quiet : host.Quiet)

include quiet

theorem mkdirAll_grows (anchored : w.fs.Anchored Area a d) (root : Plain a) (plain : Plain q)
    (area : ∀ r, r <+: q → r ≠ [] → Area (d ++ r)) (way : ∀ r, r <+: q → w.fs.Free (d ++ r)) (perm : Nat) :
    ∃ w', mkdirAll (absText (a ++ q)) perm host w = (.ok (),w') ∧ w'.fs.IsDir (d ++ q) ∧
      w'.fs.node = grow (newDir host.umask perm) d q w.fs.node := by
  obtain ⟨w',run,dir,deeper⟩ := mkdirAll_run quiet anchored root plain area way perm
  have modes := (keeps_mkdirAll_mode w.fs perm (absText (a ++ q)) w fun _ => .inl rfl).ok_of run
  refine ⟨w',run,dir,funext fun x => ?_⟩
  rw [grow]
  split
  · next new =>
    obtain ⟨absent,r,le,rfl⟩ := new
    have there := (dir.above ((List.prefix_append_right_inj d).mpr le)).present
    rcases modes (d ++ r) with same | ⟨-,made⟩
    · exact absurd (same.trans absent) there
    · exact made
  · next old =>
    rcases deeper x with same | ⟨gone,-,r,le,-,at_⟩
    · exact same
    · exact absurd ⟨gone,r,le,at_⟩ old

/-- `os.Remove` of an entry, its error ignored: files and empty directories go. -/
theorem remove_sweeps (placed : w.fs.place false host.cwd s = .ok (.entry p n)) (text : endsInSlash s = false) :
    ∃ w', (ignore (remove s) : Os Unit) host w = (.ok (),w') ∧ w'.fs.node = sweep (fun m => m = n) p w.fs.node := by
  have failing {e e' : Errno} (first : w.fs.unlinkat host.cwd s = .error e)
      (second : w.fs.rmdirat host.cwd s = .error e') : ∃ w', (ignore (remove s) : Os Unit) host w = (.ok (),w') ∧
        w'.fs.node = w.fs.node := by
    have refused : unlink s host w = (.error e,w.next w.fs) := sys_failed quiet first
    have refused' : rmdir s host (w.next w.fs) = (.error e',(w.next w.fs).next w.fs) := sys_failed quiet second
    refine ⟨(w.next w.fs).next w.fs,ignore_failed (e := if e' ≠ .notdir then e' else e) ?_,rfl⟩
    rw [remove,bind_run (attempt_failed refused)]
    exact mapError_failed _ refused'
  cases at_ : w.fs.node (p ++ [n]) with
  | none =>
    have refused : w.fs.unlinkat host.cwd s = .error .noent := by simp [FS.unlinkat,placed,at_]
    have refused' : w.fs.rmdirat host.cwd s = .error .noent := by simp [FS.rmdirat,placed,at_]
    obtain ⟨w',run,same⟩ := failing refused refused'
    exact ⟨w',run,same.trans (sweep_entry_kept (.inl at_)).symm⟩
  | some x =>
    by_cases dir : x.isDir = true
    · obtain ⟨mode,at_⟩ := FS.isDir_iff.mp (show w.fs.IsDir (p ++ [n]) by rw [FS.IsDir,at_]; exact dir)
      have refused : w.fs.unlinkat host.cwd s = .error .isdir := by simp [FS.unlinkat,placed,at_]
      by_cases empty : w.fs.children (p ++ [n]) = []
      · have fits : w.fs.Fits (p ++ [n]) none := FS.fits_drop at_ empty
        obtain ⟨fs',ran,changed⟩ := FS.put_map fits ()
        have gone : w.fs.rmdirat host.cwd s = .ok ((),fs') := by
          rw [FS.rmdirat,placed]
          simp only [at_]
          rw [if_pos empty]
          exact ran
        have first : unlink s host w = (.error .isdir,w.next w.fs) := sys_failed quiet refused
        have second : rmdir s host (w.next w.fs) = (.ok (),(w.next w.fs).next fs') := sys_run quiet gone
        refine ⟨(w.next w.fs).next fs',ignore_run (a := ()) ?_,changed.trans (sweep_entry_bare (FS.childless_iff.mp empty)).symm⟩
        rw [remove,bind_run (attempt_failed first)]
        exact mapError_run _ second
      · have refused' : w.fs.rmdirat host.cwd s = .error .notempty := by
          rw [FS.rmdirat,placed]
          simp only [at_]
          rw [if_neg empty]
        obtain ⟨w',run,same⟩ := failing refused refused'
        exact ⟨w',run,same.trans (sweep_entry_kept (.inr fun bare => empty (FS.childless_iff.mpr bare))).symm⟩
    · have notDir : ¬w.fs.IsDir (p ++ [n]) := by rw [FS.IsDir,at_]; exact dir
      have empty : w.fs.children (p ++ [n]) = [] := FS.childless_of_not_dir notDir
      obtain ⟨fs',ran,changed⟩ := FS.put_map (FS.fits_drop at_ empty) ()
      have gone : w.fs.unlinkat host.cwd s = .ok ((),fs') := by
        rw [FS.unlinkat,placed,text]
        cases x with
        | dir mode => exact absurd rfl dir
        | file | link | special => simpa [at_] using ran
      have first : unlink s host w = (.ok (),w.next fs') := sys_run quiet gone
      refine ⟨w.next fs',ignore_run (a := ()) ?_,changed.trans (sweep_entry_bare (FS.childless_iff.mp empty)).symm⟩
      rw [remove,bind_run (attempt_run first)]
      rfl

end calls

section directory

variable {host : Host} {w : World} {b d q : Path} {n m : Name}

theorem content_temp (content : Content (q ++ [n])) (temp : isTempName m = true) : Content (q ++ [m]) := by
  by_cases top : q = []
  · subst top
    refine ⟨by simp,fun head => ?_⟩
    rw [List.nil_append,List.head?_cons,Option.some.injEq] at head
    subst head
    exact absurd temp (by decide)
  · exact (content.above (List.prefix_append _ _) top).below

theorem inside_temp (content : Content (q ++ [n])) (temp : isTempName m = true) : Inside d (d ++ q ++ [m]) :=
  ⟨q ++ [m],content_temp content temp,List.append_assoc ..⟩

theorem not_inside_root : ¬Inside d d := by
  rintro ⟨r,content,same⟩
  exact content.1 (List.self_eq_append_right.mp same)

variable {fs : FS} {data : Bytes} {mode : Nat} {p : Path} {t : Tree Name Node} {x : Path}

theorem place_entry (leads : fs.Leads b d) (root : Plain b) (plain : Plain (q ++ [m]))
    (dir : fs.IsDir (d ++ q)) (base : Path) :
    fs.place false base (absText (b ++ (q ++ [m]))) = .ok (.entry (d ++ q) m) := by
  obtain ⟨-,-,budget,onward⟩ := leads
  rw [(spells_absText (plain_append.mpr ⟨root,plain⟩)).place,onward false _ (by simp)]
  exact FS.walk_dir budget d dir plain.down (by simp)

/-- The name of the temporary made at a tick. -/
def tempAt (host : Host) (tick : Nat) : Name := tempName (Fixed.ofBytes 16 (host.random tick))

theorem join_tempAt (root : Plain b) (plain : Plain q) (tick : Nat) :
    join (absText (b ++ q)) (tempName (Fixed.ofBytes 16 (host.random tick))) =
      absText (b ++ (q ++ [tempAt host tick])) := by
  rw [← List.append_assoc]
  exact join_name (plain_append.mpr ⟨root,plain⟩ : Plain _).lexical (tempName_valid _).segment

theorem stands_tempAt (root : Plain b) (anchored : w.fs.Anchored (Inside d) b d) (plain : Plain q)
    (dir : w.fs.IsDir (d ++ q)) (clear : ¬w.fs.IsLink (d ++ q ++ [tempAt host w.tick])) :
    w.fs.Stands host.cwd (absText (b ++ (q ++ [tempAt host w.tick]))) (d ++ q) (tempAt host w.tick) :=
  stands_entry (anchored w.fs fun _ _ => rfl) root (plain_append.mpr ⟨plain,by simpa [tempAt] using tempName_valid _⟩) dir clear host.cwd

theorem random_run (quiet : host.Quiet) : random 16 host w = (.ok (Fixed.ofBytes 16 (host.random w.tick)),w.next w.fs) := by
  rw [random,quiet .random w.tick]

variable (quiet : host.Quiet) (root : Plain b)

include quiet root

theorem removeTemps_sweeps {names : List Name} (anchored : w.fs.Anchored (Inside d) b d)
    (plain : Plain (q ++ [n])) (content : Content (q ++ [n])) (dir : w.fs.IsDir (d ++ q))
    (valid : ∀ m ∈ names, ValidName m) :
    ∃ w', removeTemps (absText (b ++ q)) names host w = (.ok (),w') ∧
      w'.fs.node = sweep (fun m => m ∈ names ∧ junk m) (d ++ q) w.fs.node := by
  induction names generalizing w with
  | nil =>
    refine ⟨w,rfl,?_⟩
    funext x
    rw [sweep_kept]
    rintro ⟨m,-,member,-⟩
    cases member
  | cons m names ih =>
    have valid_m : ValidName m := valid m List.mem_cons_self
    have front : Plain q := (plain_append.mp plain).1
    have rest := fun (x : Name) (hx : x ∈ names) => valid x (List.mem_cons_of_mem _ hx)
    rw [removeTemps]
    by_cases temp : isTempName m = true
    · have plain_m : Plain (q ++ [m]) := plain_append.mpr ⟨front,by simpa using valid_m⟩
      have leads : w.fs.Leads b d := anchored w.fs fun _ _ => rfl
      obtain ⟨w₁,removed,changed⟩ := remove_sweeps quiet (place_entry leads root plain_m dir host.cwd) (text_entry valid_m)
      have outside : ∀ x, ¬Inside d x → w₁.fs.node x = w.fs.node x := by
        intro x out
        rw [changed,sweep_kept]
        rintro ⟨k,rfl,rfl⟩
        exact out (inside_temp content temp)
      have dir₁ : w₁.fs.IsDir (d ++ q) := by
        rw [FS.IsDir,changed,sweep_kept]
        · exact dir
        · rintro ⟨k,same,-⟩
          exact absurd same (by simp)
      obtain ⟨w₂,loop,swept⟩ := ih (w := w₁) (anchored_of_same anchored outside) dir₁ rest
      refine ⟨w₂,?_,?_⟩
      · rw [when_run temp,join_name (plain_append.mpr ⟨root,front⟩ : Plain _).lexical valid_m.segment,
          List.append_assoc,bind_run removed]
        exact loop
      · rw [swept,changed,sweep_sweep]
        refine sweep_congr fun k _ => ?_
        simp only [List.mem_cons,junk]
        constructor
        · rintro (rfl | ⟨member,bad⟩)
          · exact ⟨.inl rfl,temp⟩
          · exact ⟨.inr member,bad⟩
        · rintro ⟨rfl | member,bad⟩
          · exact .inl rfl
          · exact .inr ⟨member,bad⟩
    · obtain ⟨w₂,loop,swept⟩ := ih anchored dir rest
      refine ⟨w₂,?_,?_⟩
      · rw [bind_run (when_skipped temp _ _ _)]
        exact loop
      · rw [swept]
        refine sweep_congr fun k _ => ?_
        simp only [List.mem_cons,junk]
        constructor
        · rintro ⟨member,bad⟩
          exact ⟨.inr member,bad⟩
        · rintro ⟨rfl | member,bad⟩
          · exact absurd bad temp
          · exact ⟨member,bad⟩

theorem cleanupTemps_sweeps (anchored : w.fs.Anchored (Inside d) b d) (plain : Plain (q ++ [n]))
    (content : Content (q ++ [n])) (dir : w.fs.IsDir (d ++ q)) :
    ∃ w', cleanupTemps (absText (b ++ q)) host w = (.ok (),w') ∧ w'.fs.node = sweep junk (d ++ q) w.fs.node := by
  have leads : w.fs.Leads b d := anchored w.fs fun _ _ => rfl
  obtain ⟨entries,listed,read⟩ := reads_osReadDir quiet leads root (plain_append.mp plain).1 dir
  obtain ⟨names,-⟩ := readDir_names listed
  obtain ⟨w₁,ran,same⟩ := read w rfl
  have valid : ∀ m ∈ entries.map Prod.fst, ValidName m := by
    intro m hm
    rw [names] at hm
    exact w.fs.named _ m (FS.mem_children.mp hm)
  obtain ⟨w₂,loop,swept⟩ := removeTemps_sweeps (w := w₁) quiet root (same.symm ▸ anchored) plain content
    (same.symm ▸ dir) valid
  refine ⟨w₂,?_,?_⟩
  · rw [cleanupTemps,bind_run ran]
    exact loop
  · rw [swept,same,names]
    refine sweep_congr fun m present => ?_
    simp [FS.mem_children.mpr present]

theorem createTemp_run (anchored : w.fs.Anchored (Inside d) b d) (plain : Plain q) (dir : w.fs.IsDir (d ++ q))
    (absent : w.fs.node (d ++ q ++ [tempAt host w.tick]) = none) :
    ∃ w' mode, createTemp (absText (b ++ q)) host w = (.ok (absText (b ++ (q ++ [tempAt host w.tick]))),w') ∧
      w'.fs.node = Function.update w.fs.node (d ++ q ++ [tempAt host w.tick]) (some (.file mode [])) := by
  have stands := stands_tempAt root anchored plain dir (FS.Free.plain (.inl absent))
  obtain ⟨fs',opened,changed⟩ : ∃ fs', w.fs.openat host.umask host.cwd (absText (b ++ (q ++ [tempAt host w.tick])))
      { write := true, create := true, excl := true } (syscallMode 0o600) =
        .ok (d ++ q ++ [tempAt host w.tick],fs') ∧ fs'.node = _ := stands.openat_new absent rfl
  have made : openFile (absText (b ++ (q ++ [tempAt host w.tick])))
      { write := true, create := true, excl := true } 0o600 host (w.next w.fs) =
      (.ok (d ++ q ++ [tempAt host w.tick]),(w.next w.fs).next fs') := sys_run quiet opened
  have closed : close (d ++ q ++ [tempAt host w.tick]) host ((w.next w.fs).next fs') =
      (.ok (),((w.next w.fs).next fs').next fs') := query_run quiet rfl
  refine ⟨((w.next w.fs).next fs').next fs',_,?_,changed⟩
  rw [createTemp,bind_run (random_run quiet),join_tempAt root plain,bind_run made,bind_run (onError_run closed _)]
  rfl

theorem createTemp_refused (anchored : w.fs.Anchored (Inside d) b d) (plain : Plain q) (dir : w.fs.IsDir (d ++ q))
    (taken : w.fs.node (d ++ q ++ [tempAt host w.tick]) ≠ none) (clear : ¬w.fs.IsLink (d ++ q ++ [tempAt host w.tick])) :
    ∃ e w', createTemp (absText (b ++ q)) host w = (.error e,w') := by
  have stands := stands_tempAt root anchored plain dir clear
  obtain ⟨x,at_⟩ := Option.ne_none_iff_exists'.mp taken
  have refused : openFile (absText (b ++ (q ++ [tempAt host w.tick])))
      { write := true, create := true, excl := true } 0o600 host (w.next w.fs) =
      (.error .exist,(w.next w.fs).next w.fs) := by
    refine sys_failed quiet ?_
    rw [World.next_fs,stands.openCreate rfl,at_]
    rfl
  refine ⟨.exist,(w.next w.fs).next w.fs,?_⟩
  rw [createTemp,bind_run (random_run quiet),join_tempAt root plain]
  exact bind_failed refused

end directory

/-- The destination's text leads to it whatever happens to its content, and the
directory `q` below it is there. -/
structure Moored (b d q : Path) (fs : FS) : Prop where
  anchored : fs.Anchored (Inside d) b d
  dir : fs.IsDir (d ++ q)

section staging

variable {host : Host} {w : World} {fs fs' : FS} {b d q f : Path} {n m tmp : Name} {v : Option Node}

theorem Moored.leads (h : Moored b d q fs) : fs.Leads b d := h.anchored fs fun _ _ => rfl

theorem Moored.change (h : Moored b d q fs) (inside : Inside d (d ++ q ++ [m]))
    (changed : fs'.node = Function.update fs.node (d ++ q ++ [m]) v) : Moored b d q fs' where
  anchored := by
    refine anchored_of_same h.anchored fun x out => ?_
    rw [changed,Function.update_of_ne]
    rintro rfl
    exact out inside
  dir := by
    rw [FS.IsDir,changed,Function.update_of_ne (by simp)]
    exact h.dir

theorem Moored.stands (h : Moored b d q fs) (root : Plain b) (plain : Plain (q ++ [m]))
    (file : ¬fs.IsLink (d ++ q ++ [m])) (base : Path) :
    fs.Stands base (absText (b ++ (q ++ [m]))) (d ++ q) m := stands_entry h.leads root plain h.dir file base

variable (quiet : host.Quiet)

include quiet

theorem rename_same {s : Bytes} (stands : w.fs.Stands host.cwd s p n)
    (file : w.fs.node (p ++ [n]) = some (.file mode data)) :
    ∃ w', rename s s host w = (.ok (),w') ∧ w'.fs.node = w.fs.node := by
  have looked : refuseDirectory s s host w = (.ok (),w.next w.fs) := by
    rw [refuseDirectory,bind_run (attempt_run (lstat_present quiet stands file))]
    rfl
  have moved : w.fs.renameat host.cwd s host.cwd s = .ok ((),w.fs) := by
    rw [FS.renameat,stands.place,stands.text]
    simp [file]
  have ran : renameCall s s host (w.next w.fs) = (.ok (),(w.next w.fs).next w.fs) := sys_run quiet moved
  refine ⟨(w.next w.fs).next w.fs,?_,rfl⟩
  rw [rename,bind_run looked]
  exact ran

theorem fillTemp_run {native text : Bytes} {mode old : Nat}
    (found : w.fs.locate false host.cwd native = .ok (f,.file mode data))
    (stands : w.fs.Stands host.cwd text p tmp) (staged : w.fs.node (p ++ [tmp]) = some (.file old []))
    (apart : f ≠ p ++ [tmp]) (rel : Bytes) :
    ∃ w', fillTemp native text rel host w = (.ok data.length,w') ∧
      w'.fs.node = Function.update w.fs.node (p ++ [tmp]) (some (.file old data)) := by
  have source : openFile native { nofollow := true } 0 host w = (.ok f,w.next w.fs) := by
    refine sys_run quiet ?_
    simp [FS.openat,found,FS.openExisting]
  obtain ⟨fs₂,emptied,changed⟩ := FS.put_map (FS.fits_replace staged (y := .file old []) rfl) (p ++ [tmp])
  have opened : openFile text { write := true, trunc := true } 0o600 host (w.next w.fs) =
      (.ok (p ++ [tmp]),(w.next w.fs).next fs₂) := by
    refine sys_run quiet ?_
    have there : w.fs.locate true host.cwd text = .ok (p ++ [tmp],.file old []) := stands.locate_present staged
    simpa [FS.openat,there,FS.openExisting] using emptied
  have still : fs₂.node (p ++ [tmp]) = some (.file old []) := by rw [changed,Function.update_self]
  have content : fs₂.node f = some (.file mode data) := by
    rw [changed,Function.update_of_ne apart]
    exact FS.locate_ok found
  have read : readAll f host ((w.next w.fs).next fs₂) = (.ok data,((w.next w.fs).next fs₂).next fs₂) :=
    query_run quiet (by rw [World.next_fs,FS.readAll,content])
  obtain ⟨w₄,wrote,filled⟩ := pwrite_run (w := ((w.next w.fs).next fs₂).next fs₂) quiet still 0 data
  have copied : copyAll f (p ++ [tmp]) host ((w.next w.fs).next fs₂) = (.ok data.length,w₄) := by
    rw [copyAll,bind_run read,bind_run wrote]
    rfl
  have synced : syncFile (p ++ [tmp]) host w₄ = (.ok (),w₄.next w₄.fs) := query_run quiet rfl
  have closed : close (p ++ [tmp]) host (w₄.next w₄.fs) = (.ok (),(w₄.next w₄.fs).next w₄.fs) := query_run quiet rfl
  refine ⟨(w₄.next w₄.fs).next w₄.fs,?_,?_⟩
  · rw [fillTemp,bind_run (mapError_run _ source),bind_run (mapError_run _ opened),copyInto,
      bind_run (attempt_run copied),bind_run (attempt_run synced),bind_run (attempt_run closed)]
    rfl
  · rw [World.next_fs,filled,World.next_fs,changed,Function.update_idem]
    simp [FS.spliced]

variable {native : Bytes} {want : Digest}

theorem verified_run
    (found : w.fs.locate false host.cwd native = .ok (p,.file mode data)) (same : sha256 data = want) (rel : Bytes)
    (message : String) : ∃ w', verified native rel want message host w = (.ok (),w') ∧ w'.fs = w.fs := by
  obtain ⟨w',read,kept⟩ := reads_hashFile quiet found w rfl
  refine ⟨w',?_,kept⟩
  rw [verified,bind_run read]
  exact require_run same _ _ _

/-- From the empty temporary to the file in place. -/
theorem publish_run (moored : Moored b d q w.fs) (root : Plain b) (content : Content (q ++ [n]))
    (plain : Plain (q ++ [n])) (valid : ValidName tmp) (temp : isTempName tmp = true)
    (slot : w.fs.Slot (d ++ q ++ [n])) {old : Nat} (staged : w.fs.node (d ++ q ++ [tmp]) = some (.file old []))
    (found : w.fs.locate false host.cwd native = .ok (f,.file mode data)) (out : ¬Inside d f)
    (op : Op) (same : sha256 data = want) :
    ∃ w', publish native (absText (b ++ (q ++ [tmp]))) (absText (b ++ (q ++ [n]))) op want host w = (.ok data.length,w') ∧
      w'.fs.node = Function.update (Function.update w.fs.node (d ++ q ++ [tmp]) none) (d ++ q ++ [n])
        (some (newFile op.expectedMode data)) := by
  have front : Plain q := (plain_append.mp plain).1
  have plain' : Plain (q ++ [tmp]) := plain_append.mpr ⟨front,by simpa using valid⟩
  have insideT : Inside d (d ++ q ++ [tmp]) := inside_temp content temp
  have file {fs : FS} {mode : Nat} {data : Bytes} {x : Path} (at_ : fs.node x = some (.file mode data)) :
      ¬fs.IsLink x := FS.Slot.plain (.inr ⟨_,_,at_⟩)
  obtain ⟨w₁,filled,changed₁⟩ := fillTemp_run quiet found
    (moored.stands root plain' (file staged) host.cwd) staged (fun at_ => out (at_ ▸ insideT)) op.rel
  have moored₁ := moored.change insideT changed₁
  have at₁ : w₁.fs.node (d ++ q ++ [tmp]) = some (.file old data) := by rw [changed₁,Function.update_self]
  have stands₁ := moored₁.stands root plain' (file at₁) host.cwd
  obtain ⟨w₂,checked,kept₂⟩ := verified_run quiet (stands₁.locate_present at₁) same op.rel "staged content digest mismatch"
  rw [← kept₂] at at₁ stands₁ moored₁
  obtain ⟨w₃,moded,changed₃⟩ := chmod_run quiet stands₁ at₁ (if op.expectedMode = 0 then 0o644 else op.expectedMode)
  have moored₃ := moored₁.change insideT changed₃
  have at₃ : w₃.fs.node (d ++ q ++ [tmp]) = some (newFile op.expectedMode data) := by
    rw [changed₃,Function.update_self,newFile]
  have stands₃ := moored₃.stands root plain' (file at₃) host.cwd
  have all₃ : w₃.fs.node = Function.update w.fs.node (d ++ q ++ [tmp]) (some (newFile op.expectedMode data)) := by
    rw [changed₃,kept₂,changed₁,Function.update_idem,newFile]
  obtain ⟨w₄,renamed,changed₄⟩ : ∃ w', rename (absText (b ++ (q ++ [tmp]))) (absText (b ++ (q ++ [n]))) host w₃ =
      (.ok (),w') ∧ w'.fs.node = Function.update (Function.update w₃.fs.node (d ++ q ++ [tmp]) none)
        (d ++ q ++ [n]) (some (newFile op.expectedMode data)) := by
    by_cases own : tmp = n
    · subst own
      obtain ⟨w',ran,same'⟩ := rename_same quiet stands₃ at₃
      refine ⟨w',ran,?_⟩
      rw [same',Function.update_idem,← at₃,Function.update_eq_self]
    · have apart : d ++ q ++ [tmp] ≠ d ++ q ++ [n] := fun eq => own (by simpa using eq)
      have slot₃ : w₃.fs.Slot (d ++ q ++ [n]) := by
        rw [FS.Slot,all₃,Function.update_of_ne apart.symm]
        exact slot
      exact rename_run quiet stands₃ (moored₃.stands root plain slot₃.plain host.cwd) at₃ slot₃ apart
  refine ⟨w₄,?_,?_⟩
  · rw [publish,bind_run filled,bind_run checked,bind_run (mapError_run _ moded),bind_run (mapError_run _ renamed)]
    rfl
  · rw [changed₄,all₃,Function.update_idem]

end staging

/-- Where the two trees lie: their texts keep leading to them whatever happens to the
destination's content, the destination is not inside the source, and a source inside the
destination is under its metadata directory. -/
structure Trees (fs : FS) (a b s d : Path) : Prop where
  source : Plain a
  dest : Plain b
  reads : fs.Anchored (Inside d) a s
  writes : fs.Anchored (Inside d) b d
  outside : ¬s <+: d
  nested : d <+: s → d ++ [metaDirName] <+: s

theorem Trees.apart {a b s d : Path} (h : Trees fs a b s d) (r : Path) : ¬Inside d (s ++ r) := by
  rintro ⟨c,content,same⟩
  have le : s <+: d ++ c := same ▸ List.prefix_append s r
  rcases List.prefix_or_prefix_of_prefix le (List.prefix_append d c) with above | below
  · exact h.outside above
  · obtain ⟨rest,shape⟩ := (h.nested below).trans le
    rw [List.append_assoc] at shape
    have := List.append_cancel_left shape
    exact content.2 (by rw [← this]; rfl)

/-- Between two operations: nothing but content has changed, there are no links among it,
and every object of the source meets nothing or its own kind. -/
structure Ready (before : FS) (s d : Path) (fs : FS) : Prop where
  outside : ∀ x, ¬Inside d x → fs.node x = before.node x
  clear : ∀ r, Content r → ¬fs.IsLink (d ++ r)
  kinds : ∀ r, Content r → before.node (s ++ r) ≠ none →
    before.IsDir (s ++ r) ∧ fs.Free (d ++ r) ∨
      (∃ mode data, before.node (s ++ r) = some (.file mode data)) ∧ fs.Slot (d ++ r)

section operations

variable {nfc : NFCTables} {host : Host} {w : World} {before fs : FS} {a b s d r q : Path} {n : Name} {op : Op}

theorem Ready.free (h : Ready before s d fs) (content : Content r) (dir : before.IsDir (s ++ r)) : fs.Free (d ++ r) := by
  rcases h.kinds r content dir.present with ⟨-,free⟩ | ⟨⟨mode,data,file⟩,-⟩
  · exact free
  · obtain ⟨_,at_⟩ := FS.isDir_iff.mp dir
    simp [file] at at_

theorem Ready.slot (h : Ready before s d fs) (content : Content r)
    (file : before.node (s ++ r) = some (.file mode data)) : fs.Slot (d ++ r) := by
  rcases h.kinds r content (by simp [file]) with ⟨dir,-⟩ | ⟨-,slot⟩
  · obtain ⟨_,at_⟩ := FS.isDir_iff.mp dir
    simp [file] at at_
  · exact slot

theorem Ready.way (h : Ready before s d fs) (trees : Trees before a b s d) (content : Content r)
    (dir : before.IsDir (s ++ r)) : ∀ c, c <+: r → fs.Free (d ++ c) := by
  intro c le
  by_cases top : c = []
  · subst top
    have root : before.IsDir d := (trees.writes before fun _ _ => rfl).1
    rw [List.append_nil,FS.Free,FS.IsDir,h.outside d not_inside_root]
    exact .inr root
  · exact h.free (content.above le top) (dir.above ((List.prefix_append_right_inj s).mpr le))

theorem Ready.way_above (h : Ready before s d fs) (trees : Trees before a b s d) (content : Content (q ++ [n]))
    (present : before.node (s ++ (q ++ [n])) ≠ none) : ∀ c, c <+: q → fs.Free (d ++ c) := by
  intro c le
  by_cases top : q = []
  · subst top
    rw [List.prefix_nil.mp le]
    have root : before.IsDir d := (trees.writes before fun _ _ => rfl).1
    rw [List.append_nil,FS.Free,FS.IsDir,h.outside d not_inside_root]
    exact .inr root
  · rw [← List.append_assoc] at present
    exact h.way trees (content.above (List.prefix_append _ _) top) (FS.parent_isDir present) c le

/-- Only content grows, and only content is swept. -/
theorem grow_outside {v : Node} (root : t d ≠ none) (content : ∀ c, c <+: q → c ≠ [] → Content c)
    (out : ¬Inside d x) : grow v d q t x = t x := by
  rw [grow,if_neg]
  rintro ⟨gone,c,le,rfl⟩
  by_cases top : c = []
  · subst top
    rw [List.append_nil] at gone
    exact root gone
  · exact out ⟨c,content c le top,rfl⟩

theorem sweep_outside (content : Content (q ++ [n])) (out : ¬Inside d x) : sweep junk (d ++ q) t x = t x := by
  rw [sweep_kept]
  rintro ⟨m,rfl,bad⟩
  exact out (inside_temp content bad)

theorem sweep_cases (t : Tree Name Node) (p x : Path) : sweep junk p t x = t x ∨ sweep junk p t x = none := by
  rw [sweep]
  split
  · exact .inr rfl
  · exact .inl rfl

theorem Trees.seen (trees : Trees before a b s d) (file : before.node (s ++ (q ++ [n])) = some (.file mode data))
    (outside : ∀ x, ¬Inside d x → fs.node x = before.node x) (base : Path) :
    fs.locate false base (absText (a ++ (q ++ [n]))) = .ok (s ++ (q ++ [n]),.file mode data) :=
  locate_object (trees.reads fs outside) trees.source (plain_of_present (by rw [file]; simp)) (by simp)
    ((outside _ (trees.apart _)).trans file) base

theorem dir_target (root : Plain b) (plain : Plain (q ++ [n])) :
    Posix.dir (absText (b ++ (q ++ [n]))) = absText (b ++ q) := by
  rw [← List.append_assoc]
  exact dir_absText (plain_append.mpr ⟨root,(plain_append.mp plain).1⟩ : Plain _).lexical (plain n (by simp)).segment

variable (quiet : host.Quiet)

include quiet

theorem checkTarget_run {text : Bytes} (op : Op) (stands : w.fs.Stands host.cwd text p n)
    (slot : w.fs.Slot (p ++ [n])) : ∃ w', checkTarget text op host w = (.ok (),w') ∧ w'.fs = w.fs := by
  refine ⟨w.next w.fs,?_,rfl⟩
  unfold checkTarget
  rcases slot with absent | ⟨mode,data,file⟩
  · rw [bind_run (attempt_failed (lstat_missing quiet (stands.locate_absent absent)))]
    exact require_run (show IsNotExist .noent from rfl) _ _ _
  · rw [bind_run (attempt_run (lstat_present quiet stands file))]
    rw [acceptTarget,require_bind (show (Node.file mode data).isLink = false from rfl)]
    exact require_run rfl _ _ _

theorem syncDir_run (text : Bytes) : ∃ w', (ignore (syncDir text) : LS Unit) host w = (.ok (),w') ∧ w'.fs = w.fs :=
  (Survives.query quiet _ _ : Survives host (syncDir text)).ignored (I := fun u => u.fs = w.fs)
    (keeps_query (I := fun fs => fs = w.fs) _) rfl

variable (trees : Trees before a b s d)

include trees

theorem applyMkdir_run (ready : Ready before s d w.fs) (content : Content r) (dir : before.IsDir (s ++ r))
    (rel : op.rel = relText r) (valid : validateRel nfc op.rel = .ok ()) (does : op.Does (.make mode)) :
    ∃ w', applyMkdir nfc (absText b) op host w = (.ok (),w') ∧
      w'.fs.node = (edit host.umask (.make mode)).run junk d r w.fs.node := by
  obtain ⟨r',good⟩ := validateRel_ok valid
  have plain : Plain r := plain_of_present dir.present
  have same : r' = r := relText_injective good.plain.lexical plain.lexical (good.text.symm.trans rel)
  subst same
  have native : joinUnder nfc (absText b) op.rel = absText (b ++ r') := joinUnder_eq trees.dest good valid
  have anchored := anchored_of_same trees.writes ready.outside
  have leads : w.fs.Leads b d := anchored w.fs fun _ _ => rfl
  have nonempty : absText (b ++ r') ≠ [] := absText_ne_nil _
  have way := ready.way trees content dir
  unfold applyMkdir
  rw [native,require_bind nonempty]
  rcases ready.free content dir with absent | there
  · -- nothing there yet
    have unseen : lstat (absText (b ++ r')) host w = (.error .noent,w.next w.fs) := by
      obtain ⟨q,n,rfl⟩ := (List.eq_nil_or_concat' r').resolve_left content.1
      refine query_failed quiet ?_
      rcases way q (List.prefix_append _ _) with gone | above
      · rw [(lost_entry leads trees.dest plain (fun c le => way c (le.trans (List.prefix_append _ _))) gone host.cwd).locate]
        rfl
      · rw [← List.append_assoc] at absent
        rw [(stands_entry leads trees.dest plain above (FS.Free.plain (.inl absent)) host.cwd).locate_absent absent]
        rfl
    obtain ⟨w₁,made,-,grown⟩ := mkdirAll_grows (w := w.next w.fs) quiet anchored trees.dest plain
      (fun c le more => ⟨c,content.above le more,rfl⟩) way (if op.expectedMode = 0 then 0o755 else op.expectedMode)
    obtain ⟨w₂,flushed,kept⟩ := syncDir_run (w := w₁) quiet (Posix.dir (absText (b ++ r')))
    refine ⟨w₂,?_,?_⟩
    · rw [bind_run (attempt_failed unseen)]
      dsimp only
      rw [require_bind (show IsNotExist .noent from rfl),bind_run (mapError_run _ made)]
      exact flushed
    · rw [kept,grown,does.2]
      rfl
  · -- a directory already
    obtain ⟨mode',at_⟩ := FS.isDir_iff.mp there
    have seen : lstat (absText (b ++ r')) host w = (.ok (.dir mode'),w.next w.fs) :=
      query_run quiet (by rw [locate_object leads trees.dest plain content.1 at_]; rfl)
    refine ⟨w.next w.fs,?_,?_⟩
    · rw [bind_run (attempt_run seen)]
      dsimp only
      rw [acceptDirectory,require_bind (show (Node.dir mode').isLink = false from rfl)]
      exact require_run rfl _ _ _
    · rw [World.next_fs,edit,Edit.run]
      funext x
      rw [grow,if_neg]
      rintro ⟨gone,c,le,rfl⟩
      exact (there.above ((List.prefix_append_right_inj d).mpr le)).present gone

/-- The drawn name is taken by something the clean-up leaves. -/
def Taken (host : Host) (d q : Path) (t : Tree Name Node) : Prop :=
  ∃ tick, sweep junk (d ++ q) (grow (newDir host.umask 0o755) d q t) (d ++ q ++ [tempAt host tick]) ≠ none

/-- The second half of `applyFile`. -/
def deliver (srcNative dstNative : Bytes) (op : Op) (want : Digest) : LS Nat := do
  let tmpPath ← mapError (mapWriteErr "apply" op.rel) (createTemp (Posix.dir dstNative))
  let written ← onError (publish srcNative tmpPath dstNative op want) (remove tmpPath)
  ignore (syncDir (Posix.dir dstNative))
  verified dstNative op.rel want "published content digest mismatch"
  pure written

/-- The directory of the target is there and clean, and nothing is in the target's way. -/
structure Cleared (before : FS) (b d q : Path) (n : Name) (fs : FS) : Prop where
  outside : ∀ x, ¬Inside d x → fs.node x = before.node x
  moored : Moored b d q fs
  slot : fs.Slot (d ++ q ++ [n])
  clear : ∀ m, isTempName m = true → ¬fs.IsLink (d ++ q ++ [m])

section delivering

variable {mode mode' : Nat} {data : Bytes} (content : Content (q ++ [n]))
  (file : before.node (s ++ (q ++ [n])) = some (.file mode' data))

include content file

/-- The first half: the directory is made and swept. -/
theorem applyFile_clears (ready : Ready before s d w.fs) (rel : op.rel = relText (q ++ [n]))
    (valid : validateRel nfc op.rel = .ok ()) (does : op.Does (.write mode data)) :
    ∃ w', applyFile nfc ⟨absText a,absText b⟩ op host w =
        deliver (absText (a ++ (q ++ [n]))) (absText (b ++ (q ++ [n]))) op (sha256 data) host w' ∧
      w'.fs.node = sweep junk (d ++ q) (grow (newDir host.umask 0o755) d q w.fs.node) ∧
      Cleared before b d q n w'.fs := by
  obtain ⟨r',good⟩ := validateRel_ok valid
  have present : before.node (s ++ (q ++ [n])) ≠ none := by simp [file]
  have plain : Plain (q ++ [n]) := plain_of_present present
  have front : Plain q := (plain_append.mp plain).1
  have same : r' = q ++ [n] := relText_injective good.plain.lexical plain.lexical (good.text.symm.trans rel)
  subst same
  obtain ⟨-,-,size,hex⟩ := does
  have want : digestFromHex op.rel op.expectedDigestHex = .ok (sha256 data) := by
    rw [hex]
    exact digestFromHex_hexOf _ _
  have nativeS := joinUnder_eq trees.source good valid
  have nativeD := joinUnder_eq trees.dest good valid
  have parent := dir_target trees.dest plain
  have nonempty : absText (a ++ (q ++ [n])) ≠ [] ∧ absText (b ++ (q ++ [n])) ≠ [] := ⟨absText_ne_nil _,absText_ne_nil _⟩
  obtain ⟨w₁,hashed,kept₁⟩ := reads_hashFile quiet (trees.seen file ready.outside host.cwd) w rfl
  have revalidated : revalidate (absText (a ++ (q ++ [n]))) op (sha256 data) host w = (.ok (),w₁) := by
    rw [revalidate,bind_run hashed]
    exact require_run ⟨rfl,.inr size.symm⟩ _ _ _
  have anchored₁ : w₁.fs.Anchored (Inside d) b d := by
    rw [kept₁]
    exact anchored_of_same trees.writes ready.outside
  have above : ∀ c, c <+: q → c ≠ [] → Content c := fun c le more =>
    content.above (le.trans (List.prefix_append _ _)) more
  obtain ⟨w₂,made,dir₂,grown⟩ := mkdirAll_grows quiet anchored₁ trees.dest front
    (fun c le more => ⟨c,above c le more,rfl⟩) (by rw [kept₁]; exact ready.way_above trees content present) 0o755
  rw [kept₁] at grown
  have root : w.fs.node d ≠ none := by
    rw [ready.outside d not_inside_root]
    exact (trees.writes before fun _ _ => rfl).1.present
  have outside₂ : ∀ x, ¬Inside d x → w₂.fs.node x = before.node x := fun x out => by
    rw [grown,grow_outside root above out,ready.outside x out]
  have moored₂ : Moored b d q w₂.fs := ⟨anchored_of_same trees.writes outside₂,dir₂⟩
  have slot₂ : w₂.fs.Slot (d ++ q ++ [n]) := by
    rw [FS.Slot,grown,List.append_assoc,grow_apart dropLast_not_below]
    exact ready.slot content file
  obtain ⟨w₃,checked,kept₃⟩ := checkTarget_run quiet op (moored₂.stands trees.dest plain slot₂.plain host.cwd) slot₂
  rw [← kept₃] at moored₂ slot₂ grown
  obtain ⟨w₄,cleaned,swept⟩ := cleanupTemps_sweeps quiet trees.dest moored₂.anchored plain content moored₂.dir
  have outside₄ : ∀ x, ¬Inside d x → w₄.fs.node x = before.node x := fun x out => by
    rw [swept,sweep_outside content out,kept₃,outside₂ x out]
  refine ⟨w₄,?_,by rw [swept,grown],outside₄,⟨anchored_of_same trees.writes outside₄,?_⟩,?_,fun m temp => ?_⟩
  · rw [applyFile,bind_run (ofExcept_ok want _)]
    dsimp only
    rw [nativeS,nativeD,parent,require_bind nonempty,bind_run revalidated,
      bind_run (mapError_run _ made),bind_run checked,bind_run (ignore_run cleaned),deliver,parent]
  · rw [FS.IsDir,swept,sweep_kept]
    · exact moored₂.dir
    · rintro ⟨m,same,-⟩
      exact absurd same (by simp)
  · rw [FS.Slot,swept]
    rcases sweep_cases w₃.fs.node (d ++ q) (d ++ q ++ [n]) with same | gone
    · rw [same]
      exact slot₂
    · exact .inl gone
  · rw [FS.IsLink,swept]
    rcases sweep_cases w₃.fs.node (d ++ q) (d ++ q ++ [m]) with same | gone
    · rw [same,grown,List.append_assoc,grow_apart dropLast_not_below]
      exact ready.clear _ (content_temp content temp)
    · simp only [gone,Option.any_none,Bool.false_eq_true,not_false_eq_true]

/-- The second half: the file is staged and put in place. -/
theorem deliver_run (cleared : Cleared before b d q n w.fs) (perm : op.expectedMode = mode)
    (absent : w.fs.node (d ++ q ++ [tempAt host w.tick]) = none) :
    ∃ w', deliver (absText (a ++ (q ++ [n]))) (absText (b ++ (q ++ [n]))) op (sha256 data) host w =
        (.ok data.length,w') ∧
      w'.fs.node = Function.update w.fs.node (d ++ q ++ [n]) (some (newFile mode data)) := by
  have plain : Plain (q ++ [n]) := plain_of_present (show before.node (s ++ (q ++ [n])) ≠ none by simp [file])
  have front : Plain q := (plain_append.mp plain).1
  have parent := dir_target trees.dest plain
  have insideD : Inside d (d ++ q ++ [n]) := ⟨q ++ [n],content,List.append_assoc ..⟩
  have valid : ValidName (tempAt host w.tick) := tempName_valid _
  have temp : isTempName (tempAt host w.tick) = true := isTempName_tempName _
  obtain ⟨w₅,old,created,changed₅⟩ :=
    createTemp_run quiet trees.dest cleared.moored.anchored front cleared.moored.dir absent
  have moored₅ := cleared.moored.change (inside_temp content temp) changed₅
  have outside₅ : ∀ x, ¬Inside d x → w₅.fs.node x = before.node x := by
    intro x out
    rw [changed₅,Function.update_of_ne,cleared.outside x out]
    rintro rfl
    exact out (inside_temp content temp)
  have slot₅ : w₅.fs.Slot (d ++ q ++ [n]) := by
    rw [FS.Slot,changed₅]
    by_cases own : d ++ q ++ [n] = d ++ q ++ [tempAt host w.tick]
    · rw [own,Function.update_self]
      exact .inr ⟨old,[],rfl⟩
    · rw [Function.update_of_ne own]
      exact cleared.slot
  have staged : w₅.fs.node (d ++ q ++ [tempAt host w.tick]) = some (.file old []) := by
    rw [changed₅,Function.update_self]
  obtain ⟨w₆,published,changed₆⟩ := publish_run quiet moored₅ trees.dest content plain valid temp
    slot₅ staged (trees.seen file outside₅ host.cwd) (trees.apart _) op rfl
  -- the temporary is gone again
  have final : w₆.fs.node = Function.update w.fs.node (d ++ q ++ [n]) (some (newFile mode data)) := by
    rw [changed₆,changed₅,Function.update_idem,perm,← absent,Function.update_eq_self]
  have moored₆ : Moored b d q w₆.fs := cleared.moored.change insideD final
  obtain ⟨w₇,flushed,kept₇⟩ := syncDir_run (w := w₆) quiet (absText (b ++ q))
  rw [← kept₇] at final moored₆
  have there : w₇.fs.node (d ++ q ++ [n]) = some (newFile mode data) := by rw [final,Function.update_self]
  have stands := moored₆.stands trees.dest plain (FS.Slot.plain (.inr ⟨_,_,there⟩)) host.cwd
  obtain ⟨w₈,checked,kept₈⟩ := verified_run quiet (stands.locate_present there) rfl op.rel
    "published content digest mismatch"
  refine ⟨w₈,?_,by rw [kept₈,final]⟩
  rw [deliver,parent,bind_run (mapError_run _ created),bind_run (onError_run published _),bind_run flushed,
    bind_run checked]
  rfl

theorem applyFile_run (ready : Ready before s d w.fs) (rel : op.rel = relText (q ++ [n]))
    (valid : validateRel nfc op.rel = .ok ()) (does : op.Does (.write mode data)) :
    (∃ w', applyFile nfc ⟨absText a,absText b⟩ op host w = (.ok data.length,w') ∧
      w'.fs.node = (edit host.umask (.write mode data)).run junk d (q ++ [n]) w.fs.node) ∨
    Taken host d q w.fs.node ∧ ∃ e w', applyFile nfc ⟨absText a,absText b⟩ op host w = (.error e,w') := by
  obtain ⟨w₁,start,swept,cleared⟩ := applyFile_clears quiet trees content file ready rel valid does
  have plain : Plain (q ++ [n]) := plain_of_present (show before.node (s ++ (q ++ [n])) ≠ none by simp [file])
  have front : Plain q := (plain_append.mp plain).1
  by_cases absent : w₁.fs.node (d ++ q ++ [tempAt host w₁.tick]) = none
  · left
    obtain ⟨w₂,run,changed⟩ := deliver_run quiet trees content file cleared does.2.1 absent
    refine ⟨w₂,start.trans run,?_⟩
    rw [changed,swept,edit,Edit.run,List.dropLast_concat,List.append_assoc]
  · right
    refine ⟨⟨w₁.tick,swept ▸ absent⟩,?_⟩
    obtain ⟨e,w₂,refused⟩ := createTemp_refused quiet trees.dest cleared.moored.anchored front cleared.moored.dir
      absent (cleared.clear _ (isTempName_tempName _))
    rw [start,deliver,dir_target trees.dest plain]
    exact ⟨_,w₂,bind_failed (mapError_failed _ refused)⟩

end delivering

end operations

section runs

variable {nfc : NFCTables} {host : Host} {w : World} {before fs : FS} {a b s d r : Path} {rs : List Path}
  {ops : List Op} {op : Op}

/-- The tasks of the paths, as edits. -/
def edits (umask : Nat) (before : FS) (s d : Path) (rs : List Path) : List (Path × Edit Node) :=
  rs.map fun r => (r,edit umask (taskOf before s d r))

theorem run_cases (t : Tree Name Node) (umask : Nat) (task : Task) (x : Path) :
    (edit umask task).run junk d r t x = t x ∨ (edit umask task).run junk d r t x = none ∨
      (∃ c mode, c <+: r ∧ x = d ++ c ∧ (edit umask task).run junk d r t x = some (.dir mode) ∧
        (c ≠ r ∨ ∃ m, task = .make m)) ∨
      ∃ mode data, task = .write mode data ∧ x = d ++ r ∧
        (edit umask task).run junk d r t x = some (newFile mode data) := by
  cases task with
  | leave => exact .inl rfl
  | make mode =>
    rw [edit,Edit.run,grow]
    split
    · next new =>
      obtain ⟨-,c,le,rfl⟩ := new
      exact .inr (.inr (.inl ⟨c,_,le,rfl,rfl,.inr ⟨mode,rfl⟩⟩))
    · exact .inl rfl
  | write mode data =>
    rw [edit,Edit.run]
    by_cases own : x = d ++ r
    · subst own
      rw [Function.update_self]
      exact .inr (.inr (.inr ⟨mode,data,rfl,rfl,rfl⟩))
    · rw [Function.update_of_ne own]
      rcases sweep_cases (grow (newDir umask 0o755) d r.dropLast t) (d ++ r.dropLast) x with same | gone
      · rw [same,grow]
        split
        · next new =>
          obtain ⟨-,c,le,rfl⟩ := new
          refine .inr (.inr (.inl ⟨c,_,le.trans (List.dropLast_prefix r),rfl,rfl,.inl fun top => ?_⟩))
          exact own (by rw [top])
        · exact .inl rfl
      · exact .inr (.inl gone)

theorem taskOf_write (task : taskOf before s d r = .write mode data) :
    ∃ mode', before.node (s ++ r) = some (.file mode' data) := by
  unfold taskOf at task
  split at task
  · cases task
  · next mode' data' at_ _ =>
    cases task
    exact ⟨mode',at_⟩
  · next mode' data' _ _ at_ _ =>
    split at task
    · cases task
    · cases task
      exact ⟨mode',at_⟩
  · cases task

theorem taskOf_make (task : taskOf before s d r = .make mode) : before.IsDir (s ++ r) ∧ before.node (d ++ r) = none := by
  unfold taskOf at task
  split at task
  · next at_ absent => exact ⟨FS.isDir_iff.mpr ⟨_,at_⟩,absent⟩
  · cases task
  · split at task <;> cases task
  · cases task

theorem run_outside (root : t d ≠ none) (content : Content r) (umask : Nat) (task : Task)
    (out : ¬Inside d x) : (edit umask task).run junk d r t x = t x := by
  obtain ⟨q,n,rfl⟩ := (List.eq_nil_or_concat' r).resolve_left content.1
  cases task with
  | leave => rfl
  | make mode => exact grow_outside root (fun c le more => content.above le more) out
  | write mode data =>
    have ne : x ≠ d ++ (q ++ [n]) := fun own => out ⟨q ++ [n],content,own⟩
    rw [edit,Edit.run,Function.update_of_ne ne,List.dropLast_concat,sweep_outside content out]
    exact grow_outside root (fun c le more => content.above (le.trans (List.prefix_append _ _)) more) out

theorem Ready.step (h : Ready before s d fs) (trees : Trees before a b s d) (content : Content r)
    (present : before.node (s ++ r) ≠ none) {fs' : FS} {umask : Nat}
    (changed : fs'.node = (edit umask (taskOf before s d r)).run junk d r fs.node) : Ready before s d fs' where
  outside x out := by
    have root : fs.node d ≠ none := by
      rw [h.outside d not_inside_root]
      exact (trees.writes before fun _ _ => rfl).1.present
    rw [changed,run_outside root content _ _ out,h.outside x out]
  clear c inside := by
    have cases_ := run_cases (d := d) (r := r) fs.node umask (taskOf before s d r) (d ++ c)
    rw [← changed] at cases_
    rw [FS.IsLink]
    rcases cases_ with same | gone | ⟨_,_,-,-,made,-⟩ | ⟨_,_,-,-,wrote⟩
    · rw [same]
      exact h.clear c inside
    · simp [gone]
    · simp [made,Node.isLink]
    · simp [wrote,newFile,Node.isLink]
  kinds c inside there := by
    have cases_ := run_cases (d := d) (r := r) fs.node umask (taskOf before s d r) (d ++ c)
    rw [← changed] at cases_
    -- what is made is a directory of the source, what is written a file of it
    rcases h.kinds c inside there with ⟨dir,free⟩ | ⟨file,slot⟩
    · refine .inl ⟨dir,?_⟩
      rcases cases_ with same | gone | ⟨_,mode,-,-,made,-⟩ | ⟨_,_,task,own,-⟩
      · rwa [FS.Free,FS.IsDir,same]
      · exact .inl gone
      · exact .inr (FS.isDir_iff.mpr ⟨mode,made⟩)
      · obtain ⟨mode',at_⟩ := taskOf_write task
        obtain ⟨_,at'⟩ := FS.isDir_iff.mp dir
        rw [List.append_cancel_left own,at_] at at'
        cases at'
    · refine .inr ⟨file,?_⟩
      rcases cases_ with same | gone | ⟨c',_,le,own,-,why⟩ | ⟨mode,data,-,-,wrote⟩
      · rwa [FS.Slot,same]
      · exact .inl gone
      · exfalso
        rw [← List.append_cancel_left own] at le why
        have dir : before.IsDir (s ++ c) := by
          by_cases last : c = r
          · rw [last]
            rcases why with other | ⟨m,task⟩
            · exact absurd last other
            · exact (taskOf_make task).1
          · exact FS.isDir_of_present present ((List.prefix_append_right_inj s).mpr le)
              fun same => last (List.append_cancel_left same)
        obtain ⟨_,at_⟩ := FS.isDir_iff.mp dir
        obtain ⟨_,_,at'⟩ := file
        simp [at'] at at_
      · exact .inr ⟨_,_,wrote⟩

theorem applyOp_run (quiet : host.Quiet) (trees : Trees before a b s d) (ready : Ready before s d w.fs)
    (content : Content r) (present : before.node (s ++ r) ≠ none) (rel : op.rel = relText r)
    (valid : validateRel nfc op.rel = .ok ()) (does : op.Does (taskOf before s d r)) (out : ApplyResult) :
    (∃ out' w', applyOp nfc ⟨absText a,absText b⟩ op out host w = (.ok out',w') ∧
      w'.fs.node = (edit host.umask (taskOf before s d r)).run junk d r w.fs.node) ∨
    ((∃ mode data, taskOf before s d r = .write mode data) ∧ Taken host d r.dropLast w.fs.node) ∧
      ∃ e w', applyOp nfc ⟨absText a,absText b⟩ op out host w = (.error e,w') := by
  unfold applyOp performOp
  cases task : taskOf before s d r with
  | leave =>
    rw [task] at does
    rw [show op.action = .skip from does]
    exact .inl ⟨_,w,rfl,rfl⟩
  | make mode =>
    rw [task] at does
    obtain ⟨w',run,changed⟩ := applyMkdir_run quiet trees ready content (taskOf_make task).1 rel valid does
    rw [does.1]
    exact .inl ⟨_,w',(bind_run run).trans rfl,changed⟩
  | write mode data =>
    rw [task] at does
    obtain ⟨mode',file⟩ := taskOf_write task
    obtain ⟨q,n,rfl⟩ := (List.eq_nil_or_concat' r).resolve_left content.1
    rw [List.dropLast_concat]
    rcases applyFile_run quiet trees content file ready rel valid does with ⟨w',run,changed⟩ | ⟨taken,e,w',refused⟩
    · left
      rcases does.1 with action | action <;> rw [action] <;>
        exact ⟨_,w',(bind_run run).trans rfl,changed⟩
    · right
      refine ⟨⟨⟨mode,data,rfl⟩,taken⟩,e,w',?_⟩
      rcases does.1 with action | action <;> rw [action] <;> exact bind_failed refused

/-- Some file's temporary meets an object of its name. -/
def Collides (host : Host) (before : FS) (s d : Path) (rs : List Path) : Prop :=
  ∃ done r rest, rs = done ++ r :: rest ∧ (∃ mode data, taskOf before s d r = .write mode data) ∧
    Taken host d r.dropLast (runAll junk d (edits host.umask before s d done) before.node)

theorem edits_append (umask : Nat) (done rest : List Path) :
    edits umask before s d (done ++ rest) = edits umask before s d done ++ edits umask before s d rest :=
  List.map_append

theorem runOps_run (quiet : host.Quiet) (trees : Trees before a b s d) (planned : Planned nfc before s d rs ops)
    {done rest : List Path} {more : List Op} (split : rs = done ++ rest)
    (steps : List.Forall₂ (fun r op => op.rel = relText r ∧ validateRel nfc op.rel = .ok () ∧
      op.Does (taskOf before s d r)) rest more) (ready : Ready before s d w.fs)
    (here : w.fs.node = runAll junk d (edits host.umask before s d done) before.node) (i : Nat) (out : ApplyResult) :
    (∃ out' w', runOps nfc (applyOp nfc ⟨absText a,absText b⟩) (fun _ _ _ s => pure s) i more out () host w =
        (.ok (out',()),w') ∧ w'.fs.node = runAll junk d (edits host.umask before s d rs) before.node ∧
        Ready before s d w'.fs) ∨
    Collides host before s d rs ∧
      ∃ e w', runOps nfc (applyOp nfc ⟨absText a,absText b⟩) (fun _ _ _ s => pure s) i more out () host w = (.error e,w') := by
  induction steps generalizing done w i out with
  | nil =>
    rw [List.append_nil] at split
    exact .inl ⟨out,w,rfl,split ▸ here,ready⟩
  | @cons r op rest more step _ ih =>
    obtain ⟨rel,valid,does⟩ := step
    obtain ⟨content,present⟩ := (planned.mem r).mp (by rw [split]; simp)
    rw [runOps,bind_run (ofExcept_ok valid _)]
    rcases applyOp_run quiet trees ready content present rel valid does out with
      ⟨out',w',run,changed⟩ | ⟨⟨task,taken⟩,e,w',refused⟩
    · have further : rs = done ++ [r] ++ rest := by rw [split]; simp
      have there : w'.fs.node = runAll junk d (edits host.umask before s d (done ++ [r])) before.node := by
        rw [edits_append,runAll_append,← here]
        exact changed
      have shown : (pure () : LS Unit) host w' = (.ok (),w') := rfl
      rw [bind_run run,bind_run shown]
      exact ih further (ready.step trees content present changed) there (i + 1) out'
    · exact .inr ⟨⟨done,r,rest,split,task,here ▸ taken⟩,e,w',bind_failed refused⟩

theorem ready_start (planned : Planned nfc before s d rs ops) : Ready before s d before :=
  ⟨fun _ _ => rfl,planned.clear,planned.kinds⟩

/-- `Apply` on a quiet host: the tasks of the plan, or a temporary could not be made. -/
theorem apply_run (quiet : host.Quiet) (trees : Trees w.fs a b s d) {p : Plan} (planned : Planned nfc w.fs s d rs p.ops)
    (source : p.sourceRoot = absText a) (dest : p.destRoot = absText b) :
    (∃ out w', apply nfc ⟨absText a,absText b⟩ p host w = (.ok out,w') ∧
      w'.fs.node = runAll junk d (edits host.umask w.fs s d rs) w.fs.node ∧ Ready w.fs s d w'.fs) ∨
    Collides host w.fs s d rs ∧ ∃ e w', apply nfc ⟨absText a,absText b⟩ p host w = (.error e,w') := by
  have leads : w.fs.Leads b d := trees.writes w.fs fun _ _ => rfl
  have there : w.fs.IsDir (d ++ []) := by rw [List.append_nil]; exact leads.1
  obtain ⟨mode,found⟩ := (spells_absText (y := b ++ []) (by simpa using trees.dest)).locate_dir leads plain_nil there host.cwd
  rw [List.append_nil] at found
  have made : mkdirAll (absText b) 0o755 host w = (.ok (),w.next w.fs) := mkdirAllFrom_there quiet _ _ found
  have start : (0 : Int) ≤ 0 ∧ (0 : Int) ≤ p.ops.length := ⟨Int.le_refl 0,Int.natCast_nonneg _⟩
  have checked : checkPlan "apply" ⟨absText a,absText b⟩ p 0 host w = (.ok (),w) := by
    rw [checkPlan,require_bind (.inr source),require_bind (.inr dest)]
    exact require_run start _ _ _
  unfold apply applyWith
  rw [bind_bind,bind_run checked,bind_bind,bind_run (mapError_run _ made)]
  rcases runOps_run (w := w.next w.fs) quiet trees planned (show rs = [] ++ rs from rfl) planned.ops
    (ready_start planned) rfl 0 ({} : ApplyResult) with
    ⟨out,w',run,changed⟩ | ⟨collides,e,w',refused⟩
  · exact .inl ⟨out,w',(bind_run run).trans rfl,changed⟩
  · exact .inr ⟨collides,e,w',bind_failed refused⟩

end runs

end Integris.LocalSync.Delivery
