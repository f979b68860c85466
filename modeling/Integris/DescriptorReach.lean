import Integris.Berth
import Integris.ReceiveAtContainment

/-! Calls through a descriptor that go through. A relative text of names is walked from the
descriptor; `mkdiratAll` makes what is missing on the way, `openDirAt` only goes where
directories are. -/
namespace Integris.RemoteSync.Descriptor

open Posix LocalSync Prog PathGrammar

section texts

variable {fs : FS} {fd q : Path} {n : Name} {follow : Bool}

theorem place_relText (plain : Plain (q ++ [n])) :
    fs.place follow fd (relText (q ++ [n])) = fs.walk follow FS.maxLinks fd (q ++ [n]) := by
  rw [FS.place,FS.resolve,if_neg (relText_ne_nil plain.lexical (by simp)),if_neg (zero_not_mem_relText plain),
    isRooted_relText plain.lexical,components_relText plain.lexical]
  rfl

theorem stands_relText (plain : Plain (q ++ [n])) (there : fs.IsDir (fd ++ q))
    (file : ¬fs.IsLink (fd ++ q ++ [n])) : fs.Stands fd (relText (q ++ [n])) (fd ++ q) n := by
  have valid : ValidName n := plain n (by simp)
  refine ⟨there,valid,file,endsInSlash_relText valid.segment,fun follow => ?_⟩
  rw [place_relText plain]
  exact FS.walk_dir FS.maxLinks fd there plain.down fun _ => file

theorem stands_name (valid : ValidName n) (there : fs.IsDir fd) (file : ¬fs.IsLink (fd ++ [n])) : fs.Stands fd n fd n := by
  have stands : fs.Stands fd (relText ([] ++ [n])) (fd ++ []) n :=
    stands_relText (by simpa using valid) (by simpa using there) (by simpa using file)
  simpa using stands

theorem lost_relText (plain : Plain (q ++ [n])) (here : fs.IsDir fd) (way : ∀ r, r <+: q → fs.Free (fd ++ r))
    (gone : fs.node (fd ++ q) = none) : fs.Lost fd (relText (q ++ [n])) := by
  refine ⟨endsInSlash_relText (plain n (by simp)).segment,fun follow => ?_⟩
  rw [place_relText plain]
  exact FS.walk_missing FS.maxLinks here (plain_append.mp plain).1.down way gone (by simp)

/-- An absent name is not found, whether its directory is there or not. -/
theorem locate_absent (plain : Plain (q ++ [n])) (here : fs.IsDir fd) (way : ∀ r, r <+: q → fs.Free (fd ++ r))
    (absent : fs.node (fd ++ q ++ [n]) = none) : fs.locate follow fd (relText (q ++ [n])) = .error .noent := by
  rcases way q (List.prefix_refl _) with gone | there
  · exact (lost_relText plain here way gone).locate
  · have file : ¬fs.IsLink (fd ++ q ++ [n]) := by rw [FS.IsLink,absent]; simp
    exact (stands_relText plain there file).locate_absent absent

end texts

/-! One directory at a time. -/

/-- A component `mkdiratAll` goes into. -/
def Accepted (nfc : NFCTables) (m : Name) : Prop := (92 : UInt8) ∉ m ∧ ∃ comps, validateJoined nfc m = .ok comps

theorem bare_run {m : Os α} {host : Host} {w w' : World} {a : α} (run : m host w = (.ok a,w')) :
    bare m host w = (.ok a,w') := mapError_run _ run

section runs

variable {nfc : NFCTables} {host : Host} {w : World} {fd q : Path} {n : Name} (quiet : host.Quiet)

include quiet

variable {flags : FS.OpenFlags} {mode : Nat}

theorem openat_run {s : Bytes} {p : Path} {fs : FS} (ran : w.fs.openat host.umask fd s flags mode = .ok (p,fs)) :
    Unix.openat fd s flags mode host w = (.ok p,w.next fs) := sys_run quiet ran

theorem openat_failed {s : Bytes} {e : Errno} (ran : w.fs.openat host.umask fd s flags mode = .error e) :
    Unix.openat fd s flags mode host w = (.error e,w.next w.fs) := sys_failed quiet ran

theorem openDirectory_run (valid : ValidName n) (there : w.fs.IsDir (fd ++ [n])) :
    openDirectory fd n host w = (.ok (fd ++ [n]),w.next w.fs) := by
  obtain ⟨mode,at_⟩ := FS.isDir_iff.mp there
  have stands := stands_name valid (FS.dir_of_entry at_) there.not_isLink
  refine openat_run quiet ?_
  rw [FS.openat,if_neg (by decide),stands.locate_present at_]
  rfl

theorem openDirectory_missing (valid : ValidName n) (here : w.fs.IsDir fd) (gone : w.fs.node (fd ++ [n]) = none) :
    openDirectory fd n host w = (.error .noent,w.next w.fs) := by
  have stands := stands_name valid here (by simp [FS.IsLink,gone])
  refine openat_failed quiet ?_
  rw [FS.openat,if_neg (by decide),stands.locate_absent gone]

theorem mkdiratOne_run (valid : ValidName n) (here : w.fs.IsDir fd) (free : w.fs.Free (fd ++ [n])) (perm : Nat) :
    ∃ w', mkdiratOne fd n perm host w = (.ok (),w') ∧ w'.fs.IsDir (fd ++ [n]) ∧ Deepens w.fs w'.fs fd [n] ∧
      (w.fs.IsDir (fd ++ [n]) → w'.fs = w.fs) := by
  have stands := stands_name valid here free.plain
  rcases free with gone | there
  · obtain ⟨fs',made⟩ := FS.mkdirat_works (stands.place false) here valid gone host.umask perm
    obtain ⟨_,_,placed,-,changed⟩ := FS.mkdirat_ok made
    rw [stands.place] at placed
    cases placed
    have ran : Unix.mkdirat fd n perm host w = (.ok (),w.next fs') := sys_run quiet made
    have dir : fs'.IsDir (fd ++ [n]) := FS.isDir_iff.mpr ⟨_,by rw [changed,Function.update_self]⟩
    refine ⟨w.next fs',?_,dir,fun x => ?_,fun there => absurd gone there.present⟩
    · rw [mkdiratOne,bind_run (attempt_run ran)]
      rfl
    · by_cases new : x = fd ++ [n]
      · subst new
        exact .inr ⟨gone,dir,[n],List.prefix_refl _,by simp,rfl⟩
      · left
        rw [World.next_fs,changed,Function.update_of_ne new]
  · obtain ⟨mode,at_⟩ := FS.isDir_iff.mp there
    have refused : Unix.mkdirat fd n perm host w = (.error .exist,w.next w.fs) :=
      sys_failed quiet (by simp only [FS.mkdirat,stands.place,at_])
    refine ⟨w.next w.fs,?_,there,Deepens.refl _ _ _,fun _ => rfl⟩
    rw [mkdiratOne,bind_run (attempt_failed refused)]
    exact require_run rfl _ _ _

theorem enterComponent_run (valid : ValidName n) (accepted : Accepted nfc n) (here : w.fs.IsDir fd)
    (free : w.fs.Free (fd ++ [n])) (perm : Nat) :
    ∃ w', enterComponent nfc perm fd n host w = (.ok (fd ++ [n]),w') ∧ w'.fs.IsDir (fd ++ [n]) ∧
      Deepens w.fs w'.fs fd [n] ∧ (w.fs.IsDir (fd ++ [n]) → w'.fs = w.fs) := by
  obtain ⟨w₁,made,dir,grown,same⟩ := mkdiratOne_run quiet valid here free perm
  obtain ⟨back,comps,checked⟩ := accepted
  refine ⟨w₁.next w₁.fs,?_,dir,grown,same⟩
  rw [enterComponent,require_bind valid.2.2.1,require_bind ⟨back,valid.2.2.2.2⟩,checked]
  dsimp only
  rw [bind_run (bare_run made)]
  exact bare_run (openDirectory_run quiet valid dir)

section way

variable (here : w.fs.IsDir fd) (way : ∀ r, r <+: q → w.fs.Free (fd ++ r))

include here way

theorem enterComponents_run (plain : Plain q) (accepted : ∀ m ∈ q, Accepted nfc m) (perm : Nat) :
    ∃ w', enterComponents nfc perm fd q host w = (.ok (fd ++ q),w') ∧ w'.fs.IsDir (fd ++ q) ∧
      Deepens w.fs w'.fs fd q ∧ (w.fs.IsDir (fd ++ q) → w'.fs = w.fs) := by
  induction q generalizing fd w with
  | nil => exact ⟨w,by rw [List.append_nil]; rfl,by simpa using here,Deepens.refl _ _ _,fun _ => rfl⟩
  | cons m q ih =>
    obtain ⟨valid,rest⟩ := plain_cons.mp plain
    have first : w.fs.Free (fd ++ [m]) := way [m] ⟨q,rfl⟩
    obtain ⟨w₁,entered,dir₁,grown₁,same₁⟩ := enterComponent_run quiet valid (accepted m List.mem_cons_self) here first perm
    have way₁ : ∀ r, r <+: q → w₁.fs.Free (fd ++ [m] ++ r) := by
      intro r le
      rw [List.append_assoc]
      exact grown₁.free (way (m :: r) (List.cons_prefix_cons.mpr ⟨rfl,le⟩))
    obtain ⟨w₂,went,dir₂,grown₂,same₂⟩ := ih dir₁ way₁ rest fun k hk => accepted k (List.mem_cons_of_mem _ hk)
    rw [List.append_assoc] at went dir₂ same₂
    refine ⟨w₂,?_,dir₂,fun x => ?_,fun there => ?_⟩
    · rw [enterComponents,if_neg (not_or.mpr ⟨valid.1,valid.2.1⟩),bind_run entered]
      exact went
    · rcases grown₂ x with same | ⟨gone,dir,r,le,more,at_⟩
      · rcases grown₁ x with same' | ⟨gone,dir,r,le,more,at_⟩
        · exact .inl (same.trans same')
        · refine .inr ⟨gone,?_,r,le.trans ⟨q,rfl⟩,more,at_⟩
          rwa [FS.IsDir,same]
      · rw [List.append_assoc] at at_
        refine .inr ⟨?_,dir,m :: r,List.cons_prefix_cons.mpr ⟨rfl,le⟩,by simp,at_⟩
        rcases grown₁ x with same' | ⟨gone',-⟩
        · rwa [same'] at gone
        · exact gone'
    · have above : w.fs.IsDir (fd ++ [m]) := there.above ((List.prefix_append_right_inj _).mpr ⟨q,rfl⟩)
      rw [same₂ (same₁ above ▸ there),same₁ above]

theorem parentFD_run (plain : Plain (q ++ [n])) (accepted : ∀ m ∈ q, Accepted nfc m) (perm : Nat) :
    ∃ w', parentFD nfc fd (relText (q ++ [n])) perm host w = (.ok (fd ++ q),w') ∧ w'.fs.IsDir (fd ++ q) ∧
      Deepens w.fs w'.fs fd q ∧ (w.fs.IsDir (fd ++ q) → w'.fs = w.fs) := by
  have front : Plain q := (plain_append.mp plain).1
  rw [parentFD,dir_relText plain.lexical]
  by_cases h : q = []
  · subst h
    rw [List.append_nil]
    exact ⟨w,rfl,here,Deepens.refl _ _ _,fun _ => rfl⟩
  · have text : relText q ≠ [] := relText_ne_nil front.lexical h
    have dup : Unix.dup fd host w = (.ok fd,w.next w.fs) := query_run quiet rfl
    obtain ⟨w₁,went,rest⟩ := enterComponents_run (w := w.next w.fs) quiet here way front accepted perm
    refine ⟨w₁,?_,rest⟩
    rw [if_neg h,if_pos ⟨relText_ne_dot front.lexical,text⟩,mkdiratAll,bind_run (bare_run dup),
      if_neg (not_or.mpr ⟨text,relText_ne_dot front.lexical⟩),splitOn_relText front.lexical h]
    exact went

theorem stepInto_run (plain : Plain q) :
    ∃ w', w'.fs = w.fs ∧ (w.fs.IsDir (fd ++ q) ∧ stepInto fd q host w = (.ok (fd ++ q),w') ∨
      w.fs.node (fd ++ q) = none ∧ stepInto fd q host w = (.error .noent,w')) := by
  induction q generalizing fd w with
  | nil => exact ⟨w,rfl,.inl ⟨by simpa using here,by rw [List.append_nil]; rfl⟩⟩
  | cons m q ih =>
    obtain ⟨valid,rest⟩ := plain_cons.mp plain
    rw [stepInto,if_neg (not_or.mpr ⟨valid.1,valid.2.1⟩),require_bind valid.2.2.1]
    rcases way [m] ⟨q,rfl⟩ with gone | dir
    · refine ⟨w.next w.fs,rfl,.inr ⟨?_,bind_failed (openDirectory_missing quiet valid here gone)⟩⟩
      by_contra there
      by_cases last : q = []
      · exact there (last ▸ gone)
      · have above : w.fs.IsDir (fd ++ [m]) := FS.isDir_of_present there
          ((List.prefix_append_right_inj _).mpr ⟨q,rfl⟩) (by simpa using Ne.symm last)
        exact above.present gone
    · have way₁ (r : Path) (le : r <+: q) : w.fs.Free (fd ++ [m] ++ r) := by
        rw [List.append_assoc]
        exact way (m :: r) (List.cons_prefix_cons.mpr ⟨rfl,le⟩)
      obtain ⟨w₁,same,how⟩ := ih (w := w.next w.fs) dir way₁ rest
      rw [List.append_assoc] at how
      refine ⟨w₁,same,?_⟩
      rw [bind_run (openDirectory_run quiet valid dir)]
      exact how

theorem existingParent_run (plain : Plain (q ++ [n])) :
    ∃ w', w'.fs = w.fs ∧ (w.fs.IsDir (fd ++ q) ∧ existingParent fd (relText (q ++ [n])) host w = (.ok (fd ++ q),w') ∨
        w.fs.node (fd ++ q) = none ∧ existingParent fd (relText (q ++ [n])) host w = (.error .noent,w')) := by
  have front : Plain q := (plain_append.mp plain).1
  rw [existingParent,dir_relText plain.lexical]
  by_cases h : q = []
  · subst h
    rw [List.append_nil]
    exact ⟨w,rfl,.inl ⟨here,rfl⟩⟩
  · have text : relText q ≠ [] := relText_ne_nil front.lexical h
    have dup : Unix.dup fd host w = (.ok fd,w.next w.fs) := query_run quiet rfl
    rw [if_neg h,if_neg (not_or.mpr ⟨relText_ne_dot front.lexical,text⟩),openDirAt,bind_run dup,
      splitOn_relText front.lexical h]
    exact stepInto_run (w := w.next w.fs) quiet here way front

theorem unlinkatPath_erases (plain : Plain (q ++ [n])) :
    ∃ w', (ignore (unlinkatPath fd (relText (q ++ [n]))) : Prog Host World ε Unit) host w = (.ok (),w') ∧
      (w'.fs.node = w.fs.node ∨ w'.fs.node = Function.update w.fs.node (fd ++ q ++ [n]) none) := by
  have segment : Segment n := (plain n (by simp)).segment
  obtain ⟨w₁,same,⟨-,parent⟩ | ⟨-,lost⟩⟩ := existingParent_run quiet here way plain
  · have step : unlinkatPath fd (relText (q ++ [n])) host w = Unix.unlinkat (fd ++ q) n host w₁ := by
      rw [unlinkatPath,bind_run parent,base_relText plain.lexical]
    rcases ran : w₁.fs.unlinkat (fd ++ q) n with e | ⟨⟨⟩,fs'⟩
    · have refused : Unix.unlinkat (fd ++ q) n host w₁ = (.error e,w₁.next w₁.fs) := sys_failed quiet ran
      exact ⟨w₁.next w₁.fs,ignore_failed (step.trans refused),.inl (by rw [World.next_fs,same])⟩
    · obtain ⟨d,m,x,where_,-,-,changed⟩ := FS.unlinkat_ok ran
      cases place_name segment where_
      have gone : Unix.unlinkat (fd ++ q) n host w₁ = (.ok (),w₁.next fs') := sys_run quiet ran
      exact ⟨w₁.next fs',ignore_run (step.trans gone),.inr (by rw [World.next_fs,changed,same])⟩
  · exact ⟨w₁,ignore_failed (bind_failed lost),.inl (by rw [same])⟩

theorem fstatatRegular_missing (plain : Plain (q ++ [n])) (absent : w.fs.node (fd ++ q ++ [n]) = none) :
    fstatatRegular fd (relText (q ++ [n])) host w = (.error .noent,w.next w.fs) := by
  have seen : Unix.fstatat fd (relText (q ++ [n])) host w = (.error .noent,w.next w.fs) :=
    query_failed quiet (by rw [locate_absent plain here way absent]; rfl)
  exact bind_failed seen

/-- Looking for a file makes the directories it would be in. -/
theorem openatRead_missing (plain : Plain (q ++ [n])) (accepted : ∀ m ∈ q, Accepted nfc m)
    (absent : w.fs.node (fd ++ q ++ [n]) = none) :
    ∃ w', openatRead nfc fd (relText (q ++ [n])) host w = (.error (.errno .noent),w') ∧ Deepens w.fs w'.fs fd q := by
  obtain ⟨w₁,parent,dir,grown,-⟩ := parentFD_run quiet here way plain accepted 0o700
  have absent₁ : w₁.fs.node (fd ++ q ++ [n]) = none := by
    rw [grown.apart fun r le => prefix_ne le n]
    exact absent
  have file : ¬w₁.fs.IsLink (fd ++ q ++ [n]) := by rw [FS.IsLink,absent₁]; simp
  have stands := stands_name (plain n (by simp)) dir file
  refine ⟨w₁.next w₁.fs,?_,grown⟩
  rw [openatRead,openatCreate,bind_run parent,base_relText plain.lexical]
  refine mapError_failed _ (openat_failed quiet ?_)
  rw [FS.openat,if_neg (by decide),stands.locate_absent absent₁]

end way

section files

variable {mode : Nat} {data : Bytes}

theorem fstatatRegular_run (plain : Plain (q ++ [n])) (file : w.fs.node (fd ++ q ++ [n]) = some (.file mode data)) :
    fstatatRegular fd (relText (q ++ [n])) host w = (.ok (.file mode data),w.next w.fs) := by
  have stands := stands_relText plain (FS.dir_of_entry file) (FS.Slot.plain (.inr ⟨_,_,file⟩))
  have seen : Unix.fstatat fd (relText (q ++ [n])) host w = (.ok (.file mode data),w.next w.fs) :=
    query_run quiet (by rw [stands.locate_present file]; rfl)
  rw [fstatatRegular,bind_run seen]
  exact require_bind rfl

theorem openatRead_run (plain : Plain (q ++ [n])) (accepted : ∀ m ∈ q, Accepted nfc m)
    (file : w.fs.node (fd ++ q ++ [n]) = some (.file mode data)) :
    ∃ w', openatRead nfc fd (relText (q ++ [n])) host w = (.ok (fd ++ q ++ [n]),w') ∧ w'.fs = w.fs := by
  have there : w.fs.IsDir (fd ++ q) := FS.dir_of_entry file
  obtain ⟨w₁,parent,-,-,same⟩ := parentFD_run quiet (there.above (List.prefix_append _ _))
    (fun r le => .inr (there.above ((List.prefix_append_right_inj _).mpr le))) plain accepted 0o700
  have file₁ : w₁.fs.node (fd ++ q ++ [n]) = some (.file mode data) := same there ▸ file
  have stands : w₁.fs.Stands (fd ++ q) n (fd ++ q) n :=
    stands_name (plain n (by simp)) (FS.dir_of_entry file₁) (FS.Slot.plain (.inr ⟨_,_,file₁⟩))
  refine ⟨w₁.next w₁.fs,?_,same there⟩
  rw [openatRead,openatCreate,bind_run parent,base_relText plain.lexical]
  exact bare_run (openat_run quiet (stands.openat_read file₁ rfl rfl rfl))

theorem hashAt_run (plain : Plain (q ++ [n])) (accepted : ∀ m ∈ q, Accepted nfc m)
    (file : w.fs.node (fd ++ q ++ [n]) = some (.file mode data)) :
    ∃ w', hashAt nfc fd (relText (q ++ [n])) host w = (.ok ⟨sha256 data,data.length⟩,w') ∧ w'.fs = w.fs := by
  obtain ⟨w₁,opened,same⟩ := openatRead_run quiet plain accepted file
  have file₁ : w₁.fs.node (fd ++ q ++ [n]) = some (.file mode data) := same ▸ file
  have seen : fstat (fd ++ q ++ [n]) host w₁ = (.ok (.file mode data),w₁.next w₁.fs) := query_run quiet (by rw [file₁])
  have regular : isRegular (.file mode data) = true := rfl
  have read : readAll (fd ++ q ++ [n]) host (w₁.next w₁.fs) = (.ok data,(w₁.next w₁.fs).next w₁.fs) :=
    query_run quiet (by rw [World.next_fs,FS.readAll,file₁])
  refine ⟨(w₁.next w₁.fs).next w₁.fs,?_,same⟩
  rw [hashAt,bind_run opened]
  refine mapError_run _ ?_
  rw [hashOpenedFile,bind_run (mapError_run _ seen),require_bind regular,bind_run (mapError_run _ read)]
  rfl

end files

end runs

/-! The components of an accepted path. -/

variable {index : Int} {nfc : NFCTables}

theorem separators_again {c : Bytes} (h : separators index c = .ok ()) (index' : Int) : separators index' c = .ok () := by
  induction c with
  | nil => rfl
  | cons b c ih =>
    simp only [separators,reject_ok,except_unit_bind_ok] at h ⊢
    exact ⟨h.1,h.2.1,ih h.2.2⟩

theorem validateComponent_again {c : Bytes}
    (h : validateComponent nfc {} c index = .ok ()) (index' : Int) : validateComponent nfc {} c index' = .ok () := by
  simp only [validateComponent,reject_ok,except_unit_bind_ok] at h ⊢
  obtain ⟨empty,len,isDot,isUp,seps,rest⟩ := h
  exact ⟨empty,len,isDot,isUp,separators_again seps index',rest⟩

theorem accepted_of_validateJoined {joined : Bytes} {comps : List Bytes} {m : Name}
    (h : validateJoined nfc joined = .ok comps) (hm : m ∈ comps) : Accepted nfc m := by
  simp only [validateJoined,validateComponents,reject_ok,except_unit_bind_ok] at h
  obtain ⟨-,-,⟨-,-,each⟩,result⟩ := h
  cases result
  obtain ⟨index,checked⟩ := validateEach_mem each hm
  have once := validateComponent_again checked 0
  simp only [validateComponent,reject_ok,except_unit_bind_ok] at checked
  obtain ⟨empty,len,-,-,seps,abs,-⟩ := checked
  obtain ⟨-,slashless,back⟩ := separators_ok seps
  have alone : m.splitOn slash = [m] := by
    simpa using splitOn_relText (p := [m]) (by simpa using (validateComponent_ok once).1.segment) (by simp)
  refine ⟨back,[m],?_⟩
  have relative : ¬isAbsoluteJoined m = true := by
    rcases m with _ | ⟨b0,_ | ⟨b1,_⟩⟩
    · exact absurd rfl empty
    · simp only [List.mem_singleton] at slashless back
      simp [isAbsoluteJoined,Ne.symm slashless,Ne.symm back]
    · simp only [List.mem_cons,not_or] at slashless back
      simp [isAbsoluteJoined,Ne.symm slashless.1,Ne.symm back.1]
      simpa [isAbsoluteComponent] using abs
  have short : ¬0 + m.length > maxPathBytes := by
    simp only [maxPathBytes,maxComponentBytes] at len ⊢
    omega
  have each' : validateEach nfc {} 0 0 [m] = .ok () := by
    simp only [validateEach,reject_ok,except_unit_bind_ok]
    exact ⟨once,short,trivial⟩
  simp only [validateJoined,validateComponents,reject_ok,except_unit_bind_ok,alone]
  exact ⟨empty,relative,⟨by simp,by simp [maxComponents],each'⟩,rfl⟩

end Integris.RemoteSync.Descriptor
