import Integris.ApplyRun

/-! What `Apply` delivers. The clean-up that precedes every written file takes whatever
has the name of a temporary, so a plan is delivered exactly when no such entry, of the
source or a file of the destination alone, shares its directory with a file that is
written after it. -/
namespace Integris.LocalSync.Delivery

open Posix Prog PathGrammar PathMap

/-- Every object of the source is in the destination with its kind and digest, and every
file of the destination that the source does not name is as it was. -/
structure Delivered (before after : FS) (s d : Path) : Prop where
  dirs : ∀ r, Content r → before.IsDir (s ++ r) → after.IsDir (d ++ r)
  files : ∀ r mode data, Content r → before.node (s ++ r) = some (.file mode data) →
    ∃ mode' data', after.node (d ++ r) = some (.file mode' data') ∧ sha256 data' = sha256 data
  others : ∀ r mode data, before.node (d ++ r) = some (.file mode data) →
    ¬(Content r ∧ before.node (s ++ r) ≠ none) → after.node (d ++ r) = some (.file mode data)

/-- The entry `m` of the directory `q` has the name of a temporary and nothing in it on
either side, and a file of its directory is written: after it, if the plan makes it. -/
structure Exposed (before : FS) (s d q : Path) (m : Name) : Prop where
  temp : isTempName m = true
  concerned : before.node (s ++ (q ++ [m])) ≠ none ∨
    ∃ mode data, before.node (d ++ (q ++ [m])) = some (.file mode data)
  source : Bare before.node (s ++ (q ++ [m]))
  dest : Bare before.node (d ++ (q ++ [m]))
  written : ∃ n, n ≠ m ∧ Content (q ++ [n]) ∧ (∃ mode data, taskOf before s d (q ++ [n]) = .write mode data) ∧
    (taskOf before s d (q ++ [m]) ≠ .leave → relText (q ++ [m]) < relText (q ++ [n]))

/-- The entry has the name of a temporary and nothing in it in the destination, and a file
of its directory is written before anything is put into it. -/
structure Swept (before : FS) (s d q : Path) (m : Name) : Prop where
  temp : isTempName m = true
  dest : Bare before.node (d ++ (q ++ [m]))
  written : ∃ n, n ≠ m ∧ Content (q ++ [n]) ∧ (∃ mode data, taskOf before s d (q ++ [n]) = .write mode data) ∧
    (taskOf before s d (q ++ [m]) ≠ .leave → relText (q ++ [m]) < relText (q ++ [n])) ∧
    ∀ k, before.node (s ++ (q ++ [m] ++ [k])) ≠ none → relText (q ++ [n]) < relText (q ++ [m] ++ [k])

/-- The first object of the directory `e` of the source. -/
structure First (before : FS) (s e : Path) (k : Name) : Prop where
  present : before.node (s ++ (e ++ [k])) ≠ none
  least : ∀ k', before.node (s ++ (e ++ [k'])) ≠ none → relText (e ++ [k]) ≤ relText (e ++ [k'])

variable {before : FS} {s d q : Path} {fs : FS}

theorem Exposed.swept {m : Name} (h : Exposed before s d q m) : Swept before s d q m := by
  obtain ⟨n,other,content,task,order⟩ := h.written
  refine ⟨h.temp,h.dest,n,other,content,task,order,fun k present => absurd ?_ present⟩
  rw [← List.append_assoc]
  exact h.source k

theorem Swept.exposed {m : Name} (h : Swept before s d q m) (concerned : before.node (s ++ (q ++ [m])) ≠ none ∨
      ∃ mode data, before.node (d ++ (q ++ [m])) = some (.file mode data))
    (source : Bare before.node (s ++ (q ++ [m]))) : Exposed before s d q m := by
  obtain ⟨n,other,content,task,order,-⟩ := h.written
  exact ⟨h.temp,concerned,source,h.dest,n,other,content,task,order⟩

theorem exists_last {α : Type} {P : α → Prop} {l : List α} {x : α} (member : x ∈ l) (holds : P x) :
    ∃ front y back, l = front ++ y :: back ∧ P y ∧ ∀ z ∈ back, ¬P z := by
  induction l generalizing x with
  | nil => cases member
  | cons a l ih =>
    by_cases later : ∃ z ∈ l, P z
    · obtain ⟨z,hz,pz⟩ := later
      obtain ⟨front,y,back,rfl,rest⟩ := ih hz pz
      exact ⟨a :: front,y,back,rfl,rest⟩
    · have first : x = a := by
        rcases List.mem_cons.mp member with same | inside
        · exact same
        · exact absurd ⟨x,inside,holds⟩ later
      exact ⟨[],a,l,rfl,first ▸ holds,fun z hz pz => later ⟨z,hz,pz⟩⟩

theorem relText_le {e g : Path} (more : e ≠ []) (le : e <+: g) : relText e ≤ relText g := by
  obtain ⟨c,rfl⟩ := le
  by_cases none_ : c = []
  · rw [none_,List.append_nil]
    exact List.le_refl _
  · rw [relText_append more none_]
    exact List.prefix_append _ _ |>.le

section delivery

variable {nfc : NFCTables} {umask : Nat} {before after : FS} {s d q r e g : Path} {m k : Name}
  {rs front back : List Path} {ops : List Op} {task : Task}

theorem sweeps_edit : Sweeps junk e (r,edit umask task) ↔
    (∃ mode data, task = .write mode data) ∧ ∃ m, e = r.dropLast ++ [m] ∧ isTempName m = true := by
  refine and_congr_left fun _ => ?_
  cases task with
  | leave => simp [edit]
  | make mode => simp [edit]
  | write mode data => simp [edit]

variable {p : Path × Edit Node} {v : Node}

theorem mem_edits (member : p ∈ edits umask before s d rs) : ∃ r ∈ rs, p = (r,edit umask (taskOf before s d r)) := by
  obtain ⟨r,hr,same⟩ := List.mem_map.mp member
  exact ⟨r,hr,same.symm⟩

theorem edit_leave : edit umask task = .leave ↔ task = .leave := by cases task <;> simp [edit]

theorem split_edits {l₁ l₂ : List (Path × Edit Node)}
    (split : edits umask before s d rs = l₁ ++ p :: l₂) : ∃ front g back, rs = front ++ g :: back ∧
      l₁ = edits umask before s d front ∧ p = (g,edit umask (taskOf before s d g)) := by
  obtain ⟨front,rest,rfl,rfl,tail⟩ := List.map_eq_append_iff.mp split
  obtain ⟨g,back,rfl,rfl,-⟩ := List.map_eq_cons_iff.mp tail
  exact ⟨front,g,back,rfl,rfl,rfl⟩

theorem bare_of_slot {x : Path} (slot : fs.Slot x) : Bare fs.node x := FS.childless_iff.mp slot.childless

/-- What an operation leaves at a path that is not written again is there at the end, if it
is never found empty by a file that sweeps it. -/
theorem edited_stays (split : rs = front ++ g :: back) (edited : (edit umask (taskOf before s d g)).run junk d g
      (runAll junk d (edits umask before s d front) before.node) (d ++ e) = some v)
    (other : ∀ r ∈ back, r ≠ e)
    (safe : ∀ l₁ r l₂, rs = front ++ g :: l₁ ++ r :: l₂ → Sweeps junk e (r,edit umask (taskOf before s d r)) →
      ¬Bare (runAll junk d (edits umask before s d (front ++ g :: l₁)) before.node) (d ++ e)) :
    runAll junk d (edits umask before s d rs) before.node (d ++ e) = some v := by
  subst split
  rw [edits_append]
  refine runAll_edited edited (fun p hp => ?_) fun l₁ p l₂ split sweeps => ?_
  · obtain ⟨r,hr,rfl⟩ := mem_edits hp
    exact .inl (other r hr)
  · obtain ⟨l₁,r,l₂,rfl,rfl,rfl⟩ := split_edits split
    have := safe l₁ r l₂ (by simp) sweeps
    rwa [edits_append] at this

section planned

variable (planned : Planned nfc before s d rs ops)

include planned

theorem before_of_split (split : rs = front ++ g :: back) :
    (∀ r ∈ front, relText r < relText g) ∧ ∀ r ∈ back, relText g < relText r := by
  have sorted := planned.sorted
  rw [split] at sorted
  obtain ⟨-,later,earlier⟩ := List.pairwise_append.mp sorted
  exact ⟨fun r hr => earlier r hr g List.mem_cons_self,(List.pairwise_cons.mp later).1⟩

theorem mem_front (split : rs = front ++ g :: back) (member : r ∈ rs) (earlier : relText r < relText g) : r ∈ front := by
  rw [split] at member
  rcases List.mem_append.mp member with inside | late
  · exact inside
  · rcases List.mem_cons.mp late with own | inside
    · exact absurd (own ▸ earlier) (List.lt_irrefl _)
    · exact absurd (List.lt_trans earlier ((before_of_split planned split).2 r inside)) (List.lt_irrefl _)

theorem present_above (member : r ∈ rs) (le : e <+: r) : before.node (s ++ e) ≠ none := by
  have there := ((planned.mem r).mp member).2
  by_cases own : e = r
  · exact own ▸ there
  · refine (FS.isDir_of_present there ((List.prefix_append_right_inj s).mpr le) ?_).present
    exact fun same => own (List.append_cancel_left same)

theorem present_of_left (content : Content r) (present : before.node (s ++ r) ≠ none)
    (task : taskOf before s d r = .leave) : before.node (d ++ r) ≠ none := by
  intro absent
  unfold taskOf at task
  rcases planned.kinds r content present with ⟨dir,-⟩ | ⟨⟨mode,data,at_⟩,-⟩
  · obtain ⟨mode,at_⟩ := FS.isDir_iff.mp dir
    simp [at_,absent] at task
  · simp [at_,absent] at task

/-- A directory with something in it, from the start or by an earlier operation, has something in it. -/
theorem occupied_at (split : rs = front ++ back) (occupied : ¬Bare before.node (d ++ e) ∨ ∃ k, e ++ [k] ∈ front) :
    ¬Bare (runAll junk d (edits umask before s d front) before.node) (d ++ e) := by
  have inside : ∀ r ∈ front, r ∈ rs := fun r hr => split ▸ List.mem_append_left _ hr
  have more : ∀ p ∈ edits umask before s d front, p.1 ≠ [] := by
    intro p hp
    obtain ⟨g,hg,rfl⟩ := mem_edits hp
    exact ((planned.mem g).mp (inside g hg)).1.1
  rcases occupied with dest | ⟨k,member⟩
  · exact runAll_occupied more dest
  · obtain ⟨content,present⟩ := (planned.mem _).mp (inside _ member)
    by_cases task : taskOf before s d (e ++ [k]) = .leave
    · refine runAll_occupied more fun bare => present_of_left planned content present task ?_
      rw [← List.append_assoc]
      exact bare k
    · obtain ⟨l₁,l₂,rfl⟩ := List.append_of_mem member
      rw [edits_append] at more ⊢
      exact runAll_filled (fun leave => task (edit_leave.mp leave)) rfl fun p hp =>
        more p (List.mem_append_right _ (List.mem_cons_of_mem _ hp))

/-- A file that sweeps an entry finds something in it, unless the entry is swept away. -/
theorem occupied_of_sweeps (safe : ¬Swept before s d q m) (split : rs = front ++ g :: back)
    (sweeps : Sweeps junk (q ++ [m]) (g,edit umask (taskOf before s d g))) (other : g ≠ q ++ [m])
    (order : taskOf before s d (q ++ [m]) ≠ .leave → relText (q ++ [m]) < relText g) :
    ¬Bare (runAll junk d (edits umask before s d front) before.node) (d ++ (q ++ [m])) := by
  obtain ⟨task,m',same,temp⟩ := sweeps_edit.mp sweeps
  have content : Content g := ((planned.mem g).mp (split ▸ List.mem_append_right _ List.mem_cons_self)).1
  obtain ⟨q',n,rfl⟩ := (List.eq_nil_or_concat' g).resolve_left content.1
  rw [List.dropLast_concat] at same
  obtain ⟨rfl,rfl⟩ : q = q' ∧ m = m' := by simpa using same
  refine occupied_at planned split ?_
  by_contra! empty
  obtain ⟨bare,never⟩ := empty
  refine safe ⟨temp,bare,n,fun same => other (by rw [same]),content,task,order,fun k present => ?_⟩
  have member : q ++ [m] ++ [k] ∈ rs := (planned.mem _).mpr ⟨(content_temp content temp).below,present⟩
  rw [split] at member
  rcases List.mem_append.mp member with inside | late
  · exact absurd inside (never k)
  · rcases List.mem_cons.mp late with own | inside
    · simpa using congrArg List.length own
    · exact (before_of_split planned split).2 _ inside

/-- What the plan leaves alone stays as it was, unless it is swept away. -/
theorem left_stays (safe : ¬Swept before s d q m) (at_ : before.node (d ++ (q ++ [m])) = some v)
    (task : taskOf before s d (q ++ [m]) = .leave) :
    runAll junk d (edits umask before s d rs) before.node (d ++ (q ++ [m])) = some v := by
  refine runAll_kept at_ (fun p hp => ?_) fun l₁ p l₂ split sweeps => ?_
  · obtain ⟨r,-,rfl⟩ := mem_edits hp
    by_cases own : r = q ++ [m]
    · right
      subst own
      rw [task]
      nofun
    · exact .inl own
  · obtain ⟨front,g,back,parts,rfl,rfl⟩ := split_edits split
    refine occupied_of_sweeps planned safe parts sweeps ?_ fun made => absurd task made
    rintro rfl
    obtain ⟨⟨mode,data,writes⟩,-⟩ := sweeps_edit.mp sweeps
    rw [task] at writes
    cases writes

/-- What the plan makes is there at the end as it was made, unless it is swept away. -/
theorem made_stays (safe : ¬Swept before s d q m) (member : q ++ [m] ∈ rs)
    (made : (edit umask (taskOf before s d (q ++ [m]))).object = some v) :
    runAll junk d (edits umask before s d rs) before.node (d ++ (q ++ [m])) = some v := by
  obtain ⟨front,back,split⟩ := List.append_of_mem member
  obtain ⟨earlier,later⟩ := before_of_split planned split
  refine edited_stays split (run_object (fun ⟨_,make⟩ => ?_) made) (fun r hr same => ?_) fun l₁ g l₂ parts sweeps => ?_
  · have absent : before.node (d ++ (q ++ [m])) = none := by
      cases task : taskOf before s d (q ++ [m]) with
      | leave => rw [task] at make; cases make
      | make mode => exact (taskOf_make task).2
      | write mode data => rw [task] at make; cases make
    refine runAll_absent absent fun p hp => .inr fun le => ?_
    obtain ⟨g,hg,rfl⟩ := mem_edits hp
    exact List.not_lt.mpr (relText_le (by simp) le) (earlier g hg)
  · exact List.lt_irrefl _ (same ▸ later r hr)
  · have after : relText (q ++ [m]) < relText g := by
      have same : back = l₁ ++ g :: l₂ := by simpa [split] using parts
      exact later g (same ▸ List.mem_append_right _ List.mem_cons_self)
    refine occupied_of_sweeps planned safe parts sweeps ?_ fun _ => after
    rintro rfl
    exact List.lt_irrefl _ after

/-- At the end an object of the source is what its task makes, or else what was there. -/
theorem source_stays (safe : ¬Swept before s d q m) (content : Content (q ++ [m]))
    (present : before.node (s ++ (q ++ [m])) ≠ none) :
    ∃ v, (edit umask (taskOf before s d (q ++ [m]))).object.or (before.node (d ++ (q ++ [m]))) = some v ∧
      runAll junk d (edits umask before s d rs) before.node (d ++ (q ++ [m])) = some v := by
  cases made : (edit umask (taskOf before s d (q ++ [m]))).object with
  | some v => exact ⟨v,rfl,made_stays planned safe ((planned.mem _).mpr ⟨content,present⟩) made⟩
  | none =>
    have task : taskOf before s d (q ++ [m]) = .leave := by
      cases task : taskOf before s d (q ++ [m]) <;> simp [task,edit,Edit.object] at made ⊢
    obtain ⟨v,at_⟩ := Option.ne_none_iff_exists'.mp (present_of_left planned content present task)
    exact ⟨v,at_,left_stays planned safe at_ task⟩

/-- An entry is gone after a file of its directory is written, as long as nothing is put into it. -/
theorem gone_at (temp : isTempName m = true) (dest : Bare before.node (d ++ (q ++ [m]))) (split : rs = front ++ back)
    (empty : ∀ r ∈ front, ∀ k, ¬q ++ [m] ++ [k] <+: r) {n : Name} (other : n ≠ m) (listed : q ++ [n] ∈ front)
    (task : ∃ mode data, taskOf before s d (q ++ [n]) = .write mode data)
    (order : taskOf before s d (q ++ [m]) ≠ .leave → relText (q ++ [m]) < relText (q ++ [n])) :
    runAll junk d (edits umask before s d front) before.node (d ++ (q ++ [m])) = none := by
  -- the last file that is written in the directory, other than the entry itself
  obtain ⟨l₁,f,l₂,rfl,⟨⟨mode,data,writes⟩,home,ne⟩,last⟩ := exists_last (P := fun f =>
    (∃ mode data, taskOf before s d f = .write mode data) ∧ f.dropLast = q ∧ f ≠ q ++ [m]) listed
    ⟨task,List.dropLast_concat,by simpa using other⟩
  have parts : rs = l₁ ++ f :: (l₂ ++ back) := by simpa using split
  obtain ⟨earlier,later⟩ := before_of_split planned parts
  rw [edits_append]
  refine runAll_swept dest (fun p hp k => ?_) (sweeps_edit.mpr ⟨⟨mode,data,writes⟩,m,by rw [home],temp⟩) ne ?_
  · obtain ⟨g,hg,rfl⟩ := mem_edits hp
    exact empty g (List.mem_append_left _ hg) k
  · intro p hp
    obtain ⟨g,hg,rfl⟩ := mem_edits hp
    by_cases le : q ++ [m] <+: g
    · left
      have own : g = q ++ [m] := by
        obtain ⟨rest,rfl⟩ := le
        cases rest with
        | nil => exact List.append_nil _
        | cons k rest =>
          exact absurd ⟨rest,by simp⟩ (empty _ (List.mem_append_right _ (List.mem_cons_of_mem _ hg)) k)
      subst own
      refine edit_leave.mpr ?_
      by_contra made
      -- an entry that the plan makes comes before the files that sweep it
      have upTo : relText (q ++ [n]) ≤ relText f := by
        rcases List.mem_append.mp listed with inside | late
        · exact List.le_of_lt (earlier _ inside)
        · rcases List.mem_cons.mp late with own | inside
          · rw [own]
            exact List.le_refl _
          · exact absurd ⟨task,List.dropLast_concat,by simpa using other⟩ (last _ inside)
      have ends := later _ (List.mem_append_left _ hg)
      exact List.not_lt.mpr (List.le_trans upTo (List.le_of_lt ends)) (order made)
    · exact .inr le

/-- A swept entry that has nothing in it in the source is gone at the end. -/
theorem Swept.lost (h : Swept before s d q m) (source : Bare before.node (s ++ (q ++ [m]))) :
    runAll junk d (edits umask before s d rs) before.node (d ++ (q ++ [m])) = none := by
  obtain ⟨n,other,content,⟨mode,data,task⟩,order,-⟩ := h.written
  obtain ⟨mode',file⟩ := taskOf_write task
  have listed : q ++ [n] ∈ rs := (planned.mem _).mpr ⟨content,by simp [file]⟩
  refine gone_at planned h.temp h.dest (List.append_nil rs).symm (fun r hr k le => ?_) other listed ⟨mode,data,task⟩ order
  refine present_above planned hr le ?_
  rw [← List.append_assoc]
  exact source k

/-- A swept entry that has something in it in the source is made again for the first of it. -/
theorem Swept.remade (h : Swept before s d q m) (first : First before s (q ++ [m]) k) :
    ∃ v, (edit umask (taskOf before s d (q ++ [m] ++ [k]))).parent = some v ∧
      runAll junk d (edits umask before s d rs) before.node (d ++ (q ++ [m])) = some v := by
  obtain ⟨n,other,content,⟨mode,data,task⟩,order,soon⟩ := h.written
  obtain ⟨mode',file⟩ := taskOf_write task
  have inside : Content (q ++ [m] ++ [k]) := (content_temp content h.temp).below
  have member : q ++ [m] ++ [k] ∈ rs := (planned.mem _).mpr ⟨inside,first.present⟩
  obtain ⟨front,back,split⟩ := List.append_of_mem member
  obtain ⟨earlier,later⟩ := before_of_split planned split
  have gone : runAll junk d (edits umask before s d front) before.node (d ++ (q ++ [m])) = none := by
    refine gone_at planned h.temp h.dest split (fun r hr k' le => ?_) other
      (mem_front planned split ((planned.mem _).mpr ⟨content,by simp [file]⟩) (soon k first.present))
      ⟨mode,data,task⟩ order
    have least := first.least k' (present_above planned (split ▸ List.mem_append_left _ hr) le)
    exact List.not_lt.mpr (List.le_trans least (relText_le (by simp) le)) (earlier r hr)
  obtain ⟨v,made⟩ : ∃ v, (edit umask (taskOf before s d (q ++ [m] ++ [k]))).parent = some v := by
    cases left : taskOf before s d (q ++ [m] ++ [k]) with
    | leave =>
      refine absurd ?_ (present_of_left planned inside first.present left)
      rw [← List.append_assoc]
      exact h.dest k
    | make mode => exact ⟨_,rfl⟩
    | write mode data => exact ⟨_,rfl⟩
  refine ⟨v,made,edited_stays split (run_parent gone made) (fun r hr same => ?_) fun l₁ r l₂ parts _ =>
    occupied_at planned parts (.inr ⟨k,by simp⟩)⟩
  exact List.not_lt.mpr (relText_le (by simp) (List.prefix_append _ _)) (same ▸ later r hr)

theorem exists_first (content : Content e) (occupied : ¬Bare before.node (s ++ e)) : ∃ k, First before s e k := by
  obtain ⟨n,present⟩ := not_forall.mp occupied
  rw [List.append_assoc] at present
  have listed : ∀ k, before.node (s ++ (e ++ [k])) ≠ none → e ++ [k] ∈ rs := fun k there =>
    (planned.mem _).mpr ⟨content.below,there⟩
  obtain ⟨back,_,front,split,⟨k,rfl⟩,none_⟩ := exists_last (P := fun r => ∃ k, r = e ++ [k])
    (List.mem_reverse.mpr (listed n present)) ⟨n,rfl⟩
  have parts : rs = front.reverse ++ (e ++ [k]) :: back.reverse := by
    rw [← List.reverse_reverse rs,split]
    simp
  refine ⟨k,((planned.mem _).mp (parts ▸ List.mem_append_right _ List.mem_cons_self)).2,fun k' there => ?_⟩
  have member := listed k' there
  rw [parts] at member
  rcases List.mem_append.mp member with inside | late
  · exact absurd ⟨k',rfl⟩ (none_ _ (List.mem_reverse.mp inside))
  · rcases List.mem_cons.mp late with own | inside
    · rw [own]
      exact List.le_refl _
    · exact List.le_of_lt ((before_of_split planned parts).2 _ inside)

end planned

/-- A file that is left alone has its content already, one that is written gets it. -/
theorem file_settled {mode : Nat} {data : Bytes} (file : before.node (s ++ r) = some (.file mode data))
    (slot : before.Slot (d ++ r))
    (settled : (edit umask (taskOf before s d r)).object.or (before.node (d ++ r)) = some v) :
    ∃ mode' data', v = .file mode' data' ∧ sha256 data' = sha256 data := by
  unfold taskOf at settled
  rcases slot with absent | ⟨mode',old,there⟩
  · rw [file,absent] at settled
    cases settled
    exact ⟨_,data,rfl,rfl⟩
  · rw [file,there] at settled
    dsimp only at settled
    split at settled
    · next same =>
      cases settled
      exact ⟨mode',old,rfl,same⟩
    · cases settled
      exact ⟨_,data,rfl,rfl⟩

/-- Delivery fails exactly where an entry is exposed to the clean-up. -/
theorem delivered_iff (planned : Planned nfc before s d rs ops)
    (changed : after.node = runAll junk d (edits umask before s d rs) before.node) (ready : Ready before s d after) :
    Delivered before after s d ↔ ¬∃ q m, Exposed before s d q m := by
  constructor
  · rintro delivered ⟨q,m,exposed⟩
    have lost : after.node (d ++ (q ++ [m])) = none := changed ▸ exposed.swept.lost planned exposed.source
    have content : Content (q ++ [m]) := by
      obtain ⟨n,-,inside,-⟩ := exposed.written
      exact content_temp inside exposed.temp
    by_cases named : before.node (s ++ (q ++ [m])) = none
    · obtain ⟨mode,data,file⟩ := exposed.concerned.resolve_left (absurd named)
      have still := delivered.others _ mode data file fun both => both.2 named
      rw [lost] at still
      cases still
    · rcases planned.kinds _ content named with ⟨dir,-⟩ | ⟨⟨mode,data,file⟩,-⟩
      · exact (delivered.dirs _ content dir).present lost
      · obtain ⟨_,_,there,-⟩ := delivered.files _ mode data content file
        rw [lost] at there
        cases there
  · intro safe
    refine ⟨fun r content dir => ?_,fun r mode data content file => ?_,fun r mode data file unnamed => ?_⟩
    · refine (ready.free content dir).resolve_left ?_
      obtain ⟨q,m,rfl⟩ := (List.eq_nil_or_concat' r).resolve_left content.1
      rw [changed]
      by_cases swept : Swept before s d q m
      · by_cases source : Bare before.node (s ++ (q ++ [m]))
        · exact absurd ⟨q,m,swept.exposed (.inl dir.present) source⟩ safe
        · obtain ⟨k,first⟩ := exists_first planned content source
          obtain ⟨v,-,at_⟩ := swept.remade planned first
          rw [at_]
          nofun
      · obtain ⟨v,-,at_⟩ := source_stays planned swept content dir.present
        rw [at_]
        nofun
    · obtain ⟨q,m,rfl⟩ := (List.eq_nil_or_concat' r).resolve_left content.1
      have present : before.node (s ++ (q ++ [m])) ≠ none := by simp [file]
      have unswept : ¬Swept before s d q m := fun swept =>
        safe ⟨q,m,swept.exposed (.inl present) (bare_of_slot (.inr ⟨mode,data,file⟩))⟩
      obtain ⟨v,settled,at_⟩ := source_stays planned unswept content present
      obtain ⟨mode',data',rfl,same⟩ := file_settled file ((ready_start planned).slot content file) settled
      exact ⟨mode',data',changed ▸ at_,same⟩
    · by_cases content : Content r
      · obtain ⟨q,m,rfl⟩ := (List.eq_nil_or_concat' r).resolve_left content.1
        have absent : before.node (s ++ (q ++ [m])) = none := by
          by_contra present
          exact unnamed ⟨content,present⟩
        have unswept : ¬Swept before s d q m := fun swept =>
          safe ⟨q,m,swept.exposed (.inr ⟨mode,data,file⟩) (bare_of_slot (.inl absent))⟩
        have task : taskOf before s d (q ++ [m]) = .leave := by
          unfold taskOf
          rw [absent]
        rw [changed]
        exact left_stays planned unswept file task
      · rw [ready.outside,file]
        rintro ⟨c,inside,same⟩
        exact content (List.append_cancel_left same ▸ inside)

end delivery

/-- Scan both trees, plan, and apply. -/
def scanPlanApply (nfc : NFCTables) (roots : Roots) : LS ApplyResult := do
  let src ← scan nfc roots.source
  let dst ← scan nfc roots.destination
  let plan ← ofExcept (buildPlan src dst)
  apply nfc roots plan

/-- A run that returns did what the plan of the two trees says. -/
theorem scanPlanApply_run {nfc : NFCTables} {host : Host} (quiet : host.Quiet) {w w' : World} {a b s d : Path}
    (trees : Trees w.fs a b s d) {out : ApplyResult}
    (ran : scanPlanApply nfc ⟨absText a,absText b⟩ host w = (.ok out,w')) :
    ∃ rs ops, Planned nfc w.fs s d rs ops ∧
      w'.fs.node = runAll junk d (edits host.umask w.fs s d rs) w.fs.node ∧ Ready w.fs s d w'.fs := by
  obtain ⟨src,w₁,first,ran₁⟩ := returned_bind ran
  obtain ⟨dst,w₂,second,ran₂⟩ := returned_bind ran₁
  obtain ⟨p,w₃,planning,applied⟩ := returned_bind ran₂
  obtain ⟨built,rfl⟩ := returned_ofExcept planning
  obtain ⟨kept₁,root,survey⟩ := scan_surveys quiet (trees.reads w.fs fun _ _ => rfl) trees.source first
  rw [← kept₁] at trees survey ⊢
  obtain ⟨kept₂,root',survey'⟩ := scan_surveys quiet (trees.writes w₁.fs fun _ _ => rfl) trees.dest second
  obtain ⟨rs,planned⟩ := buildPlan_planned survey survey' built
  obtain ⟨source,dest⟩ := buildPlan_roots built
  rw [← kept₂] at trees planned ⊢
  rcases apply_run quiet trees planned (source.trans root) (dest.trans root') with
    ⟨out',w₄,done,changed⟩ | ⟨-,e,w₄,refused⟩
  · cases done.symm.trans applied
    exact ⟨rs,p.ops,planned,changed⟩
  · cases refused.symm.trans applied

/-- If `Apply` succeeds on the plan of two scans, the source is delivered and nothing else
is touched exactly when no entry is exposed to the clean-up of temporaries. -/
theorem apply_delivers_iff (nfc : NFCTables) (host : Host) (quiet : host.Quiet) (w w' : World) (a b s d : Path)
    (trees : Trees w.fs a b s d) (out : ApplyResult)
    (ran : scanPlanApply nfc ⟨absText a,absText b⟩ host w = (.ok out,w')) :
    Delivered w.fs w'.fs s d ↔ ¬∃ q m, Exposed w.fs s d q m := by
  obtain ⟨rs,ops,planned,changed,ready⟩ := scanPlanApply_run quiet trees ran
  exact delivered_iff planned changed ready

theorem not_exposed {s d : Path} (names : ∀ p ∈ fs.support, p.getLast?.all (fun m => isTempName m = false) = true) :
    ¬∃ q m, Exposed fs s d q m := by
  rintro ⟨q,m,exposed⟩
  have clean {x : Path} (present : fs.node (x ++ (q ++ [m])) ≠ none) : False := by
    have := names _ (fs.finite _ present)
    rw [← List.append_assoc,List.getLast?_concat] at this
    simp [exposed.temp] at this
  rcases exposed.concerned with named | ⟨mode,data,file⟩
  · exact clean named
  · exact clean (by rw [file]; simp)

/-- A source with a file, and a destination with one of its own. -/
def sampleTrees (own : Name) : FS := FS.build [([ascii "s"],.dir 0o755),([ascii "s",ascii "b"],.file 0o644 [1]),
  ([ascii "d"],.dir 0o755),([ascii "d",own],.file 0o644 [3])]

theorem separate_trees (source : fs.IsDir [ascii "s"]) (dest : fs.IsDir [ascii "d"]) :
    Trees fs [ascii "s"] [ascii "d"] [ascii "s"] [ascii "d"] := by
  refine ⟨by decide,by decide,FS.anchored_self source ?_,FS.anchored_self dest not_inside_root,by decide,by decide⟩
  rintro ⟨r,content,same⟩
  cases same

theorem apply_delivers_sample : ∃ (w w' : World) (out : ApplyResult),
    scanPlanApply asciiTables ⟨absText [ascii "s"],absText [ascii "d"]⟩ quietHost w = (.ok out,w') ∧
    w.fs.node [ascii "d",ascii "a"] = some (.file 0o644 [3]) ∧ Delivered w.fs w'.fs [ascii "s"] [ascii "d"] := by
  obtain ⟨w,returned,own,source,dest,names⟩ : ∃ w, (scanPlanApply asciiTables
      ⟨absText [ascii "s"],absText [ascii "d"]⟩ quietHost w).1 = .ok ⟨1,0,1⟩ ∧
      w.fs.node [ascii "d",ascii "a"] = some (.file 0o644 [3]) ∧ w.fs.IsDir [ascii "s"] ∧
      w.fs.IsDir [ascii "d"] ∧ ∀ p ∈ w.fs.support, p.getLast?.all (fun m => isTempName m = false) = true :=
    ⟨⟨sampleTrees (ascii "a"),0⟩,by decide +kernel⟩
  exact ⟨w,_,_,run_eq returned,own,(apply_delivers_iff asciiTables quietHost (fun _ _ => rfl) w _ _ _ _ _
    (separate_trees source dest) _ (run_eq returned)).mpr (not_exposed names)⟩

/-- A file of the destination that the source does not name is gone after `b` is copied. -/
theorem temporary_name_deleted : ∃ (w w' : World) (out : ApplyResult),
    Trees w.fs [ascii "s"] [ascii "d"] [ascii "s"] [ascii "d"] ∧
    scanPlanApply asciiTables ⟨absText [ascii "s"],absText [ascii "d"]⟩ quietHost w = (.ok out,w') ∧
    w.fs.node [ascii "d",ascii ".integris.old.tmp"] = some (.file 0o644 [3]) ∧
    w'.fs.node [ascii "d",ascii ".integris.old.tmp"] = none ∧ ¬Delivered w.fs w'.fs [ascii "s"] [ascii "d"] := by
  obtain ⟨w,returned,there,gone,unnamed,source,dest⟩ : ∃ w, (scanPlanApply asciiTables
      ⟨absText [ascii "s"],absText [ascii "d"]⟩ quietHost w).1 = .ok ⟨1,0,1⟩ ∧
      w.fs.node ([ascii "d"] ++ [ascii ".integris.old.tmp"]) = some (.file 0o644 [3]) ∧
      (scanPlanApply asciiTables ⟨absText [ascii "s"],absText [ascii "d"]⟩ quietHost w).2.fs.node
        ([ascii "d"] ++ [ascii ".integris.old.tmp"]) = none ∧
      w.fs.node ([ascii "s"] ++ [ascii ".integris.old.tmp"]) = none ∧ w.fs.IsDir [ascii "s"] ∧
      w.fs.IsDir [ascii "d"] :=
    ⟨⟨sampleTrees (ascii ".integris.old.tmp"),0⟩,by decide +kernel⟩
  refine ⟨w,_,_,separate_trees source dest,run_eq returned,there,gone,fun delivered => ?_⟩
  have still := delivered.others _ _ _ there fun both => both.2 unnamed
  rw [gone] at still
  cases still

end Integris.LocalSync.Delivery
