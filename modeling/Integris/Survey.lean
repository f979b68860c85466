import Integris.ScanOrder
import Integris.PlanConvergence
import Integris.LogicalPath

/-! From trees to plans. A scan that returns lists the objects below its root outside the
metadata directory, each once, in the order of their paths; and the plan of two scans
has one task for each object of the source. -/
namespace Integris.LocalSync

open Posix Prog PathGrammar Outcome

/-- A path below a root that is not the metadata directory's. -/
def Content (r : Path) : Prop := r ≠ [] ∧ r.head? ≠ some metaDirName

instance (r : Path) : Decidable (Content r) := inferInstanceAs (Decidable (_ ∧ _))

variable {r q : Path} {entries : List Entry} {rs : List Path}

theorem Content.below (h : Content r) : Content (r ++ q) := by
  refine ⟨by simp [h.1],?_⟩
  rw [List.head?_append_of_ne_nil _ h.1]
  exact h.2

theorem Content.above (h : Content r) (le : q <+: r) (more : q ≠ []) : Content q := by
  obtain ⟨rest,rfl⟩ := le
  refine ⟨more,?_⟩
  have head := h.2
  rwa [List.head?_append_of_ne_nil _ more] at head

section walk

variable {fs : FS} {d r x : Path}

variable {fuel : Nat}

theorem subtree_complete (le : r <+: x) (more : r ≠ []) (present : fs.node (d ++ x) ≠ none)
    (content : x.head? ≠ some metaDirName) (enough : depth fs < (d ++ r).length + fuel) :
    x ∈ subtree fs d fuel r := by
  induction fuel generalizing r with
  | zero =>
    have deep := length_le_depth present
    have := le.length_le
    simp only [List.length_append] at deep enough
    omega
  | succ fuel ih =>
    have here : ¬r = [metaDirName] := by
      rintro rfl
      obtain ⟨rest,rfl⟩ := le
      exact content rfl
    rw [subtree,if_neg here]
    obtain ⟨rest,rfl⟩ := le
    cases rest with
    | nil => simp
    | cons n rest =>
      have le : r ++ [n] <+: r ++ n :: rest := ⟨rest,by simp⟩
      have dir : fs.IsDir (d ++ r) := by
        refine FS.isDir_of_present present ((List.prefix_append_right_inj d).mpr (List.prefix_append _ _)) ?_
        simp
      have child : fs.node (d ++ r ++ [n]) ≠ none := by
        by_cases last : rest = []
        · subst last
          rwa [List.append_assoc]
        · refine (FS.isDir_of_present present (p := d ++ r ++ [n]) ?_ ?_).present
          · rw [List.append_assoc]
            exact (List.prefix_append_right_inj d).mpr le
          · simp [last]
      refine List.mem_cons_of_mem _ ?_
      rw [if_pos dir]
      refine List.mem_flatMap.mpr ⟨n,FS.mem_children.mpr child,ih le (by simp) ?_⟩
      simp only [List.length_append,List.length_singleton] at enough ⊢
      omega

/-- The walk visits what is there, outside the metadata directory. -/
theorem mem_contents_iff : x ∈ contents fs d ↔ Content x ∧ fs.node (d ++ x) ≠ none := by
  constructor
  · intro member
    obtain ⟨n,hn,inside⟩ := List.mem_flatMap.mp member
    obtain ⟨there,rest,rfl⟩ := mem_subtree (FS.mem_children.mp hn) inside
    refine ⟨⟨by simp,fun head => ?_⟩,there⟩
    rw [List.singleton_append,List.head?_cons,Option.some.injEq] at head
    rw [head] at inside
    cases fuel : depth fs with
    | zero => simp [fuel,subtree] at inside
    | succ k => simp [fuel,subtree] at inside
  · rintro ⟨⟨more,head⟩,present⟩
    obtain ⟨n,rest,rfl⟩ := List.exists_cons_of_ne_nil more
    have child : fs.node (d ++ [n]) ≠ none := by
      by_cases last : rest = []
      · subst last
        exact present
      · refine (FS.isDir_of_present present (p := d ++ [n]) ?_ ?_).present
        · exact (List.prefix_append_right_inj d).mpr ⟨rest,rfl⟩
        · simpa using Ne.symm last
    rw [contents_eq]
    refine List.mem_flatMap.mpr ⟨n,FS.mem_children.mpr child,?_⟩
    refine subtree_complete ⟨rest,rfl⟩ (by simp) present head ?_
    simp only [List.length_append,List.length_singleton]
    omega

theorem nodup_branches {p : Path} {names : List Name} {below : Name → List Path} (distinct : names.Nodup)
    (each : ∀ n ∈ names, (below n).Nodup) (inside : ∀ n ∈ names, ∀ y ∈ below n, p ++ [n] <+: y) :
    (names.flatMap below).Nodup := by
  refine List.nodup_flatMap.mpr ⟨each,distinct.imp_of_mem fun {n m} hn hm ne => ?_⟩
  intro y first second
  have le := inside n hn y first
  have le' := inside m hm y second
  have same := List.prefix_of_prefix_length_le le le' (by simp)
  exact ne (by simpa using same.eq_of_length (by simp))

theorem nodup_subtree (present : fs.node (d ++ r) ≠ none) : (subtree fs d fuel r).Nodup := by
  induction fuel generalizing r with
  | zero => exact List.nodup_nil
  | succ fuel ih =>
    rw [subtree]
    split
    · exact List.nodup_nil
    · split
      · have child : ∀ n ∈ fs.children (d ++ r), fs.node (d ++ (r ++ [n])) ≠ none := fun n hn => by
          rw [← List.append_assoc]
          exact FS.mem_children.mp hn
        have inside : ∀ n ∈ fs.children (d ++ r), ∀ y ∈ subtree fs d fuel (r ++ [n]), r ++ [n] <+: y :=
          fun n hn y hy => (mem_subtree (child n hn) hy).2
        refine List.nodup_cons.mpr ⟨fun again => ?_,
          nodup_branches (FS.children_nodup _ _) (fun n hn => ih (child n hn)) inside⟩
        obtain ⟨n,hn,hy⟩ := List.mem_flatMap.mp again
        have := (inside n hn r hy).length_le
        simp at this
      · exact List.nodup_singleton _

theorem nodup_contents : (contents fs d).Nodup :=
  nodup_branches (p := []) (FS.children_nodup _ _) (fun _ hn => nodup_subtree (FS.mem_children.mp hn))
    fun _ hn _ hy => (mem_subtree (FS.mem_children.mp hn) hy).2

end walk

/-- A manifest of everything below the root. -/
structure Surveyed (nfc : NFCTables) (fs : FS) (d : Path) (m : Manifest) : Prop where
  ordered : m.Ordered
  listed : ∀ e ∈ m.entries, ∃ r, Content r ∧ recorded nfc fs d r = .ok e
  complete : ∀ r, Content r → fs.node (d ++ r) ≠ none → ∃ e ∈ m.entries, recorded nfc fs d r = .ok e

section surveys

variable {nfc : NFCTables} {fs : FS} {a s d r : Path} {m : Manifest} {e : Entry}

theorem recorded_rel (ok : recorded nfc fs d r = .ok e) : e.rel = relText r := by
  unfold recorded at ok
  repeat' split at ok
  all_goals cases ok
  all_goals rfl

theorem recorded_valid (ok : recorded nfc fs d r = .ok e) : ∃ comps, validateJoined nfc (relText r) = .ok comps := by
  unfold recorded at ok
  split at ok
  · cases ok
  · next comps accepted => exact ⟨comps,accepted⟩

theorem recorded_present (ok : recorded nfc fs d r = .ok e) : fs.node (d ++ r) ≠ none := by
  intro absent
  unfold recorded at ok
  split at ok
  · cases ok
  · rw [absent] at ok
    cases ok

theorem plain_of_present (present : fs.node (d ++ r) ≠ none) : Plain r := (plain_append.mp (FS.plain_of_present present)).2

theorem strict_of_sorted {l : List Bytes} (sorted : l.Pairwise (· ≤ ·)) (distinct : l.Nodup) : l.Pairwise (· < ·) := by
  refine (List.pairwise_and_iff.mpr ⟨sorted,distinct⟩).imp fun {x y} both => ?_
  by_contra notLess
  exact both.2 (List.le_antisymm both.1 (List.not_lt.mp notLess))

theorem byRel_sorted (entries : List Entry) : ((byRel entries).map Entry.rel).Pairwise (· ≤ ·) := by
  have total : Std.Total fun x y : Entry => x.rel ≤ y.rel := ⟨fun x y => List.le_total x.rel y.rel⟩
  have trans : IsTrans Entry fun x y => x.rel ≤ y.rel := ⟨fun _ _ _ xy yz => List.le_trans xy yz⟩
  exact List.pairwise_map.mpr (List.pairwise_insertionSort _ _)

theorem nodup_of_recorded (distinct : rs.Nodup)
    (each : List.Forall₂ (fun r e => recorded nfc fs d r = .ok e) rs entries) : (entries.map Entry.rel).Nodup := by
  induction each with
  | nil => exact List.nodup_nil
  | @cons r e rs entries first rest ih =>
    obtain ⟨new,later⟩ := List.nodup_cons.mp distinct
    rw [List.map_cons,List.nodup_cons]
    refine ⟨fun again => ?_,ih later⟩
    obtain ⟨e',he',same⟩ := List.mem_map.mp again
    obtain ⟨r',hr',ok'⟩ : ∃ r' ∈ rs, recorded nfc fs d r' = .ok e' := by
      obtain ⟨i,inside,rfl⟩ := List.mem_iff_getElem.mp he'
      have inside' : i < rs.length := rest.length_eq ▸ inside
      exact ⟨rs[i],List.getElem_mem inside',List.forall₂_iff_get.mp rest |>.2 i inside' inside⟩
    rw [recorded_rel first,recorded_rel ok'] at same
    have one := relText_injective (plain_of_present (recorded_present ok')).lexical
      (plain_of_present (recorded_present first)).lexical same
    exact new (one ▸ hr')

theorem scan_surveys {host : Host} {w w₁ : World} (quiet : host.Quiet) (leads : w.fs.Leads a d) (root : Plain a)
    (run : scan nfc (absText a) host w = (.ok m,w₁)) :
    w₁.fs = w.fs ∧ m.root = absText a ∧ Surveyed nfc w.fs d m := by
  obtain ⟨w',ran,kept⟩ : ∃ w' : World, scan nfc (absText a) host w = _ ∧ w'.fs = w.fs := reads_scan quiet leads root w rfl
  rw [ran,Prod.mk.injEq] at run
  obtain ⟨run,rfl⟩ := run
  cases found : gather (recorded nfc w.fs d) (contents w.fs d) with
  | error e => simp [found] at run
  | crashed => simp [found] at run
  | ok entries =>
    simp only [found,ok_bind,Outcome.ok.injEq] at run
    subst run
    have each := gather_ok found
    have members : ∀ e, e ∈ byRel entries ↔ e ∈ entries := fun e => List.mem_insertionSort _
    refine ⟨kept,rfl,?_,fun e he => ?_,fun r content present => ?_⟩
    · have perm : ((byRel entries).map Entry.rel).Perm (entries.map Entry.rel) := (List.perm_insertionSort _ _).map _
      have distinct := perm.nodup_iff.mpr (nodup_of_recorded nodup_contents each)
      exact List.pairwise_map.mp (strict_of_sorted (byRel_sorted entries) distinct)
    · obtain ⟨i,inside,rfl⟩ := List.mem_iff_getElem.mp ((members e).mp he)
      have inside' : i < (contents w.fs d).length := each.length_eq ▸ inside
      exact ⟨_,(mem_contents_iff.mp (List.getElem_mem inside')).1,List.forall₂_iff_get.mp each |>.2 i inside' inside⟩
    · obtain ⟨i,inside,rfl⟩ := List.mem_iff_getElem.mp (mem_contents_iff.mpr ⟨content,present⟩)
      have inside' : i < entries.length := each.length_eq ▸ inside
      exact ⟨_,(members _).mpr (List.getElem_mem inside'),List.forall₂_iff_get.mp each |>.2 i inside inside'⟩

end surveys

/-- What is to be done for one object of the source. -/
inductive Task where
  | leave
  | make (mode : Nat)
  | write (mode : Nat) (data : Bytes)
  deriving DecidableEq

/-- A directory is made where nothing is, a file is written where its content is missing. -/
def taskOf (fs : FS) (s d r : Path) : Task :=
  match fs.node (s ++ r), fs.node (d ++ r) with
  | some (.dir mode), none => .make (mode &&& 0o777)
  | some (.file mode data), none => .write (mode &&& 0o777) data
  | some (.file mode data), some (.file _ old) =>
    if sha256 old = sha256 data then .leave else .write (mode &&& 0o777) data
  | _, _ => .leave

/-- The operation is this task. -/
def Op.Does (op : Op) : Task → Prop
  | .leave => op.action = .skip
  | .make mode => op.action = .mkdir ∧ op.expectedMode = mode
  | .write mode data => (op.action = .copy ∨ op.action = .replace) ∧ op.expectedMode = mode ∧
      op.expectedSize = data.length ∧ op.expectedDigestHex = hexOf (sha256 data).val

/-- The plan for the source tree `s` and the destination tree `d`: the source's paths in
order, and for each of them its operation. -/
structure Planned (nfc : NFCTables) (fs : FS) (s d : Path) (rs : List Path) (ops : List Op) : Prop where
  sorted : rs.Pairwise fun r r' => relText r < relText r'
  mem : ∀ r, r ∈ rs ↔ Content r ∧ fs.node (s ++ r) ≠ none
  ops : List.Forall₂ (fun r op => op.rel = relText r ∧ validateRel nfc op.rel = .ok () ∧
    op.Does (taskOf fs s d r)) rs ops
  kinds : ∀ r, Content r → fs.node (s ++ r) ≠ none →
    fs.IsDir (s ++ r) ∧ fs.Free (d ++ r) ∨
      (∃ mode data, fs.node (s ++ r) = some (.file mode data)) ∧ fs.Slot (d ++ r)
  clear : ∀ r, Content r → ¬fs.IsLink (d ++ r)

section plans

variable {nfc : NFCTables} {fs : FS} {s d r : Path} {m m' : Manifest} {e : Entry} {op : Op}

theorem recorded_cases (ok : recorded nfc fs d r = .ok e) :
    (∃ mode, fs.node (d ++ r) = some (.dir mode) ∧ e = directoryEntry (relText r) mode) ∨
    ∃ mode data, fs.node (d ++ r) = some (.file mode data) ∧ e = fileEntry (relText r) mode ⟨sha256 data,data.length⟩ := by
  unfold recorded at ok
  split at ok
  · cases ok
  · split at ok
    · cases ok
    · cases ok
    · cases ok
    · next mode at_ =>
      cases ok
      exact .inl ⟨mode,at_,rfl⟩
    · next mode data at_ =>
      cases ok
      exact .inr ⟨mode,data,at_,rfl⟩

/-- Looking up a path in a survey is looking at the tree. -/
theorem Surveyed.lookup_present (h : Surveyed nfc fs d m) (content : Content r) (present : fs.node (d ++ r) ≠ none) :
    ∃ e, recorded nfc fs d r = .ok e ∧ m.lookup (relText r) = some e := by
  obtain ⟨e,he,ok⟩ := h.complete r content present
  refine ⟨e,ok,?_⟩
  rw [lookup_eq_view h.ordered]
  exact (view_eq_some h.ordered).mpr ⟨he,recorded_rel ok⟩

theorem Surveyed.lookup_absent (h : Surveyed nfc fs d m) (plain : Plain r) (absent : fs.node (d ++ r) = none) :
    m.lookup (relText r) = none := by
  rw [lookup_eq_view h.ordered,Option.eq_none_iff_forall_ne_some]
  intro e found
  obtain ⟨he,rel⟩ := (view_eq_some h.ordered).mp found
  obtain ⟨r',-,ok⟩ := h.listed e he
  have present := recorded_present ok
  rw [recorded_rel ok] at rel
  rw [relText_injective (plain_of_present present).lexical plain.lexical rel] at present
  exact present absent

theorem Surveyed.clear (h : Surveyed nfc fs d m) (content : Content r) : ¬fs.IsLink (d ++ r) := by
  intro link
  obtain ⟨target,at_⟩ := FS.isLink_iff.mp link
  obtain ⟨e,-,ok⟩ := h.complete r content (by simp [at_])
  rcases recorded_cases ok with ⟨mode,other,-⟩ | ⟨mode,data,other,-⟩ <;> simp [at_] at other

theorem planEntry_does (dst : Surveyed nfc fs d m') (content : Content r) (ok : recorded nfc fs s r = .ok e)
    (planned : planEntry m' e = .ok op) : op.Does (taskOf fs s d r) ∧ (fs.IsDir (s ++ r) ∧ fs.Free (d ++ r) ∨
        (∃ mode data, fs.node (s ++ r) = some (.file mode data)) ∧ fs.Slot (d ++ r)) := by
  have plain : Plain r := plain_of_present (recorded_present ok)
  unfold planEntry at planned
  rw [recorded_rel ok] at planned
  rcases recorded_cases ok with ⟨mode,at_,rfl⟩ | ⟨mode,data,at_,rfl⟩
  · have dir : fs.IsDir (s ++ r) := FS.isDir_iff.mpr ⟨mode,at_⟩
    by_cases absent : fs.node (d ++ r) = none
    · rw [dst.lookup_absent plain absent] at planned
      cases planned
      refine ⟨?_,.inl ⟨dir,.inl absent⟩⟩
      simp only [taskOf,at_,absent]
      exact ⟨rfl,rfl⟩
    · obtain ⟨e',ok',found⟩ := dst.lookup_present content absent
      rw [found] at planned
      rcases recorded_cases ok' with ⟨mode',at',rfl⟩ | ⟨mode',data',at',rfl⟩
      · cases planned
        refine ⟨?_,.inl ⟨dir,.inr (FS.isDir_iff.mpr ⟨mode',at'⟩)⟩⟩
        simp only [taskOf,at_,at']
        rfl
      · cases planned
  · have file : ∃ mode data, fs.node (s ++ r) = some (.file mode data) := ⟨mode,data,at_⟩
    by_cases absent : fs.node (d ++ r) = none
    · rw [dst.lookup_absent plain absent] at planned
      cases planned
      refine ⟨?_,.inr ⟨file,.inl absent⟩⟩
      simp only [taskOf,at_,absent]
      exact ⟨.inl rfl,rfl,rfl,rfl⟩
    · obtain ⟨e',ok',found⟩ := dst.lookup_present content absent
      rw [found] at planned
      rcases recorded_cases ok' with ⟨mode',at',rfl⟩ | ⟨mode',data',at',rfl⟩
      · cases planned
      · refine ⟨?_,.inr ⟨file,.inr ⟨mode',data',at'⟩⟩⟩
        simp only [taskOf,at_,at']
        simp only [fileEntry,if_true,Option.isSome_some,true_and,Option.some.injEq] at planned
        split at planned
        · next same =>
          rw [if_pos same]
          cases planned
          rfl
        · next other =>
          rw [if_neg other]
          cases planned
          exact ⟨.inr rfl,rfl,rfl,rfl⟩

/-- The entries of a survey stand for paths, in order. -/
theorem Surveyed.paths (h : Surveyed nfc fs d m) : ∃ rs : List Path,
    List.Forall₂ (fun r e => Content r ∧ recorded nfc fs d r = .ok e) rs m.entries := by
  have each := h.listed
  revert each
  induction m.entries with
  | nil => exact fun _ => ⟨[],.nil⟩
  | cons e entries ih =>
    intro each
    obtain ⟨r,content,ok⟩ := each e List.mem_cons_self
    obtain ⟨rs,rest⟩ := ih fun e' he' => each e' (List.mem_cons_of_mem _ he')
    exact ⟨r :: rs,.cons ⟨content,ok⟩ rest⟩

theorem rels_of_listed (listed : List.Forall₂ (fun r e => Content r ∧ recorded nfc fs d r = .ok e) rs entries) :
    entries.map Entry.rel = rs.map relText := by
  induction listed with
  | nil => rfl
  | cons first _ ih => rw [List.map_cons,List.map_cons,ih,recorded_rel first.2]

theorem plan_of_listed {ops : List Op}
    (listed : List.Forall₂ (fun r e => Content r ∧ recorded nfc fs d r = .ok e) rs entries)
    (planned : List.Forall₂ (fun e op => planEntry m e = .ok op) entries ops) :
    List.Forall₂ (fun r op => Content r ∧ ∃ e, recorded nfc fs d r = .ok e ∧ planEntry m e = .ok op) rs ops := by
  induction listed generalizing ops with
  | nil =>
    cases planned
    exact .nil
  | cons first _ ih =>
    cases planned with
    | cons this rest => exact .cons ⟨first.1,_,first.2,this⟩ (ih rest)

theorem validateRel_of_recorded (ok : recorded nfc fs d r = .ok e) : validateRel nfc (relText r) = .ok () := by
  obtain ⟨comps,accepted⟩ := recorded_valid ok
  obtain ⟨split,text,-⟩ := validateJoined_ok accepted
  simp only [validateJoined,except_unit_bind_ok] at accepted
  rw [text]
  exact validateRel_of_components (split ▸ accepted.2.2.1)

theorem buildPlan_planned {p : Plan} (src : Surveyed nfc fs s m) (dst : Surveyed nfc fs d m')
    (built : buildPlan m m' = .ok p) : ∃ rs, Planned nfc fs s d rs p.ops := by
  obtain ⟨rs,listed⟩ := src.paths
  obtain ⟨planned,-⟩ := buildPlan_ok src.ordered built
  have rels := rels_of_listed listed
  have steps := plan_of_listed listed planned
  have member : ∀ r, r ∈ rs ↔ Content r ∧ fs.node (s ++ r) ≠ none := by
    intro r
    constructor
    · intro hr
      obtain ⟨i,inside,rfl⟩ := List.mem_iff_getElem.mp hr
      have here := List.forall₂_iff_get.mp listed |>.2 i inside (listed.length_eq ▸ inside)
      exact ⟨here.1,recorded_present here.2⟩
    · rintro ⟨content,present⟩
      obtain ⟨e,he,ok⟩ := src.complete r content present
      have text : relText r ∈ rs.map relText := by
        rw [← rels,← recorded_rel ok]
        exact List.mem_map_of_mem he
      obtain ⟨r',hr',same⟩ := List.mem_map.mp text
      obtain ⟨i,inside,rfl⟩ := List.mem_iff_getElem.mp hr'
      have here := List.forall₂_iff_get.mp listed |>.2 i inside (listed.length_eq ▸ inside)
      rwa [← relText_injective (plain_of_present (recorded_present here.2)).lexical (plain_of_present present).lexical same]
  refine ⟨rs,?_,member,steps.imp ?_,?_,fun r content => dst.clear content⟩
  · rw [← List.pairwise_map,← rels]
    exact List.pairwise_map.mpr src.ordered
  · rintro r op ⟨content,e,ok,made⟩
    have rel : op.rel = relText r := (planEntry_rel made).trans (recorded_rel ok)
    exact ⟨rel,rel ▸ validateRel_of_recorded ok,(planEntry_does dst content ok made).1⟩
  · intro r content present
    obtain ⟨i,inside,rfl⟩ := List.mem_iff_getElem.mp ((member r).mpr ⟨content,present⟩)
    obtain ⟨-,e,ok,made⟩ := List.forall₂_iff_get.mp steps |>.2 i inside (steps.length_eq ▸ inside)
    exact (planEntry_does dst content ok made).2

end plans

end Integris.LocalSync
