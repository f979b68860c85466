import Integris.Plan

/-! What a local plan does: the operations of `BuildPlan` run on the destination as
a map from paths to entries give the source's entries on its paths, keep the rest,
and leave nothing to plan. -/
namespace Integris.LocalSync

open Posix Codec

/-- Sorted by path, no path twice. -/
def Manifest.Ordered (m : Manifest) : Prop := m.entries.Pairwise fun a b => a.rel < b.rel

instance (m : Manifest) : Decidable m.Ordered :=
  inferInstanceAs (Decidable (m.entries.Pairwise fun a b => a.rel < b.rel))

def Manifest.DigestComplete (m : Manifest) : Prop :=
  ∀ e ∈ m.entries, e.type = .file → e.digest.isSome = true

instance (m : Manifest) : Decidable m.DigestComplete :=
  inferInstanceAs (Decidable (∀ e ∈ m.entries, e.type = .file → e.digest.isSome = true))

/-- A tree as a map. -/
abbrev View := Bytes → Option Entry

def Manifest.view (m : Manifest) : View := fun rel => m.entries.find? fun e => e.rel = rel

/-- What an operation leaves at its path. -/
def Op.result (op : Op) (old : Option Entry) : Option Entry :=
  match op.action with
  | .mkdir => some { rel := op.rel, type := .dir, mode := op.expectedMode }
  | .copy | .replace => some {
      rel := op.rel, type := .file, size := op.expectedSize, mode := op.expectedMode
      digest := (digestFromHex op.rel op.expectedDigestHex).toOption }
  | .skip | .other _ => old

def Op.run (op : Op) (t : View) : View := Function.update t op.rel (op.result (t op.rel))

def execute (ops : List Op) (t : View) : View := ops.foldl (fun t op => op.run t) t

/-- The same kind of object, and the same content where it has one. -/
structure Entry.Agrees (e s : Entry) : Prop where
  rel : e.rel = s.rel
  type : e.type = s.type
  digest : s.type = .file → e.digest = s.digest

/-- Some path is a file on one side and a directory on the other. -/
def Conflicting (src dst : Manifest) : Prop :=
  ∃ s ∈ src.entries, ∃ d ∈ dst.entries, d.rel = s.rel ∧ d.type ≠ s.type

section views

variable {m : Manifest} {rel : Bytes} {e : Entry}

theorem view_eq_some (ordered : m.Ordered) : m.view rel = some e ↔ e ∈ m.entries ∧ e.rel = rel := by
  unfold Manifest.view
  obtain ⟨root,entries⟩ := m
  change entries.Pairwise _ at ordered
  induction entries with
  | nil => simp
  | cons x entries ih =>
    obtain ⟨first,rest⟩ := List.pairwise_cons.mp ordered
    by_cases here : x.rel = rel
    · rw [List.find?_cons_of_pos (by simpa using here)]
      constructor
      · rintro ⟨⟩
        exact ⟨by simp,here⟩
      · rintro ⟨member,same⟩
        rcases List.mem_cons.mp member with rfl | later
        · rfl
        · have less := first e later
          rw [here,same] at less
          exact absurd less (List.lt_irrefl rel)
    · rw [List.find?_cons_of_neg (by simpa using here)]
      refine (ih rest).trans ⟨fun h => ⟨by simp [h.1],h.2⟩,fun h => ⟨?_,h.2⟩⟩
      rcases List.mem_cons.mp h.1 with rfl | later
      · exact absurd h.2 here
      · exact later

theorem lookup_eq_view (ordered : m.Ordered) : m.lookup rel = m.view rel := by
  have mono : ∀ a b, a ≤ b → b < m.entries.length →
      (m.entries[a]?.any fun e => decide (rel ≤ e.rel)) = true →
      (m.entries[b]?.any fun e => decide (rel ≤ e.rel)) = true := by
    intro a b le lt met
    have inside : a < m.entries.length := by omega
    rw [List.getElem?_eq_getElem inside,Option.any_some,decide_eq_true_eq] at met
    rw [List.getElem?_eq_getElem lt,Option.any_some,decide_eq_true_eq]
    rcases Nat.lt_or_eq_of_le le with less | rfl
    · exact List.le_trans met (List.le_of_lt (List.pairwise_iff_getElem.mp ordered a b inside lt less))
    · exact met
  obtain ⟨within,below,above⟩ := search_parts mono
  ext e
  change Option.filter _ _ = some e ↔ _
  rw [view_eq_some ordered,Option.filter_eq_some_iff,decide_eq_true_eq]
  refine and_congr_left fun same => ⟨fun found => List.mem_of_getElem? found,fun member => ?_⟩
  obtain ⟨k,inside,rfl⟩ := List.mem_iff_getElem.mp member
  -- the entry at `k` is not below `rel`, and everything before it is
  suffices least : search m.entries.length
      (fun i => m.entries[i]?.any fun e => decide (rel ≤ e.rel)) = k by
    rw [least,List.getElem?_eq_getElem inside]
  generalize search m.entries.length
    (fun i => m.entries[i]?.any fun e => decide (rel ≤ e.rel)) = r at within below above ⊢
  apply Nat.le_antisymm
  · by_contra beyond
    have failed := below k (by omega)
    rw [List.getElem?_eq_getElem inside,Option.any_some,same] at failed
    simp at failed
  · by_contra before
    have earlier : r < m.entries.length := by omega
    have met := above r (Nat.le_refl r) earlier
    rw [List.getElem?_eq_getElem earlier,Option.any_some,decide_eq_true_eq] at met
    have less := List.pairwise_iff_getElem.mp ordered r k earlier inside (by omega)
    rw [same] at less
    exact List.not_le.mpr less met

end views

section planning

variable {src dst : Manifest} {s : Entry} {op : Op}

theorem planEntry_rel (planned : planEntry dst s = .ok op) : op.rel = s.rel := by
  unfold planEntry at planned
  split at planned <;> (try split_ifs at planned) <;> cases planned <;> rfl

theorem planEntry_fails : (∃ e, planEntry dst s = .error e) ↔ ∃ d, dst.lookup s.rel = some d ∧ d.type ≠ s.type := by
  unfold planEntry
  cases type : s.type <;> rcases found : dst.lookup s.rel with _ | d
  · simp
  · cases kind : d.type <;> simp [kind]
  · simp
  · cases kind : d.type <;> simp [kind]
    split_ifs <;> simp

theorem planEntry_result (rel : ∀ d, dst.lookup s.rel = some d → d.rel = s.rel)
    (digest : s.type = .file → s.digest.isSome = true) (planned : planEntry dst s = .ok op) :
    ∃ e, op.result (dst.lookup s.rel) = some e ∧ e.Agrees s := by
  unfold planEntry at planned
  split at planned
  · next type found =>
    cases planned
    exact ⟨_,rfl,rfl,type.symm,fun file => by simp [type] at file⟩
  · next d type found =>
    split_ifs at planned with kind
    cases planned
    exact ⟨d,found,rel d found,kind.trans type.symm,fun file => by simp [type] at file⟩
  · next type found =>
    cases planned
    refine ⟨_,rfl,rfl,type.symm,fun file => ?_⟩
    obtain ⟨h,some_⟩ := Option.isSome_iff_exists.mp (digest file)
    simp [Entry.digestHex,some_,digestFromHex_hexOf,Except.toOption]
  · next d type found =>
    split_ifs at planned with kind same
    · cases planned
      exact ⟨d,found,rel d found,kind.trans type.symm,fun _ => same.2.2⟩
    · cases planned
      refine ⟨_,rfl,rfl,type.symm,fun file => ?_⟩
      obtain ⟨h,some_⟩ := Option.isSome_iff_exists.mp (digest file)
      simp [Entry.digestHex,some_,digestFromHex_hexOf,Except.toOption]

theorem planEntry_skips {e : Entry} (found : dst.lookup s.rel = some e) (agrees : e.Agrees s)
    (digest : s.type = .file → s.digest.isSome = true) :
    ∃ op, planEntry dst s = .ok op ∧ op.action = .skip := by
  unfold planEntry
  cases type : s.type with
  | dir => simp [found,agrees.type,type]
  | file => simp [found,agrees.type,type,agrees.digest type,digest type]

theorem rels_of_planned {xs : List Entry} {ops : List Op}
    (planned : List.Forall₂ (fun s op => planEntry dst s = .ok op) xs ops) :
    ops.map Op.rel = xs.map Entry.rel := by
  induction planned with
  | nil => rfl
  | cons first _ ih => simp [planEntry_rel first,ih]

/-- The operations come in the order of the entries: the final sort finds them sorted. -/
theorem buildPlan_ok {p : Plan} (ordered : src.Ordered) (built : buildPlan src dst = .ok p) :
    List.Forall₂ (fun s op => planEntry dst s = .ok op) src.entries p.ops ∧
      p.ops.map Op.rel = src.entries.map Entry.rel := by
  simp only [buildPlan,except_bind_ok] at built
  obtain ⟨ops,mapped,last⟩ := built
  cases last
  have planned := mapM_ok mapped
  have rels := rels_of_planned planned
  have sorted : ops.Pairwise Op.before := by
    have strict : (ops.map Op.rel).Pairwise (· < ·) := by
      rw [rels]
      exact List.pairwise_map.mpr ordered
    exact (List.pairwise_map.mp strict).imp fun less => .inl less
  rw [show (ops.insertionSort Op.before) = ops from sorted.insertionSort_eq]
  exact ⟨planned,rels⟩

theorem buildPlan_roots {p : Plan} (built : buildPlan src dst = .ok p) :
    p.sourceRoot = src.root ∧ p.destRoot = dst.root := by
  simp only [buildPlan,except_bind_ok] at built
  obtain ⟨ops,-,last⟩ := built
  cases last
  exact ⟨rfl,rfl⟩

theorem buildPlan_fails (ordered : dst.Ordered) : (∃ e, buildPlan src dst = .error e) ↔ Conflicting src dst := by
  have step : (∃ e, buildPlan src dst = .error e) ↔ ∃ e, src.entries.mapM (planEntry dst) = .error e := by
    unfold buildPlan
    cases src.entries.mapM (planEntry dst) <;> simp [bind,Except.bind,pure,Except.pure]
  rw [step,mapM_fails]
  refine exists_congr fun s => and_congr_right fun _ => ?_
  rw [planEntry_fails]
  refine exists_congr fun d => ?_
  rw [lookup_eq_view ordered,view_eq_some ordered,and_assoc]

end planning

section execution

variable {ops : List Op} {op : Op} {t : View} {rel : Bytes}

theorem execute_other (other : rel ∉ ops.map Op.rel) : execute ops t rel = t rel := by
  induction ops generalizing t with
  | nil => rfl
  | cons op ops ih =>
    simp only [List.map_cons,List.mem_cons,not_or] at other
    rw [execute,List.foldl_cons,← execute,ih other.2,Op.run,Function.update_of_ne other.1]

theorem execute_at (distinct : (ops.map Op.rel).Nodup) (member : op ∈ ops) :
    execute ops t op.rel = op.result (t op.rel) := by
  induction ops generalizing t with
  | nil => cases member
  | cons x ops ih =>
    rw [List.map_cons,List.nodup_cons] at distinct
    rw [execute,List.foldl_cons,← execute]
    rcases List.mem_cons.mp member with rfl | later
    · rw [execute_other distinct.1,Op.run,Function.update_self]
    · have ne : op.rel ≠ x.rel := by
        intro same
        exact distinct.1 (same ▸ List.mem_map_of_mem later)
      rw [ih distinct.2 later,Op.run,Function.update_of_ne ne]

/-- A map whose entries carry the path they stand at. -/
def Keyed (t : View) : Prop := ∀ rel e, t rel = some e → e.rel = rel

theorem Op.keyed_run (keyed : Keyed t) : Keyed (op.run t) := by
  intro rel e found
  by_cases here : rel = op.rel
  · subst here
    rw [Op.run,Function.update_self,Op.result] at found
    split at found
    · cases found; rfl
    · cases found; rfl
    · cases found; rfl
    · exact keyed _ e found
    · exact keyed _ e found
  · rw [Op.run,Function.update_of_ne here] at found
    exact keyed rel e found

theorem keyed_execute (keyed : Keyed t) : Keyed (execute ops t) := by
  induction ops generalizing t with
  | nil => exact keyed
  | cons op ops ih =>
    rw [execute,List.foldl_cons,← execute]
    exact ih (Op.keyed_run keyed)

theorem keyed_view {m : Manifest} (ordered : m.Ordered) : Keyed m.view := fun _ _ found =>
  ((view_eq_some ordered).mp found).2

/-- A keyed map with finitely many paths is the map of a sorted manifest. -/
theorem manifest_of_view (paths : List Bytes) (keyed : Keyed t) (finite : ∀ rel, t rel ≠ none → rel ∈ paths) :
    ∃ m : Manifest, m.Ordered ∧ m.view = t := by
  have total : Std.Total fun a b : Bytes => a ≤ b := ⟨fun a b => List.le_total a b⟩
  have trans : IsTrans Bytes fun a b => a ≤ b := ⟨fun _ _ _ ab bc => List.le_trans ab bc⟩
  let keys := paths.dedup.insertionSort fun a b => a ≤ b
  have members : ∀ rel, rel ∈ keys ↔ rel ∈ paths := fun rel => (List.mem_insertionSort _).trans List.mem_dedup
  have strict : keys.Pairwise fun a b => a < b := by
    have sorted : keys.Pairwise fun a b => a ≤ b := List.pairwise_insertionSort _ _
    have nodup : keys.Nodup := (List.perm_insertionSort _ _).nodup_iff.mpr (List.nodup_dedup paths)
    refine (List.pairwise_and_iff.mpr ⟨sorted,nodup⟩).imp fun {a b} both => ?_
    by_contra notLess
    exact both.2 (List.le_antisymm both.1 (List.not_lt.mp notLess))
  let m : Manifest := ⟨[],keys.filterMap t⟩
  have ordered : m.Ordered := by
    refine List.pairwise_filterMap.mpr (strict.imp fun {a b} less x hx y hy => ?_)
    rw [keyed a x hx,keyed b y hy]
    exact less
  refine ⟨m,ordered,funext fun rel => Option.ext fun e => ?_⟩
  rw [view_eq_some ordered,List.mem_filterMap]
  constructor
  · rintro ⟨⟨key,-,found⟩,same⟩
    rw [← same,keyed key e found]
    exact found
  · intro found
    exact ⟨⟨rel,(members rel).mpr (finite rel (by simp [found])),found⟩,keyed rel e found⟩

end execution

section convergence

variable {src dst : Manifest}

theorem execute_agrees {p : Plan} (ordered : src.Ordered) (ordered' : dst.Ordered)
    (complete : src.DigestComplete) (built : buildPlan src dst = .ok p) {s : Entry} (hs : s ∈ src.entries) :
    ∃ e, execute p.ops dst.view s.rel = some e ∧ e.Agrees s := by
  obtain ⟨planned,rels⟩ := buildPlan_ok ordered built
  obtain ⟨op,member,made⟩ : ∃ op ∈ p.ops, planEntry dst s = .ok op := by
    obtain ⟨i,inside,rfl⟩ := List.mem_iff_getElem.mp hs
    have same := planned.length_eq
    exact ⟨p.ops[i],List.getElem_mem _,(List.forall₂_iff_get.mp planned).2 i inside (same ▸ inside)⟩
  have distinct : (p.ops.map Op.rel).Nodup := by
    rw [rels]
    refine (List.pairwise_map.mpr (ordered.imp fun {a b} less same => ?_))
    rw [same] at less
    exact List.lt_irrefl _ less
  have keyed : ∀ d, dst.lookup s.rel = some d → d.rel = s.rel := fun d found => by
    rw [lookup_eq_view ordered'] at found
    exact keyed_view ordered' _ d found
  obtain ⟨e,result,agrees⟩ := planEntry_result keyed (complete s hs) made
  refine ⟨e,?_,agrees⟩
  rw [← planEntry_rel made,execute_at distinct member,planEntry_rel made,← lookup_eq_view ordered']
  exact result

theorem replan_skips {m : Manifest} (ordered : src.Ordered) (ordered' : m.Ordered)
    (complete : src.DigestComplete) (agrees : ∀ s ∈ src.entries, ∃ e, m.view s.rel = some e ∧ e.Agrees s) :
    ∃ q, buildPlan src m = .ok q ∧ ∀ op ∈ q.ops, op.action = .skip := by
  have skips : ∀ s ∈ src.entries, ∃ op, planEntry m s = .ok op ∧ op.action = .skip := by
    intro s hs
    obtain ⟨e,found,same⟩ := agrees s hs
    exact planEntry_skips (lookup_eq_view ordered' ▸ found) same (complete s hs)
  rcases built : buildPlan src m with e | q
  · obtain ⟨s,hs,d,hd,rel,type⟩ := (buildPlan_fails ordered').mp ⟨e,built⟩
    obtain ⟨x,found,same⟩ := agrees s hs
    obtain ⟨hx,here⟩ := (view_eq_some ordered').mp found
    have one : d = x := Option.some.inj (((view_eq_some ordered').mpr ⟨hd,rel⟩).symm.trans found)
    exact absurd same.type (one ▸ type)
  · refine ⟨q,rfl,fun op member => ?_⟩
    obtain ⟨planned,-⟩ := buildPlan_ok ordered built
    obtain ⟨i,inside,rfl⟩ := List.mem_iff_getElem.mp member
    have bound : i < src.entries.length := planned.length_eq ▸ inside
    have made := (List.forall₂_iff_get.mp planned).2 i bound inside
    obtain ⟨other,made',skip⟩ := skips _ (List.getElem_mem bound)
    have same : q.ops[i] = other := Except.ok.inj (made.symm.trans made')
    exact same ▸ skip

theorem digestComplete_of_view {m : Manifest} (complete : src.DigestComplete)
    (complete' : dst.DigestComplete) (ordered' : dst.Ordered) (sorted : m.Ordered)
    (agrees : ∀ s ∈ src.entries, ∃ e, m.view s.rel = some e ∧ e.Agrees s)
    (other : ∀ rel, rel ∉ src.entries.map Entry.rel → m.view rel = dst.view rel) :
    m.DigestComplete := by
  intro e member file
  have found : m.view e.rel = some e := (view_eq_some sorted).mpr ⟨member,rfl⟩
  by_cases named : e.rel ∈ src.entries.map Entry.rel
  · obtain ⟨s,hs,same⟩ := List.mem_map.mp named
    obtain ⟨x,found',agree⟩ := agrees s hs
    have one : e = x := Option.some.inj (found.symm.trans (same ▸ found'))
    subst one
    have kind : s.type = .file := agree.type.symm.trans file
    rw [agree.digest kind]
    exact complete s hs kind
  · rw [other e.rel named] at found
    exact complete' e ((view_eq_some ordered').mp found).1 file

theorem lt_below (d rest : Bytes) : d < d ++ slash :: rest := by
  induction d with
  | nil => exact List.nil_lt_cons _ _
  | cons b d ih => exact List.cons_lt_cons_self.mpr ih

theorem buildPlan_converges (src dst : Manifest) (ordered : src.Ordered) (ordered' : dst.Ordered)
    (complete : src.DigestComplete) (complete' : dst.DigestComplete) :
    ((∃ e, buildPlan src dst = .error e) ↔ Conflicting src dst) ∧
    ∀ p, buildPlan src dst = .ok p →
      p.ops.map Op.rel = src.entries.map Entry.rel ∧
      p.ops.Pairwise (fun a b => a.rel < b.rel) ∧
      p.ops.Pairwise (fun a b => ¬ ∃ rest, a.rel = b.rel ++ slash :: rest) ∧
      (∀ s ∈ src.entries, ∃ e, execute p.ops dst.view s.rel = some e ∧ e.Agrees s) ∧
      (∀ rel, rel ∉ src.entries.map Entry.rel → execute p.ops dst.view rel = dst.view rel) ∧
      (∃ m : Manifest, m.Ordered ∧ m.DigestComplete ∧ m.view = execute p.ops dst.view) ∧
      ∀ m : Manifest, m.Ordered → m.view = execute p.ops dst.view →
        ∃ q, buildPlan src m = .ok q ∧ ∀ op ∈ q.ops, op.action = .skip := by
  refine ⟨buildPlan_fails ordered',fun p built => ?_⟩
  obtain ⟨-,rels⟩ := buildPlan_ok ordered built
  have ascending : p.ops.Pairwise fun a b => a.rel < b.rel := by
    refine List.pairwise_map.mp ?_
    rw [rels]
    exact List.pairwise_map.mpr ordered
  have agrees : ∀ s ∈ src.entries, ∃ e, execute p.ops dst.view s.rel = some e ∧ e.Agrees s :=
    fun s hs => execute_agrees ordered ordered' complete built hs
  have other : ∀ rel, rel ∉ src.entries.map Entry.rel → execute p.ops dst.view rel = dst.view rel :=
    fun rel absent => execute_other (rels ▸ absent)
  refine ⟨rels,ascending,ascending.imp fun {a b} less => ?_,agrees,other,?_,fun m ordered'' same => ?_⟩
  · rintro ⟨rest,under⟩
    rw [under] at less
    exact List.lt_asymm less (lt_below b.rel rest)
  · have finite : ∀ rel, execute p.ops dst.view rel ≠ none →
        rel ∈ src.entries.map Entry.rel ++ dst.entries.map Entry.rel := by
      intro rel present
      rw [List.mem_append]
      by_cases named : rel ∈ src.entries.map Entry.rel
      · exact .inl named
      · rw [other rel named] at present
        obtain ⟨e,found⟩ := Option.ne_none_iff_exists'.mp present
        obtain ⟨member,here⟩ := (view_eq_some ordered').mp found
        exact .inr (here ▸ List.mem_map_of_mem member)
    obtain ⟨m,sorted,view⟩ := manifest_of_view _ (keyed_execute (keyed_view ordered')) finite
    exact ⟨m,sorted,digestComplete_of_view complete complete' ordered' sorted (view ▸ agrees) (view ▸ other),view⟩
  · exact replan_skips ordered ordered'' complete (same ▸ agrees)

def sampleDigest : Digest := ⟨List.replicate 32 7,by decide⟩

/-- A directory with a file beside a destination that has another file. -/
def sampleSource : Manifest := ⟨ascii "/src",[
  { rel := ascii "a", type := .dir, mode := 0o755 },
  { rel := ascii "a/f", type := .file, size := 3, mode := 0o644, digest := some sampleDigest }]⟩

def sampleDestination : Manifest := ⟨ascii "/dst",[
  { rel := ascii "g", type := .file, size := 1, mode := 0o600, digest := some sampleDigest }]⟩

theorem buildPlan_converges_sample :
    (sampleSource.Ordered ∧ sampleDestination.Ordered ∧ sampleSource.DigestComplete ∧
      sampleDestination.DigestComplete) ∧
    ∃ p, buildPlan sampleSource sampleDestination = .ok p ∧
      p.ops.map Op.rel = [ascii "a",ascii "a/f"] ∧
      execute p.ops sampleDestination.view (ascii "g") = sampleDestination.view (ascii "g") := by
  have ordered : sampleSource.Ordered := by decide
  have ordered' : sampleDestination.Ordered := by decide
  have complete : sampleSource.DigestComplete := by decide
  have complete' : sampleDestination.DigestComplete := by decide
  refine ⟨⟨ordered,ordered',complete,complete'⟩,?_⟩
  obtain ⟨fails,runs⟩ := buildPlan_converges sampleSource sampleDestination ordered ordered' complete complete'
  have peaceful : ¬ Conflicting sampleSource sampleDestination := by
    unfold Conflicting
    decide
  rcases built : buildPlan sampleSource sampleDestination with e | p
  · exact absurd (fails.mp ⟨e,built⟩) peaceful
  · obtain ⟨rels,-,-,-,other,-⟩ := runs p built
    exact ⟨p,rfl,rels,other (ascii "g") (by decide)⟩

end convergence

end Integris.LocalSync
