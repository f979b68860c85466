import Integris.PlanDocument

/-! What a plan says about the rows it was built from: nothing of their order, all
of their content. -/
namespace Integris.Planner

open PathGrammar

/-! ## Order of acquisition -/

/-- One row captured twice, its candidates enumerated in another order. -/
def SameRow (c d : Classification) : Prop :=
  ∃ ids, c.representationIDs.Perm ids ∧ d = { c with representationIDs := ids }

/-- One input captured twice, in another order throughout. -/
structure Reordered (a b : CanonicalInput) : Prop where
  manifestDigest : a.manifestDigest = b.manifestDigest
  capabilityVectorDigest : a.capabilityVectorDigest = b.capabilityVectorDigest
  configurationDigest : a.configurationDigest = b.configurationDigest
  limits : a.limits = b.limits
  wrapAllowList : a.policy.wrapAllowList.Perm b.policy.wrapAllowList
  representationAllowList : a.policy.representationAllowList.Perm b.policy.representationAllowList
  rows : ∃ rows, a.classifications.Perm rows ∧ List.Forall₂ SameRow rows b.classifications

def Classification.normal (c : Classification) : Classification :=
  { c with representationIDs := sortUint16 c.representationIDs }

theorem SameRow.normal {c d : Classification} (same : SameRow c d) : c.normal = d.normal := by
  obtain ⟨ids,perm,rfl⟩ := same
  simp only [Classification.normal,sortUint16_congr perm]

theorem pickRepresentation_sorted (ids allow : List UInt16) (all : Bool) :
    pickRepresentation (sortUint16 ids) allow all = pickRepresentation ids allow all := by
  have again : sortUint16 (sortUint16 ids) = sortUint16 ids := sortUint16_congr (insertionSort_perm compare ids)
  simp only [pickRepresentation,again]

theorem validateClassification_normal (nfc : NFCTables) (c : Classification) :
    validateClassification nfc c.normal = validateClassification nfc c := by
  have count : c.normal.representationIDs.length = c.representationIDs.length := sortUint16_length _
  rw [validateClassification,count]
  rfl

theorem resolveClassification_normal (c : Classification) (wrapAllow repAllow : List UInt16) :
    resolveClassification c.normal wrapAllow repAllow = resolveClassification c wrapAllow repAllow := by
  simp only [resolveClassification,Classification.normal,Classification.entry,pickRepresentation_sorted,sortUint16_length]

theorem resolveRows_normal (nfc : NFCTables) (wrapAllow repAllow : List UInt16) (last : Option Classification)
    (rows : List Classification) :
    resolveRows nfc wrapAllow repAllow (last.map .normal) (rows.map .normal) =
      resolveRows nfc wrapAllow repAllow last rows := by
  induction rows generalizing last with
  | nil => rfl
  | cons c rows ih =>
    have apart : (∀ p ∈ last.map Classification.normal, compareClassifications p c.normal ≠ .eq) ↔
        ∀ p ∈ last, compareClassifications p c ≠ .eq := by
      cases last <;> simp [compareClassifications,Classification.normal,Classification.key]
    simp only [List.map_cons,resolveRows,validateClassification_normal,resolveClassification_normal,apart,
      ← ih (some c),Option.map_some]
    rfl

theorem sortClassifications_normal (rows : List Classification) :
    sortClassifications (rows.map .normal) = (sortClassifications rows).map .normal :=
  insertionSort_map (fun _ _ => rfl) rows

variable {a b : CanonicalInput} {xs ys : List Classification} {inp : CanonicalInput} {nfc : NFCTables}
  {c : Classification} {e : Entry} {policy : Policy} {pf : Preflight} {plan : Plan}
  {rows : List Classification} {es : List Entry}

theorem Reordered.rows_perm (same : Reordered a b) :
    (a.classifications.map Classification.normal).Perm (b.classifications.map .normal) := by
  obtain ⟨rows,perm,rowwise⟩ := same.rows
  have equal : rows.map Classification.normal = b.classifications.map .normal := by
    clear perm
    generalize b.classifications = captured at rowwise
    induction rowwise with
    | nil => rfl
    | cons first _ ih => rw [List.map_cons,List.map_cons,first.normal,ih]
  rw [← equal]
  exact perm.map _

/-- The loop's outcome over rows in any order, sorted first. -/
def rowsOutcome (nfc : NFCTables) (inp : CanonicalInput) : Except Error (List Entry × List BlockingItem) :=
  resolveRows nfc (sortUint16 inp.policy.wrapAllowList) (sortUint16 inp.policy.representationAllowList) none
    (sortClassifications inp.classifications)

theorem rowsOutcome_normal (nfc : NFCTables) (inp : CanonicalInput) :
    rowsOutcome nfc { inp with classifications := inp.classifications.map .normal } = rowsOutcome nfc inp := by
  rw [rowsOutcome,sortClassifications_normal]
  exact resolveRows_normal nfc _ _ none _

theorem distinct_perm (perm : xs.Perm ys) (distinct : Distinct xs) : Distinct ys :=
  (perm.pairwise_iff fun {_ _} ne => ne.symm).mp distinct

theorem sortClassifications_congr (perm : xs.Perm ys) (distinct : Distinct xs) :
    sortClassifications xs = sortClassifications ys := by
  refine strict_unique ?_ (strict_of_distinct distinct) (strict_of_distinct (distinct_perm perm distinct))
  exact (insertionSort_perm _ xs).trans (perm.trans (insertionSort_perm _ ys).symm)

theorem rowsOutcome_error
    (bad : ¬((∀ c ∈ inp.classifications, validateClassification nfc c = .ok ()) ∧ Distinct inp.classifications)) :
    ∃ e, rowsOutcome nfc inp = .error e := by
  cases done : rowsOutcome nfc inp with
  | error e => exact ⟨e,rfl⟩
  | ok out => exact absurd ((resolveRows_ok inp.policy).mp ⟨out,done⟩) bad

/-- Rows in another order give the same outcome, or errors both times: which row is reported
first among several bad ones does depend on the order. -/
theorem Reordered.rowsOutcome (nfc : NFCTables) (same : Reordered a b) :
    Planner.rowsOutcome nfc a = Planner.rowsOutcome nfc b ∨
      (∃ e, Planner.rowsOutcome nfc a = .error e) ∧ ∃ e, Planner.rowsOutcome nfc b = .error e := by
  have perm := same.rows_perm
  rw [← rowsOutcome_normal nfc a,← rowsOutcome_normal nfc b]
  by_cases good : (∀ c ∈ a.classifications.map Classification.normal, validateClassification nfc c = .ok ()) ∧
      Distinct (a.classifications.map .normal)
  · refine .inl ?_
    simp only [Planner.rowsOutcome,sortUint16_congr same.wrapAllowList,
      sortUint16_congr same.representationAllowList,sortClassifications_congr perm good.2]
  · refine .inr ⟨rowsOutcome_error good,rowsOutcome_error fun fine => good ⟨fun c listed => ?_,?_⟩⟩
    · exact fine.1 c (perm.mem_iff.mp listed)
    · exact distinct_perm perm.symm fine.2

theorem build_rows_error {e : Error} (failed : rowsOutcome nfc inp = .error e) :
    (build nfc inp).err ≠ none ∧ (build nfc inp).preflight = ⟨[]⟩ ∧ (build nfc inp).plan = zeroPlan := by
  rw [rowsOutcome] at failed
  simp only [build,failed]
  split
  · exact ⟨Option.some_ne_none _,rfl,rfl⟩
  · split
    · exact ⟨Option.some_ne_none _,rfl,rfl⟩
    · exact ⟨Option.some_ne_none _,rfl,rfl⟩

/-- Acquisition order is invisible: the same failure or success, preflight and plan. -/
theorem build_ignores_order {nfc : NFCTables} {a b : CanonicalInput} (same : Reordered a b) :
    ((build nfc a).err = none ↔ (build nfc b).err = none) ∧
      (build nfc a).preflight = (build nfc b).preflight ∧ (build nfc a).plan = (build nfc b).plan := by
  rcases same.rowsOutcome nfc with equal | ⟨⟨e,left⟩,⟨e',right⟩⟩
  · have count : a.classifications.length = b.classifications.length := by
      simpa using same.rows_perm.length_eq
    have builds : build nfc a = build nfc b := by
      simp only [Planner.rowsOutcome] at equal
      simp only [build,equal,count,same.limits,same.manifestDigest,same.capabilityVectorDigest,
        same.configurationDigest]
    rw [builds]
    exact ⟨Iff.rfl,rfl,rfl⟩
  · obtain ⟨failed,preflight,plan⟩ := build_rows_error left
    obtain ⟨failed',preflight',plan'⟩ := build_rows_error right
    exact ⟨iff_of_false failed failed',preflight.trans preflight'.symm,plan.trans plan'.symm⟩

/-- The sample captured in another order. -/
def sampleSwapped : CanonicalInput :=
  ⟨Fixed.zero 32,Fixed.zero 32,Fixed.zero 32,
    [⟨[ascii "a"],1,actionCreate,resultLossless,[2,3],Fixed.zero 32⟩,
     ⟨[ascii "b"],8,actionReplace,resultWrapped,[4,7],Fixed.zero 32⟩],⟨[7,4],[]⟩,⟨0,0,0⟩⟩

theorem sample_reordered : Reordered (sampleInput sampleRows) sampleSwapped where
  manifestDigest := rfl
  capabilityVectorDigest := rfl
  configurationDigest := rfl
  limits := rfl
  wrapAllowList := .swap 7 4 []
  representationAllowList := .refl _
  rows := ⟨_,(List.reverse_perm _).symm,.cons ⟨_,.swap 2 3 [],rfl⟩ (.cons ⟨_,.swap 4 7 [],rfl⟩ .nil)⟩

theorem build_ignores_order_sample : (build asciiTables (sampleInput sampleRows)).err = none ∧
    (build asciiTables sampleSwapped).plan = (build asciiTables (sampleInput sampleRows)).plan :=
  ⟨by decide +kernel,(build_ignores_order sample_reordered).2.2.symm⟩

/-! ## Content -/

/-- An entry says of its row all that a plan may keep. -/
structure Carries (policy : Policy) (c : Classification) (e : Entry) : Prop where
  path : e.path = c.path
  capabilityID : e.capabilityID = c.capabilityID
  action : e.action = c.action
  result : e.result = c.result
  auxDigest : e.auxDigest = c.auxDigest
  known : knownCapability e.capabilityID = true
  kept : e.result = resultLossless ∨ e.result = resultWrapped
  representation : Represents policy c e.representationID

theorem Becomes.carries
    (becomes : Becomes policy c e) (valid : validateClassification nfc c = .ok ()) : Carries policy c e := by
  obtain ⟨-,-,result,-,-⟩ := validateClassification_ok.mp valid
  obtain ⟨free,id,chosen,rfl⟩ := becomes
  have known : knownCapability c.capabilityID = true := by
    cases known : knownCapability c.capabilityID with
    | true => rfl
    | false => exact absurd (.inl known) free
  have kept : blocksAuthorization c.result = false := by
    cases blocks : blocksAuthorization c.result with
    | false => rfl
    | true => exact absurd (.inr (.inl blocks)) free
  exact ⟨rfl,rfl,rfl,rfl,rfl,known,result_cases result kept,chosen⟩

theorem Carries.key (carries : Carries policy c e) : e.key = c.key := by
  rw [Entry.key,carries.path,carries.capabilityID,carries.action]
  rfl

/-- Input within limits, its rows valid and with keys of their own. -/
structure Sound (nfc : NFCTables) (inp : CanonicalInput) : Prop where
  comparisons : inp.classifications.length ≤ inp.limits.resolve.maxCapabilityComparisons.toNat
  entries : inp.classifications.length ≤ inp.limits.resolve.maxEntries.toNat
  valid : ∀ c ∈ inp.classifications, validateClassification nfc c = .ok ()
  distinct : Distinct inp.classifications

theorem Planned.sound (planned : Planned nfc inp plan pf) : Sound nfc inp := by
  obtain ⟨es,rows⟩ := planned.rows
  obtain ⟨valid,distinct⟩ := (resolveRows_ok inp.policy).mp ⟨_,rows⟩
  exact ⟨planned.comparisons,planned.entries,valid,distinct⟩

theorem mem_sortClassifications : c ∈ sortClassifications rows ↔ c ∈ rows := (insertionSort_perm _ rows).mem_iff

theorem forall₂_key (carry : List.Forall₂ (Carries policy) rows es) : es.map Entry.key = rows.map Classification.key := by
  induction carry with
  | nil => rfl
  | cons first _ ih => rw [List.map_cons,List.map_cons,first.key,ih]

theorem strict_keys (carry : List.Forall₂ (Carries policy) rows es)
    (strict : rows.Pairwise fun a b => compareClassifications a b = .lt) :
    es.Pairwise fun a b => compareEntries a b = .lt := by
  have keys : (es.map Entry.key).Pairwise fun a b => compareKeys a b = .lt := by
    rw [forall₂_key carry]
    exact List.pairwise_map.mpr strict
  exact List.pairwise_map.mp keys

/-- The loop over sound input: the blocking rows reported in order, an entry for every other. -/
theorem Sound.rowsOutcome (sound : Sound nfc inp) : ∃ es, Planner.rowsOutcome nfc inp =
        .ok (es,((sortClassifications inp.classifications).filter fun c => Blocked inp.policy c).map Classification.item) ∧
      List.Forall₂ (Carries inp.policy)
        ((sortClassifications inp.classifications).filter fun c => ¬Blocked inp.policy c) es ∧
      sortEntries es = es ∧ planEntries nfc inp = es := by
  have strict := strict_of_distinct sound.distinct
  have valid : ∀ c ∈ sortClassifications inp.classifications, validateClassification nfc c = .ok () :=
    fun c listed => sound.valid c (mem_sortClassifications.mp listed)
  obtain ⟨es,done,become⟩ := resolveRows_spec inp.policy valid (apart_of_strict strict)
  have carry : List.Forall₂ (Carries inp.policy)
      ((sortClassifications inp.classifications).filter fun c => ¬Blocked inp.policy c) es := by
    have pairs := (List.forall₂_and_left _ _).mpr
      ⟨fun c (listed : c ∈ (sortClassifications inp.classifications).filter fun c => ¬Blocked inp.policy c) =>
        valid c (List.mem_filter.mp listed).1,become⟩
    exact pairs.imp fun c e both => both.2.carries both.1
  have sorted : sortEntries es = es := by
    refine insertionSort_of_sorted ((strict_keys carry (strict.filter _)).imp fun less => ?_)
    rw [Upto,less]
    decide
  exact ⟨es,done,carry,sorted,by rw [planEntries,done]; exact sorted⟩

/-! The size of a document, from the rows. -/

def rowSize (c : Classification) : Nat := 42 + (c.path.map fun name => 2 + name.length).sum

def planSize (rows : List Classification) : Nat := 174 + (rows.map rowSize).sum

theorem components_length (path : List Bytes) :
    (path.flatMap encodeComponent).length = (path.map fun name => 2 + name.length).sum := by
  simp [List.length_flatMap,encodeComponent]

theorem Carries.wire_length (carries : Carries policy c e) : e.wire.length = rowSize c := by
  simp only [Entry.wire,List.length_append,leBytes_length,components_length,carries.path,e.auxDigest.property,rowSize]
  omega

theorem Document.body_length (d : Document) : d.body.length = 142 + (d.entries.map fun e => e.wire.length).sum := by
  have magic : planMagic.length = 8 := rfl
  simp only [Document.body,List.length_append,leBytes_length,magic,d.manifestDigest.property,
    d.capDigest.property,d.cfgDigest.property,d.destructiveDigest.property,List.length_flatMap]
  omega

theorem path_fits {path : List Bytes} (valid : validateComponents nfc {} path = .ok ()) :
    path.length ≤ 65535 ∧ ∀ name ∈ path, name.length ≤ 65535 := by
  simp only [validateComponents,reject_ok,except_unit_bind_ok] at valid
  obtain ⟨-,count,each⟩ := valid
  obtain ⟨-,total⟩ := validateEach_ok each
  simp only [maxComponents,maxPathBytes] at count total
  refine ⟨by omega,fun name listed => ?_⟩
  obtain ⟨before,after,rfl⟩ := List.append_of_mem listed
  simp only [List.map_append,List.map_cons,List.sum_append,List.sum_cons] at total
  omega

theorem Carries.fits (carries : Carries policy c e) (valid : validateClassification nfc c = .ok ()) : e.Fits := by
  rw [Entry.Fits,carries.path]
  exact path_fits (validateClassification_ok.mp valid).1

/-- No row of the input forbids a plan. -/
def Free (inp : CanonicalInput) : Prop := ∀ c ∈ inp.classifications, ¬Blocked inp.policy c

theorem Free.filters (free : Free inp) :
    ((sortClassifications inp.classifications).filter fun c => Blocked inp.policy c) = [] ∧
      ((sortClassifications inp.classifications).filter fun c => ¬Blocked inp.policy c) =
        sortClassifications inp.classifications := by
  have clean : ∀ c ∈ sortClassifications inp.classifications, ¬Blocked inp.policy c :=
    fun c listed => free c (mem_sortClassifications.mp listed)
  exact ⟨List.filter_eq_nil_iff.mpr fun c listed => by simpa using clean c listed,
    List.filter_eq_self.mpr fun c listed => by simpa using clean c listed⟩

theorem Sound.free_entries (sound : Sound nfc inp) (free : Free inp) :
    Planner.rowsOutcome nfc inp = .ok (planEntries nfc inp,[]) ∧
      List.Forall₂ (Carries inp.policy) (sortClassifications inp.classifications) (planEntries nfc inp) ∧
      sortEntries (planEntries nfc inp) = planEntries nfc inp := by
  obtain ⟨es,done,carry,sorted,rfl⟩ := sound.rowsOutcome
  obtain ⟨none,all⟩ := free.filters
  rw [none] at done
  rw [all] at carry
  exact ⟨done,carry,sorted⟩

theorem wire_sizes (carry : List.Forall₂ (Carries policy) rows es) :
    (es.map fun e => e.wire.length) = rows.map rowSize := by
  induction carry with
  | nil => rfl
  | cons first _ ih => rw [List.map_cons,List.map_cons,first.wire_length,ih]

theorem all_fit (carry : List.Forall₂ (Carries policy) rows es)
    (valid : ∀ c ∈ rows, validateClassification nfc c = .ok ()) : ∀ e ∈ es, e.Fits := by
  induction carry with
  | nil => simp
  | cons first _ ih =>
    obtain ⟨here,others⟩ := List.forall_mem_cons.mp valid
    exact List.forall_mem_cons.mpr ⟨first.fits here,ih others⟩

theorem Sound.document_fits (sound : Sound nfc inp) (free : Free inp) :
    (document nfc inp).Fits ∧ (document nfc inp).body.length + 32 = planSize inp.classifications := by
  obtain ⟨-,carry,-⟩ := sound.free_entries free
  have sorted := insertionSort_perm compareClassifications inp.classifications
  refine ⟨⟨?_,all_fit carry fun c listed => sound.valid c (mem_sortClassifications.mp listed)⟩,?_⟩
  · have count : (planEntries nfc inp).length = inp.classifications.length := carry.length_eq.symm.trans sorted.length_eq
    have most := inp.limits.resolve.maxEntries.toNat_lt
    have entries := sound.entries
    simp only [document,count]
    omega
  · have sizes : ((sortClassifications inp.classifications).map rowSize).sum =
        (inp.classifications.map rowSize).sum := (sorted.map rowSize).sum_nat
    simp only [Document.body_length,document,wire_sizes carry,sizes,planSize]
    omega

/-- Sound input without a blocking row: the plan, unless it is too long. -/
theorem Sound.build_free (sound : Sound nfc inp) (free : Free inp) :
    build nfc inp = if planSize inp.classifications > inp.limits.resolve.maxPlanBytes.toNat then
        ⟨zeroPlan,⟨[]⟩,some (limit "plan_bytes" "exceeds MaxPlanBytes")⟩
      else ⟨⟨(document nfc inp).body ++ (sha256 (document nfc inp).body).val,sha256 (document nfc inp).body⟩,
        ⟨[]⟩,none⟩ := by
  obtain ⟨done,-,sorted⟩ := sound.free_entries free
  obtain ⟨fits,size⟩ := sound.document_fits free
  have encoded := Document.encodePlan_ok.mpr ⟨fits,rfl,rfl⟩
  have length : ((document nfc inp).body ++ (sha256 (document nfc inp).body).val).length =
      planSize inp.classifications := by
    rw [List.length_append,(sha256 (document nfc inp).body).property,size]
  rw [Planner.rowsOutcome] at done
  rw [← length]
  simp only [document] at encoded
  simp only [build,if_neg (Nat.not_lt.mpr sound.comparisons),if_neg (Nat.not_lt.mpr sound.entries),done,
    List.length_nil,Nat.lt_irrefl,if_false,sorted,encoded,document,gt_iff_lt]

theorem Sound.build_blocked (sound : Sound nfc inp) (blocked : ∃ c ∈ inp.classifications, Blocked inp.policy c) :
    build nfc inp = ⟨zeroPlan,
      ⟨((sortClassifications inp.classifications).filter fun c => Blocked inp.policy c).map Classification.item⟩,
      some (refuse "preflight" "blocking classifications refuse authorization")⟩ := by
  obtain ⟨es,done,-⟩ := sound.rowsOutcome
  obtain ⟨c,listed,blocks⟩ := blocked
  have some_ : 0 < (((sortClassifications inp.classifications).filter fun c =>
      Blocked inp.policy c).map Classification.item).length := by
    rw [List.length_map]
    exact List.length_pos_of_mem (List.mem_filter.mpr ⟨mem_sortClassifications.mpr listed,by simpa using blocks⟩)
  rw [Planner.rowsOutcome] at done
  simp only [build,if_neg (Nat.not_lt.mpr sound.comparisons),if_neg (Nat.not_lt.mpr sound.entries),done,
    gt_iff_lt,if_pos some_]

theorem Planned.free (planned : Planned nfc inp plan pf) : Free inp := by
  intro c listed blocks
  have refused := planned.sound.build_blocked ⟨c,listed,blocks⟩
  rw [build_planned.mpr planned] at refused
  cases (Outcome.mk.inj refused).2.2

/-- What a plan holds, and when it is refused. The rows that forbid a plan are those with an
unknown capability, a blocking result or no admissible representation. -/
theorem plans_lose_nothing (nfc : NFCTables) (inp : CanonicalInput) :
    (∀ plan pf, build nfc inp = ⟨plan,pf,none⟩ →
      encodePlan inp.manifestDigest inp.capabilityVectorDigest inp.configurationDigest (planEntries nfc inp)
        (sha256 (encodeDestructiveSubset (planEntries nfc inp))) = .ok (plan.bytes,plan.digest) ∧
      (planEntries nfc inp).Pairwise (fun a b => compareEntries a b = .lt) ∧
      ∃ rows : List Classification, rows.Perm inp.classifications ∧
        List.Forall₂ (Carries inp.policy) rows (planEntries nfc inp)) ∧
    (Sound nfc inp →
      ((∃ e, (build nfc inp).err = some e ∧ e.kind = .refuse) ↔
        ∃ c ∈ inp.classifications, Blocked inp.policy c) ∧
      ((∃ c ∈ inp.classifications, Blocked inp.policy c) → (build nfc inp).plan = zeroPlan ∧
        ∃ rows : List Classification, rows.Perm (inp.classifications.filter fun c => Blocked inp.policy c) ∧
          rows.Pairwise (fun a b => compareClassifications a b = .lt) ∧
          (build nfc inp).preflight.blocking = rows.map Classification.item) ∧
      (Free inp → planSize inp.classifications ≤ inp.limits.resolve.maxPlanBytes.toNat →
        (build nfc inp).err = none)) := by
  constructor
  · intro plan pf built
    have planned := build_planned.mp built
    obtain ⟨-,carry,-⟩ := planned.sound.free_entries planned.free
    refine ⟨Document.encodePlan_ok.mpr ⟨planned.fits,planned.bytes,planned.digest⟩,?_,_,insertionSort_perm _ _,carry⟩
    exact strict_keys carry (strict_of_distinct planned.sound.distinct)
  · intro sound
    refine ⟨⟨fun ⟨e,failed,refused⟩ => ?_,fun blocked => ?_⟩,fun blocked => ?_,fun free small => ?_⟩
    · by_contra none
      have free : Free inp := fun c listed blocks => none ⟨c,listed,blocks⟩
      rw [sound.build_free free] at failed
      split at failed
      · cases failed
        cases refused
      · cases failed
    · exact ⟨_,by rw [sound.build_blocked blocked],rfl⟩
    · rw [sound.build_blocked blocked]
      exact ⟨rfl,_,(insertionSort_perm _ inp.classifications).filter _,
        (strict_of_distinct sound.distinct).filter _,rfl⟩
    · rw [sound.build_free free,if_neg (Nat.not_lt.mpr small)]

theorem plans_lose_nothing_sample : (build asciiTables (sampleInput sampleRows)).err = none ∧
    (∃ rows : List Classification, rows.Perm sampleRows ∧ List.Forall₂ (Carries (sampleInput sampleRows).policy) rows
      (planEntries asciiTables (sampleInput sampleRows))) ∧
    (planEntries asciiTables (sampleInput sampleRows)).map Entry.representationID = [2,4] := by
  have clean : (build asciiTables (sampleInput sampleRows)).err = none := by decide +kernel
  exact ⟨clean,((plans_lose_nothing _ _).1 _ _ (built_eq clean)).2.2,by decide +kernel⟩

/-! ## One result per path and capability -/

/-- Nothing is said twice about a path and a capability. -/
def OneResult (key : α → Key) (xs : List α) : Prop :=
  xs.Pairwise fun a b => ¬((key a).path = (key b).path ∧ (key a).capabilityID = (key b).capabilityID)

theorem oneResult_keys {key : α → Key} {xs : List α} : OneResult key xs ↔ OneResult id (xs.map key) := by
  rw [OneResult,OneResult,List.pairwise_map]
  rfl

/-- A plan has one result per path and capability exactly if its input has one row for each. -/
theorem one_result_iff {nfc : NFCTables} {inp : CanonicalInput} {plan : Plan} {pf : Preflight}
    (built : build nfc inp = ⟨plan,pf,none⟩) :
    OneResult Entry.key (planEntries nfc inp) ↔ OneResult Classification.key inp.classifications := by
  have planned := build_planned.mp built
  obtain ⟨-,carry,-⟩ := planned.sound.free_entries planned.free
  rw [oneResult_keys,forall₂_key carry,← oneResult_keys]
  refine (insertionSort_perm _ inp.classifications).pairwise_iff fun {a b} apart same => apart ?_
  exact ⟨same.1.symm,same.2.symm⟩

theorem one_result_sample : (build asciiTables (sampleInput sampleRows)).err = none ∧
    OneResult Entry.key (planEntries asciiTables (sampleInput sampleRows)) := by
  have clean : (build asciiTables (sampleInput sampleRows)).err = none := by decide +kernel
  refine ⟨clean,(one_result_iff (built_eq clean)).mpr ?_⟩
  unfold OneResult
  decide +kernel

/-- One path and capability, to be created and to be replaced. -/
def twiceClassified : List Classification :=
  [⟨[ascii "a"],1,actionCreate,resultLossless,[],Fixed.zero 32⟩,
   ⟨[ascii "a"],1,actionReplace,resultWrapped,[4],Fixed.zero 32⟩]

theorem two_results_planned : (build asciiTables (sampleInput twiceClassified)).err = none ∧
    ((planEntries asciiTables (sampleInput twiceClassified)).map fun e => (e.path,e.capabilityID,e.result)) =
      [([ascii "a"],1,resultLossless),([ascii "a"],1,resultWrapped)] := by
  decide +kernel

end Integris.Planner
