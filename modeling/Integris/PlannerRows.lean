import Integris.Planner

/-! What the planner's loop does with sorted rows: which rows it rejects, which it
reports as blocking and which entry each other row becomes. -/
namespace Integris.Planner

open PathGrammar

/-! ## Order -/

instance : Ord Key := ⟨compareKeys⟩

instance : Std.TransCmp compareKeys :=
  inferInstanceAs (Std.TransCmp (compareLex (compareOn Key.path)
    (compareLex (compareOn Key.capabilityID) (compareOn Key.action))))

instance : Std.TransOrd Key := inferInstanceAs (Std.TransCmp compareKeys)

instance : Std.TransCmp compareClassifications :=
  inferInstanceAs (Std.TransCmp (compareOn Classification.key))

theorem compareKeys_eq {a b : Key} : compareKeys a b = .eq ↔ a = b := by
  obtain ⟨path,capability,action⟩ := a
  obtain ⟨path',capability',action'⟩ := b
  have paths : comparePathComponents path path' = .eq ↔ path = path' := by
    change compare path path' = .eq ↔ path = path'
    exact Std.compare_eq_iff_eq
  simp only [compareKeys,Ordering.then_eq_eq,paths,Std.compare_eq_iff_eq,Key.mk.injEq]

theorem sortUint16_congr {xs ys : List UInt16} (perm : xs.Perm ys) : sortUint16 xs = sortUint16 ys :=
  insertionSort_congr perm

variable {id : UInt16} {xs : List UInt16} {all : Bool} {allow : List UInt16} {best : UInt16 × Bool}
  {c : Classification} {nfc : NFCTables} {policy : Policy} {last : Option Classification}
  {rows : List Classification}

theorem mem_sortUint16 : id ∈ sortUint16 xs ↔ id ∈ xs := (insertionSort_perm compare xs).mem_iff

theorem sortUint16_length (xs : List UInt16) : (sortUint16 xs).length = xs.length :=
  (insertionSort_perm compare xs).length_eq

/-! ## Representations -/

/-- `emptyAllowAll` is what an empty allow-list admits. -/
def Eligible (allow : List UInt16) (emptyAllowAll : Bool) (id : UInt16) : Prop :=
  id ≠ 0 ∧ if allow = [] then emptyAllowAll = true else id ∈ allow

instance (allow : List UInt16) (all : Bool) (id : UInt16) : Decidable (Eligible allow all id) :=
  inferInstanceAs (Decidable (id ≠ 0 ∧ if allow = [] then all = true else id ∈ allow))

theorem allowContains_eq (list : List UInt16) (id : UInt16) : allowContains list id = decide (id ∈ list) := by
  simp [allowContains,List.any_beq']

/-- `best` is the least eligible identifier seen, if there is any. -/
def Best (allow : List UInt16) (all : Bool) (seen : List UInt16) (best : UInt16 × Bool) : Prop :=
  (best = (0,false) ∧ ∀ id ∈ seen, ¬Eligible allow all id) ∨
  (best.2 = true ∧ best.1 ∈ seen ∧ Eligible allow all best.1 ∧
    ∀ id ∈ seen, Eligible allow all id → best.1 ≤ id)

theorem pickStep_eq (allow : List UInt16) (all : Bool) (best : UInt16 × Bool) (id : UInt16) : pickStep allow all best id =
      if Eligible allow all id ∧ (best.2 = false ∨ id < best.1) then (id,true) else best := by
  by_cases zero : id = 0
  · simp [pickStep,Eligible,zero]
  · cases allow with
    | nil => cases all <;> cases h : best.2 <;> simp [pickStep,Eligible,zero,h]
    | cons first more =>
      by_cases listed : id ∈ first :: more
      · cases h : best.2 <;> simp only [pickStep,Eligible,zero,allowContains_eq,listed,h] <;> simp [zero]
      · simp only [pickStep,Eligible,zero,allowContains_eq,listed]
        simp

theorem Best.step {seen : List UInt16} (so : Best allow all seen best) (id : UInt16) :
    Best allow all (seen ++ [id]) (pickStep allow all best id) := by
  rw [pickStep_eq]
  by_cases good : Eligible allow all id
  · rcases so with ⟨rfl,none⟩ | ⟨found,listed,fits,least⟩
    · refine .inr ?_
      simp only [good,true_and,true_or,if_true]
      refine ⟨by simp,fun other member fits => ?_⟩
      rcases List.mem_append.mp member with old | new
      · exact absurd fits (none other old)
      · exact UInt16.le_of_eq (List.mem_singleton.mp new).symm
    · by_cases less : id < best.1
      · simp only [good,less,or_true,and_true,if_true]
        refine .inr ⟨rfl,by simp,good,fun other member fits => ?_⟩
        rcases List.mem_append.mp member with old | new
        · exact UInt16.le_trans (UInt16.le_of_lt less) (least other old fits)
        · exact UInt16.le_of_eq (List.mem_singleton.mp new).symm
      · simp only [found,less,Bool.true_eq_false,or_self,and_false,if_false]
        refine .inr ⟨found,by simp [listed],fits,fun other member fits => ?_⟩
        rcases List.mem_append.mp member with old | new
        · exact least other old fits
        · rw [List.mem_singleton.mp new]
          exact UInt16.not_lt.mp less
  · simp only [good,false_and,if_false]
    rcases so with ⟨rfl,none⟩ | ⟨found,listed,fits,least⟩
    · refine .inl ⟨rfl,fun other member => ?_⟩
      rcases List.mem_append.mp member with old | new
      · exact none other old
      · rwa [List.mem_singleton.mp new]
    · refine .inr ⟨found,by simp [listed],fits,fun other member fits => ?_⟩
      rcases List.mem_append.mp member with old | new
      · exact least other old fits
      · rw [List.mem_singleton.mp new] at fits
        exact absurd fits good

theorem Best.run {seen ids : List UInt16} (so : Best allow all seen best) :
    Best allow all (seen ++ ids) (ids.foldl (pickStep allow all) best) := by
  induction ids generalizing seen best with
  | nil => rwa [List.append_nil]
  | cons id ids ih =>
    rw [List.append_cons]
    exact ih (so.step id)

/-- The outcome of a choice: unused, the least eligible candidate, or nothing. -/
theorem pickRepresentation_spec (candidates allow : List UInt16) (all : Bool) :
    (candidates = [] ∧ all = true ∧ pickRepresentation candidates allow all = (0,true)) ∨
    (¬(candidates = [] ∧ all = true) ∧ (∀ id ∈ candidates, ¬Eligible allow all id) ∧
      pickRepresentation candidates allow all = (0,false)) ∨
    (∃ id ∈ candidates, Eligible allow all id ∧ (∀ other ∈ candidates, Eligible allow all other → id ≤ other) ∧
      pickRepresentation candidates allow all = (id,true)) := by
  have best : Best allow all (sortUint16 candidates) ((sortUint16 candidates).foldl (pickStep allow all) (0,false)) := by
    have start : Best allow all [] (0,false) := .inl ⟨rfl,by simp⟩
    exact start.run
  simp only [Best,mem_sortUint16] at best
  simp only [pickRepresentation,sortUint16_length]
  rcases best with ⟨unset,none⟩ | ⟨found,listed,fits,least⟩
  · rw [unset]
    by_cases free : candidates = [] ∧ all = true
    · obtain ⟨rfl,rfl⟩ := free
      exact .inl ⟨rfl,rfl,by simp⟩
    · refine .inr (.inl ⟨free,none,?_⟩)
      simpa using free
  · refine .inr (.inr ⟨_,listed,fits,least,?_⟩)
    simp only [found,Bool.not_true,Bool.false_and,Bool.false_eq_true,if_false]
    rw [← found]

/-! ## Rows -/

/-- The applicable allow-list admits `id` for `c`. -/
def Admits (policy : Policy) (c : Classification) (id : UInt16) : Prop :=
  id ∈ c.representationIDs ∧ id ≠ 0 ∧
    ((c.result = resultLossless ∧
        (policy.representationAllowList = [] ∨ id ∈ policy.representationAllowList)) ∨
      (c.result = resultWrapped ∧ id ∈ policy.wrapAllowList))

instance (policy : Policy) (c : Classification) (id : UInt16) : Decidable (Admits policy c id) := by
  unfold Admits
  infer_instance

/-- A row that needs no representation. -/
def Bare (c : Classification) : Prop := c.result = resultLossless ∧ c.representationIDs = []

instance (c : Classification) : Decidable (Bare c) := inferInstanceAs (Decidable (_ ∧ _))

/-- The rows that forbid a plan. -/
def Blocked (policy : Policy) (c : Classification) : Prop :=
  knownCapability c.capabilityID = false ∨ blocksAuthorization c.result = true ∨
    (¬Bare c ∧ ∀ id ∈ c.representationIDs, ¬Admits policy c id)

instance (policy : Policy) (c : Classification) : Decidable (Blocked policy c) :=
  inferInstanceAs (Decidable (_ ∨ _ ∨ (_ ∧ _)))

/-- What the preflight says of a row that forbids a plan. -/
def Classification.verdict (c : Classification) : ResultCode :=
  if knownCapability c.capabilityID = false then resultUnknown
  else if blocksAuthorization c.result then c.result
  else resultPolicyForbidden

def Classification.item (c : Classification) : BlockingItem := ⟨c.path,c.capabilityID,c.verdict⟩

/-- The identifier a row is planned with. -/
def Represents (policy : Policy) (c : Classification) (id : UInt16) : Prop :=
  (id = 0 ∧ Bare c) ∨ (Admits policy c id ∧ ∀ other, Admits policy c other → id ≤ other)

/-- The entry of a row that does not forbid a plan. -/
def Becomes (policy : Policy) (c : Classification) (e : Entry) : Prop :=
  ¬Blocked policy c ∧ ∃ id, Represents policy c id ∧ e = { c.entry with representationID := id }

theorem result_cases {r : ResultCode} (valid : validResult r = true) (free : blocksAuthorization r = false) :
    r = resultLossless ∨ r = resultWrapped := by
  obtain ⟨low,high⟩ := of_decide_eq_true valid
  have free := of_decide_eq_false free
  simp only [← UInt16.toNat_inj,UInt16.le_iff_toNat_le,ge_iff_le,resultLossless,resultWrapped,
    resultUnrepresentable,resultPolicyForbidden,resultUnknown,UInt16.reduceToNat] at *
  omega

theorem validateClassification_ok : validateClassification nfc c = .ok () ↔ validateComponents nfc {} c.path = .ok () ∧
      validAction c.action = true ∧ validResult c.result = true ∧ c.capabilityID ≠ 0 ∧
      (knownCapability c.capabilityID = true → c.representationIDs.length ≤ maxDefaultCapabilityComparisons.toNat) := by
  simp only [validateClassification,except_unit_bind_ok,demand_ok]
  refine and_congr ?_ (and_congr_right fun _ => and_congr_right fun _ => and_congr_right fun _ => ?_)
  · cases validateComponents nfc {} c.path <;> simp [Except.mapError]
  · by_cases known : knownCapability c.capabilityID = true
    · simp only [known,if_true,demand_ok,true_imp_iff]
    · have skipped : knownCapability c.capabilityID = false := by simpa using known
      simp [skipped,pure,Except.pure]

theorem sort_nil : sortUint16 xs = [] ↔ xs = [] := by
  rw [← List.length_eq_zero_iff,sortUint16_length,List.length_eq_zero_iff]

theorem eligible_lossless (lossless : c.result = resultLossless) (listed : id ∈ c.representationIDs) :
    Eligible (sortUint16 policy.representationAllowList) true id ↔ Admits policy c id := by
  have other : resultLossless ≠ resultWrapped := by decide
  simp only [Eligible,Admits,sort_nil,mem_sortUint16,lossless,listed,true_and,other,false_and,or_false]
  by_cases empty : policy.representationAllowList = [] <;> simp [empty]

theorem eligible_wrapped (wrapped : c.result = resultWrapped) (listed : id ∈ c.representationIDs) :
    Eligible (sortUint16 policy.wrapAllowList) false id ↔ Admits policy c id := by
  have other : resultWrapped ≠ resultLossless := by decide
  simp only [Eligible,Admits,sort_nil,mem_sortUint16,wrapped,listed,true_and,other,false_and,false_or]
  by_cases empty : policy.wrapAllowList = [] <;> simp [empty]

theorem not_blocked (known : knownCapability c.capabilityID = true) (free : blocksAuthorization c.result = false)
    (fits : Represents policy c id) : ¬Blocked policy c := by
  rintro (unknown | stops | ⟨full,none⟩)
  · rw [known] at unknown
    cases unknown
  · rw [free] at stops
    cases stops
  · rcases fits with ⟨-,bare⟩ | ⟨admitted,-⟩
    · exact full bare
    · exact none id admitted.1 admitted

/-- What the loop gets for a row: an entry it reports, or one it keeps. -/
def Resolves (policy : Policy) (c : Classification) (r : Except Error (Entry × Bool)) : Prop :=
  (Blocked policy c ∧ ∃ e : Entry, e.result = c.verdict ∧ r = .ok (e,true)) ∨
    ∃ e, Becomes policy c e ∧ r = .ok (e,false)

theorem resolves_picked {allow : List UInt16} {noRep : Bool} {r : Except Error (Entry × Bool)}
    (known : knownCapability c.capabilityID = true) (free : blocksAuthorization c.result = false)
    (bare : noRep = true ↔ c.result = resultLossless)
    (eligible : ∀ id ∈ c.representationIDs, Eligible allow noRep id ↔ Admits policy c id)
    (run : r = if !(pickRepresentation c.representationIDs allow noRep).2 then
        .ok ({ c.entry with result := resultPolicyForbidden },true)
      else .ok ({ c.entry with
        representationID := (pickRepresentation c.representationIDs allow noRep).1 },false)) : Resolves policy c r := by
  subst run
  rcases pickRepresentation_spec c.representationIDs allow noRep with
    ⟨empty,yes,pick⟩ | ⟨some_,none,pick⟩ | ⟨id,listed,fits,least,pick⟩
  · have unused : Represents policy c 0 := .inl ⟨rfl,bare.mp yes,empty⟩
    exact .inr ⟨_,⟨not_blocked known free unused,0,unused,rfl⟩,by simp [pick]⟩
  · refine .inl ⟨.inr (.inr ⟨fun both => some_ ⟨both.2,bare.mpr both.1⟩,fun id listed => ?_⟩),
      { c.entry with result := resultPolicyForbidden },?_,by simp [pick]⟩
    · rw [← eligible id listed]
      exact none id listed
    · simp [Classification.verdict,known,free]
  · have chosen : Represents policy c id := by
      refine .inr ⟨(eligible id listed).mp fits,fun other fits => ?_⟩
      exact least other fits.1 ((eligible other fits.1).mpr fits)
    exact .inr ⟨_,⟨not_blocked known free chosen,id,chosen,rfl⟩,by simp [pick]⟩

/-- A valid row blocks or becomes an entry; the error of the last branch is out of reach. -/
theorem resolves (policy : Policy) (valid : validateClassification nfc c = .ok ()) :
    Resolves policy c (resolveClassification c (sortUint16 policy.wrapAllowList)
      (sortUint16 policy.representationAllowList)) := by
  obtain ⟨-,-,result,-,-⟩ := validateClassification_ok.mp valid
  cases known : knownCapability c.capabilityID with
  | false =>
    refine .inl ⟨.inl known,{ c.entry with result := resultUnknown },?_,?_⟩
    · rw [Classification.verdict,if_pos known]
    · simp [resolveClassification,known]
  | true =>
    cases blocks : blocksAuthorization c.result with
    | true =>
      refine .inl ⟨.inr (.inl blocks),c.entry,?_,?_⟩
      · simp [Classification.verdict,known,blocks,Classification.entry]
      · simp [resolveClassification,known,blocks]
    | false =>
      rcases result_cases result blocks with lossless | wrapped
      · refine resolves_picked known blocks (by simp [lossless]) (fun _ => eligible_lossless lossless) ?_
        rw [lossless] at blocks
        by_cases empty : c.representationIDs = []
        · have none (allow : List UInt16) : pickRepresentation [] allow true = (0,true) := rfl
          simp [resolveClassification,known,lossless,blocks,empty,none]
        · cases pick : (pickRepresentation c.representationIDs (sortUint16 policy.representationAllowList) true).2 <;>
            simp [resolveClassification,known,lossless,blocks,pick,List.length_pos_iff.mpr empty]
      · have other : resultWrapped ≠ resultLossless := by decide
        refine resolves_picked known blocks (by simp [wrapped,other]) (fun _ => eligible_wrapped wrapped) ?_
        rw [wrapped] at blocks
        simp [resolveClassification,known,wrapped,blocks,other]

/-! ## The loop -/

/-- No row has the key of the row before it. -/
def Apart (last : Option Classification) (rows : List Classification) : Prop :=
  (last.toList ++ rows).IsChain fun a b => compareClassifications a b ≠ .eq

theorem apart_cons : Apart last (c :: rows) ↔ (∀ p ∈ last, compareClassifications p c ≠ .eq) ∧ Apart (some c) rows := by
  cases last with
  | none => simp [Apart]
  | some p => simp [Apart,List.isChain_cons_cons]

theorem resolveRows_accepts {wrapAllow repAllow : List UInt16} {out : List Entry × List BlockingItem}
    (done : resolveRows nfc wrapAllow repAllow last rows = .ok out) :
    (∀ c ∈ rows, validateClassification nfc c = .ok ()) ∧ Apart last rows := by
  induction rows generalizing last out with
  | nil =>
    refine ⟨by simp,?_⟩
    cases last <;> simp [Apart]
  | cons c rows ih =>
    simp only [resolveRows,except_bind_ok] at done
    obtain ⟨⟨⟩,valid,⟨⟩,apart,first,-,others,rest,-⟩ := done
    obtain ⟨valids,chain⟩ := ih rest
    exact ⟨List.forall_mem_cons.mpr ⟨valid,valids⟩,apart_cons.mpr ⟨demand_ok.mp apart,chain⟩⟩

theorem resolveRows_spec (policy : Policy) (valid : ∀ c ∈ rows, validateClassification nfc c = .ok ())
    (apart : Apart last rows) :
    ∃ entries, resolveRows nfc (sortUint16 policy.wrapAllowList) (sortUint16 policy.representationAllowList)
        last rows = .ok (entries,(rows.filter fun c => Blocked policy c).map Classification.item) ∧
      List.Forall₂ (Becomes policy) (rows.filter fun c => ¬Blocked policy c) entries := by
  induction rows generalizing last with
  | nil => exact ⟨[],rfl,.nil⟩
  | cons c rows ih =>
    obtain ⟨first,others⟩ := List.forall_mem_cons.mp valid
    obtain ⟨new,chain⟩ := apart_cons.mp apart
    obtain ⟨entries,rest,become⟩ := ih others chain
    simp only [resolveRows,first,demand_ok.mpr new,rest]
    rcases resolves policy first with ⟨blocked,e,verdict,resolve⟩ | ⟨e,becomes,resolve⟩
    · rw [resolve]
      refine ⟨entries,?_,?_⟩
      · rw [List.filter_cons_of_pos (by simpa using blocked),List.map_cons,Classification.item,← verdict]
        rfl
      · rwa [List.filter_cons_of_neg (by simpa using blocked)]
    · rw [resolve]
      refine ⟨e :: entries,?_,?_⟩
      · rw [List.filter_cons_of_neg (by simpa using becomes.1)]
        rfl
      · rw [List.filter_cons_of_pos (by simpa using becomes.1)]
        exact .cons becomes become

theorem apart_of_strict (strict : rows.Pairwise fun a b => compareClassifications a b = .lt) : Apart none rows := by
  refine (strict.imp fun {a b} less => ?_).isChain
  rw [less]
  decide

theorem strict_of_apart (apart : Apart none (sortClassifications rows)) :
    (sortClassifications rows).Pairwise fun a b => compareClassifications a b = .lt := by
  refine chain_strict.mp ?_
  have sorted : (sortClassifications rows).IsChain (Upto compareClassifications) := (insertionSort_sorted rows).isChain
  refine List.isChain_iff_getElem.mpr fun i inside => ?_
  have le := List.isChain_iff_getElem.mp sorted i inside
  have ne := List.isChain_iff_getElem.mp apart i inside
  exact lt_of_upto le ne

/-- Rows with keys of their own, in whatever order. -/
def Distinct (rows : List Classification) : Prop := rows.Pairwise fun a b => a.key ≠ b.key

theorem strict_of_distinct (distinct : Distinct rows) :
    (sortClassifications rows).Pairwise fun a b => compareClassifications a b = .lt :=
  insertionSort_strict (distinct.imp fun ne eq => ne (compareKeys_eq.mp eq))

theorem distinct_of_strict (strict : (sortClassifications rows).Pairwise fun a b => compareClassifications a b = .lt) :
    Distinct rows := by
  refine ((insertionSort_perm compareClassifications rows).pairwise_iff fun {a b} ne => ne.symm).mp ?_
  refine strict.imp fun {a b} less same => ?_
  rw [compareClassifications,compareKeys_eq.mpr same] at less
  cases less

theorem resolveRows_ok (policy : Policy) :
    (∃ out, resolveRows nfc (sortUint16 policy.wrapAllowList) (sortUint16 policy.representationAllowList)
      none (sortClassifications rows) = .ok out) ↔
    (∀ c ∈ rows, validateClassification nfc c = .ok ()) ∧ Distinct rows := by
  have members : ∀ {c}, c ∈ sortClassifications rows ↔ c ∈ rows := (insertionSort_perm _ rows).mem_iff
  constructor
  · rintro ⟨out,done⟩
    obtain ⟨valid,apart⟩ := resolveRows_accepts done
    exact ⟨fun c listed => valid c (members.mpr listed),distinct_of_strict (strict_of_apart apart)⟩
  · rintro ⟨valid,distinct⟩
    obtain ⟨entries,done,-⟩ := resolveRows_spec policy (fun c listed => valid c (members.mp listed))
      (apart_of_strict (strict_of_distinct distinct))
    exact ⟨_,done⟩

end Integris.Planner
