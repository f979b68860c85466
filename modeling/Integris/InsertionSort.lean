import Mathlib.Data.List.Sort

/-! Insertion sort in place, over any comparison: what the nested loops leave
behind, and when the outcome does not depend on the order of the input. -/
namespace Integris

variable {α β : Type}

/-- `a` may stand before `b`. -/
abbrev Upto (cmp : α → α → Ordering) (a b : α) : Prop := cmp a b ≠ .gt

variable {cmp : α → α → Ordering} {xs : List α}

theorem lt_of_upto {a b : α} (le : Upto cmp a b) (ne : cmp a b ≠ .eq) : cmp a b = .lt := by
  cases order : cmp a b with
  | lt => rfl
  | eq => exact absurd order ne
  | gt => exact absurd order le

/-- The sorted front, last element first, once `x` has been swapped left past every
greater element. -/
def sink (cmp : α → α → Ordering) (x : α) (front : List α) : List α :=
  front.orderedInsert (fun a b => Upto cmp b a) x

def insertionSort (cmp : α → α → Ordering) (xs : List α) : List α :=
  (xs.foldl (fun front x => sink cmp x front) []).reverse

theorem insertionSort_eq (cmp : α → α → Ordering) (xs : List α) :
    insertionSort cmp xs = (xs.reverse.insertionSort fun a b => Upto cmp b a).reverse := by
  rw [insertionSort,List.insertionSort,List.foldr_reverse]
  rfl

theorem insertionSort_perm (cmp : α → α → Ordering) (xs : List α) : (insertionSort cmp xs).Perm xs := by
  rw [insertionSort_eq]
  exact (List.reverse_perm _).trans ((List.perm_insertionSort _ _).trans (List.reverse_perm _))

theorem insertionSort_of_sorted (sorted : xs.Pairwise (Upto cmp)) : insertionSort cmp xs = xs := by
  rw [insertionSort_eq,List.Pairwise.insertionSort_eq,List.reverse_reverse]
  exact List.pairwise_reverse.mpr sorted

theorem insertionSort_map {other : β → β → Ordering} {f : α → β} (same : ∀ a b, other (f a) (f b) = cmp a b) (xs : List α) :
    insertionSort other (xs.map f) = (insertionSort cmp xs).map f := by
  rw [insertionSort_eq,insertionSort_eq,List.map_reverse,← List.map_reverse]
  rw [List.map_insertionSort (fun a b => Upto cmp b a) (fun a b => Upto other b a) f]
  intro a _ b _
  rw [Upto,Upto,same]

section Lawful

variable {cmp : α → α → Ordering} [Std.TransCmp cmp]

theorem upto_trans {a b c : α} (ab : Upto cmp a b) (bc : Upto cmp b c) : Upto cmp a c := by
  exact Ordering.isLE_iff_ne_gt.mp
    (Std.TransCmp.isLE_trans (Ordering.isLE_iff_ne_gt.mpr ab) (Ordering.isLE_iff_ne_gt.mpr bc))

theorem upto_total (a b : α) : Upto cmp a b ∨ Upto cmp b a := by
  by_cases greater : cmp a b = .gt
  · exact .inr (by rw [Upto,Std.OrientedCmp.lt_of_gt greater]; decide)
  · exact .inl greater

theorem insertionSort_sorted (xs : List α) : (insertionSort cmp xs).Pairwise (Upto cmp) := by
  rw [insertionSort_eq,List.pairwise_reverse]
  have : Std.Total fun a b : α => Upto cmp b a := ⟨fun a b => upto_total b a⟩
  have : IsTrans α fun a b : α => Upto cmp b a := ⟨fun _ _ _ ab bc => upto_trans bc ab⟩
  exact List.pairwise_insertionSort _ _

theorem insertionSort_strict (distinct : xs.Pairwise fun a b => cmp a b ≠ .eq) :
    (insertionSort cmp xs).Pairwise fun a b => cmp a b = .lt := by
  have apart : (insertionSort cmp xs).Pairwise fun a b => cmp a b ≠ .eq := by
    refine ((insertionSort_perm cmp xs).pairwise_iff fun {a b} ne eq => ne ?_).mpr distinct
    exact Std.OrientedCmp.eq_symm eq
  exact (List.pairwise_and_iff.mpr ⟨insertionSort_sorted xs,apart⟩).imp fun h => lt_of_upto h.1 h.2

theorem strict_unique {xs ys : List α} (perm : xs.Perm ys) (left : xs.Pairwise fun a b => cmp a b = .lt)
    (right : ys.Pairwise fun a b => cmp a b = .lt) : xs = ys := by
  refine perm.eq_of_pairwise (fun a b _ _ ab ba => ?_) left right
  rw [Std.OrientedCmp.gt_of_lt ab] at ba
  cases ba

theorem chain_strict : xs.IsChain (fun a b => cmp a b = .lt) ↔ xs.Pairwise fun a b => cmp a b = .lt := by
  have : Trans (fun a b : α => cmp a b = .lt) (fun a b => cmp a b = .lt) (fun a b => cmp a b = .lt) :=
    ⟨fun ab bc => Std.TransCmp.lt_trans ab bc⟩
  exact List.isChain_iff_pairwise

/-- Where only equal elements compare equal, the order of the input does not matter. -/
theorem insertionSort_congr [Std.LawfulEqCmp cmp] {xs ys : List α} (perm : xs.Perm ys) :
    insertionSort cmp xs = insertionSort cmp ys := by
  refine List.Perm.eq_of_pairwise (fun a b _ _ ab ba => ?_) (insertionSort_sorted xs) (insertionSort_sorted ys)
    ((insertionSort_perm cmp xs).trans (perm.trans (insertionSort_perm cmp ys).symm))
  suffices equal : cmp a b = .eq from Std.LawfulEqCmp.eq_of_compare equal
  cases order : cmp a b with
  | lt => exact absurd (Std.OrientedCmp.gt_of_lt order) ba
  | eq => rfl
  | gt => exact absurd order ab

end Lawful

end Integris
