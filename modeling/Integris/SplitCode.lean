import Integris.Bytes

/-! Encodings that can be read back without a decoder: two texts that begin with
an encoding each and are equal agree on what was encoded and on the rest. -/
namespace Integris.SplitCode

variable {α β γ δ : Type}

/-- The front `f a` of a text determines `k a` and where the front ends. -/
def Reads (P : α → Prop) (f : α → List β) (k : α → γ) : Prop :=
  ∀ a b, P a → P b → ∀ s t, f a ++ s = f b ++ t → k a = k b ∧ s = t

namespace Reads

variable {P : α → Prop} {Q : γ → Prop} {f g : α → List β} {k : α → γ} {l : α → δ}

theorem eq (reads : Reads P f k) {a b : α} (left : P a) (right : P b) (same : f a = f b) : k a = k b :=
  (reads a b left right [] [] (by rw [same])).1

theorem width {w : Nat} (size : ∀ a, P a → (f a).length = w)
    (injective : ∀ a b, P a → P b → f a = f b → k a = k b) : Reads P f k := by
  intro a b pa pb s t same
  obtain ⟨front,rest⟩ := List.append_inj same ((size a pa).trans (size b pb).symm)
  exact ⟨injective a b pa pb front,rest⟩

theorem map (reads : Reads P f k) (weaker : ∀ a b, P a → P b → k a = k b → l a = l b) : Reads P f l := by
  intro a b pa pb s t same
  obtain ⟨key,rest⟩ := reads a b pa pb s t same
  exact ⟨weaker a b pa pb key,rest⟩

theorem append (first : Reads P f k) (second : Reads P g l) : Reads P (fun a => f a ++ g a) fun a => (k a,l a) := by
  intro a b pa pb s t same
  simp only [List.append_assoc] at same
  obtain ⟨key,same⟩ := first a b pa pb _ _ same
  obtain ⟨value,rest⟩ := second a b pa pb _ _ same
  exact ⟨Prod.ext key value,rest⟩

/-- A length, then that many symbols. -/
theorem sized {size : α → Nat} (first : Reads P f size) (fills : ∀ a, P a → (g a).length = size a) :
    Reads P (fun a => f a ++ g a) g := by
  intro a b pa pb s t same
  simp only [List.append_assoc] at same
  obtain ⟨count,same⟩ := first a b pa pb _ _ same
  exact List.append_inj same (by rw [fills a pa,fills b pb,count])

theorem items {item : γ → List β} (one : Reads Q item id) : ∀ {xs ys : List γ}, (∀ x ∈ xs, Q x) →
    (∀ y ∈ ys, Q y) → xs.length = ys.length → ∀ s t, xs.flatMap item ++ s = ys.flatMap item ++ t → xs = ys ∧ s = t := by
  intro xs ys left right count s t same
  induction xs generalizing ys with
  | nil =>
    obtain rfl : ys = [] := List.length_eq_zero_iff.mp count.symm
    exact ⟨rfl,by simpa using same⟩
  | cons x xs ih =>
    obtain ⟨y,ys,rfl⟩ := List.exists_cons_of_length_eq_add_one count.symm
    simp only [List.flatMap_cons,List.append_assoc] at same
    obtain ⟨head,same⟩ := one x y (left x (by simp)) (right y (by simp)) _ _ same
    obtain ⟨tail,rest⟩ := ih (fun z hz => left z (by simp [hz])) (fun z hz => right z (by simp [hz]))
      (by simpa using count) same
    exact ⟨by rw [show x = y from head,tail],rest⟩

/-- A front that says how many, then that many encoded items. -/
theorem counted {κ : Type} {front : α → κ} {item : γ → List β} (first : Reads P f front)
    (xs : α → List γ) (one : Reads Q item id) (count : ∀ a b, P a → P b → front a = front b → (xs a).length = (xs b).length)
    (good : ∀ a, P a → ∀ x ∈ xs a, Q x) :
    Reads P (fun a => f a ++ (xs a).flatMap item) fun a => (front a,xs a) := by
  intro a b pa pb s t same
  simp only [List.append_assoc] at same
  obtain ⟨known,same⟩ := first a b pa pb _ _ same
  obtain ⟨found,rest⟩ := items one (good a pa) (good b pb) (count a b pa pb known) s t same
  exact ⟨Prod.ext known found,rest⟩

end Reads

/-! Fields of a fixed width, read back. -/

variable {P : α → Prop}

theorem reads_leBytes {n : α → Nat} {w : Nat} (fits : ∀ a, P a → n a < 256 ^ w) : Reads P (fun a => leBytes w (n a)) n := by
  refine Reads.width (fun a _ => leBytes_length w (n a)) fun a b pa pb same => ?_
  have numbers := congrArg leNat same
  rwa [leNat_leBytes_of_lt (fits a pa),leNat_leBytes_of_lt (fits b pb)] at numbers

theorem reads_fixed (d : α → Fixed w) : Reads P (fun a => (d a).val) d :=
  Reads.width (fun a _ => (d a).property) fun _ _ _ _ same => Subtype.ext same

end Integris.SplitCode
