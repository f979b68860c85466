import Mathlib.Order.Basic

/-! The search of a sorted index space for the first index that satisfies a
predicate: an interval halved until it is empty. -/
namespace Integris

/-- Everything before `i` fails the predicate and everything from `j` on meets it;
the interval between them is probed in its middle. -/
def searchLoop (f : Nat → Bool) : Nat → Nat → Nat → Nat
  | 0, i, _ => i
  | fuel + 1, i, j =>
    if i < j then
      let h := (i + j) / 2
      if f h then searchLoop f fuel i h else searchLoop f fuel (h + 1) j
    else i

/-- An interval of `n` indices is empty after at most `n` probes. -/
def search (n : Nat) (f : Nat → Bool) : Nat := searchLoop f n 0 n

section

variable {f : Nat → Bool} {n : Nat}

/-- `r` parts the indices below `n` into those that fail and those that meet `f`. -/
structure Parts (f : Nat → Bool) (n r : Nat) : Prop where
  within : r ≤ n
  below : ∀ k < r, f k = false
  above : ∀ k, r ≤ k → k < n → f k = true

theorem searchLoop_parts (mono : ∀ a b, a ≤ b → b < n → f a = true → f b = true) :
    ∀ fuel i j, i ≤ j → j ≤ n → j - i ≤ fuel → (∀ k < i, f k = false) →
      (∀ k, j ≤ k → k < n → f k = true) → Parts f n (searchLoop f fuel i j) := by
  intro fuel
  induction fuel with
  | zero =>
    intro i j ordered bound enough below above
    have empty : i = j := by omega
    subst empty
    exact ⟨bound,below,above⟩
  | succ fuel ih =>
    intro i j ordered bound enough below above
    rw [searchLoop]
    by_cases more : i < j
    · rw [if_pos more]
      dsimp only
      by_cases met : f ((i + j) / 2) = true
      · rw [if_pos met]
        refine ih i _ (by omega) (by omega) (by omega) below fun k ge lt => ?_
        exact mono _ k ge lt met
      · rw [if_neg met]
        refine ih _ j (by omega) bound (by omega) (fun k lt => ?_) above
        -- a probe that failed rules out everything at or before it
        by_contra other
        exact met (mono k _ (by omega) (by omega) (by simpa using other))
    · rw [if_neg more]
      have empty : i = j := by omega
      subst empty
      exact ⟨bound,below,above⟩

theorem search_parts (mono : ∀ a b, a ≤ b → b < n → f a = true → f b = true) : Parts f n (search n f) :=
  searchLoop_parts mono n 0 n (Nat.zero_le n) (Nat.le_refl n) (Nat.le_refl n)
    (fun _ lt => absurd lt (Nat.not_lt_zero _)) fun _ ge lt => absurd lt (Nat.not_lt.mpr ge)

end

end Integris
