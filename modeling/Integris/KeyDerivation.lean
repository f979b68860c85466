import Integris.Crypto

/-! `HKDFSHA256` against the recursion of RFC 5869. -/
namespace Integris.Crypto

/-- `T(i)` of the RFC. -/
def expandBlock (prk info : Bytes) : Nat → Bytes
  | 0 => []
  | i + 1 => hmacSHA256 prk (expandBlock prk info i ++ info ++ [UInt8.ofNat (i + 1)])

/-- `T(1)` to `T(n)`, one after another. -/
def expandBlocks (prk info : Bytes) : Nat → Bytes
  | 0 => []
  | n + 1 => expandBlocks prk info n ++ expandBlock prk info (n + 1)

/-- The output keying material of the RFC, which takes 32 zeros for a salt that is not provided. -/
def rfcOutput (ikm : Bytes) (salt : Option Bytes) (info : Bytes) (length : Nat) : Bytes :=
  (expandBlocks (hmacSHA256 (salt.getD (List.replicate hashSize 0)) ikm) info
    ((length + hashSize - 1) / hashSize)).take length

variable {prk info : Bytes}

theorem expandBlocks_length (n : Nat) : (expandBlocks prk info n).length = 32 * n := by
  induction n with
  | zero => rfl
  | succ n ih => rw [expandBlocks,List.length_append,ih,expandBlock,hmacSHA256_length,Nat.mul_succ]

/-- The counter is back at zero after 255 rounds, so the last of them is always refused. -/
theorem hkdfExpand_runs {length fuel i : Nat} (rounds : i + fuel = 255) (started : i < 255)
    (needed : i ≤ (length + 31) / 32) :
    hkdfExpand prk info length fuel (UInt8.ofNat (i + 1)) (expandBlock prk info i) (expandBlocks prk info i) =
      if length ≤ 254 * 32 then .ok ((expandBlocks prk info ((length + 31) / 32)).take length)
      else .error ⟨"expand","HKDF counter overflow"⟩ := by
  induction fuel generalizing i with
  | zero => omega
  | succ fuel ih =>
    have counter : UInt8.ofNat (i + 1) + 1 = UInt8.ofNat (i + 1 + 1) := by
      rw [UInt8.ofNat_add (i + 1)]
      rfl
    rw [hkdfExpand,expandBlocks_length,counter]
    split
    · by_cases last : i = 254
      · rw [last,if_pos (by decide),if_neg (by omega)]
      · have going : UInt8.ofNat (i + 1 + 1) ≠ 0 := by
          rw [ne_eq,← UInt8.toNat_inj,UInt8.toNat_ofNat_of_lt' (by unfold UInt8.size; omega)]
          simp
        rw [if_neg going]
        exact ih (by omega) (by omega) (by omega)
    · have enough : i = (length + 31) / 32 := by omega
      rw [if_pos (by omega),← enough]

theorem hkdfSHA256_runs {ikm : Bytes} {salt : Option Bytes} {length : Nat} (range : 1 ≤ length ∧ length ≤ 255 * 32) :
    hkdfSHA256 ikm salt info length = if length ≤ 254 * 32 then .ok (rfcOutput ikm salt info length)
      else .error ⟨"expand","HKDF counter overflow"⟩ := by
  rw [hkdfSHA256,if_neg (by unfold hashSize; omega)]
  exact hkdfExpand_runs (i := 0) rfl (by decide) (Nat.zero_le _)

/-- Of the lengths the RFC admits, exactly those that need 255 blocks are refused. -/
theorem hkdf_follows_rfc_iff (ikm : Bytes) (salt : Option Bytes) (info : Bytes) (length : Nat)
    (range : 1 ≤ length ∧ length ≤ 255 * 32) :
    hkdfSHA256 ikm salt info length = .ok (rfcOutput ikm salt info length) ↔ length ≤ 254 * 32 := by
  rw [hkdfSHA256_runs range]
  split
  · next small => exact iff_of_true rfl small
  · next large => exact iff_of_false nofun large

theorem hkdf_follows_rfc_block : hkdfSHA256 [] none [] 8128 = .ok (rfcOutput [] none [] 8128) :=
  (hkdf_follows_rfc_iff [] none [] 8128 (by decide)).mpr (by decide)

/-- The largest length the package documents. -/
theorem longest_key_refused :
    hkdfSHA256 [] none [] (255 * 32) = .error ⟨"expand", "HKDF counter overflow"⟩ := by
  rw [hkdfSHA256_runs (by decide),if_neg (by decide)]

end Integris.Crypto
