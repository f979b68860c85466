import Mathlib.Data.List.Basic
import Mathlib.Tactic.Ring

/-! Byte strings and fixed-width integer fields. Source strings are byte strings:
nothing here assumes UTF-8, and `≤` on byte strings is the bytewise order. -/
namespace Integris

abbrev Bytes := List UInt8

instance : LawfulBEq Bytes := inferInstance

/-- Text constants of the source are ASCII. -/
def ascii (s : String) : Bytes := s.toList.map fun c => UInt8.ofNat c.toNat

/-- A byte string inside an error message. -/
def text (b : Bytes) : String := String.ofList (b.map fun c => Char.ofNat c.toNat)

/-- A fixed array `[n]byte`; its size is part of the value. -/
abbrev Fixed (n : Nat) := { bytes : Bytes // bytes.length = n }

namespace Fixed

/-- Copy into a zeroed array: a short source leaves zeros, a long one is cut. -/
def ofBytes (n : Nat) (b : Bytes) : Fixed n :=
  ⟨(b ++ List.replicate n 0).take n, by simp⟩

def zero (n : Nat) : Fixed n := ⟨List.replicate n 0, by simp⟩

@[simp] theorem ofBytes_append (x : Fixed n) (rest : Bytes) : ofBytes n (x.val ++ rest) = x := by
  apply Subtype.ext
  simp [ofBytes,x.property]

theorem ofBytes_val (b : Bytes) (size : b.length = n) : (ofBytes n b).val = b := by
  subst size
  simp [ofBytes]

@[simp] theorem ofBytes_of_val (x : Fixed n) : ofBytes n x.val = x := by simpa using ofBytes_append x []

end Fixed

/-- Go's `b[i:j]` for indices in range. -/
def slice (b : Bytes) (i j : Nat) : Bytes := (b.drop i).take (j - i)

variable {a : Bytes} {b : Bytes}

theorem slice_append_right (skip : a.length ≤ i) (b : Bytes) :
    slice (a ++ b) i j = slice b (i - a.length) (j - a.length) := by
  rw [slice,slice,List.drop_append,List.drop_of_length_le skip,List.nil_append]
  congr 1
  omega

theorem slice_append_left (size : a.length = n) (b : Bytes) : slice (a ++ b) 0 n = a := by simp [slice,← size]

theorem slice_front (start : i = 0) (size : a.length = j) (b : Bytes) : slice (a ++ b) i j = a := by
  subst start
  exact slice_append_left size b

theorem slice_take (inside : j ≤ n) : slice (b.take n) i j = slice b i j := by
  rw [slice,slice,List.drop_take,List.take_take]
  congr 1
  omega

/-- Little-endian field of `w` bytes; the value is cut to the field. -/
def leBytes : Nat → Nat → Bytes
  | 0, _ => []
  | w + 1, n => UInt8.ofNat n :: leBytes w (n / 256)

def leNat : Bytes → Nat
  | [] => 0
  | b :: bs => b.toNat + 256 * leNat bs

/-- Big-endian field of `w` bytes. -/
def beBytes (w n : Nat) : Bytes := (leBytes w n).reverse

def beNat (b : Bytes) : Nat := b.foldl (fun n byte => n * 256 + byte.toNat) 0

@[simp] theorem leBytes_length (w n : Nat) : (leBytes w n).length = w := by
  induction w generalizing n with
  | zero => rfl
  | succ w ih => simp [leBytes,ih]

@[simp] theorem beBytes_length (w n : Nat) : (beBytes w n).length = w := by simp [beBytes]

theorem leNat_leBytes (w n : Nat) : leNat (leBytes w n) = n % 256 ^ w := by
  induction w generalizing n with
  | zero => simp [leBytes,leNat,Nat.mod_one]
  | succ w ih =>
    have split := Nat.mod_mul (x := n) (a := 256) (b := 256 ^ w)
    have byte : (UInt8.ofNat n).toNat = n % 256 := by simp [UInt8.toNat_ofNat']
    rw [leBytes,leNat,ih,byte,Nat.pow_succ,Nat.mul_comm (256 ^ w) 256,split]

/-- A value that fits its field is read back exactly. -/
theorem leNat_leBytes_of_lt {w n : Nat} (fits : n < 256 ^ w) : leNat (leBytes w n) = n := by
  rw [leNat_leBytes,Nat.mod_eq_of_lt fits]

theorem leNat_lt (b : Bytes) : leNat b < 256 ^ b.length := by
  induction b with
  | nil => simp [leNat]
  | cons x xs ih =>
    have := x.toNat_lt
    simp only [leNat,List.length_cons,Nat.pow_succ]
    omega

theorem leBytes_leNat (b : Bytes) : leBytes b.length (leNat b) = b := by
  induction b with
  | nil => rfl
  | cons x xs ih =>
    have bound := x.toNat_lt
    have low : UInt8.ofNat (x.toNat + 256 * leNat xs) = x := by
      apply UInt8.toNat_inj.mp
      rw [UInt8.toNat_ofNat']
      omega
    have high : (x.toNat + 256 * leNat xs) / 256 = leNat xs := by omega
    simp only [leNat,List.length_cons,leBytes,low,high,ih]

/-- A field and what follows it, read or written. -/
theorem field_iff {w n : Nat} {b rest : Bytes} :
    w ≤ b.length ∧ leNat (b.take w) = n ∧ b.drop w = rest ↔ n < 256 ^ w ∧ b = leBytes w n ++ rest := by
  constructor
  · rintro ⟨long,rfl,rfl⟩
    have size : (b.take w).length = w := List.length_take_of_le long
    have fits := leNat_lt (b.take w)
    have back := leBytes_leNat (b.take w)
    rw [size] at fits back
    exact ⟨fits,by rw [back,List.take_append_drop]⟩
  · rintro ⟨fits,rfl⟩
    rw [List.take_left' (leBytes_length w n),List.drop_left' (leBytes_length w n),leNat_leBytes_of_lt fits]
    simp

theorem slice_length (inside : j ≤ b.length) : (slice b i j).length = j - i := by
  rw [slice,List.length_take,List.length_drop]
  omega

theorem slice_append_slice (ij : i ≤ j) (jk : j ≤ k) : slice b i j ++ slice b j k = slice b i k := by
  obtain ⟨m,rfl⟩ := Nat.exists_eq_add_of_le ij
  obtain ⟨n,rfl⟩ := Nat.exists_eq_add_of_le jk
  rw [slice,slice,slice,Nat.add_sub_cancel_left,Nat.add_sub_cancel_left,Nat.add_assoc,
    Nat.add_sub_cancel_left,List.take_add,List.drop_drop]

theorem leBytes_slice (inside : j ≤ b.length) (width : j - i = w) : leBytes w (leNat (slice b i j)) = slice b i j := by
  have back := leBytes_leNat (slice b i j)
  rwa [slice_length inside,width] at back

theorem ofBytes_slice (inside : j ≤ b.length) (width : j - i = n) : (Fixed.ofBytes n (slice b i j)).val = slice b i j :=
  Fixed.ofBytes_val _ (by rw [slice_length inside,width])

theorem beBytes_injective {w a b : Nat} (ha : a < 256 ^ w) (hb : b < 256 ^ w)
    (same : beBytes w a = beBytes w b) : a = b := by
  have fields : leBytes w a = leBytes w b := List.reverse_injective same
  rw [← leNat_leBytes_of_lt ha,fields,leNat_leBytes_of_lt hb]

end Integris
