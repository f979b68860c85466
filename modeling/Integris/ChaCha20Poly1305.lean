import Integris.Crypto

/-! ChaCha20-Poly1305 as an executable `Aead`. General results hold for any `Aead`;
this instance is what concrete sessions are run with. -/
namespace Integris.ChaCha20Poly1305

def word (n : Nat) : Nat := n % 2 ^ 32
def rotl (x n : Nat) : Nat := word (x <<< n ||| x >>> (32 - n))

def quarter (s : List Nat) (a b c d : Nat) : List Nat :=
  let half (s : List Nat) (r1 r2 : Nat) : List Nat :=
    let s := s.set a (word (s.getD a 0 + s.getD b 0))
    let s := s.set d (rotl (s.getD d 0 ^^^ s.getD a 0) r1)
    let s := s.set c (word (s.getD c 0 + s.getD d 0))
    s.set b (rotl (s.getD b 0 ^^^ s.getD c 0) r2)
  half (half s 16 12) 8 7

def doubleRound (s : List Nat) : List Nat :=
  let s := quarter (quarter (quarter (quarter s 0 4 8 12) 1 5 9 13) 2 6 10 14) 3 7 11 15
  quarter (quarter (quarter (quarter s 0 5 10 15) 1 6 11 12) 2 7 8 13) 3 4 9 14

def words : Bytes → List Nat
  | a :: b :: c :: d :: rest => leNat [a, b, c, d] :: words rest
  | _ => []

def iterate (f : List Nat → List Nat) : Nat → List Nat → List Nat
  | 0, s => s
  | n + 1, s => iterate f n (f s)

def block (key : Bytes) (counter : Nat) (nonce : Bytes) : Bytes :=
  let start := words (ascii "expand 32-byte k") ++ words key ++ [counter] ++ words nonce
  let mixed := iterate doubleRound 10 start
  (List.zipWith (fun x y => leBytes 4 (word (x + y))) start mixed).flatten

/-- Sixty-four bytes of keystream per step. -/
def crypt (key nonce : Bytes) : Nat → Nat → Bytes → Bytes
  | 0, _, _ => []
  | n + 1, counter, data =>
    List.zipWith (· ^^^ ·) (data.take 64) (block key counter nonce) ++
      crypt key nonce n (counter + 1) (data.drop 64)

def stream (key nonce data : Bytes) : Bytes :=
  crypt key nonce ((data.length + 63) / 64) 1 data

def poly (r : Nat) : Nat → Bytes → Nat → Nat
  | 0, _, acc => acc
  | n + 1, data, acc =>
    poly r n (data.drop 16) ((acc + leNat (data.take 16 ++ [1])) * r % (2 ^ 130 - 5))

def mac (key data : Bytes) : Bytes :=
  let r := leNat (key.take 16) &&& 0x0ffffffc0ffffffc0ffffffc0fffffff
  leBytes 16 (poly r ((data.length + 15) / 16) data 0 + leNat ((key.drop 16).take 16))

def pad16 (b : Bytes) : Bytes := b ++ List.replicate ((16 - b.length % 16) % 16) 0

def tag (key nonce aad sealed : Bytes) : Bytes :=
  mac ((block key 0 nonce).take 32)
    (pad16 aad ++ pad16 sealed ++ leBytes 8 aad.length ++ leBytes 8 sealed.length)

def aead : Crypto.Aead where
  encrypt key nonce aad plaintext :=
    let sealed := stream key nonce plaintext
    sealed ++ tag key nonce aad sealed
  decrypt key nonce aad ciphertext :=
    let sealed := ciphertext.take (ciphertext.length - 16)
    if 16 ≤ ciphertext.length ∧ ciphertext.drop (ciphertext.length - 16) = tag key nonce aad sealed
    then some (stream key nonce sealed) else none

@[simp] theorem encrypt_nil_length (key nonce aad : Bytes) : (aead.encrypt key nonce aad []).length = 16 := by
  simp [aead,stream,crypt,tag,mac]

theorem words_length : ∀ b : Bytes, (words b).length = b.length / 4
  | a :: b :: c :: d :: rest => by
    simp only [words,List.length_cons,words_length rest]
    omega
  | [] => by simp [words]
  | [_] => by simp [words]
  | [_,_] => by simp [words]
  | [_,_,_] => by simp [words]

@[simp] theorem quarter_length (s : List Nat) (a b c d : Nat) : (quarter s a b c d).length = s.length := by simp [quarter]

@[simp] theorem doubleRound_length (s : List Nat) : (doubleRound s).length = s.length := by simp [doubleRound]

theorem iterate_length (n : Nat) (s : List Nat) : (iterate doubleRound n s).length = s.length := by
  induction n generalizing s with
  | zero => rfl
  | succ n ih => rw [iterate,ih,doubleRound_length]

theorem flatten_words_length (f : Nat → Nat → Nat) (xs ys : List Nat) :
    (List.zipWith (fun x y => leBytes 4 (f x y)) xs ys).flatten.length = 4 * min xs.length ys.length := by
  induction xs generalizing ys with
  | nil => simp
  | cons x xs ih =>
    cases ys with
    | nil => simp
    | cons y ys =>
      simp only [List.zipWith_cons_cons,List.flatten_cons,List.length_append,leBytes_length,ih,List.length_cons]
      omega

/-- Sixteen words of keystream, provided key and nonce have their sizes. -/
theorem block_length {key nonce : Bytes} (keySize : key.length = 32) (nonceSize : nonce.length = 12)
    (counter : Nat) : (block key counter nonce).length = 64 := by
  have constants : (words (ascii "expand 32-byte k")).length = 4 := by decide
  simp only [block]
  rw [flatten_words_length (fun x y => word (x + y)),iterate_length]
  simp [constants,words_length,keySize,nonceSize]

theorem xor_twice : ∀ {data pad : Bytes}, data.length ≤ pad.length →
    List.zipWith (· ^^^ ·) (List.zipWith (· ^^^ ·) data pad) pad = data
  | [], _, _ => by simp
  | d :: data, p :: pad, h => by
    have rest : List.zipWith (· ^^^ ·) (List.zipWith (· ^^^ ·) data pad) pad = data := xor_twice (by simpa using h)
    simp only [List.zipWith_cons_cons,rest]
    rw [UInt8.xor_assoc,UInt8.xor_self,UInt8.xor_zero]

theorem crypt_nil (key nonce : Bytes) (n counter : Nat) : crypt key nonce n counter [] = [] := by
  induction n generalizing counter with
  | zero => rfl
  | succ n ih => simp [crypt,ih]

section sized

variable {key nonce : Bytes} (keySize : key.length = 32) (nonceSize : nonce.length = 12)
include keySize nonceSize

theorem crypt_length (n counter : Nat) (data : Bytes) (enough : data.length ≤ 64 * n) :
    (crypt key nonce n counter data).length = data.length := by
  induction n generalizing counter data with
  | zero => rw [crypt,List.length_eq_zero_iff.mp (by omega : data.length = 0)]
  | succ n ih =>
    have rest := ih (counter + 1) (data.drop 64) (by rw [List.length_drop]; omega)
    simp only [crypt,List.length_append,List.length_zipWith,List.length_take,
      block_length keySize nonceSize,rest,List.length_drop]
    omega

/-- Encryption is its own inverse, block by block. -/
theorem crypt_twice (n counter : Nat) (data : Bytes) (enough : data.length ≤ 64 * n) :
    crypt key nonce n counter (crypt key nonce n counter data) = data := by
  induction n generalizing counter data with
  | zero => rw [crypt,List.length_eq_zero_iff.mp (by omega : data.length = 0)]
  | succ n ih =>
    have wide := block_length keySize nonceSize counter
    have rest := ih (counter + 1) (data.drop 64) (by rw [List.length_drop]; omega)
    have first : (List.zipWith (· ^^^ ·) (data.take 64) (block key counter nonce)).length =
        min 64 data.length := by
      rw [List.length_zipWith,List.length_take,wide]
      omega
    have undone : List.zipWith (· ^^^ ·)
        (List.zipWith (· ^^^ ·) (data.take 64) (block key counter nonce))
        (block key counter nonce) = data.take 64 :=
      xor_twice (by rw [List.length_take,wide]; omega)
    simp only [crypt]
    by_cases full : 64 ≤ data.length
    · rw [List.take_left' (by omega),List.drop_left' (by omega),undone,rest,List.take_append_drop]
    · -- a short last block leaves nothing for the blocks behind it
      have short : data.drop 64 = [] := List.drop_eq_nil_of_le (by omega)
      rw [short,crypt_nil,List.append_nil,List.take_of_length_le (by omega),
        List.drop_eq_nil_of_le (by omega),crypt_nil,undone,List.append_nil,
        List.take_of_length_le (by omega)]

theorem encrypt_length (aad plaintext : Bytes) : (aead.encrypt key nonce aad plaintext).length = plaintext.length + 16 := by
  have size := crypt_length keySize nonceSize ((plaintext.length + 63) / 64) 1 plaintext (by omega)
  simp [aead,stream,size,tag,mac]

theorem decrypt_encrypt (aad plaintext : Bytes) :
    aead.decrypt key nonce aad (aead.encrypt key nonce aad plaintext) = some plaintext := by
  have enough : plaintext.length ≤ 64 * ((plaintext.length + 63) / 64) := by omega
  have size : (stream key nonce plaintext).length = plaintext.length := crypt_length keySize nonceSize _ _ _ enough
  have back : stream key nonce (stream key nonce plaintext) = plaintext := by
    have again := crypt_twice keySize nonceSize _ 1 plaintext enough
    rw [stream,size]
    exact again
  have tagSize (sealed : Bytes) : (tag key nonce aad sealed).length = 16 := by simp [tag,mac]
  simp only [aead,List.length_append,tagSize,Nat.add_sub_cancel]
  rw [List.take_left' rfl,List.drop_left' rfl,if_pos ⟨by omega,rfl⟩,back]

end sized

example : ((aead.encrypt ((List.range 32).map fun i => UInt8.ofNat (i + 0x80))
    [7, 0, 0, 0, 0x40, 0x41, 0x42, 0x43, 0x44, 0x45, 0x46, 0x47]
    [0x50, 0x51, 0x52, 0x53, 0xc0, 0xc1, 0xc2, 0xc3, 0xc4, 0xc5, 0xc6, 0xc7]
    (ascii "Ladies and Gentlemen of the class of '99: If I could offer you only one tip for the " ++
      ascii "future, sunscreen would be it.")).drop 114).take 4 = [0x1a, 0xe1, 0x0b, 0x59] := by
  decide +kernel

end Integris.ChaCha20Poly1305
