import Integris.Effect
import Integris.FilePath

/-! The logical path grammar: which slash-joined relative texts a plan or a scan
may carry. The Unicode tables are data of the program and a parameter here. -/
namespace Integris.PathGrammar

open Posix

inductive RuleID where
  | empty | dot | dotDot | nul | sep | abs | utf8 | norm | ctrl | len | count | budget | winRes
  deriving DecidableEq, Repr

def RuleID.text : RuleID → Bytes
  | .empty => ascii "G-EMPTY"
  | .dot => ascii "G-DOT"
  | .dotDot => ascii "G-DOTDOT"
  | .nul => ascii "G-NUL"
  | .sep => ascii "G-SEP"
  | .abs => ascii "G-ABS"
  | .utf8 => ascii "G-UTF8"
  | .norm => ascii "G-NORM"
  | .ctrl => ascii "G-CTRL"
  | .len => ascii "G-LEN"
  | .count => ascii "G-COUNT"
  | .budget => ascii "G-BUDGET"
  | .winRes => ascii "G-WINRES"

/-- `index` is -1 when the failure is not about one component. -/
structure Error where
  rule : RuleID
  index : Int
  message : Bytes
  deriving DecidableEq

def Error.text (e : Error) : Bytes := e.rule.text ++ ascii ": " ++ e.message

def maxComponentBytes : Nat := 255
def maxComponents : Nat := 1024
def maxPathBytes : Nat := 4096

def isASCIILetter (b : UInt8) : Bool := (97 ≤ b ∧ b ≤ 122) ∨ (65 ≤ b ∧ b ≤ 90)

def continuation (b : UInt8) : Bool := 0x80 ≤ b ∧ b ≤ 0xbf

/-- Is the second byte in the range the first one allows? -/
def secondByte (b0 b1 : UInt8) : Bool :=
  if b0 = 0xe0 then 0xa0 ≤ b1 ∧ b1 ≤ 0xbf
  else if b0 = 0xed then 0x80 ≤ b1 ∧ b1 ≤ 0x9f
  else if b0 = 0xf0 then 0x90 ≤ b1 ∧ b1 ≤ 0xbf
  else if b0 = 0xf4 then 0x80 ≤ b1 ∧ b1 ≤ 0x8f
  else continuation b1

def low6 (b : UInt8) : Nat := b.toNat &&& 0x3f

/-- The code points of well-formed UTF-8, nothing for anything else. -/
def runes : Bytes → Option (List Nat)
  | [] => some []
  | b0 :: t0 =>
    if b0 < 0x80 then (runes t0).map (b0.toNat :: ·)
    else
      match t0 with
      | [] => none
      | b1 :: t1 =>
        if 0xc2 ≤ b0 ∧ b0 ≤ 0xdf then
          if secondByte b0 b1 then (runes t1).map (((b0.toNat &&& 0x1f) * 64 + low6 b1) :: ·)
          else none
        else
          match t1 with
          | [] => none
          | b2 :: t2 =>
            if 0xe0 ≤ b0 ∧ b0 ≤ 0xef then
              if secondByte b0 b1 ∧ continuation b2 then
                (runes t2).map (((b0.toNat &&& 0x0f) * 4096 + low6 b1 * 64 + low6 b2) :: ·)
              else none
            else
              match t2 with
              | [] => none
              | b3 :: t3 =>
                if 0xf0 ≤ b0 ∧ b0 ≤ 0xf4 ∧ secondByte b0 b1 ∧ continuation b2 ∧ continuation b3 then
                  (runes t3).map (((b0.toNat &&& 0x07) * 262144 + low6 b1 * 4096 +
                    low6 b2 * 64 + low6 b3) :: ·)
                else none

def validUTF8 (b : Bytes) : Bool := (runes b).isSome

/-- The generated Unicode tables: combining classes, code points that NFC never
contains, and pairs with a canonical composition. -/
structure NFCTables where
  ccc : Nat → Nat
  qcNo : Nat → Bool
  compose : Nat → Nat → Bool

/-- The tables as far as ASCII names reach into them. -/
def asciiTables : NFCTables := ⟨fun _ => 0,fun _ => false,fun _ _ => false⟩

def composeHangul (a b : Nat) : Bool :=
  (0x1100 ≤ a ∧ a < 0x1100 + 19 ∧ 0x1161 ≤ b ∧ b < 0x1161 + 21) ∨
  (0xac00 ≤ a ∧ a < 0xac00 + 11172 ∧ (a - 0xac00) % 28 = 0 ∧ 0x11a7 < b ∧ b < 0x11a7 + 28)

def composePair (nfc : NFCTables) (a b : Nat) : Bool := composeHangul a b || nfc.compose a b

/-- The classes of the marks since the last starter; a blocked mark cannot compose. -/
def isBlocked (intervening : List Nat) (cc : Nat) : Bool := intervening.any fun m => m = 0 ∨ m ≥ cc

def isNFCFrom (nfc : NFCTables) : Option Nat → Nat → List Nat → List Nat → Bool
  | _, _, _, [] => true
  | starter, lastCC, intervening, r :: rest =>
    let cc := nfc.ccc r
    if nfc.qcNo r then false
    else if lastCC > cc ∧ cc ≠ 0 then false
    else if (starter.any fun s => composePair nfc s r) ∧ ¬ isBlocked intervening cc then false
    else if cc = 0 then isNFCFrom nfc (some r) cc [] rest
    else isNFCFrom nfc starter cc (if starter.isSome then intervening ++ [cc] else intervening) rest

def isNFC (nfc : NFCTables) (b : Bytes) : Bool :=
  match runes b with
  | none => false
  | some rs => isNFCFrom nfc none 0 [] rs

def isAbsoluteComponent (c : Bytes) : Bool :=
  match c with
  | b0 :: b1 :: _ => isASCIILetter b0 && b1 = 58
  | _ => false

structure Profile where
  windowsReserved : Bool := false

def upper (b : UInt8) : UInt8 := if 97 ≤ b ∧ b ≤ 122 then b - 32 else b

/-- A trailing dot or blank, or a device name before the first dot. -/
def isWindowsReserved (c : Bytes) : Bool :=
  let base := (c.takeWhile (· ≠ 46)).map upper
  (c.getLast? = some 46 ∨ c.getLast? = some 32) ∨
    base ∈ [ascii "CON",ascii "PRN",ascii "AUX",ascii "NUL"] ∨
    (base.length = 4 ∧ (base.take 3 = ascii "COM" ∨ base.take 3 = ascii "LPT") ∧
      ∃ d ∈ base.getLast?, 49 ≤ d ∧ d ≤ 57)

def reject (p : Prop) [Decidable p] (rule : RuleID) (index : Int) (message : String) :
    Except Error Unit :=
  demand (¬p) ⟨rule,index,ascii message⟩

variable {index : Int} {c : Bytes} {nfc : NFCTables} {profile : Profile} {comps : List Bytes}

theorem reject_ok {p : Prop} [Decidable p] {rule : RuleID} {message : String} :
    reject p rule index message = .ok () ↔ ¬p := demand_ok

/-- The separator and NUL scan; whichever comes first is reported. -/
def separators (index : Int) : Bytes → Except Error Unit
  | [] => .ok ()
  | b :: rest => do
    reject (b = 0) .nul index "component contains NUL"
    reject (b = slash ∨ b = 92) .sep index "component contains separator"
    separators index rest

def validateComponent (nfc : NFCTables) (profile : Profile) (c : Bytes) (index : Int) : Except Error Unit := do
  reject (c = []) .empty index "empty component"
  reject (c.length > maxComponentBytes) .len index "component exceeds MaxComponentBytes"
  reject (c = dot) .dot index "component is ."
  reject (c = dotdot) .dotDot index "component is .."
  separators index c
  reject (isAbsoluteComponent c) .abs index "component is an absolute path form"
  reject (validUTF8 c = false) .utf8 index "component is not well-formed UTF-8"
  reject (∃ b ∈ c, b < 0x20 ∨ b = 0x7f) .ctrl index "component contains control character"
  reject (isNFC nfc c = false) .norm index "component is not Unicode NFC"
  reject (profile.windowsReserved ∧ isWindowsReserved c) .winRes index "component matches Windows reserved name"

def validateEach (nfc : NFCTables) (profile : Profile) (index budget : Nat) : List Bytes → Except Error Unit
  | [] => .ok ()
  | c :: rest => do
    validateComponent nfc profile c index
    reject (budget + c.length > maxPathBytes) .budget index "sum of component bytes exceeds MaxPathBytes"
    validateEach nfc profile (index + 1) (budget + c.length) rest

def validateComponents (nfc : NFCTables) (profile : Profile) (comps : List Bytes) : Except Error Unit := do
  reject (comps = []) .empty (-1) "path requires at least one component"
  reject (comps.length > maxComponents) .count (-1) "component count exceeds MaxComponents"
  validateEach nfc profile 0 0 comps

def isAbsoluteJoined (s : Bytes) : Bool :=
  match s with
  | [] => false
  | [b0] => b0 = slash || b0 = 92
  | b0 :: b1 :: _ => b0 = slash || b0 = 92 || (isASCIILetter b0 && b1 = 58)

/-- Under the default profile. -/
def validateJoined (nfc : NFCTables) (joined : Bytes) : Except Error (List Bytes) := do
  reject (joined = []) .empty (-1) "empty path string"
  reject (isAbsoluteJoined joined) .abs (-1) "absolute path string"
  validateComponents nfc {} (joined.splitOn slash)
  pure (joined.splitOn slash)

theorem separators_ok (h : separators index c = .ok ()) : (0 : UInt8) ∉ c ∧ slash ∉ c ∧ (92 : UInt8) ∉ c := by
  induction c with
  | nil => simp
  | cons b c ih =>
    simp only [separators,reject_ok,except_unit_bind_ok,not_or] at h
    obtain ⟨nul,⟨sep,back⟩,rest⟩ := h
    obtain ⟨nul',sep',back'⟩ := ih rest
    simp [Ne.symm nul,Ne.symm sep,Ne.symm back,nul',sep',back']

theorem validateComponent_ok (h : validateComponent nfc profile c index = .ok ()) :
    ValidName c ∧ validUTF8 c = true ∧ c.length ≤ maxComponentBytes := by
  simp only [validateComponent,reject_ok,except_unit_bind_ok] at h
  obtain ⟨empty,len,isDot,isDotDot,seps,-,utf8,-⟩ := h
  obtain ⟨nul,sep,-⟩ := separators_ok seps
  exact ⟨⟨empty,isDot,isDotDot,sep,nul⟩,by simpa using utf8,by omega⟩

theorem validateEach_ok {index budget : Nat} (h : validateEach nfc profile index budget comps = .ok ()) :
    (∀ c ∈ comps, ValidName c ∧ validUTF8 c = true) ∧ budget + (comps.map List.length).sum ≤ max budget maxPathBytes := by
  induction comps generalizing index budget with
  | nil => simp
  | cons c comps ih =>
    simp only [validateEach,reject_ok,except_unit_bind_ok] at h
    obtain ⟨first,fits,rest⟩ := h
    obtain ⟨valid,utf8,-⟩ := validateComponent_ok first
    obtain ⟨others,total⟩ := ih rest
    refine ⟨?_,?_⟩
    · intro x hx
      rcases List.mem_cons.mp hx with rfl | hx
      · exact ⟨valid,utf8⟩
      · exact others x hx
    · simp only [List.map_cons,List.sum_cons]
      omega

theorem validateEach_mem {index budget : Nat} (h : validateEach nfc profile index budget comps = .ok ()) (hc : c ∈ comps) :
    ∃ i, validateComponent nfc profile c i = .ok () := by
  induction comps generalizing index budget with
  | nil => cases hc
  | cons d comps ih =>
    simp only [validateEach,except_unit_bind_ok] at h
    obtain ⟨first,-,rest⟩ := h
    rcases List.mem_cons.mp hc with rfl | hc
    · exact ⟨_,first⟩
    · exact ih rest hc

/-- An accepted text is the text of a path of legal names, and short. -/
theorem validateJoined_ok {joined : Bytes} (h : validateJoined nfc joined = .ok comps) :
    comps = joined.splitOn slash ∧ joined = relText comps ∧ comps ≠ [] ∧ Plain comps ∧ (∀ c ∈ comps, validUTF8 c = true) ∧
      comps.length ≤ maxComponents ∧ (comps.map List.length).sum ≤ maxPathBytes := by
  simp only [validateJoined,validateComponents,reject_ok,except_unit_bind_ok] at h
  obtain ⟨-,-,⟨nonempty,count,each⟩,result⟩ := h
  cases result
  obtain ⟨valid,total⟩ := validateEach_ok each
  refine ⟨rfl,(List.intercalate_splitOn slash).symm,nonempty,fun c hc => (valid c hc).1,
    fun c hc => (valid c hc).2,by omega,?_⟩
  simpa using total

end Integris.PathGrammar
