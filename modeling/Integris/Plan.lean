import Integris.BinarySearch
import Integris.Journal
import Integris.PathGrammar

/-! Manifests and plans of `internal/localsync`: what a scan records, what a
plan operation carries, and how two manifests become a plan. -/
namespace Integris.LocalSync

open Posix Codec

inductive Kind where
  | invalidArgument | pathUnsafe | unsupported | permission | read | write | noSpace | verify
  | conflict | internal
  deriving DecidableEq, Repr

/-- The errors of other packages that a localsync error may wrap. -/
inductive Cause where
  | errno (e : Errno)
  | grammar (e : PathGrammar.Error)
  | journal (e : Journal.Failure)
  | text (message : String)
  deriving DecidableEq

structure Error where
  kind : Kind
  op : String
  path : Bytes := []
  message : String := ""
  cause : Option Cause := none
  deriving DecidableEq

def invalidArg (op message : String) : Error := ⟨.invalidArgument,op,[],message,none⟩

def pathUnsafe (op message : String) : Error := ⟨.pathUnsafe,op,[],message,none⟩

def unsupported (op : String) (rel : Bytes) (message : String) : Error :=
  ⟨.unsupported,op,rel,message,none⟩

def conflict (op : String) (rel : Bytes) (message : String) : Error := ⟨.conflict,op,rel,message,none⟩

/-- `wrap` of an error that is not yet a localsync error. -/
def wrap (kind : Kind) (op : String) (rel : Bytes) (cause : Cause) : Error :=
  ⟨kind,op,rel,"",some cause⟩

def wrapErrno (kind : Kind) (op : String) (rel : Bytes) (e : Errno) : Error :=
  wrap kind op rel (.errno e)

/-- An action a snapshot names that the program does not know keeps its text. -/
inductive Action where
  | mkdir | copy | replace | skip
  | other (name : Bytes)
  deriving DecidableEq

def Action.text : Action → Bytes
  | .mkdir => ascii "mkdir"
  | .copy => ascii "copy"
  | .replace => ascii "replace"
  | .skip => ascii "skip"
  | .other name => name

inductive Reason where
  | missing | digestDiffers | identical | dirExists
  | other (name : Bytes)
  deriving DecidableEq

structure Op where
  action : Action
  rel : Bytes
  reason : Reason
  expectedSize : Int := 0
  expectedMode : Nat := 0
  expectedDigestHex : Bytes := []
  initial : Bytes
  final : Bytes
  deriving DecidableEq

structure Plan where
  sourceRoot : Bytes
  destRoot : Bytes
  ops : List Op
  deriving DecidableEq

inductive EntryType where
  | dir | file
  deriving DecidableEq

/-- A file entry always has its digest; a directory has none. -/
structure Entry where
  rel : Bytes
  type : EntryType
  size : Int := 0
  mode : Nat
  digest : Option Digest := none
  deriving DecidableEq

structure Manifest where
  root : Bytes
  entries : List Entry

/-- The destination-side metadata directory, never sync content. -/
def metaDirName : Name := ascii ".integris"

structure Roots where
  source : Bytes
  destination : Bytes

def hexDigit (n : Nat) : UInt8 := if n < 10 then UInt8.ofNat (48 + n) else UInt8.ofNat (87 + n)

/-- `hex.EncodeToString`. -/
def hexOf (b : Bytes) : Bytes := b.flatMap fun x => [hexDigit (x.toNat / 16),hexDigit (x.toNat % 16)]

def hexValue (c : UInt8) : Option Nat :=
  if 48 ≤ c ∧ c ≤ 57 then some (c.toNat - 48)
  else if 97 ≤ c ∧ c ≤ 102 then some (c.toNat - 87)
  else if 65 ≤ c ∧ c ≤ 70 then some (c.toNat - 55)
  else none

/-- `hex.DecodeString`. -/
def unhex : Bytes → Option Bytes
  | [] => some []
  | [_] => none
  | c :: d :: rest => do
    let hi ← hexValue c
    let lo ← hexValue d
    let tail ← unhex rest
    pure (UInt8.ofNat (16 * hi + lo) :: tail)

/-- The errors are wrapped by the one caller; a wrong size is a localsync error already. -/
def digestFromHex (rel s : Bytes) : Except Error Digest :=
  match unhex s with
  | none => .error (wrap .invalidArgument "apply" rel (.text "encoding/hex: invalid hex string"))
  | some b =>
    if h : b.length = 32 then .ok ⟨b,h⟩
    else .error (invalidArg "digest" "expected 32-byte SHA-256 hex")

theorem hexDigit_lt : ∀ n : Fin 16, hexValue (hexDigit n.val) = some n.val := by decide

theorem hexValue_hexDigit {n : Nat} (h : n < 16) : hexValue (hexDigit n) = some n := hexDigit_lt ⟨n,h⟩

theorem unhex_hexOf (b : Bytes) : unhex (hexOf b) = some b := by
  induction b with
  | nil => rfl
  | cons x b ih =>
    have whole : 16 * (x.toNat / 16) + x.toNat % 16 = x.toNat := Nat.div_add_mod _ _
    have small : x.toNat < 256 := x.toNat_lt
    change unhex (hexDigit (x.toNat / 16) :: hexDigit (x.toNat % 16) :: hexOf b) = _
    rw [unhex,hexValue_hexDigit (by omega),hexValue_hexDigit (by omega),ih]
    change some (UInt8.ofNat (16 * (x.toNat / 16) + x.toNat % 16) :: b) = some (x :: b)
    rw [whole,UInt8.ofNat_toNat]

theorem digestFromHex_hexOf (rel : Bytes) (d : Digest) : digestFromHex rel (hexOf d.val) = .ok d := by
  rw [digestFromHex,unhex_hexOf]
  simp [d.property]

def Entry.digestHex (e : Entry) : Bytes :=
  match e.digest with
  | none => []
  | some d => hexOf d.val

/-- Binary search for the first entry not below `rel`. -/
def Manifest.lookup (m : Manifest) (rel : Bytes) : Option Entry :=
  m.entries[search m.entries.length fun i => m.entries[i]?.any fun e => rel ≤ e.rel]?.filter
    fun e => e.rel = rel

/-- The operation planned for one source entry. -/
def planEntry (dst : Manifest) (s : Entry) : Except Error Op :=
  match s.type, dst.lookup s.rel with
  | .dir, none => .ok {
      action := .mkdir, rel := s.rel, reason := .missing, expectedMode := s.mode
      initial := ascii "absent", final := ascii "directory" }
  | .dir, some d =>
    if d.type = .dir then .ok {
      action := .skip, rel := s.rel, reason := .dirExists, expectedMode := s.mode
      initial := ascii "directory", final := ascii "directory" }
    else .error (conflict "plan" s.rel "destination is not a directory")
  | .file, none => .ok {
      action := .copy, rel := s.rel, reason := .missing, expectedSize := s.size
      expectedMode := s.mode, expectedDigestHex := s.digestHex
      initial := ascii "absent", final := ascii "file" }
  | .file, some d =>
    if d.type = .file then
      if d.digest.isSome ∧ s.digest.isSome ∧ d.digest = s.digest then .ok {
        action := .skip, rel := s.rel, reason := .identical, expectedSize := s.size
        expectedMode := s.mode, expectedDigestHex := s.digestHex
        initial := ascii "file_identical", final := ascii "file" }
      else .ok {
        action := .replace, rel := s.rel, reason := .digestDiffers, expectedSize := s.size
        expectedMode := s.mode, expectedDigestHex := s.digestHex
        initial := ascii "file_different", final := ascii "file" }
    else .error (conflict "plan" s.rel "destination is not a regular file")

/-- The order of the final sort: by path, then by action name. -/
def Op.before (a b : Op) : Prop := a.rel < b.rel ∨ (a.rel = b.rel ∧ a.action.text ≤ b.action.text)

instance : DecidableRel Op.before := fun a b =>
  inferInstanceAs (Decidable (a.rel < b.rel ∨ (a.rel = b.rel ∧ a.action.text ≤ b.action.text)))

def buildPlan (src dst : Manifest) : Except Error Plan := do
  let ops ← src.entries.mapM (planEntry dst)
  pure ⟨src.root,dst.root,ops.insertionSort Op.before⟩

end Integris.LocalSync
