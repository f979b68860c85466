import Integris.Resume
import Integris.ReceiveContainment

/-! The names one file has in the store: its place in `recv-stage`, and its partial file and
record in `recv-partial`. A tree has room for the file when every directory on the way to
these is there or missing, and each name is a file's or nobody's. -/
namespace Integris.RemoteSync

open Posix LocalSync Prog Ambient

def part (n : Name) : Name := n ++ ascii ".part"

def record (n : Name) : Name := n ++ ascii ".meta.json"

/-- The record before it is renamed. -/
def draft (n : Name) : Name := record n ++ ascii ".tmp"

theorem validName_append {n t : Name} (valid : ValidName n) (long : 3 ≤ t.length) (slashless : slash ∉ t)
    (clean : (0 : UInt8) ∉ t) : ValidName (n ++ t) := by
  have size : 3 ≤ (n ++ t).length := by rw [List.length_append]; omega
  refine ⟨?_,?_,?_,by simp [valid.2.2.2.1,slashless],by simp [valid.2.2.2.2,clean]⟩ <;>
    (intro h; rw [h] at size; simp [dot,dotdot] at size)

variable {n : Name}

theorem validName_part (valid : ValidName n) : ValidName (part n) :=
  validName_append valid (by decide) (by decide) (by decide)

theorem validName_record (valid : ValidName n) : ValidName (record n) :=
  validName_append valid (by decide) (by decide) (by decide)

theorem validName_draft (valid : ValidName n) : ValidName (draft n) :=
  validName_append (validName_record valid) (by decide) (by decide) (by decide)

section names

variable {q : Path} {n : Name}

theorem plain_part (plain : Plain (q ++ [n])) : Plain (q ++ [part n]) :=
  plain_append.mpr ⟨(plain_append.mp plain).1,by simpa using validName_part (plain n (by simp))⟩

theorem plain_record (plain : Plain (q ++ [n])) : Plain (q ++ [record n]) :=
  plain_append.mpr ⟨(plain_append.mp plain).1,by simpa using validName_record (plain n (by simp))⟩

theorem plain_draft (plain : Plain (q ++ [n])) : Plain (q ++ [draft n]) :=
  plain_append.mpr ⟨(plain_append.mp plain).1,by simpa using validName_draft (plain n (by simp))⟩

theorem relText_suffix (q : Path) (n t : Bytes) : relText (q ++ [n]) ++ t = relText (q ++ [n ++ t]) :=
  List.tail_eq_of_cons_eq (absText_suffix q n t)

theorem relText_part : relText (q ++ [n]) ++ ascii ".part" = relText (q ++ [part n]) := relText_suffix q n _

theorem relText_record : relText (q ++ [n]) ++ ascii ".meta.json" = relText (q ++ [record n]) := relText_suffix q n _

end names

theorem append_ne {n t u : Bytes} (differ : t ≠ u) : n ++ t ≠ n ++ u := fun h => differ (List.append_cancel_left h)

/-- There is room for the file `n` below the directory `q` of the source tree. -/
structure Berth (before : FS) (stage partials q : Path) (n : Name) (fs : FS) : Prop where
  conf : Confined before (Inside stage partials) fs
  stageWay : ∀ r, r <+: q → fs.Free (stage ++ r)
  stageSlot : fs.Slot (stage ++ q ++ [n])
  partWay : ∀ r, r <+: q → fs.Free (partials ++ r)
  partSlot : fs.Slot (partials ++ q ++ [part n])

/-- The names `Berth` speaks of. -/
def OnWay (stage partials q : Path) (n : Name) (x : Path) : Prop :=
  (∃ r, r <+: q ∧ (x = stage ++ r ∨ x = partials ++ r)) ∨ x = stage ++ q ++ [n] ∨ x = partials ++ q ++ [part n]

/-- Two directories, neither inside the other. -/
structure TwoDirs (stage partials : Path) : Prop where
  up : ¬stage <+: partials
  down : ¬partials <+: stage

theorem TwoDirs.apart {stage partials : Path} (two : TwoDirs stage partials) (x y : Path) : stage ++ x ≠ partials ++ y := by
  intro same
  rcases List.prefix_or_prefix_of_prefix (List.prefix_append stage x) (same ▸ List.prefix_append partials y) with
    le | le
  · exact two.up le
  · exact two.down le

section berth

variable {before fs fs' : FS} {stage partials q : Path} {n m : Name} {A : Path → Prop}

variable {r : Path} {x : Path}

theorem inside_stage (more : r ≠ []) : Inside stage partials (stage ++ r) := .inl (FS.below_append more)

theorem inside_part (more : r ≠ []) : Inside stage partials (partials ++ r) := .inr (FS.below_append more)

/-- A record, or what is below its name, is in nobody's way. -/
theorem not_onWay (two : TwoDirs stage partials) (other : m ≠ part n) (below : partials ++ q ++ [m] <+: x) :
    ¬OnWay stage partials q n x := by
  have start : partials <+: x := ((List.prefix_append _ _).trans (List.prefix_append _ [m])).trans below
  have elsewhere {y : Path} (at_ : x = stage ++ y) : False := by
    obtain ⟨z,rfl⟩ := start
    exact two.apart _ _ at_.symm
  have long := below.length_le
  simp only [List.length_append,List.length_singleton] at long
  rintro (⟨r,le,same | rfl⟩ | same | rfl)
  · exact elsewhere same
  · have short := le.length_le
    rw [List.length_append] at long
    omega
  · rw [List.append_assoc] at same
    exact elsewhere same
  · have whole := below.eq_of_length (by simp)
    exact other (List.singleton_inj.mp (List.append_cancel_left whole))

/-- The record's two names, and what is below them. -/
def Records (partials q : Path) (n : Name) (x : Path) : Prop :=
  partials ++ q ++ [record n] <+: x ∨ partials ++ q ++ [draft n] <+: x

theorem Records.inside (h : Records partials q n x) : Inside stage partials x := by
  have under {k : Name} (le : partials ++ q ++ [k] <+: x) : Inside stage partials x := by
    obtain ⟨r,rfl⟩ := le
    rw [List.append_assoc,List.append_assoc]
    exact inside_part (by simp)
  exact h.elim under under

theorem Records.off (two : TwoDirs stage partials) (h : Records partials q n x) : ¬OnWay stage partials q n x := by
  rcases h with le | le
  · exact not_onWay two (append_ne (by decide)) le
  · rw [draft,record,List.append_assoc n] at le
    exact not_onWay two (append_ne (by decide)) le

theorem Records.region (region : Region before (Inside stage partials))
    (conf : Confined before (Inside stage partials) fs) : Region fs (Records partials q n) :=
  ⟨fun _ _ small => small.imp (fun le => le.trans (List.prefix_append ..)) fun le => le.trans (List.prefix_append ..),
    fun _ small => region.unlinked conf small.inside⟩

theorem Berth.frame (h : Berth before stage partials q n fs) (kept : Confined fs A fs')
    (inside : ∀ x, A x → Inside stage partials x) (off : ∀ x, A x → ¬OnWay stage partials q n x) :
    Berth before stage partials q n fs' := by
  have same {x : Path} (on : OnWay stage partials q n x) : fs'.node x = fs.node x :=
    kept.outside x fun touched => off x touched on
  have free {x : Path} (on : OnWay stage partials q n x) (free : fs.Free x) : fs'.Free x := by
    rwa [FS.Free,FS.IsDir,same on]
  have slot {x : Path} (on : OnWay stage partials q n x) (slot : fs.Slot x) : fs'.Slot x := by rwa [FS.Slot,same on]
  exact ⟨h.conf.trans kept inside,fun r le => free (.inl ⟨r,le,.inl rfl⟩) (h.stageWay r le),
    slot (.inr (.inl rfl)) h.stageSlot,fun r le => free (.inl ⟨r,le,.inr rfl⟩) (h.partWay r le),
    slot (.inr (.inr rfl)) h.partSlot⟩

theorem Berth.grown {d : Path} (h : Berth before stage partials q n fs) (grown : Deepens fs fs' d q)
    (inside : ∀ r, r <+: q → r ≠ [] → Inside stage partials (d ++ r))
    (off : ∀ r, r <+: q → d ++ r ≠ stage ++ q ++ [n] ∧ d ++ r ≠ partials ++ q ++ [part n]) :
    Berth before stage partials q n fs' := by
  have slot {x : Path} (other : ∀ r, r <+: q → d ++ r ≠ x) (slot : fs.Slot x) : fs'.Slot x := by
    rcases grown x with same | ⟨-,-,r,le,-,at_⟩
    · rwa [FS.Slot,same]
    · exact absurd at_.symm (other r le)
  refine ⟨h.conf.trans grown.confined ?_,fun r le => grown.free (h.stageWay r le),
    slot (fun r le => (off r le).1) h.stageSlot,fun r le => grown.free (h.partWay r le),
    slot (fun r le => (off r le).2) h.partSlot⟩
  rintro x ⟨r,le,more,rfl⟩
  exact inside r le more

theorem prefix_ne {d : Path} (le : r <+: q) (m : Name) : d ++ r ≠ d ++ q ++ [m] := by
  intro same
  rw [List.append_assoc] at same
  have long := le.length_le
  rw [List.append_cancel_left same] at long
  simp at long

theorem Berth.grown_stage (two : TwoDirs stage partials) (h : Berth before stage partials q n fs)
    (grown : Deepens fs fs' stage q) : Berth before stage partials q n fs' := by
  refine h.grown grown (fun r _ more => inside_stage more) fun r le => ⟨prefix_ne le n,?_⟩
  rw [List.append_assoc]
  exact two.apart _ _

theorem Berth.grown_part (two : TwoDirs stage partials) (h : Berth before stage partials q n fs)
    (grown : Deepens fs fs' partials q) : Berth before stage partials q n fs' := by
  refine h.grown grown (fun r _ more => inside_part more) fun r le => ⟨?_,prefix_ne le (part n)⟩
  rw [List.append_assoc]
  exact fun same => two.apart _ _ same.symm

theorem Berth.update_part (two : TwoDirs stage partials) (h : Berth before stage partials q n fs) {v : Option Node}
    (changed : fs'.node = Function.update fs.node (partials ++ q ++ [part n]) v)
    (file : v = none ∨ ∃ mode data, v = some (.file mode data)) : Berth before stage partials q n fs' := by
  have plain : v.any Node.isLink = false := by
    rcases file with rfl | ⟨_,_,rfl⟩ <;> rfl
  have inside : Inside stage partials (partials ++ q ++ [part n]) := by
    rw [List.append_assoc]
    exact inside_part (by simp)
  have same {x : Path} (other : x ≠ partials ++ q ++ [part n]) : fs'.node x = fs.node x := by
    rw [changed,Function.update_of_ne other]
  have free {x : Path} (other : x ≠ partials ++ q ++ [part n]) (free : fs.Free x) : fs'.Free x := by
    rwa [FS.Free,FS.IsDir,same other]
  refine ⟨h.conf.trans (confined_update changed plain) fun x at_ => at_ ▸ inside,?_,?_,?_,?_⟩
  · refine fun r le => free ?_ (h.stageWay r le)
    rw [List.append_assoc]
    exact two.apart _ _
  · rw [FS.Slot,same]
    · exact h.stageSlot
    · rw [List.append_assoc,List.append_assoc]
      exact two.apart _ _
  · exact fun r le => free (prefix_ne le _) (h.partWay r le)
  · rw [FS.Slot,changed,Function.update_self]
    exact file

/-- The entry is gone, or nothing has changed. -/
def Erases (fs fs' : FS) (p : Path) : Prop := fs'.node = fs.node ∨ fs'.node = Function.update fs.node p none

theorem Erases.confined {p : Path} (h : Erases fs fs' p) : Confined fs (· = p) fs' := by
  rcases h with same | gone
  · exact ⟨fun x _ => by rw [same],fun x link => by rwa [FS.IsLink,same] at link⟩
  · exact confined_update gone rfl

theorem Berth.cleared {fs₁ : FS} (two : TwoDirs stage partials) (h : Berth before stage partials q n fs)
    (first : Erases fs fs₁ (partials ++ q ++ [record n])) (second : Erases fs₁ fs' (partials ++ q ++ [part n])) :
    Berth before stage partials q n fs' := by
  have h₁ : Berth before stage partials q n fs₁ := by
    refine h.frame first.confined ?_ ?_
    · rintro _ rfl
      rw [List.append_assoc]
      exact inside_part (by simp)
    · rintro _ rfl
      exact not_onWay two (append_ne (by decide)) (List.prefix_refl _)
  rcases second with same | gone
  · exact h₁.frame (A := fun _ => False) ⟨fun x _ => by rw [same],fun x link => by rwa [FS.IsLink,same] at link⟩
      (fun _ no => no.elim) fun _ no => no.elim
  · exact h₁.update_part two gone (.inl rfl)

theorem Erases.staged (two : TwoDirs stage partials) {m : Name} (h : Erases fs fs' (partials ++ q ++ [m])) :
    fs'.node (stage ++ q ++ [n]) = fs.node (stage ++ q ++ [n]) := by
  refine h.confined.outside _ ?_
  rw [List.append_assoc,List.append_assoc]
  exact two.apart _ _

end berth

/-! The steps both modes have in common. -/

section common

variable {host : Host} {w w' : World}

variable {h : Hashed} {m : RS Hashed}

theorem digestIs_run (ran : m host w = (.ok h,w')) (want : Digest) :
    digestIs m want host w = (.ok (decide (h.digest = want)),w') := by
  rw [digestIs,bind_run (attempt_run ran)]
  rfl

theorem expectDigest_run (ran : m host w = (.ok h,w')) (want : Digest)
    (message : String) : expectDigest m want message host w =
      if h.digest = want then (.ok (),w') else (.error (.fail .apply message),w') := by
  rw [expectDigest,bind_run (digestIs_run ran want)]
  by_cases good : h.digest = want
  · rw [if_pos good]
    exact require_run (decide_eq_true good) _ _ _
  · rw [if_neg good]
    exact require_failed (by simpa using good) _ _ _

/-- Whether the file is there already: the modes differ in how they look at it and hash it. -/
def stagedFrom (look : Os Node) (right : Node → Prop) [DecidablePred right] (hash : RS Hashed) (b : FileBegin) :
    RS Bool := do
  match ← attempt look with
  | .error _ => pure false
  | .ok x => if right x then digestIs hash b.digest else pure false

theorem stagedFrom_run {look : Os Node} {right : Node → Prop} [DecidablePred right] {hash : RS Hashed} {b : FileBegin}
    {S : Path} (slot : w.fs.Slot S) (blind : w.fs.node S = none → ∃ e, look host w = (.error e,w.next w.fs))
    (looks : ∀ mode data, w.fs.node S = some (.file mode data) → look host w = (.ok (.file mode data),w.next w.fs))
    (rights : ∀ mode data, right (.file mode data) ↔ (data.length : Int) = b.size.toInt64.toInt)
    (hashes : ∀ mode data, w.fs.node S = some (.file mode data) →
      ∃ w', hash host (w.next w.fs) = (.ok ⟨sha256 data,data.length⟩,w') ∧ w'.fs = w.fs) :
    ∃ yes w', stagedFrom look right hash b host w = (.ok yes,w') ∧ w'.fs = w.fs ∧ (yes = true ↔ Staged S b w.fs) := by
  unfold stagedFrom Staged
  rcases slot with absent | ⟨mode,data,file⟩
  · obtain ⟨e,lost⟩ := blind absent
    rw [bind_run (attempt_failed lost)]
    exact ⟨false,w.next w.fs,rfl,rfl,by simp [absent]⟩
  · rw [bind_run (attempt_run (looks mode data file))]
    dsimp only
    by_cases size : (data.length : Int) = b.size.toInt64.toInt
    · obtain ⟨w',hashed,same⟩ := hashes mode data file
      rw [if_pos ((rights mode data).mpr size)]
      exact ⟨_,w',digestIs_run hashed _,same,by simp [file,size]⟩
    · rw [if_neg fun fits => size ((rights mode data).mp fits)]
      exact ⟨false,w.next w.fs,rfl,rfl,by simp [file,size]⟩

theorem recorded_none {json : MetaCodec} {M : Path} (absent : w.fs.node M = none) (m : PartialMeta) :
    none = some m ↔ Recorded json M w.fs m := by
  simp [Recorded,absent]

theorem recorded_some {json : MetaCodec} {M : Path} {mode : Nat} {raw : Bytes} {m : PartialMeta}
    (file : w.fs.node M = some (.file mode raw)) (read : json.unmarshal raw = some m) (m' : PartialMeta) :
    some m = some m' ↔ Recorded json M w.fs m' := by
  simp [Recorded,file,read]

theorem ofInt_natCast (k : Nat) : UInt64.ofInt (k : Int) = UInt64.ofNat k := by
  refine UInt64.toNat_inj.mp ?_
  rw [UInt64.ofInt,UInt64.toNat_ofNat',UInt64.toNat_ofNat']
  omega

theorem resumeFrom_run {json : MetaCodec} {load : RS (Option PartialMeta)} {look : Os Node} {fresh : RS UInt64}
    {b : FileBegin} {Kept : FS → Prop} {P M : Path} {w₁ : World} {found : Option PartialMeta}
    (loaded : load host w = (.ok found,w₁)) (kept : Kept w₁.fs) (same : w₁.fs.node P = w.fs.node P)
    (recorded : ∀ m, found = some m ↔ Recorded json M w.fs m) (slot : w.fs.Slot P)
    (looks : ∀ mode data, w₁.fs.node P = some (.file mode data) → look host w₁ = (.ok (.file mode data),w₁.next w₁.fs))
    (blind : w₁.fs.node P = none → ∃ e, look host w₁ = (.error e,w₁.next w₁.fs))
    (begins : ∀ w, Kept w.fs → ∃ w', fresh host w = (.ok 0,w') ∧ Kept w'.fs) :
    ∃ start w', resumeFrom load look fresh b host w = (.ok start,w') ∧ Kept w'.fs ∧
      ((∃ data, Resumes json P M b w.fs data ∧ start = UInt64.ofNat data.length ∧
          ∃ mode, w'.fs.node P = some (.file mode data)) ∨
        (∀ data, ¬Resumes json P M b w.fs data) ∧ start = 0) := by
  rw [resumeFrom,bind_run loaded]
  cases found with
  | none =>
    obtain ⟨w₂,ran,kept'⟩ := begins w₁ kept
    refine ⟨0,w₂,ran,kept',.inr ⟨?_,rfl⟩⟩
    rintro data ⟨m,known,-⟩
    cases (recorded m).mpr known
  | some m =>
    have known := (recorded m).mp rfl
    have only {m' : PartialMeta} (other : Recorded json M w.fs m') : m' = m := by
      cases (recorded m').mpr other
      rfl
    dsimp only
    by_cases fits : m.matches b = true
    · obtain ⟨w₂,ran,kept'⟩ := begins (w₁.next w₁.fs) kept
      rw [if_pos fits]
      rcases slot with gone | ⟨old,data,at_⟩
      · obtain ⟨e,lost⟩ := blind (same.trans gone)
        refine ⟨0,w₂,?_,kept',.inr ⟨?_,rfl⟩⟩
        · rw [bind_run (attempt_failed lost)]
          exact ran
        · rintro data ⟨_,_,-,⟨_,at_⟩,-⟩
          rw [gone] at at_
          cases at_
      · rw [bind_run (attempt_run (looks old data (same.trans at_)))]
        dsimp only
        by_cases counted : (data.length : Int) = m.offset
        · have size : nodeSize (.file old data) = m.offset := counted
          rw [if_pos size]
          refine ⟨_,w₁.next w₁.fs,rfl,kept,.inl ⟨data,⟨m,known,fits,⟨old,at_⟩,counted⟩,?_,old,same.trans at_⟩⟩
          rw [← counted,ofInt_natCast]
        · have size : ¬nodeSize (.file old data) = m.offset := counted
          rw [if_neg size]
          refine ⟨0,w₂,ran,kept',.inr ⟨?_,rfl⟩⟩
          rintro data' ⟨m',known',-,⟨_,at'⟩,counted'⟩
          rw [at_] at at'
          cases at'
          rw [only known'] at counted'
          exact counted counted'
    · rw [if_neg fits]
      obtain ⟨w₂,ran,kept'⟩ := begins w₁ kept
      refine ⟨0,w₂,ran,kept',.inr ⟨?_,rfl⟩⟩
      rintro data ⟨m',known',fits',-⟩
      rw [only known'] at fits'
      exact fits fits'

end common

end Integris.RemoteSync
