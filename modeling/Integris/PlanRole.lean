import Integris.RelayIsolation

/-! The plan role by itself. It answers a request of the parser on its own or passes one
request on to the apply role, whose answer may be anything; the gate follows what was passed
on, not what the apply role made of it. -/
namespace Integris.RemoteSync

open Posix LocalSync Prog Ipc

/-- A request answered: the gate from then on, and whether the loop goes on. -/
structure Answered where
  resp : Bytes
  gate : Option PlanGate
  up : Bool

/-- What the plan role does with a request. Where it asks the apply role, `gate` is its gate
in the meantime. -/
inductive PlanMove where
  | answer (done : Answered)
  | pass (gate : Option PlanGate) (payload : Bytes) (after : Except Fault Bytes → Answered)

section moves

variable (out : Outside) (once : Bool) (gate : Option PlanGate)

def refusing (e : Fault) : PlanMove := .answer ⟨mustResult false (out.render e),gate,!once⟩

def passing (payload : Bytes) (after : Bytes → Answered) : PlanMove := .pass gate payload fun
  | .error e => ⟨mustResult false (out.render e),gate,false⟩
  | .ok resp => after resp

def moveChecked (decoded : Except Fault α) (check : Option PlanGate → α → Except Fault PlanGate)
    (req : Bytes) : PlanMove :=
  match decoded with
  | .error e => .answer ⟨mustResult false (out.render e),gate,false⟩
  | .ok m =>
    match check gate m with
    | .error e => refusing out once gate e
    | .ok g => passing out (some g) req fun resp => ⟨resp,some g,true⟩

def moveManifest (req : Bytes) : PlanMove :=
  match authorizeManifest req with
  | .error e => refusing out once gate e
  | .ok a => passing out gate a.canonical fun resp => ⟨resp,some a.gate,true⟩

def moveChunk (req : Bytes) : PlanMove :=
  if gate.all (fun g => g.active = []) then
    .answer ⟨mustResult false (ascii "plan: chunk without begin"),gate,true⟩
  else passing out gate req fun resp => ⟨resp,gate,true⟩

def moveCommit (req : Bytes) : PlanMove :=
  match gated gate PlanGate.checkCommit with
  | .error e => refusing out once gate e
  | .ok () => passing out gate req fun resp => ⟨resp,none,!once⟩

def planMove (req : Bytes) : PlanMove :=
  match req with
  | [] => .answer ⟨mustResult false (ascii "empty plan request"),gate,true⟩
  | op :: _ =>
    if op = msgManifest then moveManifest out once gate req
    else if op = msgFile then
      moveChecked out once gate (decodeFile req) (fun g fw => gated g fun g => g.checkFile fw) req
    else if op = msgFileBegin then
      moveChecked out once gate (decodeFileBegin req) (fun g b => gated g fun g => g.checkBegin b) req
    else if op = msgFileChunk then moveChunk out gate req
    else if op = msgFileEnd then moveChecked out once gate (decodeFileEnd req) gatedEnd req
    else if op = msgCommit then moveCommit out once gate req
    else if op = msgIPCAbort then passing out none req fun resp => ⟨resp,none,false⟩
    else .answer ⟨mustResult false (ascii "unknown plan op"),gate,false⟩

end moves

/-! `ServePlanBridge` makes these moves. -/

section served

variable {out : Outside} {once : Bool} {host : Host}

def Answered.settle (done : Answered) : RP Bytes := do
  setGate done.gate
  if done.up then pure done.resp else planLeaves done.resp

/-- The move, with the apply role's own answer. -/
def PlanMove.perform (out : Outside) : PlanMove → RP Bytes
  | .answer done => done.settle
  | .pass gate payload after => do
    setGate gate
    let answer ← attempt (toApply out payload)
    (after answer).settle

variable {r : Roles} {resp : Bytes} {gate : Option PlanGate} {d : Bytes → Answered}

theorem settle_up (now : r.gate = gate) : (pure resp : RP Bytes) host r = (Answered.settle ⟨resp,gate,true⟩) host r := by
  subst now
  rfl

theorem settle_down (now : r.gate = gate) : planLeaves resp host r = (Answered.settle ⟨resp,gate,false⟩) host r := by
  subst now
  rfl

theorem planRefuses_performs (e : Fault) :
    planRefuses out once e host r = (refusing out once r.gate e).perform out host r := by
  cases once <;> rfl

/-- The gate is as it was when the apply role has answered. -/
theorem forward_performs (gate : Option PlanGate) (payload : Bytes) {later : Bytes → RP Bytes}
    (same : ∀ resp t, t.gate = gate → later resp host t = (d resp).settle host t) :
    (setGate gate >>= fun _ => forward out payload later) host r = (passing out gate payload d).perform out host r := by
  have set : setGate gate host r = (.ok (),{ r with gate }) := rfl
  have kept : Keeps host (fun t => t.gate = gate) (toApply out payload) :=
    keeps_toApply (fun _ _ h => h) (fun _ _ h => h) payload
  have now := (kept { r with gate } rfl).reached
  rw [passing,PlanMove.perform,bind_run set,bind_run set,forward]
  rcases run : toApply out payload host { r with gate } with ⟨resp | e | _,t⟩ <;> rw [run] at now
  · rw [bind_run (attempt_run run),bind_run (attempt_run run)]
    exact same resp t now
  · rw [bind_run (attempt_failed run),bind_run (attempt_failed run)]
    exact settle_down now
  · rw [bind_crashed (attempt_crashed run),bind_crashed (attempt_crashed run)]

theorem planChecked_performs (decoded : Except Fault α)
    (check : Option PlanGate → α → Except Fault PlanGate) (req : Bytes) :
    planChecked out once decoded check req host r = (moveChecked out once r.gate decoded check req).perform out host r := by
  unfold planChecked moveChecked
  cases decoded with
  | error e => rfl
  | ok m =>
    simp only
    rw [get_bind]
    cases check r.gate m with
    | error e => exact planRefuses_performs e
    | ok g => exact forward_performs (some g) req fun _ _ => settle_up

variable (req : Bytes)

theorem planManifest_performs :
    planManifest out once req host r = (moveManifest out once r.gate req).perform out host r := by
  unfold planManifest moveManifest
  cases authorizeManifest req with
  | error e => exact planRefuses_performs e
  | ok a => exact forward_performs r.gate _ fun _ _ _ => rfl

theorem planChunk_performs : planChunk out req host r = (moveChunk out r.gate req).perform out host r := by
  unfold planChunk moveChunk
  rw [get_bind]
  split
  · rfl
  · exact forward_performs r.gate req fun _ _ => settle_up

theorem planCommit_performs : planCommit out once req host r = (moveCommit out once r.gate req).perform out host r := by
  unfold planCommit moveCommit
  rw [get_bind]
  cases gated r.gate PlanGate.checkCommit with
  | error e => exact planRefuses_performs e
  | ok _ => exact forward_performs r.gate req fun _ _ _ => by cases once <;> rfl

/-- One turn of `ServePlanBridge`, for whatever gate it has. -/
theorem planRequest_performs (r : Roles) :
    planRequest out once req host r = (planMove out once r.gate req).perform out host r := by
  cases req with
  | nil => rfl
  | cons op rest =>
    simp only [planRequest,planMove]
    split_ifs
    · exact planManifest_performs _
    · exact planChecked_performs _ _ _
    · exact planChecked_performs _ _ _
    · exact planChunk_performs _
    · exact planChecked_performs _ _ _
    · exact planCommit_performs _
    · exact forward_performs none _ fun _ _ => settle_down
    · rfl

end served

/-! A run: what the parser asks, each with the answer the apply role gives if it is asked. -/

structure Asked where
  request : Bytes
  answer : Except Fault Bytes
  deriving DecidableEq

/-- What is passed on to the apply role, and how it is answered. The run may stop anywhere. -/
def forwarded (out : Outside) (once : Bool) : Option PlanGate → List Asked → List Asked
  | _, [] => []
  | gate, x :: rest =>
    match planMove out once gate x.request with
    | .answer done => if done.up then forwarded out once done.gate rest else []
    | .pass _ payload after => ⟨payload,x.answer⟩ ::
      if (after x.answer).up then forwarded out once (after x.answer).gate rest else []

/-! The transfers of a manifest's files, as the apply role answered them. -/

def granted : Except Fault Bytes → Bool
  | .ok resp =>
    match decodeResult resp with
    | .ok v => v.ok
    | .error _ => false
  | .error _ => false

def acknowledged : Except Fault Bytes → Bool
  | .ok resp => (decodeFileAck resp).isOk
  | .error _ => false

variable (entries : List Entry)

/-- The manifest has this file. -/
def Announces (P : Entry → Prop) (rel : Bytes) : Prop :=
  ∃ e ∈ entries, e.type = .file ∧ e.rel = rel ∧ P e

instance (entries : List Entry) (P : Entry → Prop) [DecidablePred P] (rel : Bytes) :
    Decidable (Announces entries P rel) := by
  unfold Announces
  infer_instance

def MatchesFile (fw : FileWire) : Prop := Announces entries
  (fun e => digestOf e = fw.digest ∧ e.mode = fw.mode ∧ UInt64.ofNat fw.data.length = sizeOf64 e) fw.rel

def MatchesBegin (b : FileBegin) : Prop := Announces entries
  (fun e => digestOf e = b.digest ∧ e.mode = b.mode ∧ sizeOf64 e = b.size) b.rel

def MatchesEnd (f : FileEnd) : Prop := Announces entries
  (fun e => digestOf e = f.digest) f.rel

instance (entries : List Entry) (fw : FileWire) : Decidable (MatchesFile entries fw) := by
  unfold MatchesFile
  infer_instance

instance (entries : List Entry) (b : FileBegin) : Decidable (MatchesBegin entries b) := by
  unfold MatchesBegin
  infer_instance

instance (entries : List Entry) (f : FileEnd) : Decidable (MatchesEnd entries f) := by
  unfold MatchesEnd
  infer_instance

/-- The file begun and not ended, and the transfers completed. -/
structure Progress where
  begun : Option Bytes := none
  done : List Bytes := []
  deriving DecidableEq

/-- A file is transferred by one message, or by its begin and its end; each must match the
manifest and be answered with success. -/
def Progress.step (p : Progress) (x : Asked) : Progress :=
  if x.request.head? = some msgFile then
    match decodeFile x.request with
    | .ok fw => if MatchesFile entries fw ∧ granted x.answer then { p with done := p.done ++ [fw.rel] } else p
    | .error _ => p
  else if x.request.head? = some msgFileBegin then
    match decodeFileBegin x.request with
    | .ok b =>
      { p with begun := if MatchesBegin entries b ∧ acknowledged x.answer then some b.rel else none }
    | .error _ => p
  else if x.request.head? = some msgFileEnd then
    match decodeFileEnd x.request with
    | .ok f =>
      if p.begun = some f.rel then
        ⟨none,if MatchesEnd entries f ∧ granted x.answer then p.done ++ [f.rel] else p.done⟩
      else p
    | .error _ => p
  else p

def progress (since : List Asked) : Progress :=
  since.foldl (Progress.step entries) {}

/-- Answered with success, if it is about a file. -/
structure Asked.Succeeded (x : Asked) : Prop where
  file : x.request.head? = some msgFile → granted x.answer
  begin : x.request.head? = some msgFileBegin → acknowledged x.answer
  finish : x.request.head? = some msgFileEnd → granted x.answer

/-- Every message about a file was answered with success, and none carried the whole of a file
that was begun and not ended. -/
structure Clean (entries : List Entry) (since : List Asked) : Prop where
  succeeded : ∀ x ∈ since, x.Succeeded
  apart : ∀ a x b, since = a ++ x :: b → ∀ fw, decodeFile x.request = .ok fw →
    (progress entries a).begun ≠ some fw.rel

/-- All the files of the last manifest passed on were transferred, each once, if all went clean
since. -/
def Complete (history : List Asked) : Prop :=
  ∃ before m since entries, history = before ++ m :: since ∧ decodeManifest m.request = .ok entries ∧
    (∀ y ∈ since, y.request.head? ≠ some msgManifest) ∧
    (Clean entries since → ∀ e ∈ entries, e.type = .file → (progress entries since).done.count e.rel = 1)

section runs

variable {entries : List Entry} {since : List Asked} {x : Asked}

theorem progress_concat : progress entries (since ++ [x]) = (progress entries since).step entries x := by
  simp [progress]

theorem Clean.shorter (clean : Clean entries (since ++ [x])) : Clean entries since where
  succeeded y hy := clean.succeeded y (List.mem_append_left _ hy)
  apart a y b split fw decoded := clean.apart a y (b ++ [x]) (by simp [split]) fw decoded

theorem Clean.last (clean : Clean entries (since ++ [x])) : x.Succeeded := clean.succeeded x (by simp)

theorem Clean.whole (clean : Clean entries (since ++ [x]))
    (decoded : decodeFile x.request = .ok fw) : (progress entries since).begun ≠ some fw.rel :=
  clean.apart since x [] rfl fw decoded

variable {g g' : PlanGate} {req : Bytes} {fw : FileWire} {b : FileBegin} {f : FileEnd}

theorem decodeFile_head (h : decodeFile req = .ok fw) : req.head? = some msgFile := (demand_bind_ok.mp h).1

theorem decodeFileBegin_head (h : decodeFileBegin req = .ok b) : req.head? = some msgFileBegin := (demand_bind_ok.mp h).1

theorem decodeFileEnd_head (h : decodeFileEnd req = .ok f) : req.head? = some msgFileEnd := (demand_bind_ok.mp h).1

namespace PlanGate

theorem find_announces {P : Entry → Prop} {e : Entry} {rel : Bytes} (files : g.files = entries.filter isFile)
    (found : g.find rel = some e) (matched : P e) : Announces entries P rel := by
  have member := List.mem_of_find?_eq_some found
  rw [files,List.mem_filter] at member
  have named : e.rel = rel := by simpa using List.find?_some found
  exact ⟨e,member.1,by simpa [isFile] using member.2,named,matched⟩

theorem find_mem {e : Entry} {rel : Bytes} (found : g.find rel = some e) : rel ∈ g.files.map Entry.rel := by
  have named : e.rel = rel := by simpa using List.find?_some found
  exact List.mem_map.mpr ⟨e,List.mem_of_find?_eq_some found,named⟩

theorem checkFile_ok (files : g.files = entries.filter isFile) (h : g.checkFile fw = .ok g') :
    MatchesFile entries fw ∧ fw.rel ∈ g.files.map Entry.rel ∧ fw.rel ∉ g.seen ∧
      g' = { g with seen := g.seen ++ [fw.rel] } := by
  unfold checkFile at h
  cases found : g.find fw.rel with
  | none => simp [found] at h
  | some e =>
    simp only [found,demand_bind_ok,Except.ok.injEq] at h
    exact ⟨find_announces files found h.1,find_mem found,h.2.1,h.2.2.symm⟩

theorem checkBegin_ok (files : g.files = entries.filter isFile) (h : g.checkBegin b = .ok g') :
    MatchesBegin entries b ∧ b.rel ∈ g.files.map Entry.rel ∧ b.rel ∉ g.seen ∧ g' = { g with active := b.rel } := by
  unfold checkBegin at h
  cases found : g.find b.rel with
  | none => simp [found] at h
  | some e =>
    simp only [found,demand_bind_ok,Except.ok.injEq] at h
    exact ⟨find_announces files found h.1,find_mem found,h.2.1,h.2.2.symm⟩

theorem checkEnd_ok (files : g.files = entries.filter isFile)
    (known : g.active = [] ∨ g.active ∈ g.files.map Entry.rel) (h : g.checkEnd f = .ok g') :
    MatchesEnd entries f ∧ g.active ≠ [] ∧ f.rel = g.active ∧
      g' = { g with seen := if f.rel ∈ g.seen then g.seen else g.seen ++ [f.rel], active := [] } := by
  simp only [checkEnd,demand_bind_ok,Except.ok.injEq] at h
  obtain ⟨active,same,digest,rfl⟩ := h
  refine ⟨?_,active,same,rfl⟩
  cases found : g.find f.rel with
  | none =>
    obtain ⟨e,he,named⟩ := List.mem_map.mp (known.resolve_left active)
    have absent := List.find?_eq_none.mp found e he
    simp [named,same] at absent
  | some e =>
    rw [found] at digest
    exact find_announces files found digest

theorem checkCommit_ok (h : g.checkCommit = .ok ()) : g.active = [] ∧ g.seen.length = g.files.length := by
  simpa only [checkCommit,demand_bind_ok,demand_ok] using h

/-- The collected files are the manifest's, each with its own name. -/
theorem collect_ok {files rest all : List Entry} (h : collect files rest = .ok all)
    (distinct : (files.map Entry.rel).Nodup) (named : ∀ e ∈ files, e.rel ≠ []) :
    all = files ++ rest.filter isFile ∧ (all.map Entry.rel).Nodup ∧ ∀ e ∈ all, e.rel ≠ [] := by
  induction rest generalizing files with
  | nil =>
    cases h
    exact ⟨by simp,distinct,named⟩
  | cons e rest ih =>
    unfold collect at h
    cases type : e.type with
    | dir =>
      rw [type] at h
      obtain ⟨all,rest⟩ := ih h distinct named
      exact ⟨by simpa [isFile,type] using all,rest⟩
    | file =>
      rw [type] at h
      simp only [demand_bind_ok] at h
      obtain ⟨⟨name,-⟩,fresh,h⟩ := h
      obtain ⟨all,rest⟩ := ih h (by
        rw [List.map_append,List.nodup_append]
        refine ⟨distinct,by simp,fun a ha b hb same => ?_⟩
        obtain ⟨y,hy,rfl⟩ := List.mem_map.mp ha
        rw [List.map_singleton,List.mem_singleton] at hb
        exact fresh y hy (same.trans hb)) (by
        intro y hy
        rcases List.mem_append.mp hy with old | new
        · exact named y old
        · rwa [List.mem_singleton.mp new])
      exact ⟨by simpa [isFile,type] using all,rest⟩

end PlanGate

end runs

/-! The gate and the history. -/

/-- What a request passed on says, and the gate after it. -/
inductive Passes (gate : Option PlanGate) (req : Bytes) : Bytes → Option PlanGate → Prop
  | manifest {a : Authorized} (authorized : authorizeManifest req = .ok a) :
    Passes gate req a.canonical (some a.gate)
  | file {g g' : PlanGate} {fw : FileWire} (now : gate = some g) (decoded : decodeFile req = .ok fw)
    (checked : g.checkFile fw = .ok g') : Passes gate req req (some g')
  | begin {g g' : PlanGate} {b : FileBegin} (now : gate = some g) (decoded : decodeFileBegin req = .ok b)
    (checked : g.checkBegin b = .ok g') : Passes gate req req (some g')
  | chunk (op : req.head? = some msgFileChunk) : Passes gate req req gate
  | finish {g g' : PlanGate} {f : FileEnd} (now : gate = some g) (decoded : decodeFileEnd req = .ok f)
    (checked : g.checkEnd f = .ok g') : Passes gate req req (some g')
  | commit {g : PlanGate} (now : gate = some g) (op : req.head? = some msgCommit)
    (checked : g.checkCommit = .ok ()) : Passes gate req req none
  | abort (op : req.head? = some msgIPCAbort) : Passes gate req req none

section runs

variable {out : Outside} {once : Bool} {gate : Option PlanGate} {req : Bytes}

variable {after : Except Fault Bytes → Answered} {mid : Option PlanGate} {sent : Bytes}

/-- A gate that moves on only when the answer lets it. -/
theorem passing_up {payload : Bytes} {next : Option PlanGate}
    (is : passing out gate payload d = .pass mid sent after) (later : ∀ resp, (d resp).gate = next) :
    sent = payload ∧ ∀ answer, (after answer).up = true → (after answer).gate = next := by
  cases is
  refine ⟨rfl,fun answer up => ?_⟩
  cases answer with
  | error e => cases up
  | ok resp => exact later resp

theorem moveChecked_pass {decoded : Except Fault α} {check : Option PlanGate → α → Except Fault PlanGate}
    (is : moveChecked out once gate decoded check req = .pass mid sent after) :
    ∃ m g, decoded = .ok m ∧ check gate m = .ok g ∧ sent = req ∧
      ∀ answer, (after answer).up = true → (after answer).gate = some g := by
  unfold moveChecked at is
  cases decoded with
  | error e => cases is
  | ok m =>
    cases checked : check gate m with
    | error e =>
      simp only [checked] at is
      cases is
    | ok g =>
      simp only [checked] at is
      exact ⟨m,g,rfl,checked,passing_up is fun _ => rfl⟩

theorem gated_ok {check : PlanGate → Except Fault α} {a : α} (h : gated gate check = .ok a) :
    ∃ g, gate = some g ∧ check g = .ok a := by
  cases gate with
  | none => cases h
  | some g => exact ⟨g,rfl,h⟩

theorem gatedEnd_ok {g' : PlanGate} (h : gatedEnd gate f = .ok g') : ∃ g, gate = some g ∧ g.checkEnd f = .ok g' := by
  cases gate with
  | none => cases h
  | some g => exact ⟨g,rfl,h⟩

theorem planMove_pass (is : planMove out once gate req = .pass mid sent after) :
    ∃ next, Passes gate req sent next ∧ ∀ answer, (after answer).up = true → (after answer).gate = next := by
  cases req with
  | nil => cases is
  | cons op rest =>
    simp only [planMove] at is
    split_ifs at is with manifest file start chunk finish commit abort
    · unfold moveManifest at is
      cases authorized : authorizeManifest (op :: rest) with
      | error e =>
        simp only [authorized] at is
        cases is
      | ok a =>
        simp only [authorized] at is
        obtain ⟨rfl,later⟩ := passing_up is fun _ => rfl
        exact ⟨_,.manifest authorized,later⟩
    · obtain ⟨fw,g',decoded,checked,rfl,later⟩ := moveChecked_pass is
      obtain ⟨g,now,checked⟩ := gated_ok checked
      exact ⟨_,.file now decoded checked,later⟩
    · obtain ⟨b,g',decoded,checked,rfl,later⟩ := moveChecked_pass is
      obtain ⟨g,now,checked⟩ := gated_ok checked
      exact ⟨_,.begin now decoded checked,later⟩
    · unfold moveChunk at is
      split at is
      · cases is
      · obtain ⟨rfl,later⟩ := passing_up is fun _ => rfl
        exact ⟨_,.chunk (congrArg some chunk),later⟩
    · obtain ⟨f,g',decoded,checked,rfl,later⟩ := moveChecked_pass is
      obtain ⟨g,now,checked⟩ := gatedEnd_ok checked
      exact ⟨_,.finish now decoded checked,later⟩
    · unfold moveCommit at is
      cases checked : gated gate PlanGate.checkCommit with
      | error e =>
        simp only [checked] at is
        cases is
      | ok _ =>
        simp only [checked] at is
        obtain ⟨rfl,later⟩ := passing_up is fun _ => rfl
        obtain ⟨g,now,checked⟩ := gated_ok checked
        exact ⟨_,.commit now (congrArg some commit) checked,later⟩
    · obtain ⟨rfl,later⟩ := passing_up is fun _ => rfl
      exact ⟨_,.abort (congrArg some abort),later⟩

theorem planMove_answer {done : Answered} (is : planMove out once gate req = .answer done) : done.gate = gate := by
  have refused (e : Fault) (is : refusing out once gate e = .answer done) : done.gate = gate := by
    cases is
    rfl
  have checked {α : Type} {decoded : Except Fault α} {check : Option PlanGate → α → Except Fault PlanGate}
      (is : moveChecked out once gate decoded check req = .answer done) : done.gate = gate := by
    unfold moveChecked at is
    split at is
    · cases is
      rfl
    · split at is
      · exact refused _ is
      · cases is
  cases req with
  | nil =>
    cases is
    rfl
  | cons op rest =>
    simp only [planMove] at is
    split_ifs at is
    · unfold moveManifest at is
      split at is
      · exact refused _ is
      · cases is
    · exact checked is
    · exact checked is
    · unfold moveChunk at is
      split at is
      · cases is
        rfl
      · cases is
    · exact checked is
    · unfold moveCommit at is
      split at is
      · exact refused _ is
      · cases is
    · cases is
    · cases is
      rfl

/-- `g` is the gate of the last manifest in the history. -/
structure Since (history : List Asked) (g : PlanGate) (entries : List Entry) (since : List Asked) : Prop where
  start : ∃ before m, history = before ++ m :: since ∧ decodeManifest m.request = .ok entries
  later : ∀ y ∈ since, y.request.head? ≠ some msgManifest
  files : g.files = entries.filter isFile
  distinct : (g.files.map Entry.rel).Nodup
  named : ∀ e ∈ g.files, e.rel ≠ []
  seen : g.seen.Nodup ∧ g.seen ⊆ g.files.map Entry.rel
  active : g.active = [] ∨ g.active ∈ g.files.map Entry.rel
  clean : Clean entries since → g.active ∉ g.seen ∧
    progress entries since = ⟨if g.active = [] then none else some g.active,g.seen⟩

def Tracks (history : List Asked) : Option PlanGate → Prop
  | none => True
  | some g => ∃ entries since, Since history g entries since

end runs

namespace Since

variable {history since : List Asked} {g g' : PlanGate} {entries : List Entry} {x : Asked}
  (h : Since history g entries since)

include h

theorem name_ne {rel : Bytes} (listed : rel ∈ g.files.map Entry.rel) : rel ≠ [] := by
  obtain ⟨e,he,rfl⟩ := List.mem_map.mp listed
  exact h.named e he

theorem grow : ∃ before m, history ++ [x] = before ++ m :: (since ++ [x]) ∧ decodeManifest m.request = .ok entries := by
  obtain ⟨before,m,split,decoded⟩ := h.start
  exact ⟨before,m,by simp [split],decoded⟩

theorem later_concat (op : x.request.head? ≠ some msgManifest) :
    ∀ y ∈ since ++ [x], y.request.head? ≠ some msgManifest := by
  intro y hy
  rcases List.mem_append.mp hy with old | new
  · exact h.later y old
  · rwa [List.mem_singleton.mp new]

theorem file (decoded : decodeFile x.request = .ok fw) (checked : g.checkFile fw = .ok g') :
    Since (history ++ [x]) g' entries (since ++ [x]) := by
  obtain ⟨matched,listed,fresh,rfl⟩ := PlanGate.checkFile_ok h.files checked
  have op := decodeFile_head decoded
  refine ⟨h.grow,h.later_concat (by rw [op]; decide),h.files,h.distinct,h.named,⟨?_,?_⟩,h.active,?_⟩
  · exact h.seen.1.append (List.nodup_singleton _) (by simpa using fresh)
  · exact List.append_subset.mpr ⟨h.seen.2,by simpa using listed⟩
  · intro clean
    obtain ⟨idle,now⟩ := h.clean clean.shorter
    have other : g.active ≠ fw.rel := by
      intro same
      have begun := clean.whole decoded
      rw [now,same] at begun
      simp [h.name_ne listed] at begun
    refine ⟨by simp [idle,other],?_⟩
    rw [progress_concat,now,Progress.step,if_pos op,decoded]
    simp [matched,clean.last.file op]

theorem begin {b : FileBegin} (decoded : decodeFileBegin x.request = .ok b)
    (checked : g.checkBegin b = .ok g') : Since (history ++ [x]) g' entries (since ++ [x]) := by
  obtain ⟨matched,listed,fresh,rfl⟩ := PlanGate.checkBegin_ok h.files checked
  have op := decodeFileBegin_head decoded
  refine ⟨h.grow,h.later_concat (by rw [op]; decide),h.files,h.distinct,h.named,h.seen,.inr listed,?_⟩
  intro clean
  obtain ⟨-,now⟩ := h.clean clean.shorter
  refine ⟨fresh,?_⟩
  rw [progress_concat,now,Progress.step,if_neg (by rw [op]; decide),if_pos op,decoded]
  simp [matched,clean.last.begin op,h.name_ne listed]

theorem chunk (op : x.request.head? = some msgFileChunk) : Since (history ++ [x]) g entries (since ++ [x]) := by
  refine ⟨h.grow,h.later_concat (by rw [op]; decide),h.files,h.distinct,h.named,h.seen,h.active,?_⟩
  intro clean
  obtain ⟨idle,now⟩ := h.clean clean.shorter
  refine ⟨idle,?_⟩
  rw [progress_concat,now,Progress.step,if_neg (by rw [op]; decide),if_neg (by rw [op]; decide),
    if_neg (by rw [op]; decide)]

theorem finish (decoded : decodeFileEnd x.request = .ok f) (checked : g.checkEnd f = .ok g') :
    Since (history ++ [x]) g' entries (since ++ [x]) := by
  obtain ⟨matched,active,same,rfl⟩ := PlanGate.checkEnd_ok h.files h.active checked
  have op := decodeFileEnd_head decoded
  have listed : f.rel ∈ g.files.map Entry.rel := same ▸ h.active.resolve_left active
  refine ⟨h.grow,h.later_concat (by rw [op]; decide),h.files,h.distinct,h.named,?_,.inl rfl,?_⟩
  · -- counted once, also if it was sent whole before
    dsimp only
    split
    · exact h.seen
    · next fresh =>
      exact ⟨h.seen.1.append (List.nodup_singleton _) (by simpa using fresh),
        List.append_subset.mpr ⟨h.seen.2,by simpa using listed⟩⟩
  · intro clean
    obtain ⟨idle,now⟩ := h.clean clean.shorter
    have fresh : f.rel ∉ g.seen := same ▸ idle
    refine ⟨?_,?_⟩
    · intro empty
      have subset : g.seen ++ [f.rel] ⊆ g.files.map Entry.rel :=
        List.append_subset.mpr ⟨h.seen.2,by simpa using listed⟩
      rw [if_neg fresh] at empty
      exact h.name_ne (subset empty) rfl
    · rw [progress_concat,now,Progress.step,if_neg (by rw [op]; decide),if_neg (by rw [op]; decide),if_pos op,
        decoded]
      simp [matched,clean.last.finish op,idle,active,same]

theorem complete (checked : g.checkCommit = .ok ()) : Complete history := by
  obtain ⟨idle,all⟩ := PlanGate.checkCommit_ok checked
  obtain ⟨before,m,split,decoded⟩ := h.start
  refine ⟨before,m,since,entries,split,decoded,h.later,fun clean e he file => ?_⟩
  have every : g.seen.Perm (g.files.map Entry.rel) :=
    (List.subperm_of_subset h.seen.1 h.seen.2).perm_of_length_le (by rw [List.length_map,all])
  have listed : e.rel ∈ g.files.map Entry.rel := by
    rw [h.files]
    exact List.mem_map_of_mem (List.mem_filter.mpr ⟨he,by simp [isFile,file]⟩)
  rw [(h.clean clean).2]
  exact List.count_eq_one_of_mem h.seen.1 (every.mem_iff.mpr listed)

end Since

section runs

variable {out : Outside} {once : Bool} {gate next : Option PlanGate} {req sent : Bytes} {history : List Asked}

/-- The manifest that is passed on is the one that came. -/
theorem authorized {a : Authorized} (ok : authorizeManifest req = .ok a) :
    a.canonical = req ∧ ∃ entries, decodeManifest req = .ok entries ∧ PlanGate.collect [] entries = .ok a.gate.files ∧
      a.gate = { files := a.gate.files } := by
  simp only [authorizeManifest,except_bind_ok,Except.ok.injEq] at ok
  obtain ⟨entries,decoded,canonical,encoded,files,collected,rfl⟩ := ok
  exact ⟨decodeManifest_again decoded encoded,entries,decoded,collected,rfl⟩

theorem authorized_since {a : Authorized} {answer : Except Fault Bytes} (ok : authorizeManifest req = .ok a) :
    ∃ entries, Since (history ++ [⟨a.canonical,answer⟩]) a.gate entries [] := by
  obtain ⟨same,entries,decoded,collected,gate⟩ := authorized ok
  obtain ⟨files,distinct,named⟩ := PlanGate.collect_ok collected List.nodup_nil nofun
  rw [gate]
  refine ⟨entries,⟨history,_,rfl,same ▸ decoded⟩,nofun,files,distinct,named,
    ⟨List.nodup_nil,List.nil_subset _⟩,.inl rfl,fun _ => ⟨List.not_mem_nil,rfl⟩⟩

theorem Passes.tracks (tracks : Tracks history gate) (passes : Passes gate req sent next)
    (answer : Except Fault Bytes) : Tracks (history ++ [⟨sent,answer⟩]) next := by
  cases passes with
  | manifest authorized =>
    obtain ⟨entries,since⟩ := authorized_since authorized
    exact ⟨entries,[],since⟩
  | file now decoded checked =>
    subst now
    obtain ⟨entries,since,h⟩ := tracks
    exact ⟨entries,_,h.file decoded checked⟩
  | begin now decoded checked =>
    subst now
    obtain ⟨entries,since,h⟩ := tracks
    exact ⟨entries,_,h.begin decoded checked⟩
  | chunk op =>
    cases gate with
    | none => trivial
    | some g =>
      obtain ⟨entries,since,h⟩ := tracks
      exact ⟨entries,_,h.chunk op⟩
  | finish now decoded checked =>
    subst now
    obtain ⟨entries,since,h⟩ := tracks
    exact ⟨entries,_,h.finish decoded checked⟩
  | commit => trivial
  | abort => trivial

theorem Passes.complete (tracks : Tracks history gate) (passes : Passes gate req sent next)
    (commit : sent.head? = some msgCommit) : Complete history := by
  have other {op : UInt8} (is : req.head? = some op) (ne : op ≠ msgCommit)
      (commit : req.head? = some msgCommit) : False := ne (Option.some.inj (is.symm.trans commit))
  cases passes with
  | manifest ok =>
    obtain ⟨same,_,decoded,-⟩ := authorized ok
    rw [same,decodeManifest_head decoded] at commit
    cases commit
  | file now decoded checked => exact (other (decodeFile_head decoded) (by decide) commit).elim
  | begin now decoded checked => exact (other (decodeFileBegin_head decoded) (by decide) commit).elim
  | chunk op => exact (other op (by decide) commit).elim
  | finish now decoded checked => exact (other (decodeFileEnd_head decoded) (by decide) commit).elim
  | commit now op checked =>
    subst now
    obtain ⟨entries,since,h⟩ := tracks
    exact h.complete checked
  | abort op => exact (other op (by decide) commit).elim

/-- By induction on the run, with the history before it. -/
theorem forwarded_complete (run : List Asked) (tracks : Tracks history gate) {pre post : List Asked} {x : Asked}
    (sent : forwarded out once gate run = pre ++ x :: post) (commit : x.request.head? = some msgCommit) :
    Complete (history ++ pre) := by
  induction run generalizing gate history pre with
  | nil => simp [forwarded] at sent
  | cons y rest ih =>
    cases move : planMove out once gate y.request with
    | answer done =>
      simp only [forwarded,move] at sent
      split at sent
      · exact ih (planMove_answer move ▸ tracks) sent
      · simp at sent
    | pass mid payload after =>
      obtain ⟨next,passes,later⟩ := planMove_pass move
      simp only [forwarded,move] at sent
      cases pre with
      | nil =>
        obtain ⟨rfl,-⟩ := List.cons.inj sent
        rw [List.append_nil]
        exact passes.complete tracks commit
      | cons z pre =>
        obtain ⟨rfl,more⟩ := List.cons.inj sent
        split at more
        · next up =>
          rw [later _ up] at more
          have grown := ih (passes.tracks tracks y.answer) more
          simpa using grown
        · simp at more

end runs

/-- Whatever is asked and however it is answered: when the plan role passes a commit on, every file
of the last manifest it passed on has been transferred exactly once, provided the messages about
files since then were answered with success and none of them carried the whole of a file that was
begun and not ended. -/
theorem commit_means_complete (out : Outside) (once : Bool) (run : List Asked) {pre post : List Asked}
    {x : Asked} (sent : forwarded out once none run = pre ++ x :: post)
    (commit : x.request.head? = some msgCommit) :
    ∃ before m since entries, pre = before ++ m :: since ∧ decodeManifest m.request = .ok entries ∧
      (∀ y ∈ since, y.request.head? ≠ some msgManifest) ∧
      (Clean entries since → ∀ e ∈ entries, e.type = .file →
        (progress entries since).done.count e.rel = 1) := by
  have nothing : Tracks [] (none : Option PlanGate) := trivial
  exact forwarded_complete run nothing sent commit

/-! The push of one file of two bytes. -/

def encoded (x : Except Fault Bytes) : Bytes := x.toOption.getD []

def askManifest : Asked := ⟨encoded (encodeManifest sampleTree.entries),.ok encodeManifestOK⟩

def askBegin : Asked := ⟨encoded (encodeFileBegin ⟨ascii "f",0o644,sha256 [1,2],2⟩),.ok (encodeFileAck 0)⟩

def askChunk : Asked := ⟨encoded (encodeFileChunk ⟨0,[1,2]⟩),.ok (encodeFileAck 2)⟩

def askEnd (answer : Bytes) : Asked := ⟨encoded (encodeFileEnd ⟨ascii "f",sha256 [1,2]⟩),.ok answer⟩

def askCommit : Asked := ⟨encodeCommit,.ok okResult⟩

/-- The whole file in one message: name, mode, digest, length and data. -/
def askFile : Asked :=
  ⟨msgFile :: leBytes 2 1 ++ ascii "f" ++ leBytes 4 0o644 ++ (sha256 [1,2]).val ++ leBytes 4 2 ++ [1,2],
    .ok okResult⟩

theorem sample_clean : Clean sampleTree.entries [askBegin,askChunk,askEnd okResult] where
  succeeded := by
    simp only [List.forall_mem_cons]
    refine ⟨⟨?_,?_,?_⟩,⟨?_,?_,?_⟩,⟨?_,?_,?_⟩,nofun⟩ <;> decide +kernel
  apart a x b split fw decoded := by
    have none : ∀ y ∈ [askBegin,askChunk,askEnd okResult], y.request.head? ≠ some msgFile := by decide +kernel
    exact absurd (decodeFile_head decoded) (none x (by simp [split]))

theorem commit_means_complete_sample :
    forwarded sampleOutside false none [askManifest,askBegin,askChunk,askEnd okResult,askCommit] =
      [askManifest,askBegin,askChunk,askEnd okResult,askCommit] ∧
    (progress sampleTree.entries [askBegin,askChunk,askEnd okResult]).done.count (ascii "f") = 1 := by
  have sent : forwarded sampleOutside false none [askManifest,askBegin,askChunk,askEnd okResult,askCommit] =
      [askManifest,askBegin,askChunk,askEnd okResult] ++ askCommit :: [] := by decide +kernel
  refine ⟨sent,?_⟩
  obtain ⟨before,m,since,entries,split,decoded,later,complete⟩ :=
    commit_means_complete sampleOutside false _ sent rfl
  have others : ∀ y ∈ [askBegin,askChunk,askEnd okResult], y.request.head? ≠ some msgManifest := by
    decide +kernel
  have read : decodeManifest askManifest.request = .ok sampleTree.entries := by decide +kernel
  cases before with
  | nil =>
    obtain ⟨rfl,rfl⟩ := List.cons.inj split
    obtain rfl : sampleTree.entries = entries := Except.ok.inj (read.symm.trans decoded)
    exact complete sample_clean ⟨ascii "f",.file,2,0o644,some (sha256 [1,2])⟩ (List.mem_singleton.mpr rfl) rfl
  | cons first before =>
    obtain ⟨-,split⟩ := List.cons.inj split
    exact absurd (decodeManifest_head decoded) (others m (by simp [split]))

/-- A commit is passed on although the apply role refused the file, and again although it was
transferred twice. -/
theorem commit_without_transfer :
    forwarded sampleOutside false none [askManifest,askBegin,askEnd (mustResult false []),askCommit] =
      [askManifest,askBegin,askEnd (mustResult false []),askCommit] ∧
    (progress sampleTree.entries [askBegin,askEnd (mustResult false [])]).done.count (ascii "f") = 0 ∧
    forwarded sampleOutside false none [askManifest,askBegin,askFile,askEnd okResult,askCommit] =
      [askManifest,askBegin,askFile,askEnd okResult,askCommit] ∧
    (progress sampleTree.entries [askBegin,askFile,askEnd okResult]).done.count (ascii "f") = 2 := by
  decide +kernel

/-- Manifests have one encoding, and the plan role passes on the bytes it was sent. -/
theorem manifest_canonical :
    (∀ entries raw, (∀ e ∈ entries, (-2 ^ 63 ≤ e.size ∧ e.size < 2 ^ 63) ∧ e.mode < 2 ^ 32 ∧
        (e.type = .dir → e.digest = none)) →
      encodeManifest entries = .ok raw → decodeManifest raw = .ok entries) ∧
    (∀ raw entries canonical, decodeManifest raw = .ok entries → encodeManifest entries = .ok canonical →
      canonical = raw) ∧
    ∀ out once raw a, authorizeManifest raw = .ok a →
      planManifest out once raw = forward out raw (fun resp => do
        setGate (some a.gate)
        pure resp) := by
  refine ⟨fun entries raw fits written => ?_,fun raw entries canonical => decodeManifest_again,
    fun out once raw a ok => ?_⟩
  · refine decodeManifest_carried (fun e he => ?_) written
    obtain ⟨size,mode,dir⟩ := fits e he
    exact ⟨mode,int64_ofInt size.1 size.2,dir⟩
  · rw [planManifest,ok]
    simp only [(authorized ok).1]

theorem manifest_canonical_sample :
    decodeManifest askManifest.request = .ok sampleTree.entries ∧
    ∃ gate, planManifest sampleOutside false askManifest.request =
      forward sampleOutside askManifest.request (fun resp => do
        setGate (some gate)
        pure resp) := by
  have written : encodeManifest sampleTree.entries = .ok askManifest.request := by decide +kernel
  have fits : ∀ e ∈ sampleTree.entries, (-2 ^ 63 ≤ e.size ∧ e.size < 2 ^ 63) ∧ e.mode < 2 ^ 32 ∧
    (e.type = .dir → e.digest = none) := by decide +kernel
  have read := manifest_canonical.1 _ _ fits written
  have again := manifest_canonical.2.1 _ _ _ read written
  refine ⟨read,{ files := sampleTree.entries },manifest_canonical.2.2 _ _ _ ⟨askManifest.request,_⟩ ?_⟩
  rw [authorizeManifest,read,except_ok_bind,written,except_ok_bind]
  rfl

/-! What reading a manifest costs. The announced number of entries is reserved before the
first entry is read. -/

/-- A slice of entries being filled: what is in it, its capacity, and the slots reserved so far. -/
structure Slots where
  used : List Entry := []
  cap : Nat
  reserved : Nat

section slots

variable (grow : Nat → Nat)

/-- `append`: a full slice moves to a new one, of a capacity that is up to the runtime. -/
def Slots.append (s : Slots) (e : Entry) : Slots :=
  if s.used.length < s.cap then { s with used := s.used ++ [e] }
  else ⟨s.used ++ [e],grow s.cap,s.reserved + grow s.cap⟩

/-- The loop of `decodeManifest`, with the slice as the loop leaves it. -/
def fillEntries : Nat → Bytes → Slots → Slots × Except Fault Bytes
  | 0, rest, s => (s, .ok rest)
  | n + 1, rest, s =>
    match decodeEntry rest with
    | .error e => (s, .error e)
    | .ok e => fillEntries n e.rest (s.append grow e.value)

/-- `decodeManifest`, with the slots it reserves before it returns. -/
def reservingManifest (p : Bytes) : Nat × Except Fault (List Entry) :=
  match demand (5 ≤ p.length ∧ p.head? = some msgManifest) (.fail .protocol "bad manifest") >>= fun _ =>
    takeU32 (p.drop 1) with
  | .error e => (0, .error e)
  | .ok n =>
    let (out, last) := fillEntries grow n.value n.rest { cap := n.value, reserved := n.value }
    (out.reserved, do
      let rest ← last
      demand (rest = []) (.fail .protocol "trailing manifest bytes")
      .ok out.used)

def reservingDestManifest (p : Bytes) : Nat × Except Fault (List Entry) :=
  if p.head? = some msgDestManifest then reservingManifest grow (msgManifest :: p.drop 1)
  else (0, .error (.fail .protocol "bad dest manifest"))

theorem fillEntries_spec {n : Nat} (rest : Bytes) {s : Slots} (room : s.used.length + n ≤ s.cap) :
    (fillEntries grow n rest s).1.reserved = s.reserved ∧
    ((fillEntries grow n rest s).2.map fun last => (⟨(fillEntries grow n rest s).1.used,last⟩ : Taken (List Entry))) =
      (decodeEntries n rest).map fun es => ⟨s.used ++ es.value,es.rest⟩ := by
  induction n generalizing rest s with
  | zero => exact ⟨rfl,by simp [fillEntries,decodeEntries,Except.map]⟩
  | succ n ih =>
    rw [fillEntries,decodeEntries]
    cases decodeEntry rest with
    | error e => exact ⟨rfl,rfl⟩
    | ok e =>
      have free : s.append grow e.value = { s with used := s.used ++ [e.value] } := if_pos (by omega)
      obtain ⟨kept,same⟩ := ih e.rest (s := s.append grow e.value) (by simp [free]; omega)
      refine ⟨kept.trans (by rw [free]),same.trans ?_⟩
      rw [free,except_ok_bind]
      cases decodeEntries n e.rest <;> simp [Except.map,bind,Except.bind]

theorem reservingManifest_spec (p : Bytes) : (reservingManifest grow p).2 = decodeManifest p ∧
    (reservingManifest grow p).1 =
      if 5 ≤ p.length ∧ p.head? = some msgManifest then leNat ((p.drop 1).take 4) else 0 := by
  unfold reservingManifest decodeManifest
  by_cases kind : 5 ≤ p.length ∧ p.head? = some msgManifest
  · have long : 4 ≤ (p.drop 1).length := by rw [List.length_drop]; omega
    have counted : takeU32 (p.drop 1) = .ok ⟨leNat ((p.drop 1).take 4),(p.drop 1).drop 4⟩ := by
      simp only [takeU32,demand,if_pos long,except_ok_bind]
    simp only [demand,if_pos kind,except_ok_bind,counted]
    generalize leNat ((p.drop 1).take 4) = n
    generalize (p.drop 1).drop 4 = rest
    obtain ⟨kept,same⟩ := fillEntries_spec grow rest (s := { cap := n, reserved := n }) (Nat.le_of_eq (Nat.zero_add n))
    generalize fillEntries grow n rest { cap := n, reserved := n } = filled at kept same
    obtain ⟨⟨used,cap,reserved⟩,last⟩ := filled
    refine ⟨?_,kept⟩
    cases read : decodeEntries n rest <;> rw [read] at same <;> cases last <;> cases same <;> rfl
  · simp only [demand,if_neg kind]
    exact ⟨rfl,rfl⟩

/-- A constant suffices, the least is that of five bytes that announce as much as they can. -/
theorem slots_least (kind : UInt8) {reserve : Bytes → Nat}
    (slots : ∀ p, reserve p = if 5 ≤ p.length ∧ p.head? = some kind then leNat ((p.drop 1).take 4) else 0) :
    IsLeast { c | ∀ p : Bytes, reserve p ≤ c * p.length } 858993459 := by
  refine ⟨fun p => ?_,fun c enough => ?_⟩
  · rw [slots]
    split
    · have small := leNat_lt ((p.drop 1).take 4)
      have four : ((p.drop 1).take 4).length ≤ 4 := List.length_take_le ..
      have := Nat.pow_le_pow_right (n := 256) (by decide) four
      omega
    · exact Nat.zero_le _
  · have full := enough [kind,255,255,255,255]
    rw [slots,if_pos ⟨Nat.le_refl 5,rfl⟩] at full
    change 4294967295 ≤ c * 5 at full
    omega

/-- `decodeManifest` and `decodeDestManifest` reserve at most 858993459 slots a byte, and no
smaller constant will do. The runtime's growth of slices has no part in this. -/
theorem manifest_slots_least :
    (∀ p, (reservingManifest grow p).2 = decodeManifest p ∧
      (reservingDestManifest grow p).2 = decodeDestManifest p) ∧
    IsLeast { c | ∀ p : Bytes, (reservingManifest grow p).1 ≤ c * p.length } 858993459 ∧
    IsLeast { c | ∀ p : Bytes, (reservingDestManifest grow p).1 ≤ c * p.length } 858993459 := by
  refine ⟨fun p => ⟨(reservingManifest_spec grow p).1,?_⟩,slots_least _ fun p => (reservingManifest_spec grow p).2,
    slots_least msgDestManifest fun p => ?_⟩
  · unfold reservingDestManifest decodeDestManifest
    by_cases kind : p.head? = some msgDestManifest
    · simp only [demand,if_pos kind,except_ok_bind]
      exact (reservingManifest_spec grow _).1
    · simp only [demand,if_neg kind]
      rfl
  · unfold reservingDestManifest
    cases p with
    | nil => rfl
    | cons t rest =>
      by_cases kind : t = msgDestManifest
      · simp [kind,(reservingManifest_spec grow _).2]
      · simp [kind]

end slots

end Integris.RemoteSync
