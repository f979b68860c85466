import Integris.IpcChannel
import Mathlib.Data.List.Sort

/-! Launch plans of `internal/supervisor`, the IPC graph of a plan, and the in-process
fabric that opens two authenticated channel ends for every pair of peers. -/
namespace Integris.Supervisor

open Prog Crypto Ipc Authority
open ProcessRole (nobody)

structure ChildSpec where
  role : ProcessRole
  confer : List Capability
  ipcPeers : List ProcessRole
  deriving DecidableEq

structure Plan where
  children : List ChildSpec

/-- `sort.Slice` on names. -/
def sortBy (key : α → Bytes) (l : List α) : List α := l.insertionSort fun a b => key a ≤ key b

theorem mem_sortBy {key : α → Bytes} {l : List α} {a : α} : a ∈ sortBy key l ↔ a ∈ l := List.mem_insertionSort _

theorem sortBy_perm (key : α → Bytes) (l : List α) : (sortBy key l).Perm l := List.perm_insertionSort _ l

/-- The checks of one child in `BuildPlan`. -/
def checkChild (seen : List ProcessRole) (c : ChildSpec) : Except Failure Unit := do
  check (c.role ≠ nobody) "role" "empty child role"
  check (c.role ∉ seen) "duplicate" ("duplicate role " ++ text c.role.name)
  check (c.confer ≠ []) "confer" (text c.role.name ++ ": empty capability grant")
  (deniedProbe c.role c.confer).mapError fun e => ⟨"denied", e.text⟩
  each c.confer fun cap => do
    let ok ← allows c.role cap
    check ok "denied" (text c.role.name ++ " cannot hold " ++ text cap.name)
  each c.ipcPeers fun peer => do
    check (peer ≠ c.role) "ipc" "IPC peer cannot be self"
    check (peer ≠ nobody) "ipc" "empty IPC peer"

def checkChildren : List ProcessRole → List ChildSpec → Except Failure (List ChildSpec)
  | _, [] => .ok []
  | seen, c :: rest => do
    checkChild seen c
    let more ← checkChildren (c.role :: seen) rest
    .ok (⟨c.role, sortBy Capability.name c.confer, sortBy ProcessRole.name c.ipcPeers⟩ :: more)

def buildPlan (children : List ChildSpec) : Except Failure Plan := do
  check (children ≠ []) "empty" "no children"
  let out ← checkChildren [] children
  .ok ⟨sortBy (·.role.name) out⟩

/-- What `BuildPlan` leaves true of a child. -/
structure ChildSpec.Sound (c : ChildSpec) : Prop where
  listed : c.role.listed
  granted : deniedProbe c.role c.confer = .ok ()
  others : ∀ peer ∈ c.ipcPeers, peer ≠ c.role

variable {c : ChildSpec} {seen : List ProcessRole} {p : Plan}

theorem checkChild_ok (passed : checkChild seen c = .ok ()) : c.role ∉ seen ∧ c.Sound := by
  simp only [checkChild,except_unit_bind_ok,each_ok,check,demand_ok,except_mapError_ok] at passed
  obtain ⟨-,fresh,some_,granted,allowed,peers⟩ := passed
  refine ⟨fresh,?_,granted,fun peer member => (peers peer member).1⟩
  obtain ⟨cap,member⟩ := List.exists_mem_of_ne_nil _ some_
  obtain ⟨ok,known,-⟩ := except_bind_ok.mp (allowed cap member)
  exact allows_listed known

theorem checkChildren_ok {children out : List ChildSpec} (passed : checkChildren seen children = .ok out) :
    (out.map ChildSpec.role).Nodup ∧ ∀ c ∈ out, c.role ∉ seen ∧ c.Sound := by
  induction children generalizing seen out with
  | nil => cases passed; simp
  | cons c rest ih =>
    simp only [checkChildren,except_bind_ok] at passed
    obtain ⟨_,head,more,tail,made⟩ := passed
    cases made
    obtain ⟨fresh,sound⟩ := checkChild_ok head
    obtain ⟨distinct,every⟩ := ih tail
    constructor
    · rw [List.map_cons,List.nodup_cons]
      refine ⟨fun member => ?_,distinct⟩
      obtain ⟨d,inside,same⟩ := List.mem_map.mp member
      exact (every d inside).1 (by simp [same])
    · intro d member
      rcases List.mem_cons.mp member with rfl | inside
      · refine ⟨fresh,sound.listed,?_,fun peer inside => sound.others peer (mem_sortBy.mp inside)⟩
        rw [deniedProbe,each_ok]
        intro cap inside
        exact each_ok.mp sound.granted cap (mem_sortBy.mp inside)
      · exact ⟨fun h => (every d inside).1 (by simp [h]),(every d inside).2⟩

/-- What `BuildPlan` leaves true of a plan. -/
structure Plan.Built (p : Plan) : Prop where
  distinct : (p.children.map ChildSpec.role).Nodup
  sound : ∀ c ∈ p.children, c.Sound

theorem buildPlan_built {children : List ChildSpec} (built : buildPlan children = .ok p) : p.Built := by
  simp only [buildPlan,except_bind_ok] at built
  obtain ⟨_,-,out,passed,made⟩ := built
  cases made
  obtain ⟨distinct,every⟩ := checkChildren_ok passed
  refine ⟨?_,fun c member => (every c (mem_sortBy.mp member)).2⟩
  exact ((sortBy_perm _ out).map _).nodup_iff.mpr distinct

/-- Authority is divided: two authorities of a plan are with one child exactly if one entry of
the inventory may hold both. -/
theorem capabilities_divided {children : List ChildSpec} (built : buildPlan children = .ok p) {d : ChildSpec}
    (first : c ∈ p.children) (second : d ∈ p.children) {cap cap' : Capability} (left : cap ∈ c.confer)
    (right : cap' ∈ d.confer) : c = d ↔ ∃ e ∈ inventory, cap ∈ e.mayHold ∧ cap' ∈ e.mayHold := by
  have divided : ∀ e ∈ inventory, ∀ g ∈ inventory, ∀ cap ∈ e.mayHold, cap ∈ g.mayHold → e.role = g.role := by decide
  have roles : (inventory.map Entry.role).Nodup := by decide
  obtain ⟨distinct,sound⟩ := buildPlan_built built
  obtain ⟨e,listed,mine,may⟩ := granted_entry (sound c first).granted left
  obtain ⟨g,also,yours,might⟩ := granted_entry (sound d second).granted right
  constructor
  · rintro rfl
    have same := List.inj_on_of_nodup_map roles listed also (mine.trans yours.symm)
    exact ⟨e,listed,may,same ▸ might⟩
  · rintro ⟨i,here,one,other⟩
    have same : e.role = g.role := (divided e listed i here cap may one).trans (divided i here g also cap' other might)
    exact List.inj_on_of_nodup_map distinct first second (by rw [← mine,same,yours])

/-- The network role between the parser and the authenticator. -/
def smallPlan : Plan := ⟨[
  ⟨.auth, [.authorizationPolicy, .identityHandle], [.net]⟩,
  ⟨.net, [.networkSockets], [.auth, .parser]⟩,
  ⟨.parser, [.boundedMessageIPC], [.net]⟩]⟩

theorem smallPlan_built : buildPlan [⟨.net,[.networkSockets],[.parser,.auth]⟩,⟨.parser,[.boundedMessageIPC],[.net]⟩,
    ⟨.auth,[.identityHandle,.authorizationPolicy],[.net]⟩] = .ok smallPlan := by rfl

theorem capabilities_divided_small : (⟨.net,[.networkSockets],[.auth,.parser]⟩ : ChildSpec) =
      ⟨.parser,[.boundedMessageIPC],[.net]⟩ ↔
    ∃ e ∈ inventory, Capability.networkSockets ∈ e.mayHold ∧ Capability.boundedMessageIPC ∈ e.mayHold :=
  capabilities_divided smallPlan_built (by decide) (by decide) (by decide) (by decide)

example : ∀ e ∈ inventory,
    [Capability.networkSockets,.archiveRoots,.journalDescriptor].countP (· ∈ e.mayHold) ≤ 1 := by decide

namespace Plan

/-- The last child of a role, as the lookup table keeps it. -/
def byRole (p : Plan) (role : ProcessRole) : Option ChildSpec :=
  p.children.reverse.find? (·.role = role)

def validateIPCGraph (p : Plan) : Except Failure Unit :=
  each p.children fun c => each c.ipcPeers fun peer =>
    match p.byRole peer with
    | none => .error ⟨"ipc", text c.role.name ++ " peers missing role " ++ text peer.name⟩
    | some other => check (c.role ∈ other.ipcPeers) "ipc"
        (text c.role.name ++ "→" ++ text peer.name ++ " is not mutual")

/-- `a` may talk to `b`. -/
def Edge (p : Plan) (a b : ProcessRole) : Prop := ∃ c ∈ p.children, c.role = a ∧ b ∈ c.ipcPeers

theorem byRole_some {role : ProcessRole} (found : p.byRole role = some c) : c ∈ p.children ∧ c.role = role :=
  ⟨by simpa using List.mem_of_find?_eq_some found,by simpa using List.find?_some found⟩

variable {a b : ProcessRole}

theorem edge_symm (valid : p.validateIPCGraph = .ok ()) (edge : p.Edge a b) : p.Edge b a := by
  obtain ⟨c,member,rfl,peer⟩ := edge
  have mutual_ := each_ok.mp (each_ok.mp valid c member) b peer
  split at mutual_
  · cases mutual_
  · rename_i other found
    obtain ⟨inside,role⟩ := byRole_some found
    exact ⟨other,inside,role,demand_ok.mp mutual_⟩

theorem Built.edge (built : p.Built) (edge : p.Edge a b) : a.listed ∧ b ≠ a := by
  obtain ⟨c,member,rfl,peer⟩ := edge
  have sound := built.sound c member
  exact ⟨sound.listed,sound.others b peer⟩

def edges (p : Plan) : List (ProcessRole × ProcessRole) :=
  p.children.flatMap fun c => c.ipcPeers.map (c.role, ·)

theorem mem_edges : (a,b) ∈ p.edges ↔ p.Edge a b := by
  simp only [edges,Edge,List.mem_flatMap,List.mem_map,Prod.mk.injEq]
  constructor
  · rintro ⟨c,member,peer,inside,rfl,rfl⟩
    exact ⟨c,member,rfl,inside⟩
  · rintro ⟨c,member,rfl,inside⟩
    exact ⟨c,member,b,inside,rfl,rfl⟩

end Plan

end Integris.Supervisor
