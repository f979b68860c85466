import Integris.Supervisor
import Mathlib.Data.List.Dedup
import Mathlib.Logic.Function.Basic

/-! The in-process fabric of a plan: two authenticated channel ends for every pair of
peers, and the delivery of a frame from one end to the other. -/
namespace Integris.Supervisor

open Prog Crypto Ipc
open ProcessRole (nobody)

/-- An unordered pair of roles, the lower name first. -/
structure PairKey where
  lo : ProcessRole
  hi : ProcessRole
  deriving DecidableEq

def makePair (a b : ProcessRole) : Except Failure PairKey := do
  check (¬(a = nobody ∨ b = nobody ∨ a = b)) "pair" "invalid peer pair"
  .ok (if a.name < b.name then ⟨a, b⟩ else ⟨b, a⟩)

/-- One direction of an authenticated channel. -/
structure Endpoint where
  localRole : ProcessRole
  remoteRole : ProcessRole
  deriving DecidableEq

abbrev Ends := Endpoint → Option ChannelState

def Ends.none_ : Ends := fun _ => none

def Ends.set (ends : Ends) (e : Endpoint) (ch : ChannelState) : Ends :=
  Function.update ends e (some ch)

structure Fabric where
  plan : Plan
  nonce : Fixed 16
  channels : Ends

def PairKey.before (a b : PairKey) : Prop :=
  a.lo.name < b.lo.name ∨ a.lo.name = b.lo.name ∧ a.hi.name ≤ b.hi.name

instance : DecidableRel PairKey.before := fun _ _ => inferInstanceAs (Decidable (_ ∨ _))

/-- Each pair once, in order. -/
def arranged (pairs : List PairKey) : List PairKey := pairs.dedup.insertionSort PairKey.before

variable {pk : PairKey} {r : ProcessRole} {a b : ProcessRole} {rootKey : Bytes}

theorem mem_arranged {pairs : List PairKey} : pk ∈ arranged pairs ↔ pk ∈ pairs := by
  rw [arranged,List.mem_insertionSort,List.mem_dedup]

def openPair (rootKey : Bytes) (f : Fabric) (pk : PairKey) : Except Failure Fabric := do
  let macKey ← (channelMACKey rootKey pk.lo.name pk.hi.name).mapError fun e => ⟨"key", e.text⟩
  let left ← (newAuthenticatedChannel pk.lo pk.hi f.nonce macKey).mapError fun e => ⟨"ipc", e.text⟩
  let right ← (newAuthenticatedChannel pk.hi pk.lo f.nonce macKey).mapError fun e => ⟨"ipc", e.text⟩
  .ok { f with channels := (f.channels.set ⟨pk.lo, pk.hi⟩ left).set ⟨pk.hi, pk.lo⟩ right }

def openFabric (p : Plan) (rootKey : Bytes) (nonce : Fixed 16) : Except Failure Fabric := do
  p.validateIPCGraph
  check (16 ≤ rootKey.length) "key" "root key must be at least 16 bytes"
  let pairs ← p.edges.mapM fun e => makePair e.1 e.2
  (arranged pairs).foldlM (openPair rootKey) ⟨p, nonce, .none_⟩

/-- What a delivery can report. -/
inductive Fault where
  | supervisor (e : Failure)
  | ipc (e : Ipc.Error)

namespace Fabric

abbrev Op := Prog Unit Fabric Fault

def channel (f : Fabric) (localRole remoteRole : ProcessRole) : Except Failure ChannelState :=
  match f.channels ⟨localRole, remoteRole⟩ with
  | some ch => .ok ch
  | none => .error ⟨"missing",
      "no channel " ++ text localRole.name ++ "→" ++ text remoteRole.name⟩

/-- A channel operation through the pointer the fabric holds; `found` is what was last
seen there. -/
def through (e : Endpoint) (found : ChannelState) (m : ChannelState.Op α) : Op α :=
  mapError .ipc (zoom (fun f => (f.channels e).getD found)
    (fun ch f => { f with channels := f.channels.set e ch }) m)

def deliver (sender receiver : ProcessRole) (typ : MessageType) (payload : Bytes) : Op Frame := do
  let f ← get
  let src ← mapError .supervisor (ofExcept (f.channel sender receiver))
  let dst ← mapError .supervisor (ofExcept (f.channel receiver sender))
  let raw ← through ⟨sender, receiver⟩ src (ChannelState.encode typ payload)
  through ⟨receiver, sender⟩ dst (ChannelState.decode raw)

end Fabric

/-- The purpose string of a pair's key, whichever side asks. -/
def macInfo (a b : ProcessRole) : Bytes :=
  let lo := if b.name < a.name then b.name else a.name
  let hi := if b.name < a.name then a.name else b.name
  ascii "integris-ipc-mac-v1" ++ 0 :: lo ++ 0 :: hi

def pairMAC (rootKey : Bytes) (a b : ProcessRole) : Bytes := derived rootKey (macInfo a b)

theorem listed_name (listed : r.listed) : r.name ≠ [] ∧ 0 ∉ r.name := by
  cases r with
  | other => cases listed
  | _ => decide

theorem macInfo_comm (a b : ProcessRole) : macInfo a b = macInfo b a := by
  simp only [macInfo]
  by_cases less : a.name < b.name
  · have back : ¬b.name < a.name := List.lt_asymm less
    simp only [less,back,if_true,if_false]
  · by_cases more : b.name < a.name
    · simp only [less,more,if_true,if_false]
    · have same : a.name = b.name := List.le_antisymm more less
      rw [same]

theorem channelMACKey_pair (long : 16 ≤ rootKey.length) (la : a.listed) (lb : b.listed) (differ : b ≠ a) :
    channelMACKey rootKey a.name b.name = .ok (pairMAC rootKey a b) := by
  have names : a.name ≠ b.name := fun same => differ (ProcessRole.name_injective same).symm
  simp only [channelMACKey,if_neg (Nat.not_lt.mpr long),(listed_name la).1,(listed_name lb).1,
    names,or_self,if_false,deriveKey_ok long,pairMAC,macInfo]

theorem separator_unique {lo hi lo' hi' : Bytes} (h : 0 ∉ lo) (h' : 0 ∉ lo')
    (same : lo ++ 0 :: hi = lo' ++ 0 :: hi') : lo = lo' ∧ hi = hi' := by
  induction lo generalizing lo' with
  | nil =>
    cases lo' with
    | nil => exact ⟨rfl,(List.cons.inj same).2⟩
    | cons x rest => exact absurd (List.cons.inj same).1 fun zero => h' (by simp [zero])
  | cons x rest ih =>
    cases lo' with
    | nil => exact absurd (List.cons.inj same).1 fun zero => h (by simp [zero])
    | cons y rest' =>
      obtain ⟨head,tail⟩ := List.cons.inj same
      have := ih (fun m => h (by simp [m])) (fun m => h' (by simp [m])) tail
      exact ⟨by rw [head,this.1],this.2⟩

/-- Names carry no zero byte, so a purpose string names one pair. -/
theorem macInfo_injective {a b c d : ProcessRole} (la : a.listed) (lb : b.listed) (lc : c.listed)
    (ld : d.listed) (same : macInfo a b = macInfo c d) : a = c ∧ b = d ∨ a = d ∧ b = c := by
  have split {lo hi lo' hi' : Bytes} (h : 0 ∉ lo) (h' : 0 ∉ lo') (eq : ascii "integris-ipc-mac-v1" ++ 0 :: lo ++ 0 :: hi =
        ascii "integris-ipc-mac-v1" ++ 0 :: lo' ++ 0 :: hi') : lo = lo' ∧ hi = hi' := by
    simp only [List.append_assoc,List.cons_append,List.append_cancel_left_eq,List.cons.injEq,true_and] at eq
    exact separator_unique h h' eq
  have za := (listed_name la).2
  have zb := (listed_name lb).2
  have zc := (listed_name lc).2
  have zd := (listed_name ld).2
  simp only [macInfo] at same
  by_cases left : b.name < a.name <;> by_cases right : d.name < c.name <;>
    simp only [left,right,if_true,if_false] at same
  · obtain ⟨lo,hi⟩ := split zb zd same
    exact .inl ⟨ProcessRole.name_injective hi,ProcessRole.name_injective lo⟩
  · obtain ⟨lo,hi⟩ := split zb zc same
    exact .inr ⟨ProcessRole.name_injective hi,ProcessRole.name_injective lo⟩
  · obtain ⟨lo,hi⟩ := split za zd same
    exact .inr ⟨ProcessRole.name_injective lo,ProcessRole.name_injective hi⟩
  · obtain ⟨lo,hi⟩ := split za zc same
    exact .inl ⟨ProcessRole.name_injective lo,ProcessRole.name_injective hi⟩

/-- A new end of the pair. -/
def fresh (rootKey : Bytes) (nonce : Fixed 16) (e : Endpoint) : ChannelState :=
  { newChannel e.localRole e.remoteRole nonce with
    macKey := pairMAC rootKey e.localRole e.remoteRole }

/-- The two directions of a pair. -/
def PairKey.Joins (pk : PairKey) (e : Endpoint) : Prop := e = ⟨pk.lo, pk.hi⟩ ∨ e = ⟨pk.hi, pk.lo⟩

structure PairKey.Sound (pk : PairKey) : Prop where
  lo : pk.lo.listed
  hi : pk.hi.listed
  differ : pk.hi ≠ pk.lo

theorem newAuthenticatedChannel_fresh (rootKey : Bytes) (a b : ProcessRole) (nonce : Fixed 16) :
    newAuthenticatedChannel a b nonce (pairMAC rootKey a b) = .ok (fresh rootKey nonce ⟨a,b⟩) := by
  have long : 16 ≤ (pairMAC rootKey a b).length := by
    rw [pairMAC,derived_length]
    decide
  simp only [newAuthenticatedChannel,demand,if_pos long]
  rfl

theorem openPair_ok (long : 16 ≤ rootKey.length) (sound : pk.Sound) (f : Fabric) : openPair rootKey f pk = .ok { f with
      channels := (f.channels.set ⟨pk.lo,pk.hi⟩ (fresh rootKey f.nonce ⟨pk.lo,pk.hi⟩)).set
        ⟨pk.hi,pk.lo⟩ (fresh rootKey f.nonce ⟨pk.hi,pk.lo⟩) } := by
  have right := newAuthenticatedChannel_fresh rootKey pk.hi pk.lo f.nonce
  rw [pairMAC,macInfo_comm] at right
  simp only [openPair,channelMACKey_pair long sound.lo sound.hi sound.differ,Except.mapError,
    except_ok_bind,newAuthenticatedChannel_fresh rootKey pk.lo pk.hi f.nonce]
  rw [pairMAC,right]
  rfl

theorem openPair_channels (long : 16 ≤ rootKey.length)
    (sound : pk.Sound) (f : Fabric) : ∃ g, openPair rootKey f pk = .ok g ∧ g.plan = f.plan ∧
      g.nonce = f.nonce ∧ (∀ e, pk.Joins e → g.channels e = some (fresh rootKey f.nonce e)) ∧
      ∀ e, ¬pk.Joins e → g.channels e = f.channels e := by
  refine ⟨_,openPair_ok long sound f,rfl,rfl,fun e joins => ?_,fun e apart => ?_⟩
  · have turned : (⟨pk.lo,pk.hi⟩ : Endpoint) ≠ ⟨pk.hi,pk.lo⟩ := by
      intro same
      cases pk
      cases same
      exact sound.differ rfl
    rcases joins with rfl | rfl
    · simp only [Ends.set]
      rw [Function.update_of_ne turned,Function.update_self]
    · simp only [Ends.set,Function.update_self]
  · simp only [PairKey.Joins,not_or] at apart
    simp only [Ends.set]
    rw [Function.update_of_ne apart.2,Function.update_of_ne apart.1]

/-- Every pair in turn: its ends are fresh and the others' are left alone. -/
theorem openPairs_channels (long : 16 ≤ rootKey.length) (pairs : List PairKey)
    (sound : ∀ pk ∈ pairs, pk.Sound) (f : Fabric) : ∃ g,
      pairs.foldlM (openPair rootKey) f = .ok g ∧ g.plan = f.plan ∧ g.nonce = f.nonce ∧
      (∀ e, (∃ pk ∈ pairs, pk.Joins e) → g.channels e = some (fresh rootKey f.nonce e)) ∧
      ∀ e, (¬∃ pk ∈ pairs, pk.Joins e) → g.channels e = f.channels e := by
  induction pairs generalizing f with
  | nil =>
    refine ⟨f,rfl,rfl,rfl,fun e some_ => ?_,fun _ _ => rfl⟩
    obtain ⟨_,member,-⟩ := some_
    exact absurd member List.not_mem_nil
  | cons pk rest ih =>
    obtain ⟨g,opened,plan,nonce,joined,apart⟩ := openPair_channels long (sound pk (by simp)) f
    obtain ⟨h,more,plan',nonce',joined',apart'⟩ := ih (fun q m => sound q (by simp [m])) g
    refine ⟨h,?_,plan'.trans plan,nonce'.trans nonce,fun e some_ => ?_,fun e none_ => ?_⟩
    · rw [List.foldlM_cons,opened]
      exact more
    · by_cases later : ∃ q ∈ rest, q.Joins e
      · rw [joined' e later,nonce]
      · obtain ⟨q,member,joins⟩ := some_
        rcases List.mem_cons.mp member with rfl | inside
        · rw [apart' e later,joined e joins]
        · exact absurd ⟨q,inside,joins⟩ later
    · rw [apart' e fun ⟨q,m,j⟩ => none_ ⟨q,by simp [m],j⟩,apart e fun j => none_ ⟨pk,by simp,j⟩]

/-- The pair of two peers. -/
def pairOf (a b : ProcessRole) : PairKey := if a.name < b.name then ⟨a, b⟩ else ⟨b, a⟩

theorem pairOf_joins {e : Endpoint} : (pairOf a b).Joins e ↔ e = ⟨a,b⟩ ∨ e = ⟨b,a⟩ := by
  rw [pairOf]
  split
  · rfl
  · rw [PairKey.Joins,or_comm]

theorem listed_ne_nobody (listed : r.listed) : r ≠ nobody := by
  rintro rfl
  cases listed

theorem makePair_ok (la : a.listed) (lb : b.listed) (differ : b ≠ a) :
    makePair a b = .ok (pairOf a b) ∧ (pairOf a b).Sound := by
  constructor
  · have good : ¬(a = nobody ∨ b = nobody ∨ a = b) := by
      simp only [listed_ne_nobody la,listed_ne_nobody lb,differ.symm,or_self,not_false_eq_true]
    simp only [makePair,check,demand,if_pos good,except_ok_bind,pairOf]
  · rw [pairOf]
    split
    · exact ⟨la,lb,differ⟩
    · exact ⟨lb,la,differ.symm⟩

/-- The fabric of a sound plan opens, with one fresh end for every directed edge. -/
theorem openFabric_ends {p : Plan} (built : p.Built) (valid : p.validateIPCGraph = .ok ())
    (long : 16 ≤ rootKey.length) (nonce : Fixed 16) : ∃ f,
      openFabric p rootKey nonce = .ok f ∧ f.plan = p ∧ f.nonce = nonce ∧
      (∀ a b, p.Edge a b → f.channels ⟨a,b⟩ = some (fresh rootKey nonce ⟨a,b⟩)) ∧
      ∀ a b, ¬p.Edge a b → f.channels ⟨a,b⟩ = none := by
  have proper (e) (member : e ∈ p.edges) : makePair e.1 e.2 = .ok (pairOf e.1 e.2) ∧ (pairOf e.1 e.2).Sound := by
    have edge : p.Edge e.1 e.2 := Plan.mem_edges.mp member
    exact makePair_ok (built.edge edge).1 (built.edge (Plan.edge_symm valid edge)).1 (built.edge edge).2
  have made := mapM_total (f := fun e => makePair e.1 e.2) fun e m => (proper e m).1
  generalize pairs_eq : p.edges.map (fun e => pairOf e.1 e.2) = pairs at made
  have joins (a b) : (∃ pk ∈ arranged pairs, pk.Joins ⟨a,b⟩) ↔ p.Edge a b := by
    simp only [mem_arranged,← pairs_eq,List.mem_map]
    constructor
    · rintro ⟨_,⟨⟨c,d⟩,member,rfl⟩,joins⟩
      have edge := Plan.mem_edges.mp member
      rcases pairOf_joins.mp joins with same | same <;> cases same
      · exact edge
      · exact Plan.edge_symm valid edge
    · intro edge
      exact ⟨_,⟨(a,b),Plan.mem_edges.mpr edge,rfl⟩,pairOf_joins.mpr (.inl rfl)⟩
  have sound (pk) (member : pk ∈ arranged pairs) : pk.Sound := by
    rw [mem_arranged,← pairs_eq] at member
    obtain ⟨e,inside,rfl⟩ := List.mem_map.mp member
    exact (proper e inside).2
  obtain ⟨f,opened,plan,same,joined,apart⟩ := openPairs_channels long _ sound ⟨p,nonce,.none_⟩
  refine ⟨f,?_,plan,same,fun a b edge => joined _ ((joins a b).mpr edge),
    fun a b none_ => apart _ (none_ ∘ (joins a b).mp)⟩
  simp only [openFabric,valid,except_ok_bind,check,demand,if_pos long,made]
  exact opened

end Integris.Supervisor
