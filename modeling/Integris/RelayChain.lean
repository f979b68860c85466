import Integris.PlanRole
import Integris.RelayForwarding

/-! A push through the parser, plan and apply roles: what a peer can slip past the network role,
the plan role stops. -/
namespace Integris.RemoteSync

open Posix LocalSync Prog Ipc

variable {out : Outside} {once : Bool} {host : Host} {hop : Hop}

theorem Passes.op (passes : Passes gate req sent next) : sent.head? ≠ some msgDestManifest := by
  cases passes with
  | manifest ok =>
    obtain ⟨same,_,decoded,-⟩ := authorized ok
    rw [same,(demand_bind_ok.mp decoded).1.2]
    decide
  | file _ decoded => rw [decodeFile_head decoded]; decide
  | begin _ decoded => rw [decodeFileBegin_head decoded]; decide
  | finish _ decoded => rw [decodeFileEnd_head decoded]; decide
  | chunk op | commit _ op | abort op => rw [op]; decide

section chain

/-! What concerns the apply role and its channel, and survives the plan role's calls, survives a push. -/

variable {I : Roles → Prop}
  (only : ∀ {r t : Roles}, t.apply = r.apply → t.wire .apply = r.wire .apply → I r → I t)
  (passes : ∀ {payload : Bytes}, payload.head? ≠ some msgDestManifest → Keeps host I (toApply out payload))

include only

theorem keeps_upper {serve : Bytes → RP Bytes} (upper : .apply ≠ hop) (leaves : lost out hop = quit hop)
    (quits : Keeps host I (quit hop)) (serves : ∀ req, Keeps host I (serve req)) (payload : Bytes) :
    Keeps host I (request out hop serve payload) := by
  have wires (r : Roles) (w : Wire) : I r → I (r.setWire hop w) := only rfl (r.setWire_other upper w)
  exact keeps_request (fun _ => Keeps.zoom _ fun _ _ => wires _ _) (fun _ => Keeps.zoom _ fun _ _ => wires _ _)
    quits (leaves ▸ quits) serves payload

include passes

theorem keeps_planRequest (req : Bytes) : Keeps host I (planRequest out once req) := by
  have sets (gate) : Keeps host I (setGate gate) := Keeps.modify fun _ => only rfl rfl
  have settles (done : Answered) : Keeps host I done.settle := by
    refine (sets _).bind fun _ => ?_
    split
    · exact Keeps.pure _
    · exact Keeps.bind (Keeps.modify fun _ => only rfl rfl) fun _ => Keeps.pure _
  intro r holds
  rw [wp,planRequest_performs]
  cases move : planMove out once r.gate req with
  | answer done => exact settles done r holds
  | pass gate payload after =>
    obtain ⟨_,known,-⟩ := planMove_pass move
    exact (sets gate).bind (fun _ => (passes known.op).attempt.bind fun _ => settles _) r holds

theorem keeps_parserRequest (req : Bytes) : Keeps host I (parserRequest out once req) := by
  have leaves (resp : Bytes) : Keeps host I (parserLeaves resp) :=
    Keeps.bind (Keeps.modify fun _ => only rfl rfl) fun _ => Keeps.pure _
  have asks : ∀ req, Keeps host I (request out .plan (planRequest out once) req) :=
    keeps_upper only (by decide) rfl (Keeps.modify fun _ => only rfl rfl) (keeps_planRequest only passes)
  unfold parserRequest
  split
  · split
    · exact leaves _
    · exact Keeps.pure _
  · refine (asks req).attempt.bind fun x => ?_
    cases x with
    | error e => exact leaves _
    | ok resp =>
      unfold parserResponse bundle
      split_ifs
      · cases decodeManifest req with
        | error e => exact leaves _
        | ok entries => exact Keeps.pure _
      · exact leaves _
      · exact Keeps.pure _

theorem keeps_viaParserIPC : Keeps host I (viaParserIPC out once) := by
  have talks {α : Type} (m : CP α) : Keeps host I (onSession m) := Keeps.zoom m fun _ _ => only rfl rfl
  have calls : ∀ p, Keeps host I (toParser out once p) :=
    keeps_upper only (by decide) rfl (Keeps.modify fun _ => only rfl rfl) (keeps_parserRequest only passes)
  exact Keeps.bind ((talks _).bind fun _ => (Keeps.require _).bind fun _ => Keeps.pure _) fun raw =>
    (calls raw).bind fun _ => Keeps.ofExcept_bind fun _ _ => (talks _).bind fun _ =>
      (keeps_relayFiles talks calls _).bind fun _ => keeps_relayCommit talks calls

end chain

/-- Whatever the peer says, the apply role has no index after a push that it did not have before. -/
theorem chain_guards_index (out : Outside) (once : Bool) (host : Host) (r : Roles)
    (step : (r.wire .apply).InStep) :
    (viaParserIPC out once host r).2.apply.NoNewIndex r.apply.destMan := by
  have only {r t : Roles} {held} (apply : t.apply = r.apply) (wire : t.wire .apply = r.wire .apply)
      (h : r.Guarded held) : t.Guarded held :=
    ⟨apply ▸ h.index,by rw [Roles.Framed,wire]; exact h.framed⟩
  exact (keeps_viaParserIPC only guarded_toApply r ⟨.inl rfl,step.framed⟩).reached.index

/-- The peer whose index the apply role takes without the plan role. -/
theorem chain_guards_index_sample : (viaParserIPC sampleOutside false quietHost
    (sampleRoles.accept (intruder forgedIndex))).2.apply.destMan = none :=
  (chain_guards_index sampleOutside false quietHost (sampleRoles.accept (intruder forgedIndex))
    (plainWire_inStep rfl rfl)).elim id id

end Integris.RemoteSync
