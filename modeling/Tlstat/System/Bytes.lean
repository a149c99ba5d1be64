import Mathlib.Algebra.Group.Prod
import Mathlib.Data.UInt
import Tlstat.Bpf.RecvPairs
import Tlstat.System.Mirror

/-! The byte counts of a row, from the calls of the processes. An entry of the kernel's table counts
the calls since it was made, but for those that `recv_ctxs` had no room for, and the rows show such
entries. -/

namespace Tlstat.Bpf
open Base

def Flow.bytes (f : Flow) : UInt64 × UInt64 := (f.tx, f.rx)

/-- The call of `tcp_recvmsg` that each thread is in: its socket, and whether `recv_ctxs` had room for
it. -/
abbrev Calls := UInt64 → Option (UInt64 × Bool)

namespace Calls

/-- A thread enters a call, which `recv_ctxs` takes if it still has the thread's last one or if the
insertion succeeds, and returns from it. -/
def step (i : Calls) (a : Env × Hit) : Calls :=
  match a.2 with
  | .tcpRecvmsg sk _ => Function.update i a.1.pidTgid
      (some (sk, (i a.1.pidTgid).any Prod.snd || a.1.insert))
  | .tcpRecvmsgRet _ => Function.update i a.1.pidTgid none
  | _ => i

/-- The bytes a call hands to the socket `sk` or gets from it; what a call returns that `recv_ctxs` had
no room for is not counted. -/
def moved (sk : UInt64) (i : Calls) (a : Env × Hit) : UInt64 × UInt64 :=
  match a.2 with
  | .tcpSendmsg sk' _ size => if sk' = sk then (size, 0) else 0
  | .tcpRecvmsgRet ret =>
    if i a.1.pidTgid = some (sk, true) ∧ sk ≠ 0 ∧ 0 < ret then (0, Kernel.widen ret) else 0
  | _ => 0

/-- The socket of the call that a thread is in, if `recv_ctxs` had room for it. -/
def known (i : Calls) : UInt64 → Option UInt64 :=
  fun t => (i t).bind fun p => if p.2 then some p.1 else none

variable {i : Calls} {sk t : UInt64}

theorem isSome_known : (i.known t).isSome = (i t).any Prod.snd := by
  unfold known
  rcases i t with - | ⟨sk, - | -⟩ <;> rfl

theorem known_eq_some : i.known t = some sk ↔ i t = some (sk, true) := by
  unfold known
  rcases i t with - | ⟨sk', - | -⟩ <;> simp

theorem known_update (t' : UInt64) (c : Option (UInt64 × Bool)) : Calls.known (Function.update i t' c) t =
    if t' = t then c.bind fun p => if p.2 then some p.1 else none else i.known t := by
  unfold known
  by_cases ht : t' = t
  · rw [if_pos ht, ht, Function.update_self]
  · rw [if_neg ht, Function.update_of_ne (Ne.symm ht)]

end Calls

namespace Kernel
variable {k : Kernel} {sk sk' buf n : UInt64} {env : Env} {f : Flow} {dir : Dir} {count : Flow → Flow}
variable {i : Calls}

/-- The socket of the call that a thread is in, as `recv_ctxs` has it. -/
def callers (k : Kernel) : UInt64 → Option UInt64 := fun t => k.recvCtxs[t]?.map RecvCtx.sk

theorem callers_congr {k' : Kernel} (h : k'.recvCtxs = k.recvCtxs) : k.callers = k'.callers := by
  unfold callers
  rw [h]

/-- The map has the calls that it had room for. -/
theorem known_step (h : i.known = k.callers) (a : Env × Hit) : (i.step a).known = (k.step a).callers := by
  obtain ⟨env, hit⟩ := a
  cases hit with
  | tcpRecvmsg sk iter =>
    funext t
    have hroom : (i env.pidTgid).any Prod.snd = k.recvCtxs[env.pidTgid]?.isSome := by
      rw [← Calls.isSome_known, h]
      unfold callers
      rw [Option.isSome_map]
    have hold : k.recvCtxs[t]?.map RecvCtx.sk = i.known t := (congrFun h t).symm
    change Calls.known (Function.update i env.pidTgid _) t =
      ((env.update k.recvCtxs env.pidTgid _)[t]?).map RecvCtx.sk
    rw [Calls.known_update, update_get, hroom]
    by_cases ht : env.pidTgid = t
    · subst ht
      -- the update replaces the old slot, or takes a new one if there is room
      cases hfit : k.recvCtxs[env.pidTgid]?.isSome || env.insert with
      | true => simp
      | false =>
        have hnone : k.recvCtxs[env.pidTgid]? = none :=
          Option.not_isSome_iff_eq_none.mp (by simp [(Bool.or_eq_false_iff.mp hfit).1])
        simp [hnone]
    · rw [if_neg ht, if_neg fun hc => ht hc.1]
      exact hold.symm
  | tcpRecvmsgRet ret =>
    funext t
    change Calls.known (Function.update i env.pidTgid none) t =
      ((k.krTcpRecvmsg env ret).recvCtxs[t]?).map RecvCtx.sk
    rw [Calls.known_update, krTcpRecvmsg_recvCtxs]
    split_ifs
    · rfl
    · exact congrFun h t
  | tcpSendmsg sk iter size => exact h.trans (callers_congr transfer_recvCtxs)
  | inetSockSetState protocol sk oldstate newstate =>
    exact h.trans (callers_congr (setState_recvCtxs k env sk protocol oldstate newstate))
  | sslWrite ssl buf num => exact h.trans (callers_congr (uSslWrite_recvCtxs))
  | sslReadRet ret => exact h.trans (callers_congr (urSslRead_recvCtxs))
  | sslFree ssl | sslSetFd ssl fd | sslRead ssl buf | deleteFlow sk => exact h

/-! ### The entries -/

theorem elim_bytes (o : Option Flow) : o.elim 0 Flow.bytes = (o.getD {}).bytes := by
  cases o <;> rfl

theorem identify_bytes (env : Env) (sk : UInt64) (f : Flow) : (identify env sk f).bytes = f.bytes := by
  obtain ⟨-, htx, hrx, -⟩ := identify_fields env sk f
  unfold Flow.bytes
  rw [htx, hrx]

theorem transfer_bytes (m : UInt64 × UInt64) (hcount : ∀ f, (count f).bytes = f.bytes + m)
    (h : (k.transfer env sk' count buf n dir).flows[sk]? = some f) :
    f.bytes = (k.flows[sk]?.getD {}).bytes + if sk' = sk then m else 0 := by
  have hfield : ((k.transfer env sk' count buf n dir).flows[sk]?.getD {}).bytes = _ :=
    transfer_field Flow.bytes (· + m) (fun _ _ _ _ => rfl) identify_bytes hcount
  rw [h, Option.getD_some] at hfield
  rw [hfield]
  by_cases hsk : sk' = sk
  · subst hsk
    have hroom : (k.flows[sk']?.isSome || env.insert) = true := by
      rw [transfer_get, if_pos rfl] at h
      unfold flowGet at h
      cases hf : k.flows[sk']? with
      | some f' => rfl
      | none =>
        rw [hf] at h
        cases hins : env.insert with
        | true => rfl
        | false =>
          rw [hins] at h
          cases h
    rw [if_pos ⟨rfl, hroom⟩, if_pos rfl]
  · rw [if_neg fun h => hsk h.1, if_neg hsk]
    exact (add_zero _).symm

/-- A step that leaves the entry alone and moves nothing. -/
theorem bytes_quiet {a : Env × Hit} (hsame : (k.step a).flows[sk]? = k.flows[sk]?)
    (hmoved : i.moved sk a = 0) (h : (k.step a).flows[sk]? = some f) :
    f.bytes = (k.flows[sk]?.getD {}).bytes + i.moved sk a := by
  rw [hmoved, ← hsame, h]
  exact (add_zero _).symm

theorem bytes_krTcpRecvmsg (hi : i.known = k.callers) (ret : Int32)
    (h : (k.step (env, .tcpRecvmsgRet ret)).flows[sk]? = some f) :
    f.bytes = (k.flows[sk]?.getD {}).bytes + i.moved sk (env, .tcpRecvmsgRet ret) := by
  have hmoved : i.moved sk (env, .tcpRecvmsgRet ret) =
      if k.recvCtxs[env.pidTgid]?.map RecvCtx.sk = some sk ∧ sk ≠ 0 ∧ 0 < ret then (0, widen ret)
      else 0 := by
    have hcall : i env.pidTgid = some (sk, true) ↔ k.recvCtxs[env.pidTgid]?.map RecvCtx.sk = some sk := by
      rw [← Calls.known_eq_some, hi]
      rfl
    exact if_congr (and_congr_left fun _ => hcall) rfl rfl
  by_cases hgo : ∃ c, k.recvCtxs[env.pidTgid]? = some c ∧ c.sk ≠ 0 ∧ 0 < ret
  · obtain ⟨c, hslot, hne, hret⟩ := hgo
    change (k.krTcpRecvmsg env ret).flows[sk]? = some f at h
    rw [krTcpRecvmsg_of_slot ret hslot hne, if_pos hret] at h
    have hcount : ∀ f : Flow, ({ f with rx := f.rx + widen ret } : Flow).bytes = f.bytes + (0, widen ret) :=
      fun f => Prod.ext (UInt64.add_zero f.tx).symm rfl
    rw [transfer_bytes (0, widen ret) hcount h, hmoved, hslot, Option.map_some]
    by_cases hsk : c.sk = sk
    · rw [if_pos hsk, if_pos ⟨congrArg some hsk, hsk ▸ hne, hret⟩]
    · rw [if_neg hsk, if_neg fun h => hsk (Option.some.inj h.1)]
  · refine bytes_quiet ?_ (hmoved.trans (if_neg ?_)) h
    · change (k.krTcpRecvmsg env ret).flows[sk]? = _
      unfold krTcpRecvmsg
      cases hslot : k.recvCtxs[env.pidTgid]? with
      | none => rfl
      | some c =>
        dsimp only
        split_ifs with hstop
        · rfl
        · rw [Bool.or_eq_true, not_or, decide_eq_true_iff, decide_eq_true_iff] at hstop
          exact absurd ⟨c, hslot, hstop.2, Int32.not_le.mp hstop.1⟩ hgo
    · rintro ⟨hcall, hne, hret⟩
      obtain ⟨c, hslot, rfl⟩ := Option.map_eq_some_iff.mp hcall
      exact hgo ⟨c, hslot, hne, hret⟩

/-- What an entry has after a step is what it had before, from nothing where there was none, and
what the step moved. -/
theorem bytes_step (hi : i.known = k.callers) (a : Env × Hit) (h : (k.step a).flows[sk]? = some f) :
    f.bytes = k.flows[sk]?.elim 0 Flow.bytes + i.moved sk a := by
  rw [elim_bytes]
  obtain ⟨env, hit⟩ := a
  cases hit with
  | tcpSendmsg sk' iter size =>
    have hcount : ∀ f : Flow, ({ f with tx := f.tx + size } : Flow).bytes = f.bytes + (size, 0) :=
      fun f => Prod.ext rfl (UInt64.add_zero f.rx).symm
    exact transfer_bytes (size, 0) hcount h
  | tcpRecvmsgRet ret => exact bytes_krTcpRecvmsg hi ret h
  | inetSockSetState protocol sk' oldstate newstate =>
    have hfield := setState_field k env sk' protocol oldstate newstate Flow.bytes sk
      (fun _ _ => rfl) fun _ _ => rfl
    change (k.tpInetSockSetState env protocol sk' oldstate newstate).flows[sk]? = some f at h
    rw [h, Option.getD_some] at hfield
    exact hfield.trans (add_zero _).symm
  | deleteFlow sk' =>
    change (k.flows.erase sk')[sk]? = some f at h
    refine bytes_quiet ?_ rfl h
    change (k.flows.erase sk')[sk]? = _
    rw [Table.get_erase] at h ⊢
    split_ifs at h with hsk
    exact if_neg hsk
  | sslWrite ssl buf num => exact bytes_quiet (congrArg (fun t => t[sk]?) uSslWrite_flows) rfl h
  | sslReadRet ret => exact bytes_quiet (congrArg (fun t => t[sk]?) urSslRead_flows) rfl h
  | tcpRecvmsg sk' iter | sslFree ssl | sslSetFd ssl fd | sslRead ssl buf =>
    exact bytes_quiet rfl rfl h

end Kernel
end Tlstat.Bpf

namespace Tlstat.System
open Base Loader Model Tlsparse
variable {x509 : X509} {s : State} {m : Move} {k : UInt64}

/-! ### The whole program -/

def after (i : Bpf.Calls) : Move → Bpf.Calls
  | .hit env h => i.step (env, h)
  | _ => i

def movedBy (k : UInt64) (i : Bpf.Calls) : Move → UInt64 × UInt64
  | .hit env h => i.moved k (env, h)
  | _ => 0

/-- The probes and the poller's `DeleteFlow` are all there is that changes the maps. -/
theorem step_kernel_cases (x509 : X509) (s : State) (m : Move) :
    (∃ env h, m = .hit env h ∧ (step x509 s m).kernel = s.kernel.step (env, h)) ∨
    (∀ env h, m ≠ .hit env h) ∧ ((step x509 s m).kernel = s.kernel ∨
      ∃ sock, (step x509 s m).kernel = s.kernel.deleteFlow sock) := by
  cases m with
  | hit env h => exact .inl ⟨env, h, rfl, rfl⟩
  | read v | takeFlows order perm | applyFlows v | takeStats order perm | applyStats views | skip =>
    refine .inr ⟨by rintro env h ⟨⟩, .inl ?_⟩
    unfold step
    dsimp only
    split <;> rfl
  | deleteFlow =>
    refine .inr ⟨by rintro env h ⟨⟩, ?_⟩
    unfold step
    dsimp only
    split
    · exact .inr ⟨_, rfl⟩
    · exact .inl rfl

theorem after_of_not_hit (h : ∀ env a, m ≠ .hit env a) (i : Bpf.Calls) :
    after i m = i ∧ movedBy k i m = 0 := by
  cases m with
  | hit env a => exact absurd rfl (h env a)
  | read v | takeFlows order perm | applyFlows v | deleteFlow | takeStats order perm
  | applyStats views | skip => exact ⟨rfl, rfl⟩

theorem known_after (x509 : X509) {i : Bpf.Calls} (h : i.known = s.kernel.callers) (m : Move) :
    (after i m).known = (step x509 s m).kernel.callers := by
  rcases step_kernel_cases x509 s m with ⟨env, a, rfl, hkernel⟩ | ⟨hquiet, hkernel⟩
  · rw [hkernel]
    exact Bpf.Kernel.known_step h (env, a)
  · rw [(after_of_not_hit (k := 0) hquiet i).1, h]
    rcases hkernel with hkernel | ⟨sock, hkernel⟩
    · rw [hkernel]
    · rw [hkernel]
      rfl

/-- The program and the calls that are under way, of which `recv_ctxs` has the ones it had room
for. -/
structure Counting where
  calls : Bpf.Calls
  state : State
  known : calls.known = state.kernel.callers

def Counting.step (x509 : X509) (g : Counting) (m : Move) : Counting :=
  ⟨after g.calls m, System.step x509 g.state m, known_after x509 g.known m⟩

theorem bytes_after {g : Counting} {f : Bpf.Flow}
    (h : (g.step x509 m).state.kernel.flows[k]? = some f) :
    f.bytes = g.state.kernel.flows[k]?.elim 0 Bpf.Flow.bytes + movedBy k g.calls m := by
  change (System.step x509 g.state m).kernel.flows[k]? = some f at h
  rcases step_kernel_cases x509 g.state m with ⟨env, a, rfl, hkernel⟩ | ⟨hquiet, hkernel⟩
  · rw [hkernel] at h
    exact Bpf.Kernel.bytes_step g.known (env, a) h
  · have hsame : g.state.kernel.flows[k]? = some f := by
      rcases hkernel with hkernel | ⟨sock, hkernel⟩
      · rw [← h, hkernel]
      · rw [hkernel] at h
        change (g.state.kernel.flows.erase sock)[k]? = some f at h
        rw [Table.get_erase] at h
        split_ifs at h
        exact h
    rw [(after_of_not_hit hquiet _).2, hsame]
    exact (add_zero _).symm

/-- The bytes that the calls on the socket handed over and got while the kernel had one and the same
entry of it, from its making to some moment of the run. -/
def Moved (x509 : X509) (s₀ : State) (moves : List Move) (k : UInt64) (n : UInt64 × UInt64) : Prop :=
  ∃ before since, before ++ since <+: moves ∧
    Lived (step x509) (fun s => s.kernel.flows[k]?) (run x509 s₀ before) since ∧
    n = total after (movedBy k) (before.foldl after fun _ => none) since

theorem moved_of_entry {maxHistory peekBytes : ℤ} {moves pre : List Move} (hpre : pre <+: moves)
    {f : Bpf.Flow} (hf : (run x509 (init maxHistory peekBytes) pre).kernel.flows[k]? = some f) :
    Moved x509 (init maxHistory peekBytes) moves k f.bytes := by
  have hstart : Bpf.Calls.known (fun _ => none) = (init maxHistory peekBytes).kernel.callers := by
    funext t
    exact (congrArg (Option.map Bpf.RecvCtx.sk) (Table.get_empty t)).symm
  -- the entry counts from its making on, and the calls are known from the start of the run
  let g₀ : Counting := ⟨fun _ => none, init maxHistory peekBytes, hstart⟩
  have hstate : ∀ ms : List Move, (ms.foldl (Counting.step x509) g₀).state =
      run x509 (init maxHistory peekBytes) ms :=
    fun ms => (List.foldl_hom Counting.state fun _ _ => rfl).symm
  have hcalls : ∀ ms : List Move, (ms.foldl (Counting.step x509) g₀).calls =
      ms.foldl after fun _ => none := fun ms => (List.foldl_hom Counting.calls fun _ _ => rfl).symm
  rw [← hstate] at hf
  obtain ⟨before, since, rfl, hlived, hbytes⟩ := counted_lived (Counting.step x509)
    (fun g => g.state.kernel.flows[k]?) Bpf.Flow.bytes (fun _ _ _ h => bytes_after h) (Table.get_empty k)
    pre hf
  have hlife : Lived (step x509) (fun s => s.kernel.flows[k]?)
      (before.foldl (Counting.step x509) g₀).state since := hlived.view Counting.state fun _ _ => rfl
  rw [hstate] at hlife
  refine ⟨before, since, hpre, hlife, ?_⟩
  rw [hbytes, ← hcalls]
  exact total_view Counting.calls (fun _ _ => rfl) (movedBy k) _ _

/-- **A row counts the calls.** In every run of the whole program the byte counts of a live row,
unless no snapshot that was applied since the socket last had no row lists it, and of every retired
one, are modulo `2 ^ 64` what the calls of `tcp_sendmsg` on that socket were given and what the calls
of `tcp_recvmsg` on it returned, each once, from the moment the kernel made an entry of the socket to
one moment of the run up to which it kept it. The calls of `tcp_recvmsg` that `recv_ctxs` had no room
for when they began are the only ones left out. -/
theorem rows_count_calls (x509 : X509) (maxHistory peekBytes : ℤ) (moves : List Move) :
    (∀ (k : UInt64) c, (run x509 (init maxHistory peekBytes) moves).store.conns[k]? = some c →
      Unlisted x509 (init maxHistory peekBytes) moves k ∧ c.report = {} ∨
      Moved x509 (init maxHistory peekBytes) moves k (c.txBytes, c.rxBytes)) ∧
    ∀ c ∈ (run x509 (init maxHistory peekBytes) moves).store.log,
      Moved x509 (init maxHistory peekBytes) moves c.sock (c.txBytes, c.rxBytes) := by
  have hmoved : ∀ {k : UInt64} {c : Conn}, (Showed x509 (init maxHistory peekBytes) moves k fun f =>
      c.core.report = reportOf (flowOf (k, f))) →
      Moved x509 (init maxHistory peekBytes) moves k (c.txBytes, c.rxBytes) := by
    rintro k c ⟨pre, hpre, f, hf, hr⟩
    have htx : c.txBytes = f.tx := congrArg Report.txBytes hr
    have hrx : c.rxBytes = f.rx := congrArg Report.rxBytes hr
    rw [htx, hrx]
    exact moved_of_entry hpre hf
  refine ⟨fun k c hc => ?_, fun c hc => ?_⟩
  · exact ((reporting_showed x509 maxHistory peekBytes moves k).live c.core
      (Store.socket_live hc)).imp id hmoved
  · exact hmoved ((reporting_showed x509 maxHistory peekBytes moves c.sock).past c.core
      (Store.mem_socket_past hc)).1

end Tlstat.System
