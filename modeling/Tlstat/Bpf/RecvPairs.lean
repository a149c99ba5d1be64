import Mathlib.Data.UInt
import Tlstat.Base.Run
import Tlstat.Bpf.FlowReuse

/-! `tcp_recvmsg` entries and returns over any number of threads. A return may go by without its
probe; what the entry recorded then stays behind until the next entry of the thread. -/

namespace Tlstat.Bpf
open Base

inductive Act
  | hit (env : Env) (h : Hit)
  /-- The thread returns from `tcp_recvmsg` and the return probe is not run. -/
  | missed (id : UInt64)

/-- The kernel, the call each thread is inside with what its entry was given, and for each socket
the positive lengths its probed calls returned, newest first. -/
structure Receiving where
  kernel : Kernel := {}
  inside : UInt64 → Option RecvCtx := fun _ => none
  received : UInt64 → List UInt64 := fun _ => []

namespace Receiving

def setInside (id : UInt64) (c : Option RecvCtx) (s : Receiving) : Receiving :=
  { s with inside := fun id' => if id' = id then c else s.inside id' }

def note (sk n : UInt64) (s : Receiving) : Receiving :=
  { s with received := fun k => if k = sk then n :: s.received k else s.received k }

/-- What the hit means for the calls. -/
def record (s : Receiving) (env : Env) : Hit → Receiving
  | .tcpRecvmsg sk iter => s.setInside env.pidTgid (some ⟨sk, iterBase iter⟩)
  | .tcpRecvmsgRet ret =>
    match s.inside env.pidTgid with
    | some c =>
      (if ret > 0 then s.note c.sk (Kernel.widen ret) else s).setInside env.pidTgid none
    | none => s
  | _ => s

def step (s : Receiving) : Act → Receiving
  | .hit env h => { s.record env h with kernel := s.kernel.step (env, h) }
  | .missed id => s.setInside id none

/-- Threads alternate between entry and return, sockets are not NULL, map updates succeed and no
entry is deleted. -/
def Legal (s : Receiving) : Act → Prop
  | .hit env (.tcpRecvmsg sk _) =>
    env.insert = true ∧ s.inside env.pidTgid = none ∧ sk ≠ 0
  | .hit env (.tcpRecvmsgRet _) => env.insert = true ∧ s.inside env.pidTgid ≠ none
  | .hit _ (.deleteFlow _) => False
  | .hit env _ => env.insert = true
  | .missed id => s.inside id ≠ none

/-- What the entry of a call recorded is there until its return, and the entries of the sockets
have counted what was received. -/
structure Inv (s : Receiving) : Prop where
  slot : ∀ (id : UInt64) c, s.inside id = some c → s.kernel.recvCtxs[id]? = some c ∧ c.sk ≠ 0
  rx : ∀ sk : UInt64, (s.kernel.flows[sk]?.getD {}).rx = (s.received sk).sum

variable {s : Receiving} {k : Kernel} {env : Env} {c : RecvCtx} {sk : UInt64}

theorem identify_rx (env : Env) (sk : UInt64) (f : Flow) : (identify env sk f).rx = f.rx :=
  (Kernel.identify_fields env sk f).2.2.1

theorem sum_note (sk' n : UInt64) : ((s.note sk' n).received sk).sum =
    if sk' = sk then (s.received sk').sum + n else (s.received sk).sum := by
  unfold note
  by_cases h : sk' = sk
  · subst h
    simp [UInt64.add_comm n]
  · simp [h, Ne.symm h]

theorem Inv.frame {t : Receiving} (h : Inv s) (hinside : t.inside = s.inside)
    (hrecv : t.received = s.received) (hctxs : t.kernel.recvCtxs = s.kernel.recvCtxs)
    (hrx : ∀ sk : UInt64, (t.kernel.flows[sk]?.getD {}).rx = (s.kernel.flows[sk]?.getD {}).rx) :
    Inv t := by
  refine ⟨fun id c hc => ?_, fun sk => ?_⟩
  · rw [hctxs]
    exact h.slot id c (hinside ▸ hc)
  · rw [hrx, hrecv]
    exact h.rx sk

theorem Inv.enter (h : Inv s) (iter : IovIter) (hins : env.insert = true) (hsk : sk ≠ 0) :
    Inv (s.step (.hit env (.tcpRecvmsg sk iter))) := by
  refine ⟨fun id c hc => ?_, h.rx⟩
  change (if id = env.pidTgid then some ⟨sk, iterBase iter⟩ else s.inside id) = some c at hc
  change (env.update s.kernel.recvCtxs env.pidTgid _)[id]? = some c ∧ _
  rw [Kernel.update_get, hins, Bool.or_true]
  by_cases hid : id = env.pidTgid
  · rw [if_pos hid] at hc
    obtain rfl := Option.some.inj hc
    rw [if_pos ⟨hid.symm, rfl⟩]
    exact ⟨rfl, hsk⟩
  · rw [if_neg hid] at hc
    rw [if_neg fun h => hid h.1.symm]
    exact h.slot id c hc

theorem Inv.leave (h : Inv s) (ret : Int32) (hins : env.insert = true) (hc : s.inside env.pidTgid = some c) :
    Inv (s.step (.hit env (.tcpRecvmsgRet ret))) := by
  obtain ⟨hslot, hsk⟩ := h.slot env.pidTgid c hc
  let k : Kernel := { s.kernel with recvCtxs := s.kernel.recvCtxs.erase env.pidTgid }
  have hstep : (s.step (.hit env (.tcpRecvmsgRet ret))).kernel = if ret > 0 then
      k.transfer env c.sk (fun f => { f with rx := f.rx + Kernel.widen ret }) c.base
        (Kernel.widen ret) .inward else k := Kernel.krTcpRecvmsg_of_slot ret hslot hsk
  have hctxs : (s.step (.hit env (.tcpRecvmsgRet ret))).kernel.recvCtxs = k.recvCtxs := by
    rw [hstep]
    split_ifs
    · exact Kernel.transfer_recvCtxs
    · rfl
  have hrecord : s.record env (.tcpRecvmsgRet ret) =
      (if ret > 0 then s.note c.sk (Kernel.widen ret) else s).setInside env.pidTgid none := by
    unfold record
    rw [hc]
  refine ⟨fun id c' hc' => ?_, fun sk => ?_⟩
  · have hinside : (if id = env.pidTgid then none else s.inside id) = some c' := by
      rw [← hc']
      change _ = (s.record env (.tcpRecvmsgRet ret)).inside id
      rw [hrecord]
      by_cases hret : ret > 0
      · rw [if_pos hret]
        rfl
      · rw [if_neg hret]
        rfl
    split_ifs at hinside with hid
    rw [hctxs]
    change (s.kernel.recvCtxs.erase env.pidTgid)[id]? = some c' ∧ _
    rw [Table.get_erase, if_neg (Ne.symm hid)]
    exact h.slot id c' hinside
  · have hsum : ((s.step (.hit env (.tcpRecvmsgRet ret))).received sk).sum =
        ((if ret > 0 then s.note c.sk (Kernel.widen ret) else s).received sk).sum := by
      change ((s.record env (.tcpRecvmsgRet ret)).received sk).sum = _
      rw [hrecord]
      rfl
    rw [hstep, hsum]
    by_cases hret : ret > 0
    · rw [if_pos hret, if_pos hret, sum_note,
        Kernel.transfer_field Flow.rx (· + Kernel.widen ret) (fun _ _ _ _ => rfl) identify_rx
          fun _ => rfl, hins, Bool.or_true]
      change (if c.sk = sk ∧ true = true then (s.kernel.flows[c.sk]?.getD {}).rx + _
        else (s.kernel.flows[sk]?.getD {}).rx) = _
      rw [h.rx, h.rx]
      by_cases hk : c.sk = sk
      · rw [if_pos ⟨hk, rfl⟩, if_pos hk]
      · rw [if_neg fun h => hk h.1, if_neg hk]
    · rw [if_neg hret, if_neg hret]
      exact h.rx sk

theorem Inv.step {a : Act} (h : Inv s) (ha : Legal s a) : Inv (s.step a) := by
  cases a with
  | missed id =>
    refine ⟨fun id' c hc => ?_, h.rx⟩
    change (if id' = id then none else s.inside id') = some c at hc
    split_ifs at hc
    exact h.slot id' c hc
  | hit env hit =>
    cases hit with
    | tcpRecvmsg sk iter => exact h.enter iter ha.1 ha.2.2
    | tcpRecvmsgRet ret =>
      obtain ⟨c, hc⟩ := Option.ne_none_iff_exists'.mp ha.2
      exact h.leave ret ha.1 hc
    | tcpSendmsg sk iter size =>
      refine h.frame rfl rfl Kernel.transfer_recvCtxs fun sk' => ?_
      have hcount : ∀ f : Flow, ({ f with tx := f.tx + size } : Flow).rx = id f.rx :=
        fun _ => rfl
      change ((s.kernel.transfer env sk (fun f => { f with tx := f.tx + size }) (iterBase iter) size
        .out).flows[sk']?.getD {}).rx = _
      rw [Kernel.transfer_field Flow.rx id (fun _ _ _ _ => rfl) identify_rx hcount]
      split_ifs with hsk
      · rw [hsk.1]
        rfl
      · rfl
    | inetSockSetState protocol sk oldstate newstate =>
      exact h.frame rfl rfl (Kernel.setState_recvCtxs _ env sk protocol oldstate newstate) fun sk' =>
        Kernel.setState_field _ env sk protocol oldstate newstate Flow.rx sk'
          (fun _ _ => rfl) fun _ _ => rfl
    | sslWrite ssl buf num =>
      refine h.frame rfl rfl Kernel.uSslWrite_recvCtxs fun sk => ?_
      change ((s.kernel.uSslWrite env ssl buf num).flows[sk]?.getD {}).rx = _
      rw [Kernel.uSslWrite_flows]
    | sslReadRet ret =>
      refine h.frame rfl rfl Kernel.urSslRead_recvCtxs fun sk => ?_
      change ((s.kernel.urSslRead env ret).flows[sk]?.getD {}).rx = _
      rw [Kernel.urSslRead_flows]
    | sslFree | sslSetFd | sslRead => exact h.frame rfl rfl rfl fun _ => rfl
    | deleteFlow sk => exact ha.elim

/-- **Receives are paired with their own call.** In every interleaving, a probed return is the
transfer of what the entry of the same call was given, so what a socket's entry has received is
what its probed calls returned. -/
theorem receives_paired {acts : List Act} (h : Meets step Legal {} acts) :
    (∀ sk : UInt64, ((acts.foldl step {}).kernel.flows[sk]?.getD {}).rx =
      ((acts.foldl step {}).received sk).sum) ∧
    ∀ env ret, Legal (acts.foldl step {}) (.hit env (.tcpRecvmsgRet ret)) →
      ∃ c, (acts.foldl step {}).inside env.pidTgid = some c ∧
        ((acts.foldl step {}).kernel.krTcpRecvmsg env ret =
          let k := (acts.foldl step {}).kernel
          let left : Kernel := { k with recvCtxs := k.recvCtxs.erase env.pidTgid }
          if ret > 0 then
            left.transfer env c.sk (fun f => { f with rx := f.rx + Kernel.widen ret }) c.base
              (Kernel.widen ret) .inward
          else left) ∧
        (ret ≤ 0 → ((acts.foldl step {}).kernel.krTcpRecvmsg env ret).flows =
          (acts.foldl step {}).kernel.flows) ∧
        ((acts.foldl step {}).kernel.krTcpRecvmsg env ret).recvCtxs[env.pidTgid]? = none := by
  have hstart : Inv {} := by
    refine ⟨fun _ _ hc => absurd hc (by simp), fun sk => ?_⟩
    change ((∅ : Table Flow)[sk]?.getD {}).rx = _
    rw [Table.get_empty]
    rfl
  have hinv : Inv (acts.foldl step {}) := (Meets.along (fun _ _ hs ha => hs.step ha) hstart h).last
  refine ⟨hinv.rx, fun env ret hret => ?_⟩
  obtain ⟨c, hc⟩ := Option.ne_none_iff_exists'.mp hret.2
  obtain ⟨hslot, hsk⟩ := hinv.slot env.pidTgid c hc
  have hkr := Kernel.krTcpRecvmsg_of_slot ret hslot hsk
  refine ⟨c, hc, hkr, fun hneg => ?_, ?_⟩
  · rw [hkr, if_neg (Int32.not_lt.mpr hneg)]
  · rw [hkr]
    split_ifs
    · rw [Kernel.transfer_recvCtxs]
      exact Table.get_erase_self ..
    · exact Table.get_erase_self ..

/-- Two overlapping threads; the second one's first return is missed. -/
def overlapping : List Act :=
  [.hit (Env.thread 7) (.tcpRecvmsg 1 (.ubuf 0x100)), .hit (Env.thread 8) (.tcpRecvmsg 2 (.ubuf 0x200)),
    .missed 8, .hit (Env.thread 7) (.tcpRecvmsgRet 5), .hit (Env.thread 8) (.tcpRecvmsg 1 (.ubuf 0x300)),
    .hit (Env.thread 8) (.tcpRecvmsgRet 3)]

theorem overlapping_received :
    ((overlapping.foldl step {}).kernel.flows[(1 : UInt64)]?.getD {}).rx = 8 ∧
      ((overlapping.foldl step {}).kernel.flows[(2 : UInt64)]?.getD {}).rx = 0 := by
  have hlegal : Meets step Legal {} overlapping :=
    ⟨⟨rfl, rfl, by decide⟩, ⟨rfl, rfl, by decide⟩, Option.some_ne_none _,
      ⟨rfl, Option.some_ne_none _⟩, ⟨rfl, rfl, by decide⟩, ⟨rfl, Option.some_ne_none _⟩, trivial⟩
  exact ⟨(receives_paired hlegal).1 1, (receives_paired hlegal).1 2⟩

end Receiving
end Tlstat.Bpf
