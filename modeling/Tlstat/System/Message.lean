import Tlstat.Bpf.Capture
import Tlstat.System.Reassembly

/-! The captured bytes and the message. `capture_wire` reads the total length of the message from
the base of its first segment. -/

namespace Tlstat.Bpf
open Base

theorem Env.readUser_add (env : Env) (ptr : UInt64) (m n : ℕ) : env.readUser ptr (m + n) =
    (env.readUser ptr m).bind fun bs =>
      (env.readUser (ptr + m.toUInt64) n).map fun cs => bs ++ cs := by
  induction n with
  | zero =>
    change env.readUser ptr m = (env.readUser ptr m).bind fun bs => some (bs ++ [])
    cases env.readUser ptr m with
    | none => rfl
    | some bs => exact congrArg some (List.append_nil bs).symm
  | succ n ih =>
    have hptr : ptr + (m + n).toUInt64 = ptr + m.toUInt64 + n.toUInt64 := by
      rw [Nat.toUInt64_eq, UInt64.ofNat_add, UInt64.add_assoc]
    rw [← Nat.add_assoc, readUser_succ, ih, hptr, readUser_succ]
    cases env.readUser ptr m with
    | none => rfl
    | some bs =>
      cases env.readUser (ptr + m.toUInt64) n with
      | none => rfl
      | some cs => cases env.user (ptr + m.toUInt64 + n.toUInt64) <;> simp

/-- The event holds the first bytes of a message of `n` bytes, as many as fit. -/
def WireEvent.Begins (e : WireEvent) (env : Env) (iter : IovIter) (n : ℕ) : Prop :=
  e.len.toNat = min n (wireCap - 1) ∧ iter.Holds env (e.data.take e.len.toNat)

/-- As far as the first segment falls short of `m` bytes, the memory behind it holds what the
segments after it do. -/
def IovIter.Joined (env : Env) (m : ℕ) : IovIter → Prop
  | .iovec (base, len) rest =>
    env.readUser (base + len) (m - len.toNat) = env.gather rest (m - len.toNat)
  | _ => True

theorem Env.gather_zero (env : Env) (segments : List (UInt64 × UInt64)) :
    env.gather segments 0 = some [] := by
  induction segments with
  | nil => rfl
  | cons seg rest ih =>
    obtain ⟨base, len⟩ := seg
    simp only [gather, Nat.zero_min, Nat.zero_sub, ih]
    rfl

/-- The first segment is long enough. -/
theorem IovIter.joined_of_le {env : Env} {base len : UInt64} {rest : List (UInt64 × UInt64)} {m : ℕ}
    (h : m ≤ len.toNat) : (IovIter.iovec (base, len) rest).Joined env m := by
  change env.readUser (base + len) (m - len.toNat) = env.gather rest (m - len.toNat)
  rw [Nat.sub_eq_zero_of_le h, Env.gather_zero]
  rfl

/-- What is read from the base is what the segments hold exactly when they are joined. -/
theorem IovIter.holds_iff_joined {env : Env} {iter : IovIter} {bs : Bytes}
    (h : env.readUser (iterBase iter) bs.length = some bs) :
    iter.Holds env bs ↔ iter.Joined env bs.length := by
  cases iter with
  | ubuf base => exact iff_of_true h trivial
  | other => exact Iff.rfl
  | iovec first rest =>
    obtain ⟨base, len⟩ := first
    change env.readUser base bs.length = some bs at h
    rcases Nat.le_total bs.length len.toNat with hle | hle
    · refine iff_of_true ?_ (IovIter.joined_of_le hle)
      change env.gather ((base, len) :: rest) bs.length = some bs
      simp only [Env.gather, Nat.min_eq_left hle, Nat.sub_eq_zero_of_le hle, h, Env.gather_zero]
      exact congrArg some (List.append_nil bs)
    · -- the read goes on behind the first segment
      change env.gather ((base, len) :: rest) bs.length = some bs ↔
        env.readUser (base + len) (bs.length - len.toNat) = env.gather rest (bs.length - len.toNat)
      have hsplit := Env.readUser_add env base len.toNat (bs.length - len.toNat)
      have hfirst := (Env.readUser_take h).2 len.toNat hle
      have hptr : base + len.toNat.toUInt64 = base + len := by
        rw [Nat.toUInt64_eq, UInt64.ofNat_toNat]
      rw [Nat.add_sub_cancel' hle, h, hfirst, hptr, Option.bind_some] at hsplit
      obtain ⟨cs, hcs, hbs⟩ := Option.map_eq_some_iff.mp hsplit.symm
      simp only [Env.gather, Nat.min_eq_right hle, hfirst, hcs]
      cases env.gather rest (bs.length - len.toNat) with
      | none => exact iff_of_false (Option.some_ne_none bs).symm (Option.some_ne_none cs)
      | some ds =>
        change some (bs.take len.toNat ++ ds) = some bs ↔ _
        rw [Option.some.injEq, Option.some.injEq]
        constructor
        · intro hds
          exact List.append_cancel_left (hbs.trans hds.symm)
        · intro hds
          exact (congrArg _ hds.symm).trans hbs

/-! ### The two probes -/

/-- A hit of another call: the thread `id` does not enter `tcp_recvmsg` or return from it. -/
def Aside (id : UInt64) (a : Env × Hit) : Prop :=
  a.1.pidTgid = id → (∀ sk iter, a.2 ≠ .tcpRecvmsg sk iter) ∧ ∀ ret, a.2 ≠ .tcpRecvmsgRet ret

/-- The hit `a` moves `n` bytes of the message that `iter` describes: it is the entry to
`tcp_sendmsg`, or the return of the `tcp_recvmsg` that was entered with `iter`. -/
inductive Moves : Kernel → Env × Hit → IovIter → ℕ → Prop
  | send (k : Kernel) (env : Env) (sk : UInt64) (iter : IovIter) (size : UInt64)
      (hsize : size.toNat < 2 ^ 31) : Moves k (env, .tcpSendmsg sk iter size) iter size.toNat
  | recv (k : Kernel) (entry env : Env) (sk : UInt64) (iter : IovIter) (mid : List (Env × Hit))
      (ret : Int32) (hthread : entry.pidTgid = env.pidTgid) (hmid : ∀ a ∈ mid, Aside env.pidTgid a) :
      Moves ((k.step (entry, .tcpRecvmsg sk iter)).run mid) (env, .tcpRecvmsgRet ret) iter
        ret.toInt.toNat

namespace Kernel
variable {k : Kernel} {env : Env} {sk buf n : UInt64} {dir : Dir} {iter : IovIter} {e : WireEvent}

theorem begins_iff_joined {f : Flow} (hn : n.toNat < 2 ^ 31)
    (h : (captureWire env sk f (iterBase iter) n dir).2 = some e) :
    e.Begins env iter n.toNat ↔ iter.Joined env (min n.toNat (wireCap - 1)) := by
  obtain ⟨-, -, hclen, hread⟩ := captureWire_snd h
  have hlen : e.len.toNat = min n.toNat (wireCap - 1) := by
    have hclamp := clamp_eq (hn.trans (by decide))
    rw [hclen, clamp_toUInt16]
    rwa [Nat.toUInt64_eq, UInt64.ofNat_toNat] at hclamp
  have htake : (e.data.take e.len.toNat).length = e.len.toNat := (Env.readUser_take hread).1
  unfold WireEvent.Begins
  rw [and_iff_right hlen, IovIter.holds_iff_joined (htake.symm ▸ hread), htake, hlen]

theorem transfer_news {count : Flow → Flow} {old : List Event}
    (h : .wire e ∈ (k.transfer env sk count buf n dir).events.drop old.length) (hold : k.events = old) :
    ∃ f, (captureWire env sk f buf n dir).2 = some e := by
  rw [transfer_events, hold, List.drop_left, Option.mem_toList] at h
  obtain ⟨w, hw, hwe⟩ := Option.map_eq_some_iff.mp h
  obtain rfl := Event.wire.inj hwe
  obtain ⟨f, -, hcap⟩ := Option.bind_eq_some_iff.mp hw
  exact ⟨_, hcap⟩

theorem recvCtxs_aside {id : UInt64} {a : Env × Hit} (h : Aside id a) :
    (k.step a).recvCtxs[id]? = k.recvCtxs[id]? := by
  obtain ⟨env, hit⟩ := a
  cases hit with
  | tcpSendmsg sk iter size => exact congrArg (·[id]?) transfer_recvCtxs
  | tcpRecvmsg sk iter =>
    change (env.update k.recvCtxs env.pidTgid _)[id]? = _
    rw [update_get, if_neg fun hid => (h hid.1).1 sk iter rfl]
  | tcpRecvmsgRet ret =>
    have hpop : (k.recvCtxs.erase env.pidTgid)[id]? = k.recvCtxs[id]? := by
      rw [Table.get_erase, if_neg fun hid => (h hid).2 ret rfl]
    refine krTcpRecvmsg_cases (P := fun k' => k'.recvCtxs[id]? = k.recvCtxs[id]?) k env ret rfl
      hpop fun _ _ _ => ?_
    rw [transfer_recvCtxs]
    exact hpop
  | inetSockSetState protocol sk oldstate newstate =>
    exact congrArg (·[id]?) (setState_recvCtxs ..)
  | sslWrite ssl buf num => exact congrArg (·[id]?) uSslWrite_recvCtxs
  | sslReadRet ret => exact congrArg (·[id]?) urSslRead_recvCtxs
  | sslFree | sslSetFd | sslRead | deleteFlow => rfl

/-- The record of the entry, if there is one at the return. -/
theorem recvCtxs_return {entry : Env} {mid : List (Env × Hit)} {c : RecvCtx}
    (hmid : ∀ a ∈ mid, Aside entry.pidTgid a)
    (hc : ((k.step (entry, .tcpRecvmsg sk iter)).run mid).recvCtxs[entry.pidTgid]? = some c) :
    c.base = iterBase iter := by
  have hkeep : ((k.step (entry, .tcpRecvmsg sk iter)).run mid).recvCtxs[entry.pidTgid]? =
      (k.step (entry, .tcpRecvmsg sk iter)).recvCtxs[entry.pidTgid]? :=
    foldl_invariant (I := fun k' : Kernel => k'.recvCtxs[entry.pidTgid]? =
      (k.step (entry, .tcpRecvmsg sk iter)).recvCtxs[entry.pidTgid]?)
      (fun _ _ ha hk => (recvCtxs_aside ha).trans hk) hmid rfl
  have hentry : (entry.update k.recvCtxs entry.pidTgid ⟨sk, iterBase iter⟩)[entry.pidTgid]? =
      some c := hkeep.symm.trans hc
  rw [update_get] at hentry
  split_ifs at hentry with hroom
  · obtain rfl := Option.some.inj hentry
    rfl
  · -- neither room for a new key nor an old one to overwrite
    rw [hentry] at hroom
    exact absurd ⟨rfl, rfl⟩ hroom

end Kernel

/-- **A submitted chunk is the beginning of the message exactly when the part that fits the event
lies in the first segment, or the memory behind that segment holds the bytes of the next ones.** -/
theorem captured_iff_joined {k : Kernel} {a : Env × Hit} {iter : IovIter} {n : ℕ} {e : WireEvent}
    (h : Moves k a iter n) (he : .wire e ∈ k.news a) :
    e.Begins a.1 iter n ↔ iter.Joined a.1 (min n (wireCap - 1)) := by
  cases h with
  | send k env sk iter size hsize =>
    obtain ⟨f, hcap⟩ := Kernel.transfer_news he rfl
    exact Kernel.begins_iff_joined hsize hcap
  | recv k entry env sk iter mid ret hthread hmid =>
    rw [← hthread] at hmid
    refine Kernel.krTcpRecvmsg_cases (P := fun k' => .wire e ∈ k'.events.drop _ → _) _ env ret ?_ ?_
      (fun c hc hret hnews => ?_) he
    · intro hnone
      rw [List.drop_length] at hnone
      cases hnone
    · intro hnone
      rw [List.drop_length] at hnone
      cases hnone
    · obtain ⟨f, hcap⟩ := Kernel.transfer_news hnews rfl
      rw [Kernel.recvCtxs_return hmid (hthread ▸ hc)] at hcap
      rw [← Kernel.widen_toNat hret]
      exact Kernel.begins_iff_joined (Kernel.widen_lt hret) hcap

/-- A thread whose memory can be read in these places only. -/
def Env.holding (cells : List (UInt64 × Bytes)) : Env :=
  { Env.thread 7 with
    user := fun p => cells.findSome? fun (base, bytes) =>
      if base ≤ p then bytes[(p - base).toNat]? else none }

/-- Seven bytes in two segments, one right behind the other. -/
def adjacent : Env := Env.holding [(100, [22, 3, 1, 0, 2]), (105, [1, 9])]

theorem adjacent_segments :
    let iter := IovIter.iovec (100, 5) [(105, 2)]
    let a := (adjacent, Hit.tcpSendmsg 8 iter 7)
    Kernel.news {} a ≠ [] ∧ ∀ e, .wire e ∈ Kernel.news {} a → e.Begins adjacent iter 7 := by
  refine ⟨by decide +kernel, fun e he => ?_⟩
  refine (captured_iff_joined
    (.send {} adjacent 8 (.iovec (100, 5) [(105, 2)]) 7 (by decide)) he).mpr ?_
  change adjacent.readUser 105 2 = adjacent.gather [(105, 2)] 2
  decide +kernel

/-- The same message with its second segment elsewhere. -/
def apart : Env := Env.holding [(100, [22, 3, 1, 0, 2, 7, 7]), (200, [1, 9])]

theorem stray_bytes_captured : ¬∀ k a iter n e, Moves k a iter n → .wire e ∈ k.news a →
    e.Begins a.1 iter n := by
  intro h
  let iter : IovIter := .iovec (100, 5) [(200, 2)]
  let a : Env × Hit := (apart, .tcpSendmsg 8 iter 7)
  have hone : 0 < ((Kernel.step {} a).wires 8).length := by decide +kernel
  have hstray : ∀ e ∈ (Kernel.step {} a).wires 8,
      apart.gather [(100, 5), (200, 2)] (e.data.take e.len.toNat).length ≠
        some (e.data.take e.len.toNat) := by decide +kernel
  obtain ⟨e, he⟩ := List.exists_mem_of_length_pos hone
  refine hstray e he (h {} a iter 7 e (.send {} apart 8 iter 7 (by decide)) ?_).2
  obtain ⟨x, hx, hxe⟩ := List.mem_filterMap.mp he
  cases x with
  | wire w =>
    dsimp only at hxe
    split_ifs at hxe
    obtain rfl := Option.some.inj hxe
    exact hx
  | data | close => cases hxe

end Tlstat.Bpf
