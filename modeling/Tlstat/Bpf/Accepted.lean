import Tlstat.Base.Run
import Tlstat.Bpf.FlowReuse
import Tlstat.Bpf.SslStats

/-! The send side counts at the entry of a call what the call asks for. What the transport takes
of it is known at the return only. -/

namespace Tlstat.Bpf
open Base

inductive Send
  | sendmsg (sk : UInt64) (iter : IovIter) (size : UInt64)
  | write (ssl buf : UInt64) (num : Int32)

namespace Send

def hit : Send → Hit
  | .sendmsg sk iter size => .tcpSendmsg sk iter size
  | .write ssl buf num => .sslWrite ssl buf num

/-- The number of bytes the call is given. -/
def asked : Send → ℕ
  | .sendmsg _ _ size => size.toNat
  | .write _ _ num => num.toInt.toNat

end Send

/-- One call, and how many of its bytes were taken: all, some, or none where it failed. -/
structure SendCall where
  env : Env
  send : Send
  accepted : ℕ
  le : accepted ≤ send.asked

/-- The kernel, and the bytes taken so far on each socket and on each session. -/
structure Sending where
  kernel : Kernel := {}
  tcp : UInt64 → ℕ := fun _ => 0
  ssl : UInt64 → ℕ := fun _ => 0

namespace Sending

def record (s : Sending) (c : SendCall) : Sending :=
  match c.send with
  | .sendmsg sk _ _ => { s with tcp := fun k => if k = sk then s.tcp k + c.accepted else s.tcp k }
  | .write ssl _ _ => { s with ssl := fun k => if k = ssl then s.ssl k + c.accepted else s.ssl k }

def step (s : Sending) (c : SendCall) : Sending :=
  { s.record c with kernel := s.kernel.step (c.env, c.send.hit) }

/-- The counters are the bytes taken, modulo `2 ^ 64`. -/
structure Exact (s : Sending) : Prop where
  tx : ∀ sk : UInt64, (s.kernel.flows[sk]?.getD {}).tx = (s.tcp sk).toUInt64
  ptx : ∀ ssl, (s.kernel.totalsOf ssl).1 = (s.ssl ssl).toUInt64

/-- The call is taken whole; or it goes past the counter, for want of room in the map or of a
buffer, and nothing of it is taken. -/
def TakenWhole (s : Sending) (c : SendCall) : Prop :=
  match c.send with
  | .sendmsg sk _ size =>
    c.accepted = if (s.kernel.flows[sk]?.isSome || c.env.insert) = true then size.toNat else 0
  | .write ssl buf num =>
    c.accepted = if buf ≠ 0 ∧ (s.kernel.sslStats[ssl]?.isSome || c.env.insert) = true
      then num.toInt.toNat else 0

variable {s : Sending} {k : Kernel} {env : Env} {sk sk' ssl ssl' buf : UInt64} {num : Int32}

theorem identify_tx (env : Env) (sk : UInt64) (f : Flow) : (identify env sk f).tx = f.tx :=
  (Kernel.identify_fields env sk f).2.1

theorem sendmsg_tx (iter : IovIter) (size : UInt64) :
    ((k.kTcpSendmsg env sk iter size).flows[sk']?.getD {}).tx =
      if sk = sk' ∧ (k.flows[sk]?.isSome || env.insert) = true
      then (k.flows[sk]?.getD {}).tx + size else (k.flows[sk']?.getD {}).tx := by
  have hcount : ∀ f : Flow, ({ f with tx := f.tx + size } : Flow).tx = (· + size) f.tx := fun _ => rfl
  exact Kernel.transfer_field Flow.tx (· + size) (fun _ _ _ _ => rfl) identify_tx hcount

theorem write_ptx : ((k.uSslWrite env ssl buf num).totalsOf ssl').1 =
    if ssl = ssl' ∧ num > 0 ∧ buf ≠ 0 ∧ (k.sslStats[ssl]?.isSome || env.insert) = true
    then (k.totalsOf ssl).1 + Kernel.widen num else (k.totalsOf ssl').1 := by
  unfold Kernel.uSslWrite
  by_cases hnum : num > 0
  · have hcarry : Kernel.Carries buf (Kernel.widen num) ↔ buf ≠ 0 :=
      and_iff_left (widen_ne_zero hnum)
    rw [if_pos hnum]
    unfold Kernel.totalsOf
    rw [Kernel.emitPlaintext_stats]
    by_cases hssl : ssl = ssl' ∧ buf ≠ 0
    · rw [if_pos ⟨hssl.1, hcarry.mpr hssl.2⟩, ← hssl.1]
      cases hst : k.sslStatGet env ssl with
      | none =>
        have hroom : ¬(k.sslStats[ssl]?.isSome || env.insert) = true := by
          rw [← sslStatGet_isSome, hst]
          simp
        rw [if_neg fun h => hroom h.2.2.2, Kernel.sslStatGet_none hst]
        rfl
      | some st =>
        have htotals := sslStatGet_totals hst
        unfold Kernel.totalsOf at htotals
        rw [if_pos ⟨rfl, hnum, hssl.2, sslStatGet_isSome.mp ⟨st, hst⟩⟩, ← htotals]
        rfl
    · rw [if_neg fun h => hssl ⟨h.1, hcarry.mp h.2⟩, if_neg fun h => hssl ⟨h.1, h.2.2.1⟩]
  · rw [if_neg hnum, if_neg fun h => hnum h.2.1]

/-- Adding `n` to one of the counters keeps them in step with totals one of which grows by `m`
exactly when `m` and `n` are the same. -/
theorem counters_iff {x : UInt64 → UInt64} {t : UInt64 → ℕ} {m : ℕ} (key n : UInt64)
    (hx : ∀ k, x k = (t k).toUInt64) (hm : m < 2 ^ 64) :
    (∀ k, (if key = k then x key + n else x k) = (if k = key then t k + m else t k).toUInt64) ↔
      m = n.toNat := by
  have hkey : x key + n = (t key + m).toUInt64 ↔ m = n.toNat := by
    rw [hx, Nat.toUInt64_eq, Nat.toUInt64_eq, UInt64.ofNat_add, UInt64.add_right_inj,
      ← UInt64.toNat_inj, UInt64.toNat_ofNat', Nat.mod_eq_of_lt hm]
    exact eq_comm
  rw [← hkey]
  constructor
  · intro h
    have hk := h key
    rwa [if_pos rfl, if_pos rfl] at hk
  · intro h k
    by_cases hk : key = k
    · subst hk
      rw [if_pos rfl, if_pos rfl]
      exact h
    · rw [if_neg hk, if_neg (Ne.symm hk)]
      exact hx k

/-- A count that is skipped is a count of nothing. -/
theorem counted_eq {x : UInt64 → UInt64} {key k' size : UInt64} {R : Prop} [Decidable R] :
    (if key = k' ∧ R then x key + size else x k') =
      if key = k' then x key + (if R then size else 0) else x k' := by
  by_cases hr : R
  · simp only [hr, and_true, if_true]
  · simp only [hr, and_false, if_false, UInt64.add_zero]
    split_ifs with hk
    · rw [hk]
    · rfl

theorem exact_sendmsg {iter : IovIter} {size : UInt64} {accepted : ℕ}
    {le : accepted ≤ (Send.sendmsg sk iter size).asked} (h : Exact s) :
    Exact (s.step ⟨env, .sendmsg sk iter size, accepted, le⟩) ↔
      TakenWhole s ⟨env, .sendmsg sk iter size, accepted, le⟩ := by
  let n : UInt64 := if (s.kernel.flows[sk]?.isSome || env.insert) = true then size else 0
  have hn : n.toNat =
      if (s.kernel.flows[sk]?.isSome || env.insert) = true then size.toNat else 0 := by
    change (if _ then size else 0).toNat = _
    split_ifs <;> rfl
  have htx : ∀ sk', ((s.kernel.kTcpSendmsg env sk iter size).flows[sk']?.getD {}).tx =
      if sk = sk' then (s.kernel.flows[sk]?.getD {}).tx + n else (s.kernel.flows[sk']?.getD {}).tx := by
    intro sk'
    rw [sendmsg_tx]
    exact counted_eq (x := fun k' => (s.kernel.flows[k']?.getD {}).tx)
  have hlt : accepted < 2 ^ 64 := Nat.lt_of_le_of_lt le size.toNat_lt
  have hcount := counters_iff sk n h.tx hlt
  change _ ↔ accepted = if (s.kernel.flows[sk]?.isSome || env.insert) = true then size.toNat else 0
  rw [← hn, ← hcount]
  constructor
  · intro h' sk'
    rw [← htx]
    exact h'.tx sk'
  · intro h'
    refine ⟨fun sk' => (htx sk').trans (h' sk'), fun ssl => ?_⟩
    have hsame : (s.kernel.kTcpSendmsg env sk iter size).totalsOf ssl = s.kernel.totalsOf ssl :=
      Ledger.totalsOf_congr Kernel.transfer_sslStats ssl
    exact (congrArg Prod.fst hsame).trans (h.ptx ssl)

theorem exact_write {accepted : ℕ} {le : accepted ≤ (Send.write ssl buf num).asked} (h : Exact s) :
    Exact (s.step ⟨env, .write ssl buf num, accepted, le⟩) ↔
      TakenWhole s ⟨env, .write ssl buf num, accepted, le⟩ := by
  let n : UInt64 := if num > 0 ∧ buf ≠ 0 ∧ (s.kernel.sslStats[ssl]?.isSome || env.insert) = true
    then Kernel.widen num else 0
  have hn : n.toNat = if buf ≠ 0 ∧ (s.kernel.sslStats[ssl]?.isSome || env.insert) = true
      then num.toInt.toNat else 0 := by
    change (if _ then Kernel.widen num else 0).toNat = _
    by_cases hnum : num > 0
    · simp only [hnum, true_and]
      split_ifs
      · exact Kernel.widen_toNat hnum
      · rfl
    · have hzero : num.toInt.toNat = 0 :=
        Int.toNat_eq_zero.mpr (Int.not_lt.mp fun h => hnum (Int32.lt_iff_toInt_lt.mpr h))
      rw [if_neg fun h => hnum h.1, hzero, ite_self]
      rfl
  have hptx : ∀ ssl', ((s.kernel.uSslWrite env ssl buf num).totalsOf ssl').1 =
      if ssl = ssl' then (s.kernel.totalsOf ssl).1 + n else (s.kernel.totalsOf ssl').1 := by
    intro ssl'
    rw [write_ptx]
    exact counted_eq (x := fun k' => (s.kernel.totalsOf k').1)
  have hlt : accepted < 2 ^ 64 := by
    have hnum := num.toInt_lt
    have hle : accepted ≤ num.toInt.toNat := le
    omega
  have hcount := counters_iff ssl n h.ptx hlt
  change _ ↔ accepted = if buf ≠ 0 ∧ (s.kernel.sslStats[ssl]?.isSome || env.insert) = true
    then num.toInt.toNat else 0
  rw [← hn, ← hcount]
  constructor
  · intro h' ssl'
    rw [← hptx]
    exact h'.ptx ssl'
  · intro h'
    refine ⟨fun sk => ?_, fun ssl' => (hptx ssl').trans (h' ssl')⟩
    change ((s.kernel.uSslWrite env ssl buf num).flows[sk]?.getD {}).tx = _
    rw [Kernel.uSslWrite_flows]
    exact h.tx sk

/-- **The send side counts what is accepted exactly when every call is taken whole.** -/
theorem accepted_iff (calls : List SendCall) :
    Along step Exact {} calls ↔ Meets step TakenWhole {} calls := by
  have hstep : ∀ s c, Exact s → (Exact (step s c) ↔ TakenWhole s c) := by
    rintro s ⟨env, send, accepted, le⟩ h
    cases send with
    | sendmsg sk iter size => exact exact_sendmsg h
    | write ssl buf num => exact exact_write h
  refine along_iff_meets (p := fun _ => True) (J := fun _ => True) (fun _ _ _ h => h)
    (fun s c _ _ h => hstep s c h) (fun _ _ => trivial) trivial ⟨fun sk => ?_, fun ssl => ?_⟩
  · change ((∅ : Table Flow)[sk]?.getD {}).tx = _
    rw [Table.get_empty]
    rfl
  · change (((∅ : Table SslStat)[ssl]?.map _).getD (0, 0)).1 = _
    rw [Table.get_empty]
    rfl

/-- A short write and its retry on a socket, and a write that is repeated after WANT_WRITE. -/
def retried : List SendCall :=
  [⟨Env.thread 7, .sendmsg 1 (.ubuf 0x100) 10, 4, by decide⟩,
    ⟨Env.thread 7, .sendmsg 1 (.ubuf 0x104) 6, 6, by decide⟩,
    ⟨Env.thread 7, .write 2 0x200 10, 0, by decide⟩, ⟨Env.thread 7, .write 2 0x200 10, 10, by decide⟩]

theorem retries_counted_twice : ¬Along step Exact {} retried ∧
    ((retried.foldl step {}).kernel.flows[(1 : UInt64)]?.getD {}).tx = 16 ∧
    (retried.foldl step {}).tcp 1 = 10 ∧
    ((retried.foldl step {}).kernel.totalsOf 2).1 = 20 ∧ (retried.foldl step {}).ssl 2 = 10 := by
  refine ⟨fun h => ?_, by decide +kernel, by decide +kernel, by decide +kernel, by decide +kernel⟩
  have htx := h.last.tx 1
  revert htx
  decide +kernel

end Sending
end Tlstat.Bpf
