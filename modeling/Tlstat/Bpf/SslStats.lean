import Mathlib.Data.UInt
import Tlstat.Bpf.SslRead

/-! The plaintext totals of a session: what `ssl_stats` says, against the calls themselves. -/

namespace Tlstat.Bpf
open Base

/-- The calls in progress, and for each session the lengths of its writes and of its reads since
it was last freed, newest first. -/
structure Ledger where
  reading : Reading := {}
  written : UInt64 → List UInt64 := fun _ => []
  read : UInt64 → List UInt64 := fun _ => []

namespace Ledger

def kernel (s : Ledger) : Kernel := s.reading.kernel

/-- One more call on `ssl`, of `n` bytes. -/
def note (dir : Dir) (ssl n : UInt64) (s : Ledger) : Ledger :=
  match dir with
  | .out => { s with written := fun k => if k = ssl then n :: s.written k else s.written k }
  | .inward => { s with read := fun k => if k = ssl then n :: s.read k else s.read k }

def forget (ssl : UInt64) (s : Ledger) : Ledger :=
  { s with
    written := fun k => if k = ssl then [] else s.written k
    read := fun k => if k = ssl then [] else s.read k }

/-- What the calls say happened: a write counts when it is made, a read when it returns. -/
def record (s : Ledger) (a : Env × Hit) : Ledger :=
  match a.2 with
  | .sslWrite ssl buf num =>
    if num > 0 ∧ buf ≠ 0 then s.note .out ssl (Kernel.widen num) else s
  | .sslReadRet ret =>
    match s.reading.calls a.1.pidTgid with
    | c :: _ => if ret > 0 ∧ c.buf ≠ 0 then s.note .inward c.ssl (Kernel.widen ret) else s
    | [] => s
  | .sslFree ssl => s.forget ssl
  | _ => s

def step (s : Ledger) (a : Env × Hit) : Ledger :=
  { s.record a with reading := s.reading.step a }

/-- Map updates succeed, and no thread enters `SSL_read` while it is inside one. -/
def Plain (s : Ledger) (a : Env × Hit) : Prop :=
  a.1.insert = true ∧ ∀ ssl buf, a.2 = .sslRead ssl buf → s.reading.calls a.1.pidTgid = []

/-- The sums of what was written and of what was read. -/
def sums (s : Ledger) (ssl : UInt64) : UInt64 × UInt64 := ((s.written ssl).sum, (s.read ssl).sum)

variable {s : Ledger} {a : Env × Hit} {k : Kernel} {env : Env} {ssl ssl' buf n : UInt64} {dir : Dir}

/-- What one more call of `n` bytes makes of the two totals. -/
def tally (dir : Dir) (n : UInt64) (t : UInt64 × UInt64) : UInt64 × UInt64 :=
  match dir with
  | .out => (t.1 + n, t.2)
  | .inward => (t.1, t.2 + n)

theorem emit_totals (hins : env.insert = true) :
    (k.emitPlaintext env ssl buf n dir).totalsOf ssl' =
      if ssl = ssl' ∧ Kernel.Carries buf n then tally dir n (k.totalsOf ssl) else k.totalsOf ssl' := by
  unfold Kernel.totalsOf
  rw [Kernel.emitPlaintext_stats]
  split_ifs with h
  · obtain ⟨st, hst⟩ : ∃ st, k.sslStatGet env ssl = some st :=
      sslStatGet_isSome.mpr (by rw [hins, Bool.or_true])
    have htotals := sslStatGet_totals hst
    unfold Kernel.totalsOf at htotals
    rw [hst, ← htotals]
    cases dir <;> rfl
  · rfl

/-- The innermost call of a thread still owns its slot. -/
structure Inv (s : Ledger) : Prop where
  paired : s.reading.Paired
  alone : ∀ id, ∀ c ∈ s.reading.calls id, c.recorded = true ∧ c.nested = false
  totals : ∀ ssl, s.kernel.totalsOf ssl = s.sums ssl

theorem totalsOf_congr {k' : Kernel} (h : k'.sslStats = k.sslStats) (ssl : UInt64) :
    k'.totalsOf ssl = k.totalsOf ssl := by
  unfold Kernel.totalsOf
  rw [h]

theorem sums_note : (s.note dir ssl n).sums ssl' =
    if ssl = ssl' then tally dir n (s.sums ssl) else s.sums ssl' := by
  by_cases h : ssl = ssl'
  · subst h
    rw [if_pos rfl]
    cases dir <;> simp [sums, note, tally, UInt64.add_comm n]
  · rw [if_neg h]
    cases dir <;> simp [sums, note, Ne.symm h]

theorem sums_forget : (s.forget ssl).sums ssl' = if ssl = ssl' then (0, 0) else s.sums ssl' := by
  by_cases h : ssl = ssl'
  · subst h
    simp [sums, forget]
  · rw [if_neg h]
    simp [sums, forget, Ne.symm h]

/-- A call that moves data through the session of `ssl` moves the totals and the sums alike. -/
theorem totals_note (h : ∀ ssl, k.totalsOf ssl = s.sums ssl) (hins : env.insert = true)
    (num : Int32) :
    (if num > 0 then k.emitPlaintext env ssl buf (Kernel.widen num) dir else k).totalsOf ssl' =
      (if num > 0 ∧ buf ≠ 0 then s.note dir ssl (Kernel.widen num) else s).sums ssl' := by
  by_cases hnum : num > 0
  · have hcarry : Kernel.Carries buf (Kernel.widen num) ↔ buf ≠ 0 :=
      and_iff_left (widen_ne_zero hnum)
    rw [if_pos hnum, emit_totals hins]
    by_cases hbuf : buf ≠ 0
    · have hmoved : num > 0 ∧ buf ≠ 0 := ⟨hnum, hbuf⟩
      rw [if_pos hmoved, sums_note, ← h, ← h]
      by_cases hssl : ssl = ssl'
      · rw [if_pos ⟨hssl, hcarry.mpr hbuf⟩, if_pos hssl]
      · rw [if_neg fun h => hssl h.1, if_neg hssl]
    · have hstill : ¬(num > 0 ∧ buf ≠ 0) := fun h => hbuf h.2
      rw [if_neg hstill, if_neg fun h => hbuf (hcarry.mp h.2)]
      exact h ssl'
  · rw [if_neg hnum, if_neg fun h => hnum h.1]
    exact h ssl'

theorem totals_step (h : Inv s) (ha : a.1.insert = true) (ssl : UInt64) :
    (s.kernel.step a).totalsOf ssl = (s.record a).sums ssl := by
  obtain ⟨env, hit⟩ := a
  cases hit with
  | sslWrite ssl' buf num => exact totals_note h.totals ha num
  | sslReadRet ret =>
    change (s.kernel.urSslRead env ret).totalsOf ssl = _
    have hslot := h.paired.slot env.pidTgid
    unfold record
    dsimp only
    cases hcalls : s.reading.calls env.pidTgid with
    | nil =>
      rw [hcalls] at hslot
      have hctx : s.kernel.sslCtxs[env.pidTgid]? = none := hslot
      rw [Kernel.urSslRead_of_empty ret hctx]
      exact h.totals ssl
    | cons c cs =>
      have hown := h.alone env.pidTgid c (hcalls ▸ List.mem_cons_self)
      have hctx : s.kernel.sslCtxs[env.pidTgid]? = some ⟨c.ssl, c.buf⟩ := by
        refine hslot.trans ?_
        rw [hcalls]
        change c.slot = _
        unfold ReadCall.slot
        rw [hown.1, hown.2]
        rfl
      rw [Kernel.urSslRead_of_slot ret hctx]
      exact totals_note (k := { s.kernel with sslCtxs := s.kernel.sslCtxs.erase env.pidTgid })
        h.totals ha ret
  | sslFree ssl' =>
    change ((s.kernel.sslStats.erase ssl')[ssl]?.map _).getD (0, 0) = (s.forget ssl').sums ssl
    rw [Table.get_erase, sums_forget]
    split_ifs
    · rfl
    · exact h.totals ssl
  | tcpSendmsg sk iter size =>
    exact (totalsOf_congr Kernel.transfer_sslStats ssl).trans (h.totals ssl)
  | tcpRecvmsgRet ret =>
    exact (totalsOf_congr Kernel.krTcpRecvmsg_sslStats ssl).trans (h.totals ssl)
  | inetSockSetState protocol sk oldstate newstate =>
    exact (totalsOf_congr (Kernel.setState_sslStats _ env sk protocol oldstate newstate) ssl).trans
      (h.totals ssl)
  | tcpRecvmsg | sslSetFd | sslRead | deleteFlow => exact h.totals ssl

theorem Inv.step (h : Inv s) (ha : Plain s a) : Inv (s.step a) := by
  refine ⟨h.paired.step, fun id c hc => ?_, fun ssl => totals_step h ha.1 ssl⟩
  obtain ⟨env, hit⟩ := a
  cases hit with
  | sslRead ssl buf =>
    change c ∈ (if id = env.pidTgid then s.reading.enter env ssl buf else s.reading.calls id) at hc
    split_ifs at hc
    · have hnone : s.reading.calls env.pidTgid = [] := ha.2 ssl buf rfl
      have hins : env.insert = true := ha.1
      unfold Reading.enter at hc
      rw [hnone, hins, Bool.or_true] at hc
      obtain rfl := List.mem_singleton.mp hc
      exact ⟨rfl, rfl⟩
    · exact h.alone id c hc
  | sslReadRet ret =>
    change c ∈ (if id = env.pidTgid then (s.reading.calls id).tail else s.reading.calls id) at hc
    split_ifs at hc
    · exact h.alone id c (List.mem_of_mem_tail hc)
    · exact h.alone id c hc
  | tcpSendmsg | tcpRecvmsg | tcpRecvmsgRet | inetSockSetState | sslFree | sslSetFd | sslWrite
  | deleteFlow => exact h.alone id c hc

theorem inv_run {hits : List (Env × Hit)} (h : Meets step Plain {} hits) :
    Inv (hits.foldl step {}) := by
  have hstart : Inv {} := by
    refine ⟨⟨fun _ => Table.get_empty _, fun _ _ hc => absurd hc List.not_mem_nil⟩,
      fun _ _ hc => absurd hc List.not_mem_nil, fun ssl => ?_⟩
    change ((∅ : Table SslStat)[ssl]?.map _).getD (0, 0) = _
    rw [Table.get_empty]
    rfl
  exact (Meets.along (fun _ _ hs ha => hs.step ha) hstart h).last

/-- **The plaintext totals of a session are exact**, whatever the ring and user memory do. -/
theorem session_totals {hits : List (Env × Hit)} (h : Meets step Plain {} hits) (ssl : UInt64) :
    (hits.foldl step {}).kernel.totalsOf ssl =
        (((hits.foldl step {}).written ssl).sum, ((hits.foldl step {}).read ssl).sum) ∧
    ∀ env, ∃ closed, ((hits.foldl step {}).kernel.uSslFree env ssl).events =
        (hits.foldl step {}).kernel.events ++ closed ∧
      (∀ e ∈ closed, ∃ c : CloseEvent, e = .close c ∧ c.ssl = ssl ∧
        c.ptx = ((hits.foldl step {}).written ssl).sum ∧
        c.prx = ((hits.foldl step {}).read ssl).sum) ∧
      ((hits.foldl step {}).kernel.uSslFree env ssl).sslStats[ssl]? = none ∧
      ((hits.foldl step {}).kernel.uSslFree env ssl).sslFds[ssl]? = none ∧
      ∀ env', env'.insert = true →
        ((hits.foldl step {}).kernel.uSslFree env ssl).sslStatGet env' ssl =
          some { ptx := 0, prx := 0, pid := env'.pid, fd := -1 } := by
  have hinv := inv_run h
  have htotals := hinv.totals ssl
  refine ⟨htotals, fun env => ⟨_, rfl, fun e he => ?_, ?_, ?_, fun env' hins => ?_⟩⟩
  · obtain ⟨c, hc, rfl⟩ := Option.map_eq_some_iff.mp (Option.mem_toList.mp he)
    obtain ⟨st, hst, hclose⟩ := Option.bind_eq_some_iff.mp hc
    have hsums : (st.ptx, st.prx) = (hits.foldl step {}).sums ssl := by
      rw [← htotals]
      unfold Kernel.totalsOf
      rw [hst]
      rfl
    unfold Kernel.closeEvent at hclose
    split_ifs at hclose
    obtain rfl := Option.some.inj hclose
    exact ⟨_, rfl, rfl, congrArg Prod.fst hsums, congrArg Prod.snd hsums⟩
  · exact Table.get_erase_self ..
  · exact Table.get_erase_self ..
  · have hstat : ((hits.foldl step {}).kernel.uSslFree env ssl).sslStats[ssl]? = none :=
      Table.get_erase_self ..
    have hfd : ((hits.foldl step {}).kernel.uSslFree env ssl).sslFds[ssl]? = none :=
      Table.get_erase_self ..
    unfold Kernel.sslStatGet
    rw [hstat, hfd]
    exact if_pos hins

/-- A pointer used, freed and used again. -/
def reused : List (Env × Hit) :=
  [(Env.thread 7, .sslSetFd 1 5), (Env.thread 7, .sslWrite 1 0x100 3), (Env.thread 7, .sslRead 1 0x200),
    (Env.thread 7, .sslReadRet 4), (Env.thread 7, .sslFree 1), (Env.thread 8, .sslWrite 1 0x100 2)]

theorem reused_totals : (reused.foldl step {}).kernel.totalsOf 1 = (2, 0) := by
  have hplain : Meets step Plain {} reused :=
    ⟨⟨rfl, fun _ _ h => nomatch h⟩, ⟨rfl, fun _ _ h => nomatch h⟩, ⟨rfl, fun _ _ _ => rfl⟩,
      ⟨rfl, fun _ _ h => nomatch h⟩, ⟨rfl, fun _ _ h => nomatch h⟩, ⟨rfl, fun _ _ h => nomatch h⟩,
      trivial⟩
  exact (session_totals hplain 1).1

end Ledger
end Tlstat.Bpf
