import Tlstat.Base.Run
import Tlstat.Bpf.Spec

/-! `SSL_read` entries and returns. The probes pair them through one scratch slot for each
thread; the calls themselves nest. -/

namespace Tlstat.Bpf
open Base

/-- An `SSL_read` call a thread is inside, as its entry saw it: whether the scratch slot could be
written then, and whether another call was entered inside it since. -/
structure ReadCall where
  ssl : UInt64
  buf : UInt64
  recorded : Bool
  nested : Bool := false

/-- What the slot of the thread still holds of the call. -/
def ReadCall.slot (c : ReadCall) : Option SslCtx :=
  if c.recorded && !c.nested then some ⟨c.ssl, c.buf⟩ else none

/-- The kernel and, for each thread, the calls it is inside, innermost first. -/
structure Reading where
  kernel : Kernel := {}
  calls : UInt64 → List ReadCall := fun _ => []

namespace Reading

def enter (s : Reading) (env : Env) (ssl buf : UInt64) : List ReadCall :=
  { ssl := ssl
    buf := buf
    recorded := s.kernel.sslCtxs[env.pidTgid]?.isSome || env.insert } ::
  (s.calls env.pidTgid).map fun c => { c with nested := true }

def step (s : Reading) (a : Env × Hit) : Reading where
  kernel := s.kernel.step a
  calls := match a.2 with
    | .sslRead ssl buf => fun id => if id = a.1.pidTgid then s.enter a.1 ssl buf else s.calls id
    | .sslReadRet _ => fun id => if id = a.1.pidTgid then (s.calls id).tail else s.calls id
    | _ => s.calls

/-- The slot of a thread is what its innermost call left there, if no call was entered inside it;
every other call it is inside has one. -/
structure Paired (s : Reading) : Prop where
  slot : ∀ id : UInt64, s.kernel.sslCtxs[id]? = (s.calls id).head?.bind ReadCall.slot
  outer : ∀ id, ∀ c ∈ (s.calls id).tail, c.nested = true

variable {s : Reading} {a : Env × Hit}

theorem Paired.frame {t : Reading} (h : Paired s) (hk : t.kernel.sslCtxs = s.kernel.sslCtxs)
    (hc : t.calls = s.calls) : Paired t := by
  refine ⟨fun id => ?_, fun id => ?_⟩
  · rw [hk, hc]
    exact h.slot id
  · rw [hc]
    exact h.outer id

theorem enter_slot (env : Env) (ssl buf : UInt64) :
    (s.enter env ssl buf).head?.bind ReadCall.slot =
      if (s.kernel.sslCtxs[env.pidTgid]?.isSome || env.insert) = true then some ⟨ssl, buf⟩
      else none := by
  change ReadCall.slot _ = _
  unfold ReadCall.slot
  rw [Bool.not_false, Bool.and_true]

theorem Paired.read (h : Paired s) (env : Env) (ssl buf : UInt64) :
    Paired (s.step (env, .sslRead ssl buf)) := by
  refine ⟨fun id => ?_, fun id c hc => ?_⟩
  · change (env.update s.kernel.sslCtxs env.pidTgid ⟨ssl, buf⟩)[id]? =
      (if id = env.pidTgid then s.enter env ssl buf else s.calls id).head?.bind ReadCall.slot
    rw [Kernel.update_get]
    by_cases hid : id = env.pidTgid
    · subst hid
      rw [if_pos rfl, enter_slot]
      split_ifs with h₁ h₂ h₂
      · rfl
      · exact absurd h₁.2 h₂
      · exact absurd ⟨rfl, h₂⟩ h₁
      · cases hold : s.kernel.sslCtxs[env.pidTgid]? with
        | none => rfl
        | some c => exact absurd (by rw [hold]; rfl) h₂
    · rw [if_neg fun h => hid h.1.symm, if_neg hid]
      exact h.slot id
  · change c ∈ (if id = env.pidTgid then s.enter env ssl buf else s.calls id).tail at hc
    split_ifs at hc
    · obtain ⟨d, -, rfl⟩ := List.mem_map.mp hc
      rfl
    · exact h.outer id c hc

theorem urSslRead_ctxs (k : Kernel) (env : Env) (ret : Int32) (id : UInt64) :
    (k.urSslRead env ret).sslCtxs[id]? = if env.pidTgid = id then none else k.sslCtxs[id]? := by
  cases hslot : k.sslCtxs[env.pidTgid]? with
  | none =>
    rw [Kernel.urSslRead_of_empty ret hslot]
    split_ifs with hid
    · exact hid ▸ hslot
    · rfl
  | some c =>
    have herase := Table.get_erase k.sslCtxs env.pidTgid id
    rw [Kernel.urSslRead_of_slot ret hslot]
    by_cases hret : ret > 0
    · rw [if_pos hret, Kernel.emitPlaintext_sslCtxs, herase]
    · rw [if_neg hret, herase]

theorem Paired.ret (h : Paired s) (env : Env) (r : Int32) :
    Paired (s.step (env, .sslReadRet r)) := by
  refine ⟨fun id => ?_, fun id c hc => ?_⟩
  · change (s.kernel.urSslRead env r).sslCtxs[id]? =
      (if id = env.pidTgid then (s.calls id).tail else s.calls id).head?.bind ReadCall.slot
    rw [urSslRead_ctxs]
    by_cases hid : env.pidTgid = id
    · rw [if_pos hid, if_pos hid.symm]
      -- whatever the thread returns into has had a call inside it
      cases htail : (s.calls id).tail with
      | nil => rfl
      | cons c cs =>
        have hnested : c.nested = true := h.outer id c (htail ▸ List.mem_cons_self)
        simp [ReadCall.slot, hnested]
    · rw [if_neg hid, if_neg (Ne.symm hid)]
      exact h.slot id
  · change c ∈ (if id = env.pidTgid then (s.calls id).tail else s.calls id).tail at hc
    split_ifs at hc
    · exact h.outer id c (List.mem_of_mem_tail hc)
    · exact h.outer id c hc

theorem Paired.step (h : Paired s) : Paired (s.step a) := by
  obtain ⟨env, hit⟩ := a
  cases hit with
  | sslRead ssl buf => exact h.read env ssl buf
  | sslReadRet ret => exact h.ret env ret
  | tcpSendmsg sk iter size => exact h.frame Kernel.transfer_sslCtxs rfl
  | tcpRecvmsg sk iter => exact h.frame rfl rfl
  | tcpRecvmsgRet ret => exact h.frame Kernel.krTcpRecvmsg_sslCtxs rfl
  | inetSockSetState protocol sk oldstate newstate =>
    exact h.frame (Kernel.setState_sslCtxs _ env sk protocol oldstate newstate) rfl
  | sslFree ssl => exact h.frame rfl rfl
  | sslSetFd ssl fd => exact h.frame rfl rfl
  | sslWrite ssl buf num => exact h.frame Kernel.uSslWrite_sslCtxs rfl
  | deleteFlow sk => exact h.frame rfl rfl

end Reading

/-! ### What a return is owed -/

/-- What the entry of a session has counted: bytes written, bytes read. -/
def Kernel.totalsOf (k : Kernel) (ssl : UInt64) : UInt64 × UInt64 :=
  (k.sslStats[ssl]?.map fun st => (st.ptx, st.prx)).getD (0, 0)

/-- The return is charged to the session the call was made on, and what it read is sampled from
the buffer the call was made with. -/
structure Credited (env : Env) (k k' : Kernel) (c : ReadCall) (ret : Int32) : Prop where
  prx : (k'.totalsOf c.ssl).2 = (k.totalsOf c.ssl).2 + Kernel.widen ret
  sample : ∃ d : DataEvent, k'.events = k.events ++ [.data d] ∧ d.ssl = c.ssl ∧
    d.direction = Dir.inward.code ∧ d.len.toNat = min ret.toInt.toNat (dataCap - 1) ∧
    env.readUser c.buf d.len.toNat = some (d.data.take d.len.toNat)

section Sample
variable {env : Env} {k : Kernel} {ssl buf n : UInt64} {dir : Dir} {fd : Int32} {ret : Int32}

theorem clamp_widen (h : 0 < ret) :
    (clamp (Kernel.widen ret)).toNat = min ret.toInt.toNat (dataCap - 1) := by
  have hlt := Kernel.widen_lt h
  have hclamp := clamp_eq (hlt.trans (by decide))
  rwa [Nat.toUInt64_eq, UInt64.ofNat_toNat, Kernel.widen_toNat h] at hclamp

theorem widen_ne_zero (h : 0 < ret) : Kernel.widen ret ≠ 0 := by
  intro h₀
  have hpos : 0 < ret.toInt := Int32.lt_iff_toInt_lt.mp h
  have hzero := Kernel.widen_toNat h
  rw [h₀] at hzero
  change 0 = ret.toInt.toNat at hzero
  omega

variable (ssl dir fd) in
theorem captureData_isSome : (∃ d, Kernel.captureData env ssl buf n dir fd = some d) ↔
    env.reserve = true ∧ env.readUser buf (clamp n).toNat ≠ none := by
  unfold Kernel.captureData
  cases env.reserve
  · simp
  · cases env.readUser buf (clamp n).toNat <;> simp

theorem sslStatGet_totals {st : SslStat} (h : k.sslStatGet env ssl = some st) :
    (st.ptx, st.prx) = k.totalsOf ssl := by
  unfold Kernel.sslStatGet at h
  unfold Kernel.totalsOf
  cases hs : k.sslStats[ssl]? with
  | some st' =>
    rw [hs] at h
    obtain rfl := Option.some.inj h
    rfl
  | none =>
    simp only [hs] at h
    split_ifs at h
    obtain rfl := Option.some.inj h
    rfl

theorem sslStatGet_isSome : (∃ st, k.sslStatGet env ssl = some st) ↔
    (k.sslStats[ssl]?.isSome || env.insert) = true := by
  unfold Kernel.sslStatGet
  cases k.sslStats[ssl]? with
  | some st => simp
  | none => cases env.insert <;> simp

end Sample

namespace Reading
variable {s : Reading} {a : Env × Hit}

/-- A return with data, into a buffer, is credited to its own call. -/
def Attributed (s : Reading) (a : Env × Hit) : Prop :=
  match a.2, s.calls a.1.pidTgid with
  | .sslReadRet ret, c :: _ =>
    ret > 0 → c.buf ≠ 0 → Credited a.1 s.kernel (s.kernel.step a) c ret
  | _, _ => True

/-- No call was entered inside the one that returns, and nothing the probes need failed: the slot
could be written at its entry, the session has an entry or there is room for one, the ring has
room, and the buffer can be read. -/
def Undisturbed (s : Reading) (a : Env × Hit) : Prop :=
  match a.2, s.calls a.1.pidTgid with
  | .sslReadRet ret, c :: _ =>
    ret > 0 → c.buf ≠ 0 → c.nested = false ∧ c.recorded = true ∧
      (s.kernel.sslStats[c.ssl]?.isSome || a.1.insert) = true ∧ a.1.reserve = true ∧
      a.1.readUser c.buf (min ret.toInt.toNat (dataCap - 1)) ≠ none
  | _, _ => True

/-- A return with data that the record of its own entry is left for. -/
theorem credited_of_slot_iff {k : Kernel} {env : Env} {c : ReadCall} {ret : Int32}
    (hctx : k.sslCtxs[env.pidTgid]? = some ⟨c.ssl, c.buf⟩) (hret : 0 < ret) (hbuf : c.buf ≠ 0) :
    Credited env k (k.urSslRead env ret) c ret ↔
      (k.sslStats[c.ssl]?.isSome || env.insert) = true ∧ env.reserve = true ∧
        env.readUser c.buf (min ret.toInt.toNat (dataCap - 1)) ≠ none := by
  let k' : Kernel := { k with sslCtxs := k.sslCtxs.erase env.pidTgid }
  have hstep : k.urSslRead env ret = k'.emitPlaintext env c.ssl c.buf (Kernel.widen ret) .inward :=
    (Kernel.urSslRead_of_slot ret hctx).trans (if_pos hret)
  have hcarry : Kernel.Carries c.buf (Kernel.widen ret) := ⟨hbuf, widen_ne_zero hret⟩
  have hevents : (k.urSslRead env ret).events = k.events ++
      (((k'.sslStatGet env c.ssl).bind fun st => Kernel.captureData env c.ssl c.buf
        (Kernel.widen ret) .inward (addPlain .inward (Kernel.widen ret) st).fd).map
          Event.data).toList := by
    rw [hstep, Kernel.emitPlaintext_events, if_pos hcarry]
  rw [← clamp_widen hret]
  constructor
  · rintro ⟨-, d, hev, -⟩
    rw [hevents] at hev
    have hlist := List.append_cancel_left hev
    have hsome := Option.mem_toList.mp (hlist ▸ List.mem_singleton.mpr rfl)
    obtain ⟨d', hd', -⟩ := Option.map_eq_some_iff.mp hsome
    obtain ⟨st, hst, hcap⟩ := Option.bind_eq_some_iff.mp hd'
    exact ⟨sslStatGet_isSome.mp ⟨st, hst⟩, (captureData_isSome _ _ _).mp ⟨d', hcap⟩⟩
  · rintro ⟨hstat, henv⟩
    obtain ⟨st, hst⟩ := sslStatGet_isSome.mpr hstat
    change k'.sslStatGet env c.ssl = some st at hst
    obtain ⟨d, hd⟩ := (captureData_isSome c.ssl .inward
      (addPlain .inward (Kernel.widen ret) st).fd).mpr henv
    obtain ⟨hssl, -, hdir, hlen, hdata⟩ := Kernel.captureData_some hd
    have hcount : d.len.toNat = min ret.toInt.toNat (dataCap - 1) := by
      rw [hlen, clamp_toUInt16, clamp_widen hret]
    refine ⟨?_, d, ?_, hssl, hdir, hcount, hdata⟩
    · have hprx : st.prx = (k.totalsOf c.ssl).2 := congrArg Prod.snd (sslStatGet_totals hst)
      rw [hstep, ← hprx]
      unfold Kernel.totalsOf
      rw [Kernel.emitPlaintext_stats, if_pos ⟨rfl, hcarry⟩, hst]
      rfl
    · rw [hevents, hst, Option.bind_some, hd]
      rfl

theorem not_credited_of_empty {k : Kernel} {env : Env} {c : ReadCall} {ret : Int32}
    (hctx : k.sslCtxs[env.pidTgid]? = none) : ¬Credited env k (k.urSslRead env ret) c ret := by
  rintro ⟨-, d, hev, -⟩
  rw [Kernel.urSslRead_of_empty ret hctx] at hev
  exact absurd (List.append_right_eq_self.mp hev.symm) (List.cons_ne_nil _ _)

theorem credited_iff {env : Env} {c : ReadCall} {cs : List ReadCall} {ret : Int32} (h : Paired s)
    (hc : s.calls env.pidTgid = c :: cs) (hret : 0 < ret) (hbuf : c.buf ≠ 0) :
    Credited env s.kernel (s.kernel.urSslRead env ret) c ret ↔
      c.nested = false ∧ c.recorded = true ∧
        (s.kernel.sslStats[c.ssl]?.isSome || env.insert) = true ∧ env.reserve = true ∧
        env.readUser c.buf (min ret.toInt.toNat (dataCap - 1)) ≠ none := by
  have hslot : s.kernel.sslCtxs[env.pidTgid]? = c.slot := by
    rw [h.slot, hc]
    rfl
  by_cases hown : c.recorded = true ∧ c.nested = false
  · have hctx : s.kernel.sslCtxs[env.pidTgid]? = some ⟨c.ssl, c.buf⟩ := by
      rw [hslot]
      simp [ReadCall.slot, hown]
    rw [and_iff_right hown.2, and_iff_right hown.1]
    exact credited_of_slot_iff hctx hret hbuf
  · have hctx : s.kernel.sslCtxs[env.pidTgid]? = none := by
      rw [hslot]
      unfold ReadCall.slot
      rw [if_neg]
      simpa using hown
    refine iff_of_false (not_credited_of_empty hctx) ?_
    rintro ⟨hnested, hrec, -⟩
    exact hown ⟨hrec, hnested⟩

theorem attributed_iff (h : Paired s) : Attributed s a ↔ Undisturbed s a := by
  obtain ⟨env, hit⟩ := a
  cases hit with
  | sslReadRet ret =>
    unfold Attributed Undisturbed
    cases hc : s.calls env.pidTgid with
    | nil => exact Iff.rfl
    | cons c cs => exact forall_congr' fun hret => forall_congr' fun hbuf => credited_iff h hc hret hbuf
  | tcpSendmsg | tcpRecvmsg | tcpRecvmsgRet | inetSockSetState | sslFree | sslSetFd | sslWrite
  | sslRead | deleteFlow => exact Iff.rfl

/-- **`SSL_read` is attributed exactly when it does not nest.** In every run, every return is
credited to its own call if and only if no call was entered inside it and nothing the probes need
failed. -/
theorem reads_attributed_iff (hits : List (Env × Hit)) :
    Meets step Attributed {} hits ↔ Meets step Undisturbed {} hits :=
  meets_iff_meets (I := Paired) (fun _ _ h => h.step) (fun _ _ h => attributed_iff h)
    ⟨fun _ => Table.get_empty _, fun _ _ hc => absurd hc List.not_mem_nil⟩

/-- A thread that can read its memory. -/
def reader : Env := { Env.thread 7 with user := fun _ => some 0x41 }

/-- TLS inside TLS: to fill its own buffer session 1 reads from session 2. -/
def tunnel : List (Env × Hit) :=
  [(reader, .sslRead 1 0x100), (reader, .sslRead 2 0x200), (reader, .sslReadRet 5),
    (reader, .sslReadRet 3)]

theorem outer_read_lost : ¬Meets step Attributed {} tunnel ∧
    (tunnel.foldl step {}).kernel.totalsOf 1 = (0, 0) ∧
    (tunnel.foldl step {}).kernel.totalsOf 2 = (0, 5) := by
  refine ⟨fun h => ?_, by decide +kernel, by decide +kernel⟩
  have hlast := h.2.2.2.1 (by decide) (by decide)
  have hprx := hlast.prx
  revert hprx
  decide +kernel

end Reading
end Tlstat.Bpf
