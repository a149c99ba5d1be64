import Mathlib.Algebra.Group.Nat.Defs
import Tlstat.Bpf.Probes

/-! What each probe does to each map, stated once. -/

namespace Tlstat.Bpf
open Base

/-! ### Lengths -/

theorem clamp_le (n : UInt64) : (clamp n).toNat ≤ 1023 := by
  unfold clamp
  dsimp only
  rw [UInt32.toNat_and]
  exact Nat.and_le_right

theorem clamp_toUInt16 (n : UInt64) : (clamp n).toUInt16.toNat = (clamp n).toNat := by
  have h := clamp_le n
  rw [UInt32.toNat_toUInt16]
  exact Nat.mod_eq_of_lt (by omega)

/-- Below `2 ^ 32` the 32-bit arithmetic of the clamp is a minimum. -/
theorem clamp_eq {n : ℕ} (h : n < 2 ^ 32) : (clamp n.toUInt64).toNat = min n 1023 := by
  have hn : n.toUInt64.toUInt32.toNat = n := by
    rw [UInt64.toNat_toUInt32, Nat.toUInt64_eq, UInt64.toNat_ofNat']
    omega
  have hmask : ∀ x : UInt32, x.toNat ≤ 1023 → (x &&& 1023).toNat = x.toNat := by
    intro x hx
    have h2 : (1023 : UInt32).toNat = 2 ^ 10 - 1 := by decide
    rw [UInt32.toNat_and, h2, Nat.and_two_pow_sub_one_eq_mod]
    omega
  unfold clamp
  dsimp only
  split_ifs with hc
  · have hlt : 1023 < n := by
      rw [← hn]
      exact hc
    exact (Nat.min_eq_right hlt.le).symm
  · have hle : n.toUInt64.toUInt32.toNat ≤ 1023 := UInt32.not_lt.mp hc
    rw [hmask _ hle, hn]
    rw [hn] at hle
    exact (Nat.min_eq_left hle).symm

/-- A positive `int` keeps its value. -/
theorem Kernel.widen_toNat {ret : Int32} (h : 0 < ret) : (widen ret).toNat = ret.toInt.toNat := by
  have hpos : 0 < ret.toInt := Int32.lt_iff_toInt_lt.mp h
  have h64 : ret.toInt64.toInt = ret.toInt := Int32.toInt_toInt64 ret
  have hnonneg : 0 ≤ ret.toInt64 := by
    rw [Int64.le_iff_toInt_le, h64]
    exact Int.le_of_lt hpos
  unfold widen
  rw [Int64.toNat_toUInt64_of_le hnonneg]
  change ret.toInt64.toInt.toNat = _
  rw [h64]

theorem Kernel.widen_lt {ret : Int32} (h : 0 < ret) : (widen ret).toNat < 2 ^ 31 := by
  have hlt := ret.toInt_lt
  rw [widen_toNat h]
  omega

/-! ### Reading user memory -/

theorem Env.readUser_succ (env : Env) (ptr : UInt64) (n : ℕ) : env.readUser ptr (n + 1) =
    (env.readUser ptr n).bind fun bs => (env.user (ptr + n.toUInt64)).map fun b => bs ++ [b] := by
  unfold readUser
  rw [List.range_succ, List.mapM_append]
  cases (List.range n).mapM fun i => env.user (ptr + i.toUInt64) with
  | none => rfl
  | some bs => cases h : env.user (ptr + n.toUInt64) <;> simp [h]

theorem Env.readUser_take {env : Env} {ptr : UInt64} {n : ℕ} {bs : Bytes}
    (h : env.readUser ptr n = some bs) :
    bs.length = n ∧ ∀ m ≤ n, env.readUser ptr m = some (bs.take m) := by
  induction n generalizing bs with
  | zero =>
    obtain rfl : bs = [] := (Option.some.inj h).symm
    refine ⟨rfl, fun m hm => ?_⟩
    obtain rfl := Nat.le_zero.mp hm
    exact h
  | succ n ih =>
    rw [readUser_succ] at h
    obtain ⟨as, has, hb⟩ := Option.bind_eq_some_iff.mp h
    obtain ⟨b, -, rfl⟩ := Option.map_eq_some_iff.mp hb
    obtain ⟨hlen, htake⟩ := ih has
    refine ⟨by simp [hlen], fun m hm => ?_⟩
    rcases Nat.lt_or_ge n m with hlt | hle
    · obtain rfl : m = n + 1 := by omega
      rw [List.take_of_length_le (by simp [hlen]), readUser_succ]
      exact h
    · rw [htake m hle, List.take_append_of_le_length (by omega)]

/-- What an event holds up to its length is what was read. -/
theorem Env.overlay_read {env : Env} {ptr n : UInt64} {cap : ℕ} {bytes : Bytes}
    (h : env.readUser ptr (clamp n).toNat = some bytes) (hcap : 1023 ≤ cap) :
    env.readUser ptr (clamp n).toUInt16.toNat =
      some ((env.overlay cap bytes).take (clamp n).toUInt16.toNat) := by
  have hlen : bytes.length = (clamp n).toNat := (readUser_take h).1
  have hle : bytes.length ≤ cap := by
    rw [hlen]
    exact (clamp_le n).trans hcap
  rw [clamp_toUInt16, h, ← hlen, env.overlay_take hle]

namespace Kernel
variable {k : Kernel} {env : Env} {ssl ssl' buf n : UInt64} {dir : Dir} {sk sk' : UInt64}

theorem update_get {β : Type} (t : Table β) (key key' : UInt64) (v : β) :
    (env.update t key v)[key']? =
      if key = key' ∧ (t[key]?.isSome || env.insert) = true then some v else t[key']? := by
  unfold Env.update
  split_ifs with h₁ h₂ h₂
  · rw [Table.get_insert, if_pos h₂.1]
  · rw [Table.get_insert, if_neg fun h => h₂ ⟨h, h₁⟩]
  · exact absurd h₂.2 h₁
  · rfl

/-! ### Plaintext -/

def Carries (buf n : UInt64) : Prop := buf ≠ 0 ∧ n ≠ 0

instance : Decidable (Carries buf n) := inferInstanceAs (Decidable (_ ∧ _))

theorem sslStatGet_none (h : k.sslStatGet env ssl = none) : k.sslStats[ssl]? = none := by
  unfold sslStatGet at h
  cases hs : k.sslStats[ssl]? with
  | none => rfl
  | some s =>
    rw [hs] at h
    cases h

theorem emitPlaintext_of_not_carries (h : ¬Carries buf n) :
    k.emitPlaintext env ssl buf n dir = k := by
  have h₀ : buf = 0 ∨ n = 0 := by
    unfold Carries at h
    tauto
  exact if_pos (by simpa using h₀)

theorem emitPlaintext_of_carries (h : Carries buf n) : k.emitPlaintext env ssl buf n dir =
    match k.sslStatGet env ssl with
    | none => k
    | some s =>
      { k with sslStats := k.sslStats.insert ssl (addPlain dir n s) }.submit
        ((captureData env ssl buf n dir (addPlain dir n s).fd).map .data) := by
  have h₀ : ¬(buf = 0 ∨ n = 0) := not_or.mpr h
  exact if_neg (by simpa using h₀)

theorem emitPlaintext_stats : (k.emitPlaintext env ssl buf n dir).sslStats[ssl']? =
    if ssl = ssl' ∧ Carries buf n then (k.sslStatGet env ssl).map (addPlain dir n)
    else k.sslStats[ssl']? := by
  by_cases h : Carries buf n
  · rw [emitPlaintext_of_carries h]
    simp only [h, and_true]
    cases hs : k.sslStatGet env ssl with
    | none =>
      split_ifs with hk
      · exact hk ▸ sslStatGet_none hs
      · rfl
    | some s => exact Table.get_insert k.sslStats ssl ssl' _
  · rw [emitPlaintext_of_not_carries h, if_neg fun hk => h hk.2]

theorem emitPlaintext_events : (k.emitPlaintext env ssl buf n dir).events = k.events ++
    (if Carries buf n then
      ((k.sslStatGet env ssl).bind fun s => captureData env ssl buf n dir (addPlain dir n s).fd).map
        Event.data
    else none).toList := by
  by_cases h : Carries buf n
  · rw [emitPlaintext_of_carries h, if_pos h]
    cases k.sslStatGet env ssl with
    | none => exact (List.append_nil _).symm
    | some s => rfl
  · rw [emitPlaintext_of_not_carries h, if_neg h]
    exact (List.append_nil _).symm

/-- `capture_data` samples the session from the buffer. -/
theorem captureData_some {fd : Int32} {d : DataEvent}
    (h : captureData env ssl buf n dir fd = some d) :
    d.ssl = ssl ∧ d.fd = fd ∧ d.direction = dir.code ∧ d.len = (clamp n).toUInt16 ∧
      env.readUser buf d.len.toNat = some (d.data.take d.len.toNat) := by
  unfold captureData at h
  split_ifs at h
  cases hr : env.readUser buf (clamp n).toNat with
  | none => simp [hr] at h
  | some bytes =>
    simp only [hr] at h
    obtain rfl := Option.some.inj h
    exact ⟨rfl, rfl, rfl, rfl, Env.overlay_read hr (by decide)⟩

section Frame

/-- `emit_plaintext` writes `ssl_stats` and the ring only. -/
theorem emitPlaintext_shape (k : Kernel) (env : Env) (ssl buf n : UInt64) (dir : Dir) :
    ∃ stats evs, k.emitPlaintext env ssl buf n dir = { k with sslStats := stats, events := evs } := by
  unfold emitPlaintext
  split_ifs
  · exact ⟨_, _, rfl⟩
  · cases k.sslStatGet env ssl with
    | none => exact ⟨_, _, rfl⟩
    | some s => exact ⟨_, _, rfl⟩

@[simp] theorem emitPlaintext_flows : (k.emitPlaintext env ssl buf n dir).flows = k.flows := by
  obtain ⟨stats, evs, h⟩ := emitPlaintext_shape k env ssl buf n dir
  rw [h]

@[simp] theorem emitPlaintext_sslFds : (k.emitPlaintext env ssl buf n dir).sslFds = k.sslFds := by
  obtain ⟨stats, evs, h⟩ := emitPlaintext_shape k env ssl buf n dir
  rw [h]

@[simp] theorem emitPlaintext_recvCtxs :
    (k.emitPlaintext env ssl buf n dir).recvCtxs = k.recvCtxs := by
  obtain ⟨stats, evs, h⟩ := emitPlaintext_shape k env ssl buf n dir
  rw [h]

@[simp] theorem emitPlaintext_sslCtxs :
    (k.emitPlaintext env ssl buf n dir).sslCtxs = k.sslCtxs := by
  obtain ⟨stats, evs, h⟩ := emitPlaintext_shape k env ssl buf n dir
  rw [h]

end Frame

/-! ### Wire -/

section Wire
variable {f f' : Flow} {count : Flow → Flow}

theorem arm_eq (h : arm env f buf n dir = some f') : f' = { f with isTls := f'.isTls } := by
  unfold arm at h
  split_ifs at h
  · cases hr : env.readUser buf 5 with
    | none => simp [hr] at h
    | some hdr =>
      simp only [hr] at h
      split_ifs at h
      obtain rfl := Option.some.inj h
      rfl
  · obtain rfl := Option.some.inj h
    rfl

theorem arm_lt (h : arm env f buf n dir = some f') : wireCount dir f < maxWireEvents := by
  unfold arm at h
  split_ifs at h with h₁ h₂ <;> exact UInt8.not_le.mp h₂

/-- `capture_wire` writes `is_tls` and the event counters only. -/
theorem captureWire_fst (env : Env) (sk : UInt64) (f : Flow) (buf n : UInt64) (dir : Dir) :
    ∃ t o i, (captureWire env sk f buf n dir).1 = { f with isTls := t, wireOut := o, wireIn := i } := by
  unfold captureWire
  cases ha : arm env f buf n dir with
  | none => exact ⟨f.isTls, f.wireOut, f.wireIn, rfl⟩
  | some f' =>
    have hf := arm_eq ha
    dsimp only
    split_ifs
    · exact ⟨_, _, _, hf⟩
    · cases env.readUser buf (clamp n).toNat with
      | none => exact ⟨_, _, _, hf⟩
      | some bytes =>
        rw [hf]
        cases dir <;> exact ⟨_, _, _, rfl⟩

theorem captureWire_snd {e : WireEvent} (h : (captureWire env sk f buf n dir).2 = some e) :
    e.sk = sk ∧ e.direction = dir.code ∧ e.len = (clamp n).toUInt16 ∧
      env.readUser buf e.len.toNat = some (e.data.take e.len.toNat) := by
  unfold captureWire at h
  cases ha : arm env f buf n dir with
  | none => simp [ha] at h
  | some f' =>
    simp only [ha] at h
    split_ifs at h
    cases hr : env.readUser buf (clamp n).toNat with
    | none => simp [hr] at h
    | some bytes =>
      simp only [hr] at h
      obtain rfl := Option.some.inj h
      exact ⟨rfl, rfl, rfl, Env.overlay_read hr (by decide)⟩

/-- The counter of the direction counts the events, and the other one stands still. -/
theorem captureWire_count (env : Env) (sk : UInt64) (f : Flow) (buf n : UInt64) (dir dir' : Dir) :
    (wireCount dir' (captureWire env sk f buf n dir).1).toNat = (wireCount dir' f).toNat +
      if dir' = dir then (captureWire env sk f buf n dir).2.toList.length else 0 := by
  unfold captureWire
  cases ha : arm env f buf n dir with
  | none => simp
  | some f' =>
    have hf : wireCount dir' f' = wireCount dir' f := by
      rw [arm_eq ha]
      cases dir' <;> rfl
    have hlt := arm_lt ha
    dsimp only
    split_ifs with hr hd hd
    · simp [hf]
    · simp [hf]
    · subst hd
      cases env.readUser buf (clamp n).toNat with
      | none => simp [hf]
      | some bytes =>
        have hlt' : (wireCount dir' f).toNat < 16 := hlt
        have hbump : wireCount dir' (bumpWire dir' f') = wireCount dir' f + 1 := by
          rw [← hf]
          cases dir' <;> rfl
        simp only [hbump, Option.toList_some, List.length_singleton, UInt8.toNat_add]
        exact Nat.mod_eq_of_lt (by simp; omega)
    · cases env.readUser buf (clamp n).toNat with
      | none => simp [hf]
      | some bytes =>
        have hbump : wireCount dir' (bumpWire dir f') = wireCount dir' f' := by
          cases dir <;> cases dir' <;> first | rfl | exact absurd rfl hd
        simp [hbump, hf]

/-- A transfer writes `flows` and the ring only. -/
theorem transfer_shape (k : Kernel) (env : Env) (sk : UInt64) (count : Flow → Flow) (buf n : UInt64)
    (dir : Dir) :
    ∃ fs evs, k.transfer env sk count buf n dir = { k with flows := fs, events := evs } := by
  unfold transfer
  cases k.flowGet env sk with
  | none => exact ⟨_, _, rfl⟩
  | some f => exact ⟨_, _, rfl⟩

@[simp] theorem transfer_recvCtxs : (k.transfer env sk count buf n dir).recvCtxs = k.recvCtxs := by
  obtain ⟨fs, evs, h⟩ := transfer_shape k env sk count buf n dir
  rw [h]

@[simp] theorem transfer_sslCtxs : (k.transfer env sk count buf n dir).sslCtxs = k.sslCtxs := by
  obtain ⟨fs, evs, h⟩ := transfer_shape k env sk count buf n dir
  rw [h]

@[simp] theorem transfer_sslStats : (k.transfer env sk count buf n dir).sslStats = k.sslStats := by
  obtain ⟨fs, evs, h⟩ := transfer_shape k env sk count buf n dir
  rw [h]

@[simp] theorem transfer_sslFds : (k.transfer env sk count buf n dir).sslFds = k.sslFds := by
  obtain ⟨fs, evs, h⟩ := transfer_shape k env sk count buf n dir
  rw [h]

theorem flowGet_none (h : k.flowGet env sk = none) : k.flows[sk]? = none := by
  unfold flowGet at h
  cases hf : k.flows[sk]? with
  | none => rfl
  | some f =>
    rw [hf] at h
    cases h

theorem transfer_get : (k.transfer env sk count buf n dir).flows[sk']? =
    if sk = sk' then (k.flowGet env sk).map fun f => (captureWire env sk (count f) buf n dir).1
    else k.flows[sk']? := by
  unfold transfer
  cases hf : k.flowGet env sk with
  | none =>
    split_ifs with hk
    · exact hk ▸ flowGet_none hf
    · rfl
  | some f => exact Table.get_insert k.flows sk sk' _

/-- A field of the entry that neither the backfill nor the capture writes: a transfer does to it
what it does to the counters, if there is an entry to be had. -/
theorem transfer_field {β : Type} (get : Flow → β) (g : β → β)
    (hwire : ∀ f t o i, get { f with isTls := t, wireOut := o, wireIn := i } = get f)
    (hident : ∀ env sk f, get (identify env sk f) = get f) (hcount : ∀ f, get (count f) = g (get f)) :
    get ((k.transfer env sk count buf n dir).flows[sk']?.getD {}) =
      if sk = sk' ∧ (k.flows[sk]?.isSome || env.insert) = true
      then g (get (k.flows[sk]?.getD {})) else get (k.flows[sk']?.getD {}) := by
  have hdone : ∀ f, get (captureWire env sk (count (identify env sk f)) buf n dir).1 = g (get f) := by
    intro f
    obtain ⟨t, o, i, hcap⟩ := captureWire_fst env sk (count (identify env sk f)) buf n dir
    rw [hcap, hwire, hcount, hident]
  rw [transfer_get]
  by_cases hsk : sk = sk'
  · subst hsk
    rw [if_pos rfl]
    unfold flowGet
    cases hf : k.flows[sk]? with
    | some f => exact (hdone f).trans (if_pos ⟨rfl, rfl⟩).symm
    | none =>
      cases hins : env.insert
      · exact (if_neg fun h => Bool.false_ne_true h.2).symm
      · exact (hdone {}).trans (if_pos ⟨rfl, rfl⟩).symm
  · rw [if_neg hsk, if_neg fun h => hsk h.1]

theorem transfer_events : (k.transfer env sk count buf n dir).events = k.events ++
    (((k.flowGet env sk).bind fun f => (captureWire env sk (count f) buf n dir).2).map
      Event.wire).toList := by
  unfold transfer
  cases k.flowGet env sk with
  | none => exact (List.append_nil _).symm
  | some f => rfl

end Wire

/-! ### The probes by their parts -/

section Parts
variable (k env ssl buf)

/-- `u_ssl_write` is one `emit_plaintext`, or nothing. -/
theorem uSslWrite_cases {P : Kernel → Prop} (num : Int32) (hstay : P k)
    (hemit : P (k.emitPlaintext env ssl buf (widen num) .out)) :
    P (k.uSslWrite env ssl buf num) := by
  unfold uSslWrite
  split_ifs
  · exact hemit
  · exact hstay

/-- `ur_ssl_read` takes the record of the entry off, and with data it is one `emit_plaintext`. -/
theorem urSslRead_cases {P : Kernel → Prop} (ret : Int32) (hnone : P k)
    (hpop : P { k with sslCtxs := k.sslCtxs.erase env.pidTgid })
    (hemit : ∀ c : SslCtx, P ({ k with sslCtxs := k.sslCtxs.erase env.pidTgid }.emitPlaintext env
      c.ssl c.buf (widen ret) .inward)) :
    P (k.urSslRead env ret) := by
  unfold urSslRead
  cases k.sslCtxs[env.pidTgid]? with
  | none => exact hnone
  | some c =>
    dsimp only
    split_ifs
    · exact hemit c
    · exact hpop

/-- `kr_tcp_recvmsg` takes the record of the entry off, and with data it is one transfer on the
recorded socket. -/
theorem krTcpRecvmsg_cases {P : Kernel → Prop} (ret : Int32) (hnone : P k)
    (hpop : P { k with recvCtxs := k.recvCtxs.erase env.pidTgid })
    (htransfer : ∀ c : RecvCtx, k.recvCtxs[env.pidTgid]? = some c → 0 < ret →
      P ({ k with recvCtxs := k.recvCtxs.erase env.pidTgid }.transfer env c.sk
        (fun f => { f with rx := f.rx + widen ret }) c.base (widen ret) .inward)) :
    P (k.krTcpRecvmsg env ret) := by
  unfold krTcpRecvmsg
  cases hc : k.recvCtxs[env.pidTgid]? with
  | none => exact hnone
  | some c =>
    dsimp only
    split_ifs with hret
    · exact hpop
    · rw [Bool.or_eq_true, not_or, decide_eq_true_iff] at hret
      exact htransfer c hc (Int32.not_le.mp hret.1)

variable {k env ssl buf} {num ret : Int32}

/-- The return probe, when the thread's entry is there: the transfer of that very call. -/
theorem krTcpRecvmsg_of_slot {c : RecvCtx} (ret : Int32) (hslot : k.recvCtxs[env.pidTgid]? = some c)
    (hsk : c.sk ≠ 0) :
    k.krTcpRecvmsg env ret =
      if ret > 0 then
        { k with recvCtxs := k.recvCtxs.erase env.pidTgid }.transfer env c.sk
          (fun f => { f with rx := f.rx + widen ret }) c.base (widen ret) .inward
      else { k with recvCtxs := k.recvCtxs.erase env.pidTgid } := by
  unfold krTcpRecvmsg
  rw [hslot]
  dsimp only
  by_cases hret : ret > 0
  · have hgo : ¬((ret ≤ 0 : Bool) || (c.sk = 0 : Bool)) = true := by
      rw [Bool.or_eq_true, not_or, decide_eq_true_iff, decide_eq_true_iff]
      exact ⟨Int32.not_le.mpr hret, hsk⟩
    rw [if_neg hgo, if_pos hret]
  · have hstop : ((ret ≤ 0 : Bool) || (c.sk = 0 : Bool)) = true := by
      rw [Bool.or_eq_true, decide_eq_true_iff]
      exact .inl (Int32.not_lt.mp hret)
    rw [if_pos hstop, if_neg hret]

theorem krTcpRecvmsg_recvCtxs (ret : Int32) (id : UInt64) : (k.krTcpRecvmsg env ret).recvCtxs[id]? =
    if env.pidTgid = id then none else k.recvCtxs[id]? := by
  cases hslot : k.recvCtxs[env.pidTgid]? with
  | none =>
    unfold krTcpRecvmsg
    rw [hslot]
    split_ifs with hid
    · exact hid ▸ hslot
    · rfl
  | some c =>
    have hpop : (k.krTcpRecvmsg env ret).recvCtxs = k.recvCtxs.erase env.pidTgid := by
      unfold krTcpRecvmsg
      rw [hslot]
      dsimp only
      split_ifs
      · rfl
      · exact transfer_recvCtxs
    rw [hpop, Table.get_erase]

/-- A return that no record of an entry is left for. -/
theorem urSslRead_of_empty (ret : Int32) (hslot : k.sslCtxs[env.pidTgid]? = none) :
    k.urSslRead env ret = k := by
  unfold urSslRead
  rw [hslot]

theorem urSslRead_of_slot {c : SslCtx} (ret : Int32) (hslot : k.sslCtxs[env.pidTgid]? = some c) :
    k.urSslRead env ret =
      if ret > 0 then
        { k with sslCtxs := k.sslCtxs.erase env.pidTgid }.emitPlaintext env c.ssl c.buf (widen ret)
          .inward
      else { k with sslCtxs := k.sslCtxs.erase env.pidTgid } := by
  unfold urSslRead
  rw [hslot]

@[simp] theorem uSslWrite_flows : (k.uSslWrite env ssl buf num).flows = k.flows :=
  uSslWrite_cases (P := fun k' => k'.flows = k.flows) k env ssl buf num rfl emitPlaintext_flows
@[simp] theorem uSslWrite_recvCtxs : (k.uSslWrite env ssl buf num).recvCtxs = k.recvCtxs :=
  uSslWrite_cases (P := fun k' => k'.recvCtxs = k.recvCtxs) k env ssl buf num rfl
    emitPlaintext_recvCtxs
@[simp] theorem uSslWrite_sslCtxs : (k.uSslWrite env ssl buf num).sslCtxs = k.sslCtxs :=
  uSslWrite_cases (P := fun k' => k'.sslCtxs = k.sslCtxs) k env ssl buf num rfl
    emitPlaintext_sslCtxs
@[simp] theorem uSslWrite_sslFds : (k.uSslWrite env ssl buf num).sslFds = k.sslFds :=
  uSslWrite_cases (P := fun k' => k'.sslFds = k.sslFds) k env ssl buf num rfl emitPlaintext_sslFds

@[simp] theorem urSslRead_flows : (k.urSslRead env ret).flows = k.flows :=
  urSslRead_cases (P := fun k' => k'.flows = k.flows) k env ret rfl rfl fun _ => emitPlaintext_flows
@[simp] theorem urSslRead_recvCtxs : (k.urSslRead env ret).recvCtxs = k.recvCtxs :=
  urSslRead_cases (P := fun k' => k'.recvCtxs = k.recvCtxs) k env ret rfl rfl fun _ =>
    emitPlaintext_recvCtxs
@[simp] theorem urSslRead_sslFds : (k.urSslRead env ret).sslFds = k.sslFds :=
  urSslRead_cases (P := fun k' => k'.sslFds = k.sslFds) k env ret rfl rfl fun _ =>
    emitPlaintext_sslFds

@[simp] theorem krTcpRecvmsg_sslCtxs : (k.krTcpRecvmsg env ret).sslCtxs = k.sslCtxs :=
  krTcpRecvmsg_cases (P := fun k' => k'.sslCtxs = k.sslCtxs) k env ret rfl rfl fun _ _ _ =>
    transfer_sslCtxs
@[simp] theorem krTcpRecvmsg_sslStats : (k.krTcpRecvmsg env ret).sslStats = k.sslStats :=
  krTcpRecvmsg_cases (P := fun k' => k'.sslStats = k.sslStats) k env ret rfl rfl fun _ _ _ =>
    transfer_sslStats
@[simp] theorem krTcpRecvmsg_sslFds : (k.krTcpRecvmsg env ret).sslFds = k.sslFds :=
  krTcpRecvmsg_cases (P := fun k' => k'.sslFds = k.sslFds) k env ret rfl rfl fun _ _ _ =>
    transfer_sslFds

end Parts

/-! ### State changes -/

section State
variable (k env) (protocol : UInt16) (sk) (oldstate newstate : TcpState)

theorem setState_shape : k.tpInetSockSetState env protocol sk oldstate newstate = k ∨
    ∃ f, k.tpInetSockSetState env protocol sk oldstate newstate = k.setFlow sk f := by
  unfold tpInetSockSetState
  split_ifs with _ _ hins
  · exact .inl rfl
  · cases k.flows[sk]? with
    | none => exact .inr ⟨_, rfl⟩
    | some f => exact .inr ⟨_, rfl⟩
  · cases k.flows[sk]? with
    | none => exact .inl rfl
    | some f => exact .inr ⟨_, rfl⟩
  · cases k.flows[sk]? with
    | none => exact .inl rfl
    | some f => exact .inr ⟨_, rfl⟩
  · exact .inl rfl

theorem setState_frame :
    ∃ fs, k.tpInetSockSetState env protocol sk oldstate newstate = { k with flows := fs } := by
  rcases setState_shape k env sk protocol oldstate newstate with h | ⟨f, h⟩
  · exact ⟨_, h⟩
  · exact ⟨_, h⟩

@[simp] theorem setState_recvCtxs :
    (k.tpInetSockSetState env protocol sk oldstate newstate).recvCtxs = k.recvCtxs := by
  obtain ⟨fs, h⟩ := setState_frame k env sk protocol oldstate newstate
  rw [h]

@[simp] theorem setState_sslCtxs :
    (k.tpInetSockSetState env protocol sk oldstate newstate).sslCtxs = k.sslCtxs := by
  obtain ⟨fs, h⟩ := setState_frame k env sk protocol oldstate newstate
  rw [h]

@[simp] theorem setState_sslStats :
    (k.tpInetSockSetState env protocol sk oldstate newstate).sslStats = k.sslStats := by
  obtain ⟨fs, h⟩ := setState_frame k env sk protocol oldstate newstate
  rw [h]

@[simp] theorem setState_sslFds :
    (k.tpInetSockSetState env protocol sk oldstate newstate).sslFds = k.sslFds := by
  obtain ⟨fs, h⟩ := setState_frame k env sk protocol oldstate newstate
  rw [h]

@[simp] theorem setState_events :
    (k.tpInetSockSetState env protocol sk oldstate newstate).events = k.events := by
  obtain ⟨fs, h⟩ := setState_frame k env sk protocol oldstate newstate
  rw [h]

theorem setState_get_other (h : sk ≠ sk') :
    (k.tpInetSockSetState env protocol sk oldstate newstate).flows[sk']? = k.flows[sk']? := by
  rcases setState_shape k env sk protocol oldstate newstate with hk | ⟨f, hk⟩
  · rw [hk]
  · rw [hk]
    exact (Table.get_insert ..).trans (if_neg h)

/-- A state change writes the direction or the close mark of the entry, and no other field. -/
theorem setState_field {β : Type} (get : Flow → β) (sk' : UInt64)
    (hdir : ∀ f d, get { f with direction := d } = get f)
    (hclosed : ∀ f c, get { f with closed := c } = get f) :
    get ((k.tpInetSockSetState env protocol sk oldstate newstate).flows[sk']?.getD {}) =
      get (k.flows[sk']?.getD {}) := by
  have hset : ∀ f, ((k.setFlow sk f).flows[sk]?.getD {}) = f := by
    intro f
    unfold setFlow
    rw [Table.get_insert_self]
    rfl
  by_cases hsk : sk = sk'
  · subst hsk
    unfold tpInetSockSetState
    split_ifs
    · rfl
    · cases hf : k.flows[sk]? with
      | none => exact (congrArg get (hset _)).trans (hdir {} _)
      | some f => exact (congrArg get (hset _)).trans (hdir f _)
    · cases hf : k.flows[sk]? with
      | none => rw [hf]
      | some f => exact (congrArg get (hset _)).trans (hdir f _)
    · cases hf : k.flows[sk]? with
      | none => rw [hf]
      | some f => exact (congrArg get (hset _)).trans (hclosed f _)
    · rfl
  · rw [setState_get_other k env sk protocol oldstate newstate hsk]

variable {newstate}

theorem setState_of_quiet (h : newstate ≠ .established ∧ newstate ≠ .close ∧ newstate ≠ .closeWait) :
    k.tpInetSockSetState env protocol sk oldstate newstate = k := by
  unfold tpInetSockSetState
  rw [if_neg h.1, if_neg (not_or.mpr h.2), ite_self]

theorem setState_established :
    (k.tpInetSockSetState env ipprotoTcp sk oldstate .established).flows[sk]? =
      (k.flows[sk]?.or (if env.insert then some {} else none)).map fun f =>
        { f with direction := (openedBy oldstate).code } := by
  unfold tpInetSockSetState
  rw [if_neg (by simp), if_pos rfl]
  cases hf : k.flows[sk]? with
  | some f => exact Table.get_insert_self ..
  | none =>
    dsimp only
    split_ifs
    · exact Table.get_insert_self ..
    · exact hf

theorem setState_closed (h : newstate = .close ∨ newstate = .closeWait) :
    (k.tpInetSockSetState env ipprotoTcp sk oldstate newstate).flows[sk]? =
      k.flows[sk]?.map fun f => { f with closed := 1 } := by
  have hne : newstate ≠ .established := by
    rcases h with rfl | rfl <;> decide
  unfold tpInetSockSetState
  rw [if_neg (by simp), if_neg hne, if_pos h]
  cases hf : k.flows[sk]? with
  | some f => exact Table.get_insert_self ..
  | none => exact hf

end State

end Kernel
end Tlstat.Bpf
