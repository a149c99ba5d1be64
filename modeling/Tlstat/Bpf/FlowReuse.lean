import Tlstat.Base.Run
import Tlstat.Bpf.Spec

/-! When a flow entry describes one connection: what the probes count for a socket after a
transition to `TCP_ESTABLISHED`, compared with an account kept from the hits alone since the
pointer came to name the connection. -/

namespace Tlstat.Bpf
open Base

/-- Whose connection it is: the process and the 4-tuple. -/
structure Identity where
  pid : UInt32
  comm : Bytes
  sport : UInt16
  dport : UInt16
  v6 : Bool
  saddr : Words
  daddr : Words
deriving DecidableEq, Repr

/-- An IPv4 entry uses the first address words only. -/
def Flow.identity (f : Flow) : Identity :=
  if f.isIpv6 = 0 then
    ⟨f.pid, f.comm, f.sport, f.dport, false, { w₀ := f.saddr.w₀ }, { w₀ := f.daddr.w₀ }⟩
  else ⟨f.pid, f.comm, f.sport, f.dport, true, f.saddr, f.daddr⟩

/-- A process on the connection whose socket is `t`. -/
def Sock.identity (t : Sock) (pid : UInt32) (comm : Bytes) : Identity :=
  if t.family = afInet6 then ⟨pid, comm, t.num, ntohs t.dport, true, t.v6RcvSaddr, t.v6Daddr⟩
  else ⟨pid, comm, t.num, ntohs t.dport, false, { w₀ := t.rcvSaddr }, { w₀ := t.daddr }⟩

def Env.caller (env : Env) (t : Sock) : Identity := t.identity env.pid env.comm

theorem identify_identity {env : Env} {sk : UInt64} {f : Flow} (h : f.pid = 0) :
    (identify env sk f).identity = env.caller (env.sock sk) := by
  unfold identify Env.caller Sock.identity
  rw [if_pos h]
  unfold readTuple
  dsimp only
  split_ifs <;> rfl

def isWire (dir : Dir) (sk : UInt64) : Event → Bool
  | .wire e => e.sk = sk && e.direction = dir.code
  | _ => false

/-- What one connection did since the pointer came to name it or since its entry was made: the bytes
of its calls, the wire events submitted for it, who made its first call, and which threads are
inside `tcp_recvmsg` on it. -/
structure Account where
  tx : UInt64 := 0
  rx : UInt64 := 0
  wireOut : ℕ := 0
  wireIn : ℕ := 0
  who : Option Identity := none
  calls : UInt64 → Bool := fun _ => false

namespace Account

def first (acc : Account) (i : Identity) : Identity :=
  match acc.who with
  | none => i
  | some j => if j.pid = 0 then i else j

def transfer (dir : Dir) (n : UInt64) (events : ℕ) (i : Identity) (acc : Account) : Account :=
  match dir with
  | .out => { acc with
      tx := acc.tx + n
      wireOut := acc.wireOut + events
      who := some (acc.first i) }
  | .inward => { acc with
      rx := acc.rx + n
      wireIn := acc.wireIn + events
      who := some (acc.first i) }

/-- `t` is the socket of the connection as it stands while established. -/
def hit (sk : UInt64) (t : Sock) (k k' : Kernel) (x : Env × Hit) (acc : Account) : Account :=
  let events := fun dir => (k'.events.drop k.events.length).countP (isWire dir sk)
  match x.2 with
  | .tcpSendmsg sk' _ size =>
    if sk' = sk then acc.transfer .out size (events .out) (x.1.caller t) else acc
  | .tcpRecvmsg sk' _ =>
    if k.recvCtxs[x.1.pidTgid]?.isSome || x.1.insert then
      { acc with calls := fun id => if id = x.1.pidTgid then sk' = sk else acc.calls id }
    else acc
  | .tcpRecvmsgRet ret =>
    let left := { acc with calls := fun id => if id = x.1.pidTgid then false else acc.calls id }
    if acc.calls x.1.pidTgid && ret > 0 then
      left.transfer .inward (Kernel.widen ret) (events .inward) (x.1.caller t)
    else left
  | _ => acc

def step (sk : UInt64) (t : Sock) (k k' : Kernel) (x : Env × Hit) (acc : Account) : Account :=
  if k'.flows[sk]? = none then { calls := (acc.hit sk t k k' x).calls } else acc.hit sk t k k' x

end Account

/-- The entry says about the connection what its account says. -/
structure Describes (f : Flow) (acc : Account) : Prop where
  closed : f.closed = 0
  tx : f.tx = acc.tx
  rx : f.rx = acc.rx
  wireOut : f.wireOut.toNat = acc.wireOut
  wireIn : f.wireIn.toNat = acc.wireIn
  who : ∀ i, acc.who = some i → f.identity = i

theorem Describes.congr {f : Flow} {acc : Account} (h : Describes f acc) (calls : UInt64 → Bool) :
    Describes f { acc with calls := calls } := ⟨h.closed, h.tx, h.rx, h.wireOut, h.wireIn, h.who⟩

/-- Neither a new connection nor an end of this one. -/
def Hit.KeepsOpen (sk : UInt64) : Hit → Prop
  | .inetSockSetState protocol sk' _ newstate =>
    protocol = ipprotoTcp → sk' = sk →
      newstate ≠ .established ∧ newstate ≠ .close ∧ newstate ≠ .closeWait
  | _ => True

/-- A hit while the connection with the socket `t` is open. -/
def OnOpen (sk : UInt64) (t : Sock) (x : Env × Hit) : Prop := x.2.KeepsOpen sk ∧ x.1.sock sk = t

namespace Kernel

def observe (sk : UInt64) (t : Sock) (s : Kernel × Account) (x : Env × Hit) : Kernel × Account :=
  (s.1.step x, s.2.step sk t s.1 (s.1.step x) x)

/-- The entry of `sk`, when there is one, describes the connection of the account. -/
def Faithful (sk : UInt64) (s : Kernel × Account) : Prop :=
  ∀ f, s.1.flows[sk]? = some f → Describes f s.2

/-- The maps hold nothing of another connection for `sk`: the entry, if there is one, is open and
says what the calls on the connection put there, and the threads whose returns will be credited to
`sk` are inside a call on the connection. -/
structure Own (sk : UInt64) (s : Kernel × Account) : Prop where
  entry : ∀ f, s.1.flows[sk]? = some f → Describes f s.2 ∧ (s.2.who = none → f.pid = 0)
  calls : ∀ id : UInt64, s.1.recvCtxs[id]?.map RecvCtx.sk = some sk → s.2.calls id = true

/-- What every account keeps: its calls are in `recv_ctxs`, and it is as new where there is no
entry. -/
structure Sane (sk : UInt64) (s : Kernel × Account) : Prop where
  made : ∀ id : UInt64, s.2.calls id = true → s.1.recvCtxs[id]?.map RecvCtx.sk = some sk
  absent : s.1.flows[sk]? = none → Describes {} s.2 ∧ s.2.who = none

/-- Nothing is left of an earlier connection: the entry is absent or blank, and no thread is
still inside a `tcp_recvmsg` on the socket. -/
structure Clean (sk : UInt64) (k : Kernel) : Prop where
  blank : ∀ f, k.flows[sk]? = some f → f.closed = 0 ∧ f.tx = 0 ∧ f.rx = 0 ∧ f.pid = 0 ∧
    f.wireOut = 0 ∧ f.wireIn = 0
  idle : ∀ id : UInt64, k.recvCtxs[id]?.map RecvCtx.sk ≠ some sk

variable {k k' : Kernel} {acc acc' : Account} {env : Env} {sk sk' buf n : UInt64} {f : Flow} {dir : Dir}
variable {t : Sock} {s : Kernel × Account} {x : Env × Hit}

theorem describes_blank (calls : UInt64 → Bool) : Describes {} { calls := calls } :=
  ⟨rfl, rfl, rfl, rfl, rfl, nofun⟩

theorem calls_step : (acc.step sk t k k' x).calls = (acc.hit sk t k k' x).calls := by
  unfold Account.step
  split_ifs <;> rfl

theorem calls_transfer (dir : Dir) (n : UInt64) (events : ℕ) (i : Identity) (acc : Account) :
    (acc.transfer dir n events i).calls = acc.calls := by
  cases dir <;> rfl

/-- A hit leaves a thread alone, or has it enter or leave a call in the account and in `recv_ctxs`
alike. -/
theorem observe_calls (s : Kernel × Account) (x : Env × Hit) (id : UInt64) :
    (observe sk t s x).2.calls id = s.2.calls id ∧
        (observe sk t s x).1.recvCtxs[id]? = s.1.recvCtxs[id]? ∨
      ((observe sk t s x).2.calls id = true ↔
        (observe sk t s x).1.recvCtxs[id]?.map RecvCtx.sk = some sk) := by
  have hcalls : (observe sk t s x).2.calls = (s.2.hit sk t s.1 (s.1.step x) x).calls := calls_step
  rw [hcalls]
  obtain ⟨env, hit⟩ := x
  cases hit with
  | tcpSendmsg sk' iter size =>
    refine .inl ⟨?_, congrArg (·[id]?) transfer_recvCtxs⟩
    unfold Account.hit
    dsimp only
    split_ifs
    · rw [calls_transfer]
    · rfl
  | tcpRecvmsg sk' iter =>
    change _ ∧ (env.update s.1.recvCtxs env.pidTgid ⟨sk', iterBase iter⟩)[id]? = _ ∨ (_ ↔
      (env.update s.1.recvCtxs env.pidTgid ⟨sk', iterBase iter⟩)[id]?.map RecvCtx.sk = some sk)
    unfold Account.hit
    rw [update_get]
    dsimp only
    by_cases hup : (s.1.recvCtxs[env.pidTgid]?.isSome || env.insert) = true
    · rw [if_pos hup]
      by_cases hid : id = env.pidTgid
      · right
        rw [if_pos ⟨hid.symm, hup⟩]
        simp [hid]
      · exact .inl ⟨if_neg hid, if_neg fun h => hid h.1.symm⟩
    · exact .inl ⟨congrArg (fun acc : Account => acc.calls id) (if_neg hup), if_neg fun h => hup h.2⟩
  | tcpRecvmsgRet ret =>
    have hleft : (s.2.hit sk t s.1 (s.1.step (env, .tcpRecvmsgRet ret)) (env, .tcpRecvmsgRet ret)).calls =
        fun id => if id = env.pidTgid then false else s.2.calls id := by
      unfold Account.hit
      dsimp only
      split_ifs
      · rw [calls_transfer]
      · rfl
    change _ ∧ (s.1.krTcpRecvmsg env ret).recvCtxs[id]? = _ ∨
      (_ ↔ (s.1.krTcpRecvmsg env ret).recvCtxs[id]?.map RecvCtx.sk = some sk)
    rw [hleft, krTcpRecvmsg_recvCtxs]
    by_cases hid : id = env.pidTgid
    · right
      simp [hid]
    · exact .inl ⟨if_neg hid, if_neg (Ne.symm hid)⟩
  | inetSockSetState protocol sk' oldstate newstate =>
    exact .inl ⟨rfl, congrArg (·[id]?) (setState_recvCtxs s.1 env sk' protocol oldstate newstate)⟩
  | sslWrite ssl buf num => exact .inl ⟨rfl, congrArg (·[id]?) uSslWrite_recvCtxs⟩
  | sslReadRet ret => exact .inl ⟨rfl, congrArg (·[id]?) urSslRead_recvCtxs⟩
  | sslFree | sslSetFd | sslRead | deleteFlow => exact .inl ⟨rfl, rfl⟩

theorem Sane.step (h : Sane sk s) (x : Env × Hit) : Sane sk (observe sk t s x) := by
  refine ⟨fun id hid => ?_, fun hnone => ?_⟩
  · rcases observe_calls s x id with ⟨hcalls, hctx⟩ | hiff
    · rw [hctx]
      exact h.made id (hcalls ▸ hid)
    · exact hiff.mp hid
  · have hnew : (observe sk t s x).2 = { calls := (s.2.hit sk t s.1 (s.1.step x) x).calls } :=
      if_pos hnone
    rw [hnew]
    exact ⟨describes_blank _, rfl⟩

/-- From the moment the pointer comes to name the connection. -/
theorem sane_new (k : Kernel) : Sane sk (k, {}) := ⟨nofun, fun _ => ⟨describes_blank _, rfl⟩⟩

theorem sane_run (k : Kernel) (hits : List (Env × Hit)) : Sane sk (hits.foldl (observe sk t) (k, {})) :=
  foldl_invariant (p := fun _ => True) (fun _ x _ h => h.step x) (fun _ _ => trivial) (sane_new k)

theorem identify_fields (env : Env) (sk : UInt64) (f : Flow) :
    (identify env sk f).closed = f.closed ∧ (identify env sk f).tx = f.tx ∧
    (identify env sk f).rx = f.rx ∧ (identify env sk f).wireOut = f.wireOut ∧
    (identify env sk f).wireIn = f.wireIn := by
  unfold identify
  split_ifs
  · unfold readTuple
    dsimp only
    split_ifs <;> exact ⟨rfl, rfl, rfl, rfl, rfl⟩
  · exact ⟨rfl, rfl, rfl, rfl, rfl⟩

theorem identify_who (env : Env) (sk : UInt64) (hd : Describes f acc)
    (hnone : acc.who = none → f.pid = 0) :
    (identify env sk f).identity = acc.first (env.caller (env.sock sk)) := by
  have hpid : ∀ i, acc.who = some i → f.pid = i.pid := by
    intro i hi
    rw [← hd.who i hi]
    unfold Flow.identity
    split_ifs <;> rfl
  unfold Account.first
  cases hw : acc.who with
  | none => exact identify_identity (hnone hw)
  | some i =>
    dsimp only
    split_ifs with hz
    · exact identify_identity ((hpid i hw).trans hz)
    · unfold identify
      rw [if_neg fun h => hz ((hpid i hw).symm.trans h)]
      exact hd.who i hw

def countBytes (dir : Dir) (n : UInt64) (f : Flow) : Flow :=
  match dir with
  | .out => { f with tx := f.tx + n }
  | .inward => { f with rx := f.rx + n }

theorem describes_transfer (env : Env) (sk buf n : UInt64) (dir : Dir) (hd : Describes f acc)
    (hnone : acc.who = none → f.pid = 0) :
    Describes (captureWire env sk (countBytes dir n (identify env sk f)) buf n dir).1
      (acc.transfer dir n
        (captureWire env sk (countBytes dir n (identify env sk f)) buf n dir).2.toList.length
        (env.caller (env.sock sk))) := by
  obtain ⟨hcl, htx, hrx, hwo, hwi⟩ := identify_fields env sk f
  have hwho := identify_who env sk hd hnone
  have hout := captureWire_count env sk (countBytes dir n (identify env sk f)) buf n dir .out
  have hin := captureWire_count env sk (countBytes dir n (identify env sk f)) buf n dir .inward
  obtain ⟨t, o, i, hr⟩ := captureWire_fst env sk (countBytes dir n (identify env sk f)) buf n dir
  rw [hr] at hout hin ⊢
  change o.toNat = _ at hout
  change i.toNat = _ at hin
  cases dir with
  | out =>
    refine ⟨hcl.trans hd.closed, ?_, hrx.trans hd.rx, ?_, ?_, ?_⟩
    · exact congrArg (· + n) (htx.trans hd.tx)
    · exact hout.trans (congrArg (· + _) ((congrArg UInt8.toNat hwo).trans hd.wireOut))
    · exact hin.trans ((congrArg UInt8.toNat hwi).trans hd.wireIn)
    · rintro j hj
      obtain rfl := Option.some.inj hj
      exact hwho
  | inward =>
    refine ⟨hcl.trans hd.closed, htx.trans hd.tx, ?_, ?_, ?_, ?_⟩
    · exact congrArg (· + n) (hrx.trans hd.rx)
    · exact hout.trans ((congrArg UInt8.toNat hwo).trans hd.wireOut)
    · exact hin.trans (congrArg (· + _) ((congrArg UInt8.toNat hwi).trans hd.wireIn))
    · rintro j hj
      obtain rfl := Option.some.inj hj
      exact hwho

theorem countP_transfer (env : Env) (k : Kernel) (sk buf n : UInt64) (dir : Dir)
    (count : Flow → Flow) (hf : k.flowGet env sk = some f) :
    ((k.transfer env sk count buf n dir).events.drop k.events.length).countP (isWire dir sk) =
      (captureWire env sk (count f) buf n dir).2.toList.length := by
  rw [transfer_events, List.drop_left, hf, Option.bind_some]
  cases hr : (captureWire env sk (count f) buf n dir).2 with
  | none => rfl
  | some e =>
    obtain ⟨hsk, hdir, -⟩ := captureWire_snd hr
    simp [isWire, hsk, hdir]

theorem flowGet_eq (hf : k.flowGet env sk = some f) :
    ∃ f₀, f = identify env sk f₀ ∧ (k.flows[sk]? = some f₀ ∨ k.flows[sk]? = none ∧ f₀ = {}) := by
  unfold flowGet at hf
  cases hk : k.flows[sk]? with
  | none =>
    rw [hk] at hf
    dsimp only at hf
    split_ifs at hf
    exact ⟨{}, (Option.some.inj hf).symm, .inr ⟨rfl, rfl⟩⟩
  | some f₀ =>
    rw [hk] at hf
    exact ⟨f₀, (Option.some.inj hf).symm, .inl rfl⟩

/-- The entry, or the blank one that a transfer starts from, goes with the account. -/
def Fits (sk : UInt64) (s : Kernel × Account) : Prop :=
  Describes (s.1.flows[sk]?.getD {}) s.2 ∧ (s.2.who = none → (s.1.flows[sk]?.getD {}).pid = 0)

theorem Own.fits (hsane : Sane sk s) (h : Own sk s) : Fits sk s := by
  unfold Fits
  cases hf : s.1.flows[sk]? with
  | none => exact ⟨(hsane.absent hf).1, fun _ => rfl⟩
  | some f => exact h.entry f hf

theorem Fits.transfer (h : Fits sk (k, acc)) (henv : env.sock sk = t) (buf n : UInt64) (dir : Dir)
    (hacc : acc' = if (k.transfer env sk (countBytes dir n) buf n dir).flows[sk]? = none
      then { calls := acc.calls }
      else acc.transfer dir n (((k.transfer env sk (countBytes dir n) buf n dir).events.drop
        k.events.length).countP (isWire dir sk)) (env.caller t)) :
    Fits sk (k.transfer env sk (countBytes dir n) buf n dir, acc') := by
  cases hf : k.flowGet env sk with
  | none =>
    have hsame : k.transfer env sk (countBytes dir n) buf n dir = k := by
      unfold Kernel.transfer
      rw [hf]
    have hnone := flowGet_none hf
    rw [hsame] at hacc ⊢
    rw [if_pos hnone] at hacc
    subst hacc
    unfold Fits
    rw [hnone]
    exact ⟨describes_blank _, fun _ => rfl⟩
  | some f =>
    obtain ⟨f₀, rfl, hf₀⟩ := flowGet_eq hf
    have hdesc : Describes f₀ acc ∧ (acc.who = none → f₀.pid = 0) := by
      unfold Fits at h
      rcases hf₀ with hf₀ | ⟨hnone, rfl⟩
      · rw [hf₀] at h
        exact h
      · rw [hnone] at h
        exact h
    have hget : (k.transfer env sk (countBytes dir n) buf n dir).flows[sk]? =
        some (captureWire env sk (countBytes dir n (identify env sk f₀)) buf n dir).1 := by
      rw [transfer_get, if_pos rfl, hf]
      rfl
    rw [countP_transfer env k sk buf n dir _ hf, if_neg (by rw [hget]; simp), ← henv] at hacc
    subst hacc
    unfold Fits
    rw [hget]
    refine ⟨describes_transfer env sk buf n dir hdesc.1 hdesc.2, fun hw => ?_⟩
    cases dir <;> cases hw

/-- A hit that moves no byte of the connection. -/
theorem Fits.still {calls : UInt64 → Bool} (h : Fits sk (k, acc)) (hflows : k'.flows[sk]? = k.flows[sk]?)
    (hhit : acc.hit sk t k k' x = { acc with calls := calls }) :
    Fits sk (k', acc.step sk t k k' x) := by
  unfold Fits Account.step
  rw [hhit]
  dsimp only
  split_ifs with hnone
  · rw [hnone]
    exact ⟨describes_blank _, fun _ => rfl⟩
  · rw [hflows]
    exact ⟨h.1.congr calls, h.2⟩

theorem Fits.sendmsg (h : Fits sk (k, acc)) (henv : env.sock sk = t) (sk' : UInt64) (iter : IovIter)
    (size : UInt64) : Fits sk (observe sk t (k, acc) (env, .tcpSendmsg sk' iter size)) := by
  by_cases hk : sk' = sk
  · subst hk
    refine h.transfer henv (iterBase iter) size .out ?_
    unfold Account.step Account.hit
    dsimp only
    rw [if_pos rfl, calls_transfer]
    rfl
  · exact h.still (transfer_get.trans (if_neg hk)) (if_neg hk)

theorem Fits.recvmsg (h : Fits sk (k, acc)) (env : Env) (sk' : UInt64) (iter : IovIter) :
    Fits sk (observe sk t (k, acc) (env, .tcpRecvmsg sk' iter)) := by
  by_cases hup : (k.recvCtxs[env.pidTgid]?.isSome || env.insert) = true
  · exact h.still rfl (if_pos hup)
  · exact h.still rfl (if_neg hup)

/-- A return is counted for the connection when its call was one on the connection. -/
theorem Fits.recvmsgRet (hsk : sk ≠ 0) (h : Fits sk (k, acc)) (henv : env.sock sk = t)
    (hcall : acc.calls env.pidTgid = true ↔ k.recvCtxs[env.pidTgid]?.map RecvCtx.sk = some sk)
    (ret : Int32) : Fits sk (observe sk t (k, acc) (env, .tcpRecvmsgRet ret)) := by
  unfold observe step krTcpRecvmsg
  dsimp only
  cases hrc : k.recvCtxs[env.pidTgid]? with
  | none =>
    have hout : acc.calls env.pidTgid = false := by simpa [hrc] using hcall
    exact h.still rfl (if_neg (by simp [hout]))
  | some rc =>
    rw [hrc] at hcall
    dsimp only
    by_cases hmine : rc.sk = sk
    · have hin : acc.calls env.pidTgid = true := by simpa [hmine] using hcall
      by_cases hret : ret ≤ 0
      · rw [if_pos (by simp [hret])]
        refine h.still rfl (if_neg ?_)
        simpa [hin] using hret
      · rw [if_neg (by simpa [hmine, hsk] using hret), hmine]
        have hleft : Fits sk ({ k with recvCtxs := k.recvCtxs.erase env.pidTgid },
            { acc with calls := fun id => if id = env.pidTgid then false else acc.calls id }) :=
          ⟨h.1.congr _, h.2⟩
        refine hleft.transfer henv rc.base (widen ret) .inward ?_
        have hcounted : (acc.calls env.pidTgid && decide (ret > 0)) = true := by
          simpa [hin] using hret
        unfold Account.step Account.hit
        dsimp only
        rw [if_pos hcounted, calls_transfer]
        rfl
    · have hout : acc.calls env.pidTgid = false := by simpa [hmine] using hcall
      refine h.still ?_ (if_neg (by simp [hout]))
      split_ifs
      · rfl
      · exact transfer_get.trans (if_neg hmine)

theorem Fits.setState (h : Fits sk (k, acc)) (env : Env) {protocol : UInt16} {oldstate newstate : TcpState}
    (hx : (Hit.inetSockSetState protocol sk' oldstate newstate).KeepsOpen sk) :
    Fits sk (observe sk t (k, acc) (env, .inetSockSetState protocol sk' oldstate newstate)) := by
  refine h.still ?_ rfl
  change (k.tpInetSockSetState env protocol sk' oldstate newstate).flows[sk]? = _
  by_cases hk : sk' = sk
  · by_cases hp : protocol = ipprotoTcp
    · rw [setState_of_quiet k env sk' protocol oldstate (hx hp hk)]
    · unfold tpInetSockSetState
      rw [if_pos hp]
  · exact setState_get_other k env sk' protocol oldstate newstate hk

theorem Fits.delete (h : Fits sk (k, acc)) (env : Env) (sk' : UInt64) :
    Fits sk (observe sk t (k, acc) (env, .deleteFlow sk')) := by
  by_cases hk : sk' = sk
  · subst hk
    have hnone : (k.deleteFlow sk').flows[sk']? = none := Table.get_erase_self ..
    change Fits sk' (k.deleteFlow sk', acc.step sk' t k (k.deleteFlow sk') (env, .deleteFlow sk'))
    unfold Fits Account.step
    rw [if_pos hnone, hnone]
    exact ⟨describes_blank _, fun _ => rfl⟩
  · exact h.still ((Table.get_erase ..).trans (if_neg hk)) rfl

theorem Own.step (hsk : sk ≠ 0) (hx : OnOpen sk t x) (hsane : Sane sk s) (h : Own sk s) :
    Own sk (observe sk t s x) := by
  have hfits : Fits sk (observe sk t s x) := by
    have hs := h.fits hsane
    obtain ⟨k, acc⟩ := s
    obtain ⟨env, hit⟩ := x
    obtain ⟨hopen, henv⟩ := hx
    cases hit with
    | tcpSendmsg sk' iter size => exact hs.sendmsg henv sk' iter size
    | tcpRecvmsg sk' iter => exact hs.recvmsg env sk' iter
    | tcpRecvmsgRet ret =>
      exact hs.recvmsgRet hsk henv ⟨hsane.made env.pidTgid, h.calls env.pidTgid⟩ ret
    | inetSockSetState protocol sk' oldstate newstate => exact hs.setState env hopen
    | sslFree ssl => exact hs.still rfl rfl
    | sslSetFd ssl fd => exact hs.still rfl rfl
    | sslWrite ssl buf num => exact hs.still (congrArg (·[sk]?) uSslWrite_flows) rfl
    | sslRead ssl buf => exact hs.still rfl rfl
    | sslReadRet ret => exact hs.still (congrArg (·[sk]?) urSslRead_flows) rfl
    | deleteFlow sk' => exact hs.delete env sk'
  refine ⟨fun f hf => ?_, fun id hid => ?_⟩
  · unfold Fits at hfits
    rw [hf] at hfits
    exact hfits
  · rcases observe_calls s x id with ⟨hcalls, hctx⟩ | hiff
    · rw [hcalls]
      exact h.calls id (hctx ▸ hid)
    · exact hiff.mpr hid

/-- Where nothing is left of an earlier connection, the new one's own hits leave nothing else. -/
theorem Clean.own (hsk : sk ≠ 0) (h : Clean sk k) {hits : List (Env × Hit)}
    (hhits : ∀ x ∈ hits, OnOpen sk t x) : Own sk (hits.foldl (observe sk t) (k, {})) := by
  have hstart : Own sk (k, {}) := by
    refine ⟨fun f hf => ?_, fun id hid => absurd hid (h.idle id)⟩
    obtain ⟨h₁, h₂, h₃, h₄, h₅, h₆⟩ := h.blank f hf
    exact ⟨⟨h₁, h₂, h₃, congrArg UInt8.toNat h₅, congrArg UInt8.toNat h₆, nofun⟩, fun _ => h₄⟩
  exact (foldl_invariant (I := fun s => Sane sk s ∧ Own sk s)
    (fun s x hx hs => ⟨hs.1.step x, hs.2.step hsk hx hs.1⟩) hhits ⟨sane_new k, hstart⟩).2

/-- The transition that opens the connection. -/
def establish (env : Env) (sk : UInt64) (oldstate : TcpState) : Env × Hit :=
  (env, .inetSockSetState ipprotoTcp sk oldstate .established)

theorem establish_get (k : Kernel) (env : Env) (sk : UInt64) (oldstate : TcpState) :
    (k.step (establish env sk oldstate)).flows[sk]? =
      (k.flows[sk]?.or (if env.insert then some {} else none)).map fun f =>
        { f with direction := (openedBy oldstate).code } :=
  setState_established k env sk oldstate

/-- The transition leaves the account of an entry alone, and so it does the entry. -/
theorem establish_account (hf : s.1.flows[sk]? = some f) (env : Env) (oldstate : TcpState) :
    (observe sk t s (establish env sk oldstate)).1.flows[sk]? =
        some { f with direction := (openedBy oldstate).code } ∧
      (observe sk t s (establish env sk oldstate)).2 = s.2 := by
  have hget : (s.1.step (establish env sk oldstate)).flows[sk]? =
      some { f with direction := (openedBy oldstate).code } := by
    rw [establish_get, hf]
    rfl
  refine ⟨hget, if_neg ?_⟩
  rw [hget]
  simp

theorem Own.establish (hsane : Sane sk s) (h : Own sk s) (env : Env) (oldstate : TcpState) :
    Own sk (observe sk t s (establish env sk oldstate)) := by
  refine ⟨fun f hf => ?_, fun id hid => ?_⟩
  · cases hf₀ : s.1.flows[sk]? with
    | some f₀ =>
      obtain ⟨hget, hacc⟩ := establish_account (t := t) hf₀ env oldstate
      obtain rfl := Option.some.inj (hget.symm.trans hf)
      obtain ⟨hdesc, hpid⟩ := h.entry f₀ hf₀
      rw [hacc]
      exact ⟨⟨hdesc.closed, hdesc.tx, hdesc.rx, hdesc.wireOut, hdesc.wireIn, hdesc.who⟩, hpid⟩
    | none =>
      obtain ⟨hdesc, -⟩ := hsane.absent hf₀
      have hget : (s.1.step (Kernel.establish env sk oldstate)).flows[sk]? = some f := hf
      have hacc : (observe sk t s (Kernel.establish env sk oldstate)).2 = s.2 := if_neg (by rw [hget]; simp)
      rw [establish_get, hf₀, Option.none_or] at hget
      obtain ⟨f₀, hf₀, rfl⟩ := Option.map_eq_some_iff.mp hget
      split_ifs at hf₀
      obtain rfl := Option.some.inj hf₀
      rw [hacc]
      exact ⟨⟨rfl, hdesc.tx, hdesc.rx, hdesc.wireOut, hdesc.wireIn, hdesc.who⟩, fun _ => rfl⟩
  · rcases observe_calls (t := t) s (Kernel.establish env sk oldstate) id with ⟨hcalls, hctx⟩ | hiff
    · rw [hcalls]
      exact h.calls id (hctx ▸ hid)
    · exact hiff.mpr hid

/-- A call of another process shows whose entry it is. -/
theorem not_faithful_of_pid (hf : s.1.flows[sk]? = some f) (hpid : f.pid ≠ 0) (hnew : s.2.who = none)
    {p : UInt32} (hp : p ≠ f.pid) :
    ¬Faithful sk (observe sk t s ({ Env.task p with sock := fun _ => t }, .tcpSendmsg sk .other 0)) := by
  intro hfaith
  let env : Env := { Env.task p with sock := fun _ => t }
  have hget : s.1.flowGet env sk = some f := by
    unfold flowGet identify
    rw [hf]
    exact congrArg some (if_neg hpid)
  have hentry : (s.1.step (env, .tcpSendmsg sk .other 0)).flows[sk]? = some { f with tx := f.tx + 0 } := by
    refine transfer_get.trans ?_
    rw [if_pos rfl, hget]
    rfl
  have hdesc := hfaith _ hentry
  have hwho : (observe sk t s (env, .tcpSendmsg sk .other 0)).2.who = some (env.caller t) := by
    unfold observe Account.step
    rw [if_neg (by rw [hentry]; simp)]
    unfold Account.hit
    dsimp only
    rw [if_pos rfl]
    unfold Account.transfer Account.first
    rw [hnew]
  have hsame := congrArg Identity.pid (hdesc.who _ hwho)
  have hleft : ∀ g : Flow, g.identity.pid = g.pid := by
    intro g
    unfold Flow.identity
    split_ifs <;> rfl
  have hright : (env.caller t).pid = p := by
    refine Eq.trans ?_ (Env.task_pid p)
    unfold Env.caller Sock.identity
    split_ifs <;> rfl
  rw [hleft, hright] at hsame
  exact hp hsame.symm

/-- The return of a call that is not the connection's adds to its bytes. -/
theorem not_faithful_of_call (hsk : sk ≠ 0) {id : UInt64} {rc : RecvCtx}
    (hrc : s.1.recvCtxs[id]? = some rc) (hmine : rc.sk = sk) (hcall : s.2.calls id ≠ true)
    (hrx : (s.1.flows[sk]?.getD {}).rx = s.2.rx) :
    ¬Faithful sk (observe sk t s ({ Env.thread id with sock := fun _ => t }, .tcpRecvmsgRet 1)) := by
  intro hfaith
  let env : Env := { Env.thread id with sock := fun _ => t }
  let k : Kernel := { s.1 with recvCtxs := s.1.recvCtxs.erase id }
  have hstep : s.1.step (env, .tcpRecvmsgRet 1) =
      k.transfer env sk (countBytes .inward (widen 1)) rc.base (widen 1) .inward := by
    have hkr : s.1.krTcpRecvmsg env 1 = _ := krTcpRecvmsg_of_slot 1 hrc (hmine ▸ hsk)
    rw [hmine] at hkr
    exact hkr
  have hget : k.flowGet env sk = some (identify env sk (s.1.flows[sk]?.getD {})) := by
    unfold flowGet
    cases s.1.flows[sk]? with
    | none => rfl
    | some f => rfl
  obtain ⟨t', o, i, hshape⟩ := captureWire_fst env sk
    (countBytes .inward (widen 1) (identify env sk (s.1.flows[sk]?.getD {}))) rc.base (widen 1) .inward
  have hentry : (s.1.step (env, .tcpRecvmsgRet 1)).flows[sk]? =
      some { countBytes .inward (widen 1) (identify env sk (s.1.flows[sk]?.getD {})) with
        isTls := t', wireOut := o, wireIn := i } := by
    rw [hstep, transfer_get, if_pos rfl, hget, Option.map_some, hshape]
  have hdesc := hfaith _ hentry
  have hacc : (observe sk t s (env, .tcpRecvmsgRet 1)).2.rx = s.2.rx := by
    have hskip : ¬(s.2.calls env.pidTgid && decide ((1 : Int32) > 0)) = true := by
      rw [Bool.and_eq_true]
      exact fun h => hcall h.1
    unfold observe Account.step
    rw [if_neg (by rw [hentry]; simp)]
    unfold Account.hit
    dsimp only
    rw [if_neg hskip]
  have hbytes : (identify env sk (s.1.flows[sk]?.getD {})).rx + widen 1 = s.2.rx := hdesc.rx.trans hacc
  rw [(identify_fields env sk _).2.2.1, hrx] at hbytes
  have hone : widen 1 = 0 := by
    have hsub := congrArg (fun n => n - s.2.rx) hbytes
    rwa [UInt64.add_comm, UInt64.add_sub_cancel, UInt64.sub_self] at hsub
  exact absurd hone (by decide)

/-- **After the transition to `TCP_ESTABLISHED`, and until the next one that opens or closes the
socket, the flow entry describes the new connection alone exactly when at the transition the maps
hold nothing of another one**, whatever the connection did `early`, since the pointer came to name
it, and whatever calls, polls and deletions follow. -/
theorem entry_describes_iff (hsk : sk ≠ 0) (t : Sock) (start : Kernel) (early : List (Env × Hit))
    (env : Env) (oldstate : TcpState) :
    let s := early.foldl (observe sk t) (start, {})
    (∀ post : List (Env × Hit), (∀ x ∈ post, OnOpen sk t x) →
      Along (observe sk t) (Faithful sk) (observe sk t s (establish env sk oldstate)) post) ↔
      Own sk s := by
  intro s
  have hsane : Sane sk s := sane_run start early
  constructor
  · intro h
    have hstart : Faithful sk (observe sk t s (establish env sk oldstate)) := h [] (by simp)
    refine ⟨fun f hf => ?_, fun id hid => ?_⟩
    · obtain ⟨hget, hacc⟩ := establish_account (t := t) hf env oldstate
      have hdesc := hstart _ hget
      rw [hacc] at hdesc
      refine ⟨⟨hdesc.closed, hdesc.tx, hdesc.rx, hdesc.wireOut, hdesc.wireIn, hdesc.who⟩, fun hnew => ?_⟩
      -- a pid without a call of this connection is another one's, and a call shows it
      by_contra hpid
      obtain ⟨p, hp⟩ : ∃ p : UInt32, p ≠ f.pid := by
        by_cases h₁ : f.pid = 1
        · exact ⟨2, by rw [h₁]; decide⟩
        · exact ⟨1, fun h' => h₁ h'.symm⟩
      refine not_faithful_of_pid hget hpid (hacc ▸ hnew) hp
        (h [({ Env.task p with sock := fun _ => t }, .tcpSendmsg sk .other 0)] ?_).last
      intro x hx
      obtain rfl := List.mem_singleton.mp hx
      exact ⟨trivial, rfl⟩
    · -- the return of a call that is another connection's would be credited to this one
      by_contra hcall
      obtain ⟨rc, hrc, hmine⟩ := Option.map_eq_some_iff.mp hid
      have hctx : (observe sk t s (establish env sk oldstate)).1.recvCtxs[id]? = some rc :=
        (congrArg (·[id]?) (setState_recvCtxs s.1 env sk ipprotoTcp oldstate .established)).trans hrc
      have hcalls : (observe sk t s (establish env sk oldstate)).2.calls = s.2.calls := calls_step
      refine not_faithful_of_call hsk hctx hmine (hcalls ▸ hcall) ?_
        (h [({ Env.thread id with sock := fun _ => t }, .tcpRecvmsgRet 1)] ?_).last
      · cases hf : (observe sk t s (establish env sk oldstate)).1.flows[sk]? with
        | none => exact ((hsane.step _).absent hf).1.rx
        | some f => exact (hstart f hf).rx
      · intro x hx
        obtain rfl := List.mem_singleton.mp hx
        exact ⟨trivial, rfl⟩
  · intro hown post hpost
    refine (along_of_forall (I := fun s => Sane sk s ∧ Own sk s) (p := OnOpen sk t) ?_ hpost
      ⟨hsane.step _, hown.establish hsane env oldstate⟩).mono fun s hs f hf => (hs.2.entry f hf).1
    intro s x hx hs
    exact ⟨hs.1.step x, hs.2.step hsk hx hs.1⟩

def server : Sock := ⟨2, 50000, 0xbb01, 0x0100007f, 0x08080808, {}, {}⟩

/-- Five bytes that a connection with TCP Fast Open sends before the handshake is over. -/
def fastOpen : List (Env × Hit) :=
  [({ Env.task 7 with sock := fun _ => server }, .inetSockSetState ipprotoTcp 1 .close .synSent),
    ({ Env.task 7 with sock := fun _ => server }, .tcpSendmsg 1 .other 5)]

theorem first_connection_described : Along (observe 1 server) (Faithful 1)
    (observe 1 server (fastOpen.foldl (observe 1 server) ({}, {})) (establish (Env.task 7) 1 .synSent))
    [({ Env.task 7 with sock := fun _ => server }, .tcpSendmsg 1 .other 10)] := by
  have hown : Own 1 (fastOpen.foldl (observe 1 server) ({}, {})) := by
    refine Clean.own (by decide) ⟨by simp, by simp⟩ fun x hx => ?_
    rcases List.mem_pair.mp hx with rfl | rfl
    · exact ⟨fun _ _ => by decide, rfl⟩
    · exact ⟨trivial, rfl⟩
  have hsk : (1 : UInt64) ≠ 0 := by decide
  refine (entry_describes_iff hsk server {} fastOpen (Env.task 7) .synSent).mpr hown _ fun x hx => ?_
  obtain rfl := List.mem_singleton.mp hx
  exact ⟨trivial, rfl⟩

def closedConnection : List (Env × Hit) :=
  [(Env.task 7, .inetSockSetState ipprotoTcp 1 .synSent .established),
    (Env.task 7, .tcpSendmsg 1 .other 10),
    (Env.task 7, .inetSockSetState ipprotoTcp 1 .lastAck .close)]

/-- A new connection at the same address inherits the entry: closed, with 10 bytes of pid 7. -/
theorem reused_entry_not_faithful : ¬Along (observe 1 server) (Faithful 1)
    (observe 1 server (({} : Kernel).run closedConnection, {}) (establish (Env.task 9) 1 .synSent)) [] := by
  intro h
  have hentry : (observe 1 server (({} : Kernel).run closedConnection, {})
      (establish (Env.task 9) 1 .synSent)).1.flows[(1 : UInt64)]?.map
        (fun f => (f.closed, f.tx, f.pid)) = some (1, 10, 7) := by
    decide +kernel
  obtain ⟨f, hf, hval⟩ := Option.map_eq_some_iff.mp hentry
  have hopen : f.closed = 0 := (h.first f hf).closed
  have hclosed : f.closed = 1 := congrArg Prod.fst hval
  exact absurd (hopen.symm.trans hclosed) (by decide)

end Kernel
end Tlstat.Bpf
