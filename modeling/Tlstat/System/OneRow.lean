import Tlstat.Model.SockReuse
import Tlstat.System.Ring

/-! How many connections the store makes of one socket. -/

namespace Tlstat
namespace Bpf.Kernel
open Base
variable {k : Kernel} {sk : UInt64}

/-- Whether a hit makes a `flows` entry for a socket that has none, if the map has room. -/
def creates (sk : UInt64) (k : Kernel) (a : Env × Hit) : Bool :=
  match a.2 with
  | .tcpSendmsg sk' _ _ => sk' = sk
  | .tcpRecvmsgRet ret => 0 < ret && k.recvCtxs[a.1.pidTgid]?.any fun rc => rc.sk = sk
  | .inetSockSetState protocol sk' _ newstate =>
    protocol = ipprotoTcp && sk' = sk && newstate = .established
  | _ => false

theorem setState_forgotten {env : Env} {protocol : UInt16} {sk' : UInt64} {old new : TcpState}
    (h : k.flows[sk]? = none) (ha : ¬(protocol = ipprotoTcp ∧ sk' = sk ∧ new = .established)) :
    (k.tpInetSockSetState env protocol sk' old new).flows[sk]? = none := by
  by_cases hsk : sk' = sk
  · subst hsk
    by_cases hp : protocol = ipprotoTcp
    · subst hp
      have hn : new ≠ .established := fun hn => ha ⟨rfl, rfl, hn⟩
      by_cases hc : new = .close ∨ new = .closeWait
      · rw [setState_closed k env sk' old hc, h]
        rfl
      · rw [setState_of_quiet k env sk' ipprotoTcp old ⟨hn, not_or.mp hc⟩]
        exact h
    · unfold tpInetSockSetState
      rw [if_pos hp]
      exact h
  · rw [setState_get_other k env sk' protocol old new hsk]
    exact h

theorem step_forgotten {a : Env × Hit} (h : k.flows[sk]? = none) (ha : k.creates sk a = false) :
    (k.step a).flows[sk]? = none := by
  obtain ⟨env, hit⟩ := a
  cases hit with
  | tcpSendmsg sk' iter size =>
    have hsk : sk' ≠ sk := by simpa [creates] using ha
    exact transfer_get.trans ((if_neg hsk).trans h)
  | tcpRecvmsg sk' iter => exact h
  | tcpRecvmsgRet ret =>
    refine krTcpRecvmsg_cases (P := fun k' => k'.flows[sk]? = none) k env ret h h fun c hc hret => ?_
    have hsk : c.sk ≠ sk := by simpa [creates, hc, hret] using ha
    exact transfer_get.trans ((if_neg hsk).trans h)
  | inetSockSetState protocol sk' old new =>
    refine setState_forgotten h ?_
    simpa [creates] using ha
  | sslFree ssl => exact h
  | sslSetFd ssl fd => exact h
  | sslWrite ssl buf num =>
    change (k.uSslWrite env ssl buf num).flows[sk]? = none
    rwa [uSslWrite_flows]
  | sslRead ssl buf => exact h
  | sslReadRet ret =>
    change (k.urSslRead env ret).flows[sk]? = none
    rwa [urSslRead_flows]
  | deleteFlow sk' =>
    change (k.flows.erase sk')[sk]? = none
    rw [Table.get_erase]
    split_ifs
    · rfl
    · exact h

end Bpf.Kernel

namespace System
open Base Loader Model Tlsparse Bpf
variable {x509 : X509} {sk : UInt64} {s : State}

section Receive
variable {st : Store} {v : View} {ev : Loader.Event}

theorem receive_logOf : (receive x509 v st ev).logOf sk = st.logOf sk := by
  unfold Store.logOf
  cases ev <;> simp [receive]

/-- Only a wire event of the socket brings a connection into being. -/
theorem receive_dead (h : st.conns[sk]? = none) (hev : ∀ w, ev = .wire w → w.sock ≠ sk) :
    (receive x509 v st ev).conns[sk]? = none := by
  cases ev with
  | wire w =>
    change (st.applyWire x509 v.now w).conns[sk]? = none
    by_cases hw : w.data = []
    · unfold Store.applyWire
      rw [if_pos hw]
      exact h
    · rw [Store.applyWire_get x509 v.now hw, if_neg (hev w rfl)]
      exact h
  | data d => exact (congrArg (·[sk]?) Store.applyData_conns).trans h
  | close e =>
    have hmap : (st.applyClose v e).conns[sk]?.map (fun _ => ()) = st.conns[sk]?.map fun _ => () :=
      Store.applyClose_map (fun _ _ _ => rfl) v e
    rw [h] at hmap
    exact Option.map_eq_none_iff.mp hmap
  | none => exact h

end Receive

theorem updateSSLStats_dead {st : Store} {ps : List (SSLStat × View)} (h : st.conns[sk]? = none) :
    (st.updateSSLStats ps).conns[sk]? = none := by
  have hmap : (st.updateSSLStats ps).conns[sk]?.map (fun _ => ()) = st.conns[sk]?.map fun _ => () :=
    Store.updateSSLStats_map (fun _ => rfl) (fun _ _ _ => rfl) ps
  rw [h] at hmap
  exact Option.map_eq_none_iff.mp hmap

/-- The connections the store made of a socket so far: those retired, and the live one. -/
def rows (sk : UInt64) (s : State) : ℕ :=
  (s.store.logOf sk).length + s.store.conns[sk]?.toList.length

/-- Whether the snapshot the poller holds will retire the connection of the socket. -/
def Poller.retires (sk : UInt64) (st : Store) : Poller → Bool
  | .flows fs => (Store.flowsOf sk fs).isEmpty && st.conns[sk]?.any Conn.closed
  | _ => false

def isWireOf (sk : UInt64) : Bpf.Event → Bool
  | .wire w => w.sk = sk
  | _ => false

theorem isWireOf_iff {e : Bpf.Event} : isWireOf sk e = true ↔ ∃ w, e = .wire w ∧ w.sk = sk := by
  cases e <;> simp [isWireOf]

/-- No wire event of the socket is still in the ring. -/
def Drained (sk : UInt64) (s : State) : Prop :=
  ∀ e ∈ s.kernel.events.drop s.read, isWireOf sk e = false

instance (sk : UInt64) (s : State) : Decidable (Drained sk s) :=
  inferInstanceAs (Decidable (∀ e ∈ s.kernel.events.drop s.read, isWireOf sk e = false))

/-- A connection is retired only after the kernel and the ring have forgotten its socket, and
once it is retired no probe makes an entry of the socket again. -/
def Settled (sk : UInt64) (s : State) : Move → Prop
  | .hit env h => s.store.logOf sk = [] ∨ s.kernel.creates sk (env, h) = false
  | .applyFlows _ =>
    s.poller.retires sk s.store = true → s.kernel.flows[sk]? = none ∧ Drained sk s
  | _ => True

instance (sk : UInt64) (s : State) : ∀ m, Decidable (Settled sk s m)
  | .hit _ _ => inferInstanceAs (Decidable (_ ∨ _))
  | .applyFlows _ => inferInstanceAs (Decidable (_ = true → _ ∧ _))
  | .read _ | .takeFlows _ _ | .deleteFlow | .takeStats _ _ | .applyStats _ | .skip =>
    inferInstanceAs (Decidable True)

/-- What holds of a socket whose connection is in the history. -/
structure Gone (sk : UInt64) (s : State) : Prop where
  once : (s.store.logOf sk).length = 1
  dead : s.store.conns[sk]? = none
  forgotten : s.kernel.flows[sk]? = none
  drained : Drained sk s
  unlisted : ∀ flows, s.poller = .flows flows → Store.flowsOf sk flows = []

structure Inv (sk : UInt64) (s : State) : Prop where
  fits : ∀ e ∈ s.kernel.events, e.Fits
  gone : s.store.logOf sk ≠ [] → Gone sk s

theorem Inv.rows_le (h : Inv sk s) : rows sk s ≤ 1 := by
  unfold rows
  by_cases hlog : s.store.logOf sk = []
  · rw [hlog, List.length_nil, Nat.zero_add]
    cases s.store.conns[sk]? <;> simp
  · obtain ⟨honce, hdead, -⟩ := h.gone hlog
    rw [honce, hdead]
    rfl

theorem step_fits (h : ∀ e ∈ s.kernel.events, e.Fits) (m : Move) :
    ∀ e ∈ (step x509 s m).kernel.events, e.Fits := by
  cases m with
  | hit env hit =>
    obtain ⟨x, hx, hfit⟩ := Kernel.emits_step s.kernel (env, hit)
    intro e he
    change e ∈ (s.kernel.step (env, hit)).events at he
    rw [hx] at he
    rcases List.mem_append.mp he with he | he
    · exact h e he
    · exact (hfit e (Option.mem_toList.mp he)).1
  | read v =>
    unfold step
    dsimp only
    cases s.kernel.events[s.read]? <;> exact h
  | takeFlows order perm | applyFlows v | deleteFlow | takeStats order perm | applyStats views
  | skip =>
    unfold step
    dsimp only
    split <;> exact h

theorem step_logOf {m : Move} (hm : ∀ v, m ≠ .applyFlows v) :
    (step x509 s m).store.logOf sk = s.store.logOf sk := by
  unfold Store.logOf
  rw [step_log hm]

namespace Gone

/-- A hit that makes no entry submits no wire event either. -/
theorem hit (h : Gone sk s) {env : Env} {a : Hit} (ha : s.kernel.creates sk (env, a) = false) :
    Gone sk (step x509 s (.hit env a)) where
  once := h.once
  dead := h.dead
  forgotten := Kernel.step_forgotten h.forgotten ha
  drained := by
    obtain ⟨x, hx, hwire⟩ := Kernel.emits_step s.kernel (env, a)
    intro e he
    change e ∈ ((s.kernel.step (env, a)).events).drop s.read at he
    rw [hx, List.drop_append] at he
    rcases List.mem_append.mp he with he | he
    · exact h.drained e he
    · by_contra hof
      obtain ⟨w, hw, rfl⟩ := isWireOf_iff.mp (Bool.not_eq_false _ ▸ hof)
      exact (hwire e (Option.mem_toList.mp (List.mem_of_mem_drop he))).2 w hw
        (Kernel.step_forgotten h.forgotten ha)
  unlisted := h.unlisted

theorem read (h : Gone sk s) (hfits : ∀ e ∈ s.kernel.events, e.Fits) (v : View) :
    Gone sk (step x509 s (.read v)) := by
  unfold step
  dsimp only
  cases he : s.kernel.events[s.read]? with
  | none => exact h
  | some e =>
    have hdrop : s.kernel.events.drop s.read = e :: s.kernel.events.drop (s.read + 1) := by
      rw [List.drop_eq_getElem?_toList_append, he]
      rfl
    have hnext : e ∈ s.kernel.events.drop s.read := hdrop ▸ List.mem_cons_self
    have hother : ∀ w, e.decoded = .wire w → w.sock ≠ sk := by
      intro w hw
      cases e with
      | wire x =>
        obtain rfl := Loader.Event.wire.inj hw
        exact decide_eq_false_iff_not.mp (h.drained _ hnext)
      | data x => cases hw
      | close x => cases hw
    dsimp only
    rw [deliver_eq x509 s.store v (hfits e (List.mem_of_mem_drop hnext))]
    exact
      { once := (congrArg List.length receive_logOf).trans h.once
        dead := receive_dead h.dead hother
        forgotten := h.forgotten
        drained := fun e' he' => h.drained e' (hdrop ▸ List.mem_cons_of_mem _ he')
        unlisted := h.unlisted }

theorem takeFlows (h : Gone sk s) (order : List Loader.Flow → List Loader.Flow)
    (perm : ∀ l, (order l).Perm l) : Gone sk (step x509 s (.takeFlows order perm)) := by
  unfold step
  dsimp only
  split
  · refine { h with unlisted := ?_ }
    rintro flows ⟨⟩
    refine Store.flowsOf_eq_nil.mpr fun f hf hsk => ?_
    obtain ⟨⟨k', f'⟩, hmem, rfl⟩ := List.mem_map.mp ((perm _).mem_iff.mp hf)
    have hget : s.kernel.flows[k']? = some f' := Table.mem_toList.mp hmem
    rw [show k' = sk from hsk, h.forgotten] at hget
    cases hget
  · exact h

theorem applyFlows (h : Gone sk s) (v : View) : Gone sk (step x509 s (.applyFlows v)) := by
  unfold step
  dsimp only
  split
  · rename_i flows hp
    obtain ⟨hconns, hlog⟩ := Store.updateFlows_of_unreported (s := s.store) (v := v) (h.unlisted flows hp)
    rw [h.dead] at hconns hlog
    exact
      { once := by
          rw [hlog]
          simpa using h.once
        dead := hconns
        forgotten := h.forgotten
        drained := h.drained
        unlisted := fun _ hq => nomatch hq }
  · exact h

theorem deleteFlow (h : Gone sk s) : Gone sk (step x509 s .deleteFlow) := by
  unfold step
  dsimp only
  split
  · refine { h with forgotten := ?_, unlisted := fun _ hq => nomatch hq }
    change (s.kernel.flows.erase _)[sk]? = none
    rw [Table.get_erase, h.forgotten, ite_self]
  · exact h

theorem takeStats (h : Gone sk s) (order : List SSLStat → List SSLStat)
    (perm : ∀ l, (order l).Perm l) : Gone sk (step x509 s (.takeStats order perm)) := by
  unfold step
  dsimp only
  split
  · exact { h with unlisted := fun _ hq => nomatch hq }
  · exact h

theorem applyStats (h : Gone sk s) (views : SSLStat → View) :
    Gone sk (step x509 s (.applyStats views)) := by
  unfold step
  dsimp only
  split
  · refine { h with once := ?_, dead := updateSSLStats_dead h.dead, unlisted := fun _ hq => nomatch hq }
    have hlog := h.once
    unfold Store.logOf at hlog ⊢
    simpa using hlog
  · exact h

theorem skip (h : Gone sk s) : Gone sk (step x509 s .skip) := by
  unfold step
  dsimp only
  split
  · exact { h with unlisted := fun _ hq => nomatch hq }
  · exact { h with unlisted := fun _ hq => nomatch hq }
  · exact h

theorem step (h : Gone sk s) (hfits : ∀ e ∈ s.kernel.events, e.Fits) {m : Move}
    (hm : Settled sk s m) : Gone sk (step x509 s m) := by
  cases m with
  | hit env a =>
    refine h.hit (hm.resolve_left fun hlog => ?_)
    have honce := h.once
    rw [hlog] at honce
    cases honce
  | read v => exact h.read hfits v
  | takeFlows order perm => exact h.takeFlows order perm
  | applyFlows v => exact h.applyFlows v
  | deleteFlow => exact h.deleteFlow
  | takeStats order perm => exact h.takeStats order perm
  | applyStats views => exact h.applyStats views
  | skip => exact h.skip

end Gone

theorem gone_of_retired {v : View} (hm : Settled sk s (.applyFlows v))
    (hlog : s.store.logOf sk = []) (hnew : (step x509 s (.applyFlows v)).store.logOf sk ≠ []) :
    Gone sk (step x509 s (.applyFlows v)) := by
  unfold Settled at hm
  unfold step at hnew ⊢
  dsimp only at hnew hm ⊢
  cases hp : s.poller with
  | flows flows =>
    rw [hp] at hm hnew
    dsimp only at hnew ⊢
    by_cases hf : Store.flowsOf sk flows = []
    · obtain ⟨hconns, hlog'⟩ := Store.updateFlows_of_unreported (s := s.store) (v := v) hf
      rw [hlog'] at hnew
      rw [hlog, List.nil_append] at hlog' hnew
      cases hc : s.store.conns[sk]? with
      | none => simp [hc] at hnew
      | some c =>
        have hcl : c.closed = true := by
          by_contra hcl
          simp [hc, Option.filter, hcl] at hnew
        obtain ⟨hforgot, hdrain⟩ := hm (by simp [Poller.retires, hf, hc, hcl])
        exact
          { once := by
              rw [hlog', hc]
              simp [Option.filter, hcl]
            dead := by
              rw [hconns, hc]
              simp [Option.filter, hcl]
            forgotten := hforgot
            drained := hdrain
            unlisted := fun _ hq => nomatch hq }
    · obtain ⟨-, -, -, hkeep⟩ := Store.updateFlows_get_of_reported (s := s.store) (v := v) hf
      exact absurd (hkeep.trans hlog) hnew
  | idle | deleting socks | stats sts =>
    rw [hp] at hnew
    exact absurd hlog hnew

theorem Inv.step (h : Inv sk s) {m : Move} (hm : Settled sk s m) : Inv sk (step x509 s m) where
  fits := step_fits h.fits m
  gone := by
    intro hnew
    by_cases hlog : s.store.logOf sk = []
    · by_cases hpoll : ∃ v, m = .applyFlows v
      · obtain ⟨v, rfl⟩ := hpoll
        exact gone_of_retired hm hlog hnew
      · rw [step_logOf fun v hv => hpoll ⟨v, hv⟩] at hnew
        exact absurd hlog hnew
    · exact (h.gone hlog).step h.fits hm

/-- **One socket, one row.** In every run in which a connection is retired only after the kernel
and the ring have forgotten its socket and in which no probe makes an entry of the socket after
that, the store makes at most one connection of it: it is never in the history twice, nor in the
history and live. -/
theorem one_row (x509 : X509) (sk : UInt64) (maxHistory peekBytes : ℤ) {moves : List Move}
    (h : Meets (System.step x509) (Settled sk) (init maxHistory peekBytes) moves) :
    Along (System.step x509) (fun s => rows sk s ≤ 1) (init maxHistory peekBytes) moves := by
  have hinit : Inv sk (init maxHistory peekBytes) :=
    ⟨fun _ he => absurd he List.not_mem_nil, fun hlog => absurd rfl hlog⟩
  exact (h.along (fun _ _ hs hm => hs.step hm) hinit).mono fun _ hs => hs.rows_le

/-- One round of the poller: a snapshot of the flows, the deletion of `n` of them, a snapshot of
the sessions. -/
def round (n t : ℕ) : List Move :=
  [.takeFlows id List.Perm.refl, .applyFlows (View.blind t)] ++ List.replicate n .deleteFlow ++
    [.takeStats id List.Perm.refl, .applyStats fun _ => View.blind t]

/-- A connection that sends and is then half closed by its peer, until it is retired. -/
def halfClosed : List Move :=
  [.hit (Env.task 7) (.inetSockSetState 6 9 .synSent .established),
    .hit (Env.task 7) (.tcpSendmsg 9 (.ubuf 1) 5)] ++ round 0 1 ++
  [.hit (Env.task 7) (.inetSockSetState 6 9 .established .closeWait)] ++ round 1 2 ++ round 0 3

theorem halfClosed_one_row : Along (System.step fun _ => none) (fun s => rows 9 s ≤ 1)
    (init 500 8192) halfClosed :=
  one_row (fun _ => none) 9 500 8192 (by decide +kernel)

/-- The same connection, on which the process goes on to send: the entry comes back, and with it a
second row. -/
theorem halfClosed_sends_two_rows : ¬Along (System.step fun _ => none) (fun s => rows 9 s ≤ 1)
    (init 500 8192) (halfClosed ++ [.hit (Env.task 7) (.tcpSendmsg 9 (.ubuf 1) 5)] ++ round 0 4) := by
  intro h
  exact absurd h.last (by decide +kernel)

end System
end Tlstat
