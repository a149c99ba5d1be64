import Tlstat.Bpf.SslRead
import Tlstat.System.Ring

/-! The descriptor of a session. `SSL_set_fd` writes `ssl_fds`, which the entry of the session in
`ssl_stats` is filled from when it is created and not again. -/

namespace Tlstat.Bpf
open Base

/-- The session an event speaks of, and the descriptor it gives. -/
def Event.session : Event → Option (UInt64 × Int32)
  | .wire _ => none
  | .data e => some (e.ssl, e.fd)
  | .close e => some (e.ssl, e.fd)

/-- The maps, and for each session the argument of its last `SSL_set_fd` since it was last freed.
An event is kept with what the arguments were when it was submitted. -/
structure FdLedger where
  kernel : Kernel := {}
  latest : UInt64 → Int32 := fun _ => -1
  told : List (Event × (UInt64 → Int32)) := []

namespace FdLedger

def note (latest : UInt64 → Int32) : Hit → UInt64 → Int32
  | .sslSetFd ssl fd => fun k => if k = ssl then fd else latest k
  | .sslFree ssl => fun k => if k = ssl then -1 else latest k
  | _ => latest

def step (s : FdLedger) (a : Env × Hit) : FdLedger where
  kernel := s.kernel.step a
  latest := note s.latest a.2
  told := s.told ++ (s.kernel.news a).map fun e => (e, s.latest)

/-- Every entry has the latest descriptor, and every event had it. -/
structure Exact (s : FdLedger) : Prop where
  entries : ∀ (ssl : UInt64) (st : SslStat), s.kernel.sslStats[ssl]? = some st → st.fd = s.latest ssl
  events : ∀ p ∈ s.told, ∀ ssl fd, p.1.session = some (ssl, fd) → fd = p.2 ssl

/-- The session whose plaintext a hit counts. -/
def carried (k : Kernel) (a : Env × Hit) : Option UInt64 :=
  match a.2 with
  | .sslWrite ssl buf num => if num > 0 ∧ buf ≠ 0 then some ssl else none
  | .sslReadRet ret => k.sslCtxs[a.1.pidTgid]?.bind fun c =>
      if ret > 0 ∧ c.buf ≠ 0 then some c.ssl else none
  | _ => none

/-- A session with an entry is only ever set to the descriptor it has, and an entry is created from
the latest argument. -/
structure Timely (s : FdLedger) (a : Env × Hit) : Prop where
  set : ∀ ssl fd st, a.2 = .sslSetFd ssl fd → s.kernel.sslStats[ssl]? = some st → st.fd = fd
  opened : ∀ ssl, carried s.kernel a = some ssl → s.kernel.sslStats[ssl]? = none →
    a.1.insert = true → s.kernel.sslFds[ssl]?.getD (-1) = s.latest ssl

variable {s : FdLedger} {a : Env × Hit} {k' : Kernel} {env : Env} {ssl buf n : UInt64} {dir : Dir}

/-- The ledger after a hit that leaves the kernel in `k'` and no note. -/
def after (s : FdLedger) (k' : Kernel) : FdLedger where
  kernel := k'
  latest := s.latest
  told := s.told ++ (k'.events.drop s.kernel.events.length).map fun e => (e, s.latest)

theorem Exact.told_append (h : Exact s) {es : List Event}
    (hes : ∀ e ∈ es, ∀ ssl fd, e.session = some (ssl, fd) → fd = s.latest ssl) :
    ∀ p ∈ s.told ++ es.map fun e => (e, s.latest),
      ∀ ssl fd, p.1.session = some (ssl, fd) → fd = p.2 ssl := by
  intro p hp ssl fd hfd
  rcases List.mem_append.mp hp with hp | hp
  · exact h.events p hp ssl fd hfd
  · obtain ⟨e, he, rfl⟩ := List.mem_map.mp hp
    exact hes e he ssl fd hfd

/-- A hit that writes no entry and submits no event of a session. -/
theorem Exact.frame (h : Exact s) {e : Option Event} (hstats : k'.sslStats = s.kernel.sslStats)
    (hev : k'.events = s.kernel.events ++ e.toList) (he : ∀ x, e = some x → x.session = none) :
    Exact (s.after k') := by
  refine ⟨fun ssl st hst => ?_, ?_⟩
  · change k'.sslStats[ssl]? = some st at hst
    rw [hstats] at hst
    exact h.entries ssl st hst
  · refine h.told_append fun x hx ssl fd hfd => ?_
    rw [hev, List.drop_left, Option.mem_toList] at hx
    rw [he x hx] at hfd
    cases hfd

/-- A hit that submits nothing either. -/
theorem Exact.still (h : Exact s) (hstats : k'.sslStats = s.kernel.sslStats)
    (hev : k'.events = s.kernel.events) : Exact (s.after k') :=
  h.frame (e := none) hstats (hev.trans (List.append_nil _).symm) fun _ hx => nomatch hx

theorem Exact.transfer (h : Exact s) {sk : UInt64} {count : Flow → Flow}
    (hstats : k'.sslStats = s.kernel.sslStats) (hev : k'.events = s.kernel.events) :
    Exact (s.after (k'.transfer env sk count buf n dir)) := by
  refine h.frame (Kernel.transfer_sslStats.trans hstats) (hev ▸ Kernel.transfer_events) ?_
  intro x hx
  obtain ⟨w, -, rfl⟩ := Option.map_eq_some_iff.mp hx
  rfl

/-- The entry that a call with data goes on with has the latest descriptor, if a new one does. -/
theorem Exact.sslStatGet_fd (h : Exact s) {st : SslStat}
    (hopen : s.kernel.sslStats[ssl]? = none → env.insert = true →
      s.kernel.sslFds[ssl]?.getD (-1) = s.latest ssl)
    (hst : s.kernel.sslStatGet env ssl = some st) : st.fd = s.latest ssl := by
  unfold Kernel.sslStatGet at hst
  cases hentry : s.kernel.sslStats[ssl]? with
  | some st' =>
    rw [hentry] at hst
    obtain rfl := Option.some.inj hst
    exact h.entries ssl st' hentry
  | none =>
    rw [hentry] at hst
    dsimp only at hst
    split_ifs at hst with hins
    obtain rfl := Option.some.inj hst
    exact hopen hentry hins

theorem addPlain_fd (dir : Dir) (n : UInt64) (st : SslStat) : (addPlain dir n st).fd = st.fd := by
  cases dir <;> rfl

/-- A call with data is right exactly when the entry it creates, if it creates one, is. -/
theorem emit_exact_iff (h : Exact s) (hc : Kernel.Carries buf n) :
    Exact (s.after (s.kernel.emitPlaintext env ssl buf n dir)) ↔
      (s.kernel.sslStats[ssl]? = none → env.insert = true →
        s.kernel.sslFds[ssl]?.getD (-1) = s.latest ssl) := by
  have hstats : ∀ ssl', (s.kernel.emitPlaintext env ssl buf n dir).sslStats[ssl']? =
      if ssl = ssl' ∧ Kernel.Carries buf n then (s.kernel.sslStatGet env ssl).map (addPlain dir n)
      else s.kernel.sslStats[ssl']? := fun _ => Kernel.emitPlaintext_stats
  constructor
  · intro hafter hnone hins
    have hentry : (s.kernel.emitPlaintext env ssl buf n dir).sslStats[ssl]? =
        some (addPlain dir n { pid := env.pid, fd := s.kernel.sslFds[ssl]?.getD (-1) }) := by
      rw [hstats, if_pos ⟨rfl, hc⟩]
      unfold Kernel.sslStatGet
      rw [hnone]
      simp [hins]
    have hfd := hafter.entries ssl _ hentry
    rwa [addPlain_fd] at hfd
  · intro hopen
    refine ⟨fun ssl' st hst => ?_, ?_⟩
    · change (s.kernel.emitPlaintext env ssl buf n dir).sslStats[ssl']? = some st at hst
      rw [hstats] at hst
      split_ifs at hst with hssl
      · obtain ⟨st', hst', rfl⟩ := Option.map_eq_some_iff.mp hst
        rw [addPlain_fd, ← hssl.1]
        exact h.sslStatGet_fd hopen hst'
      · exact h.entries ssl' st hst
    · refine h.told_append fun e he ssl' fd hfd => ?_
      rw [Kernel.emitPlaintext_events, List.drop_left, if_pos hc, Option.mem_toList] at he
      obtain ⟨d, hd, rfl⟩ := Option.map_eq_some_iff.mp he
      obtain ⟨st, hst, hcap⟩ := Option.bind_eq_some_iff.mp hd
      obtain ⟨hssl, hdfd, -⟩ := Kernel.captureData_some hcap
      obtain ⟨rfl, rfl⟩ := Prod.mk.inj (Option.some.inj hfd)
      rw [hssl, hdfd, addPlain_fd]
      exact h.sslStatGet_fd hopen hst

/-- A call that moves `num` bytes, if it moves any. -/
theorem move_exact_iff (h : Exact s) (num : Int32) :
    Exact (s.after (if num > 0 then s.kernel.emitPlaintext env ssl buf (Kernel.widen num) dir
      else s.kernel)) ↔
      (num > 0 ∧ buf ≠ 0 → s.kernel.sslStats[ssl]? = none → env.insert = true →
        s.kernel.sslFds[ssl]?.getD (-1) = s.latest ssl) := by
  have hstill : Exact (s.after s.kernel) := h.still rfl rfl
  by_cases hnum : num > 0
  · rw [if_pos hnum]
    by_cases hbuf : buf ≠ 0
    · rw [emit_exact_iff h ⟨hbuf, widen_ne_zero hnum⟩]
      exact ⟨fun hopen _ => hopen, fun hopen => hopen ⟨hnum, hbuf⟩⟩
    · rw [Kernel.emitPlaintext_of_not_carries fun hc => hbuf hc.1]
      exact iff_of_true hstill fun hgo => absurd hgo.2 hbuf
  · rw [if_neg hnum]
    exact iff_of_true hstill fun hgo => absurd hgo.1 hnum

theorem Exact.free (h : Exact s) : Exact (s.step (env, .sslFree ssl)) := by
  refine ⟨fun ssl' st hst => ?_, ?_⟩
  · change (s.kernel.sslStats.erase ssl)[ssl']? = some st at hst
    change st.fd = if ssl' = ssl then -1 else s.latest ssl'
    rw [Table.get_erase] at hst
    split_ifs at hst with hssl
    rw [if_neg (Ne.symm hssl)]
    exact h.entries ssl' st hst
  · refine h.told_append fun e he ssl' fd hfd => ?_
    -- the close event is filled from the entry before it is dropped
    change e ∈ (s.kernel.events ++ _).drop s.kernel.events.length at he
    rw [List.drop_left, Option.mem_toList] at he
    obtain ⟨c, hc, rfl⟩ := Option.map_eq_some_iff.mp he
    obtain ⟨st, hst, hclose⟩ := Option.bind_eq_some_iff.mp hc
    unfold Kernel.closeEvent at hclose
    split_ifs at hclose
    obtain rfl := Option.some.inj hclose
    obtain ⟨rfl, rfl⟩ := Prod.mk.inj (Option.some.inj hfd)
    exact h.entries ssl st hst

theorem set_exact_iff (h : Exact s) (fd : Int32) : Exact (s.step (env, .sslSetFd ssl fd)) ↔
    ∀ st, s.kernel.sslStats[ssl]? = some st → st.fd = fd := by
  constructor
  · intro hafter st hst
    exact (hafter.entries ssl st hst).trans (if_pos rfl)
  · intro hset
    refine ⟨fun ssl' st hst => ?_, ?_⟩
    · change st.fd = if ssl' = ssl then fd else s.latest ssl'
      split_ifs with hssl
      · exact hset st (hssl ▸ hst)
      · exact h.entries ssl' st hst
    · refine h.told_append fun e he => ?_
      change e ∈ s.kernel.events.drop s.kernel.events.length at he
      rw [List.drop_length] at he
      cases he

/-- A hit that counts no plaintext and sets no descriptor asks nothing. -/
theorem timely_of_quiet (hset : ∀ ssl fd, a.2 ≠ .sslSetFd ssl fd)
    (hcarried : carried s.kernel a = none) : Timely s a where
  set := fun ssl fd _ ha => absurd ha (hset ssl fd)
  opened := fun ssl h => by
    rw [hcarried] at h
    cases h

theorem timely_of_carried {p : Prop} [Decidable p] (hset : ∀ ssl fd, a.2 ≠ .sslSetFd ssl fd)
    (hcarried : carried s.kernel a = if p then some ssl else none) : Timely s a ↔
      (p → s.kernel.sslStats[ssl]? = none → a.1.insert = true →
        s.kernel.sslFds[ssl]?.getD (-1) = s.latest ssl) := by
  constructor
  · intro h hp
    exact h.opened ssl (hcarried.trans (if_pos hp))
  · intro h
    refine ⟨fun ssl fd _ ha => absurd ha (hset ssl fd), fun ssl' hssl' => ?_⟩
    rw [hcarried] at hssl'
    split_ifs at hssl' with hp
    obtain rfl := Option.some.inj hssl'
    exact h hp

theorem ret_exact_iff (h : Exact s) (ret : Int32) :
    Exact (s.step (env, .sslReadRet ret)) ↔ Timely s (env, .sslReadRet ret) := by
  have hstep : s.step (env, .sslReadRet ret) = s.after (s.kernel.urSslRead env ret) := rfl
  rw [hstep]
  cases hc : s.kernel.sslCtxs[env.pidTgid]? with
  | none =>
    have hcarried : carried s.kernel (env, .sslReadRet ret) = none := by simp [carried, hc]
    rw [Kernel.urSslRead_of_empty ret hc]
    exact iff_of_true (h.still rfl rfl) (timely_of_quiet (by simp) hcarried)
  | some c =>
    have hcarried : carried s.kernel (env, .sslReadRet ret) =
        if ret > 0 ∧ c.buf ≠ 0 then some c.ssl else none := by simp [carried, hc]
    rw [timely_of_carried (by simp) hcarried, Kernel.urSslRead_of_slot ret hc]
    exact move_exact_iff (s := { s with kernel := { s.kernel with
      sslCtxs := s.kernel.sslCtxs.erase env.pidTgid } }) ⟨h.entries, h.events⟩ ret

theorem step_exact_iff (h : Exact s) : Exact (s.step a) ↔ Timely s a := by
  obtain ⟨env, hit⟩ := a
  have hquiet : (∀ ssl fd, hit ≠ .sslSetFd ssl fd) → carried s.kernel (env, hit) = none →
      Exact (s.step (env, hit)) → (Exact (s.step (env, hit)) ↔ Timely s (env, hit)) :=
    fun hset hcarried hstep => iff_of_true hstep (timely_of_quiet hset hcarried)
  cases hit with
  | tcpSendmsg sk iter size => exact hquiet (fun _ _ h => nomatch h) rfl (h.transfer rfl rfl)
  | tcpRecvmsg sk iter => exact hquiet (fun _ _ h => nomatch h) rfl (h.still rfl rfl)
  | tcpRecvmsgRet ret =>
    refine hquiet (fun _ _ h => nomatch h) rfl ?_
    exact Kernel.krTcpRecvmsg_cases (P := fun k => Exact (s.after k)) s.kernel env ret
      (h.still rfl rfl) (h.still rfl rfl) fun _ _ _ => h.transfer rfl rfl
  | inetSockSetState protocol sk oldstate newstate =>
    refine hquiet (fun _ _ h => nomatch h) rfl ?_
    exact h.still (Kernel.setState_sslStats ..) (Kernel.setState_events ..)
  | sslFree ssl => exact hquiet (fun _ _ h => nomatch h) rfl h.free
  | sslSetFd ssl fd =>
    rw [set_exact_iff h]
    constructor
    · intro hset
      refine ⟨fun ssl' fd' st ha hst => ?_, fun _ hc => nomatch hc⟩
      obtain ⟨rfl, rfl⟩ := Hit.sslSetFd.inj ha
      exact hset st hst
    · intro htimely st hst
      exact htimely.set ssl fd st rfl hst
  | sslWrite ssl buf num =>
    have hcarried : carried s.kernel (env, .sslWrite ssl buf num) =
        if num > 0 ∧ buf ≠ 0 then some ssl else none := rfl
    rw [timely_of_carried (by simp) hcarried]
    exact move_exact_iff h num
  | sslRead ssl buf => exact hquiet (fun _ _ h => nomatch h) rfl (h.still rfl rfl)
  | sslReadRet ret => exact ret_exact_iff h ret
  | deleteFlow sk => exact hquiet (fun _ _ h => nomatch h) rfl (h.still rfl rfl)

/-! ### Runs -/

/-- The events of the ring are those the ledger keeps. -/
theorem told_events (hits : List (Env × Hit)) :
    ((hits.foldl step {}).told.map Prod.fst) = (hits.foldl step {}).kernel.events := by
  have hstep : ∀ (s : FdLedger) (a : Env × Hit), s.told.map Prod.fst = s.kernel.events →
      (s.step a).told.map Prod.fst = (s.step a).kernel.events := by
    intro s a h
    obtain ⟨new, hnew⟩ := Kernel.events_isPrefix_step s.kernel a
    change (s.told ++ (s.kernel.news a).map fun e => (e, s.latest)).map Prod.fst =
      (s.kernel.step a).events
    rw [List.map_append, h, Kernel.news, ← hnew, List.drop_left, List.map_map]
    exact congrArg (s.kernel.events ++ ·) (List.map_id new)
  exact foldl_invariant (I := fun s : FdLedger => s.told.map Prod.fst = s.kernel.events)
    (p := fun _ => True) (fun s a _ h => hstep s a h) (fun _ _ => trivial) rfl

/-- **Every entry and every event of a session has the descriptor it was last set to, all along a
run, exactly when no session with an entry is set to another descriptor and every entry is created
from the latest argument.** -/
theorem session_fd_iff (hits : List (Env × Hit)) :
    (hits.foldl step {}).told.map Prod.fst = (hits.foldl step {}).kernel.events ∧
    (Along step Exact {} hits ↔ Meets step Timely {} hits) := by
  refine ⟨told_events hits, ?_⟩
  have hstart : Exact {} := by
    refine ⟨fun ssl st hst => ?_, fun p hp => absurd hp List.not_mem_nil⟩
    change (∅ : Table SslStat)[ssl]? = some st at hst
    rw [Table.get_empty] at hst
    cases hst
  exact along_iff_meets (p := fun _ => True) (J := fun _ => True) (fun _ _ _ _ => trivial)
    (fun _ _ _ _ h => step_exact_iff h) (fun _ _ => trivial) trivial hstart

/-- The map of the descriptors has room for a new one, and a session with an entry is set to no
other. -/
structure Roomy (s : FdLedger) (a : Env × Hit) : Prop where
  room : ∀ ssl fd, a.2 = .sslSetFd ssl fd → (s.kernel.sslFds[ssl]?.isSome || a.1.insert) = true
  set : ∀ ssl fd st, a.2 = .sslSetFd ssl fd → s.kernel.sslStats[ssl]? = some st → st.fd = fd

/-- With room for every descriptor, the map has the latest ones. -/
def Current (s : FdLedger) : Prop := ∀ ssl, s.kernel.sslFds[ssl]?.getD (-1) = s.latest ssl

theorem Current.step (h : Current s) (ha : Roomy s a) : Current (s.step a) := by
  obtain ⟨env, hit⟩ := a
  have hkeep : note s.latest hit = s.latest → (s.kernel.step (env, hit)).sslFds = s.kernel.sslFds →
      Current (s.step (env, hit)) := by
    intro hnote hfds ssl
    change (s.kernel.step (env, hit)).sslFds[ssl]?.getD (-1) = note s.latest hit ssl
    rw [hfds, hnote]
    exact h ssl
  cases hit with
  | tcpSendmsg sk iter size => exact hkeep rfl Kernel.transfer_sslFds
  | tcpRecvmsg sk iter => exact hkeep rfl rfl
  | tcpRecvmsgRet ret =>
    exact hkeep rfl Kernel.krTcpRecvmsg_sslFds
  | inetSockSetState protocol sk oldstate newstate =>
    exact hkeep rfl (Kernel.setState_sslFds ..)
  | sslFree ssl =>
    intro ssl'
    change (s.kernel.sslFds.erase ssl)[ssl']?.getD (-1) = if ssl' = ssl then -1 else s.latest ssl'
    rw [Table.get_erase]
    by_cases hssl : ssl = ssl'
    · rw [if_pos hssl, if_pos hssl.symm]
      rfl
    · rw [if_neg hssl, if_neg (Ne.symm hssl)]
      exact h ssl'
  | sslSetFd ssl fd =>
    intro ssl'
    change (env.update s.kernel.sslFds ssl fd)[ssl']?.getD (-1) =
      if ssl' = ssl then fd else s.latest ssl'
    rw [Kernel.update_get]
    by_cases hssl : ssl = ssl'
    · rw [if_pos ⟨hssl, ha.room ssl fd rfl⟩, if_pos hssl.symm]
      rfl
    · rw [if_neg fun hs => hssl hs.1, if_neg (Ne.symm hssl)]
      exact h ssl'
  | sslWrite ssl buf num =>
    exact hkeep rfl Kernel.uSslWrite_sslFds
  | sslRead ssl buf => exact hkeep rfl rfl
  | sslReadRet ret =>
    exact hkeep rfl Kernel.urSslRead_sslFds
  | deleteFlow sk => exact hkeep rfl rfl

/-- With room, only a later `SSL_set_fd` can go wrong. -/
theorem Roomy.timely (h : Current s) (ha : Roomy s a) : Timely s a :=
  ⟨ha.set, fun ssl _ _ _ => h ssl⟩

theorem meets_timely_of_roomy {hits : List (Env × Hit)} (h : Meets step Roomy {} hits) :
    Meets step Timely {} hits := by
  have hstart : Current {} := by
    intro ssl
    change (∅ : Table Int32)[ssl]?.getD (-1) = -1
    rw [Table.get_empty]
    rfl
  exact h.imp (fun _ _ hs ha => hs.step ha) (fun _ _ hs ha => ha.timely hs) hstart

/-- A write before the session gets its descriptor. -/
def writeThenSet : List (Env × Hit) :=
  [(Env.task 7, .sslWrite 16 100 10), (Env.task 7, .sslSetFd 16 5)]

theorem late_set_fd_missed : ¬Along step Exact {} writeThenSet := by
  intro h
  have hentry : ((writeThenSet.foldl step {}).kernel.sslStats[(16 : UInt64)]?).map SslStat.fd =
      some (-1) := by decide +kernel
  have hlatest : (writeThenSet.foldl step {}).latest 16 = 5 := by decide +kernel
  obtain ⟨st, hst, hfd⟩ := Option.map_eq_some_iff.mp hentry
  have hexact := h.last.entries 16 st hst
  rw [hfd, hlatest] at hexact
  exact absurd hexact (by decide)

end FdLedger
end Tlstat.Bpf
