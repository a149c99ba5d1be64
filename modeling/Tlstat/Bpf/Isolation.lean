import Tlstat.Base.Run
import Tlstat.Bpf.Spec

/-! Two processes, each with its own SSL object: what one process's session shows does not
depend on the other's steps, exactly when the two objects have different addresses and the one
ring has room for its close events where it had room without the other process. -/

namespace Tlstat.Bpf
open Base

/-- The hits of a process that works on the SSL object `a` only. -/
def Hit.OnSession (a : UInt64) : Hit → Prop
  | .sslFree ssl => ssl = a
  | .sslSetFd ssl _ => ssl = a
  | .sslWrite ssl _ _ => ssl = a
  | .sslRead ssl _ => ssl = a
  | .sslReadRet _ => True
  | _ => False

/-- A step of the process `p` on its object `a`. -/
def Session (p : UInt32) (a : UInt64) (x : Env × Hit) : Prop := x.1.pid = p ∧ x.2.OnSession a

/-- The totals, pid and fd of a close event that `p` emitted. -/
def closeOf (p : UInt32) : Event → Option SslStat
  | .close e => if e.pid = p then some ⟨e.ptx, e.prx, e.pid, e.fd⟩ else none
  | _ => none

def closes (p : UInt32) (events : List Event) : List SslStat := events.filterMap (closeOf p)

theorem closes_append (p : UInt32) (l l' : List Event) :
    closes p (l ++ l') = closes p l ++ closes p l' := List.filterMap_append

theorem closes_data (p : UInt32) (e : Option DataEvent) : closes p (e.map Event.data).toList = [] := by
  cases e <;> rfl

namespace Kernel

/-- What the session of `p` at `a` shows: its entry (totals, pid and fd) and what the close events
of `p` said. -/
def shown (p : UInt32) (a : UInt64) (k : Kernel) : Option SslStat × List SslStat :=
  (k.sslStats[a]?, closes p k.events)

/-- What the close event that a hit emits says, if `p` emits one. -/
def freed (p : UInt32) (k : Kernel) (env : Env) : Hit → List SslStat
  | .sslFree ssl =>
    if env.pid = p ∧ env.reserve then (k.sslStats[ssl]?.map fun s => { s with pid := p }).toList else []
  | _ => []

theorem freed_other {p : UInt32} {k : Kernel} {env : Env} (hp : env.pid ≠ p) (hit : Hit) :
    freed p k env hit = [] := by
  cases hit with
  | sslFree ssl => exact if_neg fun h => hp h.1
  | _ => rfl

theorem closes_free (p : UInt32) (env : Env) (ssl : UInt64) (s : Option SslStat) :
    closes p ((s.bind (closeEvent env ssl)).map Event.close).toList =
      if env.pid = p ∧ env.reserve then (s.map fun s => { s with pid := p }).toList else [] := by
  cases s with
  | none => exact (ite_self _).symm
  | some s =>
    unfold closeEvent
    rw [Option.bind_some]
    by_cases hr : env.reserve = true
    · rw [if_pos hr]
      by_cases hp : env.pid = p
      · rw [if_pos ⟨hp, hr⟩]
        subst hp
        simp [closes, closeOf]
      · rw [if_neg fun h => hp h.1]
        simp [closes, closeOf, hp]
    · rw [if_neg hr, if_neg fun h => hr h.2]
      rfl

/-- Nothing but `SSL_free` emits a close event. -/
theorem closes_step (p : UInt32) (k : Kernel) {a : UInt64} {x : Env × Hit} (hx : x.2.OnSession a) :
    closes p (k.step x).events = closes p k.events ++ freed p k x.1 x.2 := by
  have hemit : ∀ (k : Kernel) (env : Env) (ssl buf n : UInt64) (dir : Dir),
      closes p (k.emitPlaintext env ssl buf n dir).events = closes p k.events ++ [] := by
    intro k env ssl buf n dir
    rw [emitPlaintext_events, closes_append]
    split_ifs
    · rw [closes_data]
    · rfl
  obtain ⟨env, hit⟩ := x
  cases hit with
  | sslFree ssl =>
    change closes p (k.events ++ _) = _
    rw [closes_append, closes_free]
    rfl
  | sslSetFd ssl fd => exact (List.append_nil _).symm
  | sslWrite ssl buf num =>
    exact uSslWrite_cases (P := fun k' => closes p k'.events = closes p k.events ++ []) k env ssl buf
      num (List.append_nil _).symm (hemit ..)
  | sslRead ssl buf => exact (List.append_nil _).symm
  | sslReadRet ret =>
    exact urSslRead_cases (P := fun k' => closes p k'.events = closes p k.events ++ []) k env ret
      (List.append_nil _).symm (List.append_nil _).symm fun _ => hemit ..
  | tcpSendmsg | tcpRecvmsg | tcpRecvmsgRet | inetSockSetState | deleteFlow => exact hx.elim

/-- The two kernels hold the same of `p`'s session at `a`, and `s` remembers for each thread
inside `SSL_read` the object of its own process. -/
structure Agree (p : UInt32) (a b : UInt64) (s t : Kernel) : Prop where
  stats : s.sslStats[a]? = t.sslStats[a]?
  fds : s.sslFds[a]? = t.sslFds[a]?
  ctxs : ∀ id : UInt64, tgid id = p → s.sslCtxs[id]? = t.sslCtxs[id]?
  owned : ∀ (id : UInt64) (c : SslCtx), s.sslCtxs[id]? = some c →
    c.ssl = if tgid id = p then a else b

end Kernel

/-- A hit, with what its probe meets where both processes run, and what it meets where the other
one's steps are removed: the ring and the buffers need not be in the same state. -/
structure Played where
  joint : Env
  alone : Env
  hit : Hit

namespace Played

def shared (x : Played) : Env × Hit := (x.joint, x.hit)
def apart (x : Played) : Env × Hit := (x.alone, x.hit)

/-- A step of `p` on `a`, by the same thread in both runs, whose map insertions come out the same,
or a step of `q` on `b`. -/
def Of (p q : UInt32) (a b : UInt64) (x : Played) : Prop :=
  Session p a x.shared ∧ x.alone.pidTgid = x.joint.pidTgid ∧ x.alone.insert = x.joint.insert ∨
    Session q b x.shared

end Played

namespace Kernel

/-- Both runs, side by side: the second one takes the steps of `p` only. -/
def play (p : UInt32) (s : Kernel × Kernel) (x : Played) : Kernel × Kernel :=
  (s.1.step x.shared, if x.joint.pid = p then s.2.step x.apart else s.2)

theorem foldl_play (p : UInt32) (s : Kernel × Kernel) (hits : List Played) :
    hits.foldl (play p) s = (s.1.run (hits.map Played.shared),
      s.2.run ((hits.filter fun x => x.joint.pid = p).map Played.apart)) := by
  induction hits generalizing s with
  | nil => rfl
  | cons x hits ih =>
    rw [List.foldl_cons, ih]
    unfold play
    by_cases hp : x.joint.pid = p
    · have hfilter : ((x :: hits).filter fun x => x.joint.pid = p) =
          x :: hits.filter fun x => x.joint.pid = p := List.filter_cons_of_pos (decide_eq_true hp)
      rw [hfilter, if_pos hp]
      rfl
    · have hfilter : ((x :: hits).filter fun x => x.joint.pid = p) =
          hits.filter fun x => x.joint.pid = p := List.filter_cons_of_neg (by simpa using hp)
      rw [hfilter, if_neg hp]
      rfl

/-- The session of `p` shows the same in both runs. -/
def SameShown (p : UInt32) (a : UInt64) (s : Kernel × Kernel) : Prop := s.1.shown p a = s.2.shown p a

/-- An `SSL_free` of `p` on a session with an entry finds room in the ring in both runs or in
neither. -/
def SameRoom (p : UInt32) (s : Kernel × Kernel) (x : Played) : Prop :=
  ∀ ssl, x.hit = .sslFree ssl → x.joint.pid = p → s.2.sslStats[ssl]? ≠ none →
    x.joint.reserve = x.alone.reserve

namespace Agree
variable {p q : UInt32} {a b : UInt64} {s t : Kernel} {env env' : Env} {buf n : UInt64} {dir : Dir}

theorem statGet (h : Agree p a b s t) (hid : env'.pidTgid = env.pidTgid)
    (hins : env'.insert = env.insert) : s.sslStatGet env a = t.sslStatGet env' a := by
  unfold sslStatGet Env.pid
  rw [h.stats, h.fds, hid, hins]

theorem emit_mine (h : Agree p a b s t) (hid : env'.pidTgid = env.pidTgid)
    (hins : env'.insert = env.insert) :
    Agree p a b (s.emitPlaintext env a buf n dir) (t.emitPlaintext env' a buf n dir) where
  stats := by rw [emitPlaintext_stats, emitPlaintext_stats, h.statGet hid hins, h.stats]
  fds := by rw [emitPlaintext_sslFds, emitPlaintext_sslFds, h.fds]
  ctxs := by
    rw [emitPlaintext_sslCtxs, emitPlaintext_sslCtxs]
    exact h.ctxs
  owned := by
    rw [emitPlaintext_sslCtxs]
    exact h.owned

theorem emit_other (hab : a ≠ b) (h : Agree p a b s t) :
    Agree p a b (s.emitPlaintext env b buf n dir) t where
  stats := by
    rw [emitPlaintext_stats, if_neg fun hb => hab hb.1.symm]
    exact h.stats
  fds := by
    rw [emitPlaintext_sslFds]
    exact h.fds
  ctxs := by
    rw [emitPlaintext_sslCtxs]
    exact h.ctxs
  owned := by
    rw [emitPlaintext_sslCtxs]
    exact h.owned

theorem leave_mine {id : UInt64} (h : Agree p a b s t) :
    Agree p a b { s with sslCtxs := s.sslCtxs.erase id } { t with sslCtxs := t.sslCtxs.erase id } where
  stats := h.stats
  fds := h.fds
  ctxs := by
    intro id' hid
    rw [Table.get_erase, Table.get_erase, h.ctxs id' hid]
  owned := by
    intro id' c hc
    rw [Table.get_erase] at hc
    split_ifs at hc
    exact h.owned id' c hc

theorem leave_other {id : UInt64} (hid : tgid id ≠ p) (h : Agree p a b s t) :
    Agree p a b { s with sslCtxs := s.sslCtxs.erase id } t where
  stats := h.stats
  fds := h.fds
  ctxs := by
    intro id' hid'
    have hne : id ≠ id' := by
      rintro rfl
      exact hid hid'
    rw [Table.get_erase, if_neg hne]
    exact h.ctxs id' hid'
  owned := by
    intro id' c hc
    rw [Table.get_erase] at hc
    split_ifs at hc
    exact h.owned id' c hc

theorem step_mine {hit : Hit} (hx : Session p a (env, hit)) (hid : env'.pidTgid = env.pidTgid)
    (hins : env'.insert = env.insert) (h : Agree p a b s t) :
    Agree p a b (s.step (env, hit)) (t.step (env', hit)) := by
  obtain ⟨hp, hon⟩ := hx
  change tgid env.pidTgid = p at hp
  have hupdate : ∀ {β : Type} (m m' : Table β) (key key' : UInt64) (v : β), m[key]? = m'[key]? →
      m[key']? = m'[key']? → (env.update m key v)[key']? = (env'.update m' key v)[key']? := by
    intro β m m' key key' v hkey hkey'
    rw [update_get, update_get, hkey, hkey', hins]
  cases hit with
  | sslFree ssl =>
    obtain rfl : ssl = a := hon
    refine ⟨?_, ?_, h.ctxs, h.owned⟩
    · exact (Table.get_erase_self ..).trans (Table.get_erase_self ..).symm
    · exact (Table.get_erase_self ..).trans (Table.get_erase_self ..).symm
  | sslSetFd ssl fd =>
    obtain rfl : ssl = a := hon
    exact ⟨h.stats, hupdate _ _ ssl ssl fd h.fds h.fds, h.ctxs, h.owned⟩
  | sslWrite ssl buf num =>
    obtain rfl : ssl = a := hon
    change Agree p ssl b (s.uSslWrite env ssl buf num) (t.uSslWrite env' ssl buf num)
    unfold uSslWrite
    split_ifs
    · exact h.emit_mine hid hins
    · exact h
  | sslRead ssl buf =>
    obtain rfl : ssl = a := hon
    refine ⟨h.stats, h.fds, fun id hid' => ?_, fun id c hc => ?_⟩
    · change (env.update s.sslCtxs env.pidTgid _)[id]? = (env'.update t.sslCtxs env'.pidTgid _)[id]?
      rw [hid]
      exact hupdate _ _ env.pidTgid id _ (h.ctxs env.pidTgid hp) (h.ctxs id hid')
    · change (env.update s.sslCtxs _ _)[id]? = some c at hc
      rw [update_get] at hc
      split_ifs at hc with hkey
      · obtain rfl := Option.some.inj hc
        obtain rfl := hkey.1
        exact (if_pos hp).symm
      · exact h.owned id c hc
  | sslReadRet ret =>
    change Agree p a b (s.urSslRead env ret) (t.urSslRead env' ret)
    have hctx : s.sslCtxs[env.pidTgid]? = t.sslCtxs[env'.pidTgid]? := by
      rw [hid]
      exact h.ctxs env.pidTgid hp
    cases hc : t.sslCtxs[env'.pidTgid]? with
    | none =>
      rw [urSslRead_of_empty ret hc, urSslRead_of_empty ret (hctx.trans hc)]
      exact h
    | some c =>
      have hssl : c.ssl = a := (h.owned env.pidTgid c (hctx.trans hc)).trans (if_pos hp)
      rw [urSslRead_of_slot ret hc, urSslRead_of_slot ret (hctx.trans hc), hssl, hid]
      split_ifs
      · exact h.leave_mine.emit_mine hid hins
      · exact h.leave_mine
  | tcpSendmsg | tcpRecvmsg | tcpRecvmsgRet | inetSockSetState | deleteFlow => exact hon.elim

theorem step_other {x : Env × Hit} (hab : a ≠ b) (hq : q ≠ p) (hx : Session q b x)
    (h : Agree p a b s t) : Agree p a b (s.step x) t := by
  obtain ⟨env, hit⟩ := x
  obtain ⟨hpid, hon⟩ := hx
  have hne : tgid env.pidTgid ≠ p := fun he => hq (hpid ▸ he)
  cases hit with
  | sslFree ssl =>
    obtain rfl : ssl = b := hon
    refine ⟨?_, ?_, h.ctxs, h.owned⟩
    · exact ((Table.get_erase ..).trans (if_neg hab.symm)).trans h.stats
    · exact ((Table.get_erase ..).trans (if_neg hab.symm)).trans h.fds
  | sslSetFd ssl fd =>
    obtain rfl : ssl = b := hon
    refine ⟨h.stats, ?_, h.ctxs, h.owned⟩
    change (env.update s.sslFds ssl fd)[a]? = _
    rw [update_get, if_neg fun hk => hab hk.1.symm]
    exact h.fds
  | sslWrite ssl buf num =>
    obtain rfl : ssl = b := hon
    change Agree p a ssl (s.uSslWrite env ssl buf num) t
    unfold uSslWrite
    split_ifs
    · exact h.emit_other hab
    · exact h
  | sslRead ssl buf =>
    obtain rfl : ssl = b := hon
    refine ⟨h.stats, h.fds, fun id hid => ?_, fun id c hc => ?_⟩
    · change (env.update s.sslCtxs _ _)[id]? = _
      have hid' : env.pidTgid ≠ id := by
        rintro rfl
        exact hne hid
      rw [update_get, if_neg fun hk => hid' hk.1]
      exact h.ctxs id hid
    · change (env.update s.sslCtxs _ _)[id]? = some c at hc
      rw [update_get] at hc
      split_ifs at hc with hid
      · obtain rfl := Option.some.inj hc
        obtain rfl := hid.1
        exact (if_neg hne).symm
      · exact h.owned id c hc
  | sslReadRet ret =>
    change Agree p a b (s.urSslRead env ret) t
    cases hc : s.sslCtxs[env.pidTgid]? with
    | none =>
      rw [urSslRead_of_empty ret hc]
      exact h
    | some c =>
      have hssl : c.ssl = b := (h.owned env.pidTgid c hc).trans (if_neg hne)
      rw [urSslRead_of_slot ret hc, hssl]
      split_ifs
      · exact (h.leave_other hne).emit_other hab
      · exact h.leave_other hne
  | tcpSendmsg | tcpRecvmsg | tcpRecvmsgRet | inetSockSetState | deleteFlow => exact hon.elim

/-- What `p` frees reads the same in both runs exactly when the reservation comes out the same, or
there is no entry to report. -/
theorem freed_iff {hit : Hit} (hx : Session p a (env, hit)) (hid : env'.pidTgid = env.pidTgid)
    (h : Agree p a b s t) : freed p s env hit = freed p t env' hit ↔
      ∀ ssl, hit = .sslFree ssl → t.sslStats[ssl]? ≠ none → env.reserve = env'.reserve := by
  have hp : env.pid = p := hx.1
  have hp' : env'.pid = p := by
    unfold Env.pid
    rw [hid]
    exact hp
  cases hit with
  | sslFree ssl =>
    obtain rfl : ssl = a := hx.2
    unfold freed
    simp only [hp, hp', true_and, h.stats]
    cases hs : t.sslStats[ssl]? with
    | none =>
      refine iff_of_true ?_ fun ssl' hssl hsome => ?_
      · rw [Option.map_none, Option.toList_none, ite_self, ite_self]
      · obtain rfl := Hit.sslFree.inj hssl
        exact absurd hs hsome
    | some st =>
      constructor
      · intro heq _ _ _
        cases hr : env.reserve <;> cases hr' : env'.reserve <;> simp [hr, hr'] at heq ⊢
      · intro hroom
        rw [hroom ssl rfl (by simp [hs])]
  | _ => exact iff_of_true rfl fun _ hssl => by cases hssl

/-- With different addresses the two kernels go on holding the same of the session. -/
theorem play {s : Kernel × Kernel} {x : Played} (hpq : p ≠ q) (hab : a ≠ b) (hx : x.Of p q a b)
    (h : Agree p a b s.1 s.2) : Agree p a b (play p s x).1 (play p s x).2 := by
  unfold Kernel.play
  rcases hx with ⟨hx, hid, hins⟩ | hx
  · have hp : x.joint.pid = p := hx.1
    rw [if_pos hp]
    exact h.step_mine hx hid hins
  · rw [if_neg fun hp => hpq (hp.symm.trans hx.1)]
    exact h.step_other hab hpq.symm hx

/-- One step leaves what is shown alike exactly when it finds the same room. -/
theorem sameShown_play {s : Kernel × Kernel} {x : Played} (hpq : p ≠ q) (hab : a ≠ b)
    (hx : x.Of p q a b) (h : Agree p a b s.1 s.2) (hs : SameShown p a s) :
    SameShown p a (Kernel.play p s x) ↔ SameRoom p s x := by
  have hcloses : closes p s.1.events = closes p s.2.events := congrArg Prod.snd hs
  have hnext := h.play hpq hab hx
  unfold SameShown shown
  rw [Prod.mk.injEq, and_iff_right hnext.stats]
  unfold Kernel.play SameRoom
  rcases hx with ⟨hx, hid, hins⟩ | hx
  · have hp : x.joint.pid = p := hx.1
    rw [if_pos hp, closes_step p s.1 hx.2, closes_step p s.2 (x := x.apart) hx.2, hcloses,
      List.append_cancel_left_eq]
    refine (h.freed_iff hx hid).trans ?_
    simp only [hp, forall_const]
  · have hp : x.joint.pid ≠ p := fun hp => hpq (hp.symm.trans hx.1)
    refine iff_of_true ?_ fun _ _ hp' => absurd hp' hp
    have hfreed : freed p s.1 x.shared.1 x.shared.2 = [] := freed_other hp x.hit
    rw [if_neg hp, closes_step p s.1 hx.2, hfreed, List.append_nil, hcloses]

end Agree

/-- With different addresses the session of `p` shows in every state what it shows without the
other process, exactly when every `SSL_free` of `p` that has something to report finds room as it
would without the other process. -/
theorem sameShown_iff {p q : UInt32} {a b : UInt64} (hpq : p ≠ q) (hab : a ≠ b) {hits : List Played}
    (hhits : ∀ x ∈ hits, x.Of p q a b) :
    Along (play p) (SameShown p a) ({}, {}) hits ↔ Meets (play p) (SameRoom p) ({}, {}) hits :=
  along_iff_meets (J := fun s => Agree p a b s.1 s.2) (fun _ _ hx h => h.play hpq hab hx)
    (fun _ _ hx h hs => h.sameShown_play hpq hab hx hs) hhits
    ⟨rfl, rfl, fun _ _ => rfl, fun _ _ hc => by simp at hc⟩ rfl

/-- In every state of this interleaving the session of `p` at `a` shows what it shows without the
other process. -/
def Isolated (p : UInt32) (a : UInt64) (hits : List Played) : Prop :=
  Along (play p) (SameShown p a) ({}, {}) hits

/-! ### Equal addresses -/

/-- `SSL_write` of `n` bytes by the only thread of `p`, with nothing failing in either run. -/
def writing (p : UInt32) (a : UInt64) (n : Int32) : Played := ⟨Env.task p, Env.task p, .sslWrite a 1 n⟩

theorem write_stats (k : Kernel) (p : UInt32) (a : UInt64) :
    (k.step (writing p a 1).shared).sslStats[a]? = (k.sslStatGet (Env.task p) a).map (addPlain .out 1) := by
  change (k.emitPlaintext (Env.task p) a 1 1 .out).sslStats[a]? = _
  rw [emitPlaintext_stats, if_pos ⟨rfl, by decide⟩]

/-- Each process writes one byte: the entry counts both. -/
theorem not_isolated_self {p q : UInt32} (hpq : p ≠ q) (a : UInt64) :
    ¬Isolated p a [writing p a 1, writing q a 1] := by
  intro hiso
  have hfirst : (({} : Kernel).step (writing p a 1).shared).sslStats[a]? =
      some { ptx := 1, pid := (Env.task p).pid, fd := -1 } := by
    rw [write_stats]
    simp [sslStatGet, Env.task, Env.thread, addPlain]
  have hsecond : (({} : Kernel).run [(writing p a 1).shared, (writing q a 1).shared]).sslStats[a]? =
      some { ptx := 2, pid := (Env.task p).pid, fd := -1 } := by
    refine (write_stats _ q a).trans ?_
    unfold sslStatGet
    rw [hfirst]
    rfl
  have hfilter : ([writing p a 1, writing q a 1].filter fun x => x.joint.pid = p) =
      [writing p a 1] := by
    simp [writing, Env.task_pid, hpq.symm]
  have hlast := hiso.last
  rw [foldl_play, hfilter] at hlast
  have hshown : some (2 : UInt64) = some 1 := by
    have hptx := congrArg (fun r => r.1.map SslStat.ptx) hlast
    unfold shown at hptx
    change ((({} : Kernel).run [(writing p a 1).shared, (writing q a 1).shared]).sslStats[a]?).map _ =
      ((({} : Kernel).step (writing p a 1).shared).sslStats[a]?).map _ at hptx
    rw [hsecond, hfirst] at hptx
    exact hptx
  exact absurd (Option.some.inj hshown) (by decide)

/-- **Sessions of two processes are isolated as long as the ring has the same room for what they
report, exactly when their SSL objects have different addresses.** -/
theorem isolated_iff {p q : UInt32} (hpq : p ≠ q) (a b : UInt64) :
    (∀ hits : List Played, (∀ x ∈ hits, x.Of p q a b) →
      (Isolated p a hits ↔ Meets (play p) (SameRoom p) ({}, {}) hits)) ↔ a ≠ b := by
  refine ⟨?_, fun hab hits hhits => sameShown_iff hpq hab hhits⟩
  -- with one address two writes are enough, and nothing they meet differs
  rintro h rfl
  have hof : ∀ x ∈ [writing p a 1, writing q a 1], x.Of p q a a := by
    intro x hx
    rcases List.mem_pair.mp hx with rfl | rfl
    · exact .inl ⟨⟨Env.task_pid p, rfl⟩, rfl, rfl⟩
    · exact .inr ⟨Env.task_pid q, rfl⟩
  refine not_isolated_self hpq a ((h _ hof).mpr ⟨?_, ?_, trivial⟩)
  · intro _ hhit
    cases hhit
  · intro _ hhit
    cases hhit

/-- Each worker writes on an object of its own, and the first one frees its object while the ring,
which has room without the other worker, has room or not. -/
def workers (room : Bool) : List Played :=
  [writing 100 0x1000 5, writing 200 0x2000 7,
    ⟨{ Env.task 100 with reserve := room }, Env.task 100, .sslFree 0x1000⟩]

theorem isolated_at_distinct :
    Isolated 100 0x1000 (workers true) ∧ ¬Isolated 100 0x1000 (workers false) := by
  have hiff : ∀ room, Isolated 100 0x1000 (workers room) ↔
      Meets (play 100) (SameRoom 100) ({}, {}) (workers room) := by
    intro room
    refine (isolated_iff (p := 100) (q := 200) (by decide) 0x1000 0x2000).mpr (by decide) _ fun x hx => ?_
    have hmem : x ∈ [writing 100 0x1000 5, writing 200 0x2000 7, _] := hx
    simp only [List.mem_cons, List.not_mem_nil, or_false] at hmem
    rcases hmem with rfl | rfl | rfl
    · exact .inl ⟨⟨rfl, rfl⟩, rfl, rfl⟩
    · exact .inr ⟨rfl, rfl⟩
    · exact .inl ⟨⟨Env.task_pid 100, rfl⟩, rfl, rfl⟩
  constructor
  · exact (hiff true).mpr ⟨fun _ _ _ _ => rfl, fun _ _ _ _ => rfl, fun _ _ _ _ => rfl, trivial⟩
  · rw [hiff false]
    intro h
    let s := [writing 100 0x1000 5, writing 200 0x2000 7].foldl (play 100) ({}, {})
    have hentry : s.2.sslStats[(0x1000 : UInt64)]? ≠ none := by decide +kernel
    exact absurd (h.2.2.1 0x1000 rfl rfl hentry) (by decide)

/-- Two forked workers write on SSL objects with the same virtual address, and every helper call
comes out the same in both runs. -/
theorem forked_workers_interfere : ¬∀ hits : List Played,
    (∀ x ∈ hits, x.Of 100 200 0x1000 0x1000 ∧ x.alone = x.joint) → Isolated 100 0x1000 hits := by
  intro h
  have hof : ∀ x ∈ [writing 100 0x1000 5, writing 200 0x1000 7],
      x.Of 100 200 0x1000 0x1000 ∧ x.alone = x.joint := by
    intro x hx
    rcases List.mem_pair.mp hx with rfl | rfl
    · exact ⟨.inl ⟨⟨rfl, rfl⟩, rfl, rfl⟩, rfl⟩
    · exact ⟨.inr ⟨rfl, rfl⟩, rfl⟩
  have hshown := congrArg (fun r => r.1.map SslStat.ptx) (h _ hof).last
  have hboth : (([writing 100 0x1000 5, writing 200 0x1000 7].foldl (play 100) ({}, {})).1.shown
      100 0x1000).1.map SslStat.ptx = some 12 := by decide +kernel
  have halone : (([writing 100 0x1000 5, writing 200 0x1000 7].foldl (play 100) ({}, {})).2.shown
      100 0x1000).1.map SslStat.ptx = some 5 := by decide +kernel
  exact absurd (hboth.symm.trans (hshown.trans halone)) (by decide)

end Kernel
end Tlstat.Bpf
