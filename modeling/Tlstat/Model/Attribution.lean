import Mathlib.Data.List.TakeWhile
import Tlstat.Model.Proc
import Tlstat.Model.Spec

/-! Which connection a descriptor is charged to: the lookup by the peer in `/proc`, the cache in
front of it, and the fallback to the process's single connection behind it. -/

namespace Tlstat.Model
open Base Loader Tlsparse

/-- The search stops at `a` exactly when nothing in front of `a` passes the test. -/
theorem find?_eq_some_iff_takeWhile {α β : Type*} [DecidableEq β] {f : α → β} {p : α → Bool}
    {l : List α} {a : α} (hnd : (l.map f).Nodup) (ha : a ∈ l) (hp : p a = true) :
    l.find? p = some a ↔ ∀ b ∈ l.takeWhile (fun b => f b ≠ f a), p b = false := by
  induction l with
  | nil => exact absurd ha List.not_mem_nil
  | cons x l ih =>
    obtain ⟨hx, hnd⟩ := List.nodup_cons.mp hnd
    -- keys are distinct, so an entry with the key of `a` is `a`
    by_cases hxa : f x = f a
    · have heq : a = x := by
        rcases List.mem_cons.mp ha with h | h
        · exact h
        · exact absurd (hxa ▸ List.mem_map_of_mem h) hx
      rw [List.takeWhile_cons_of_neg (by simpa using hxa), ← heq, List.find?_cons_of_pos hp]
      simp
    · have hal : a ∈ l := (List.mem_cons.mp ha).resolve_left fun h => hxa (h ▸ rfl)
      rw [List.takeWhile_cons_of_pos (by simpa using hxa), List.forall_mem_cons]
      cases hpx : p x with
      | true =>
        rw [List.find?_cons_of_pos hpx]
        have hne : x ≠ a := fun h => hxa (h ▸ rfl)
        simp [hne]
      | false =>
        rw [List.find?_cons_of_neg (by simp [hpx]), ih hnd hal]
        simp

namespace Store
variable {s : Store} {v : View} {pid : UInt32} {fd : Int32} {c d : Conn} {ap : AddrPort}

/-! ### The lookup by peer -/

theorem cached_of_empty (h : s.pidfd = ∅) : s.cached pid fd = none := by
  unfold cached
  rw [h, Table.get_empty]
  rfl

theorem resolve_eq_exactMatch (hfd : 0 ≤ fd) (hcached : s.cached pid fd = none)
    (hlive : s.conns[c.sock]? = some c) (hpeer : v.procPeer pid fd = some c.remote) :
    (s.resolve v pid fd).1 = s.exactMatch v pid fd := by
  obtain ⟨d, hd⟩ := exactMatch_isSome hlive hpeer
  rw [resolve_fst, if_pos hfd, hcached, hd]
  rfl

theorem exactMatch_eq_some_iff (hlive : s.conns[c.sock]? = some c)
    (hpeer : v.procPeer pid fd = some c.remote) :
    s.exactMatch v pid fd = some c ↔
      ∀ q ∈ (v.order s.conns.toList).takeWhile (fun q => q.1 ≠ c.sock), q.2.remote ≠ c.remote := by
  have hmem : (c.sock, c) ∈ v.order s.conns.toList := mem_order.mpr hlive
  have hfind := find?_eq_some_iff_takeWhile (p := fun q => decide (q.2.remote = c.remote))
    (nodup_order (s := s) (v := v)) hmem (by simp)
  simp only [decide_eq_false_iff_not] at hfind
  unfold exactMatch
  rw [hpeer, Option.bind_some, ← hfind]
  constructor
  · intro h
    obtain ⟨q, hq, rfl⟩ := Option.map_eq_some_iff.mp h
    have hlive' : s.conns[q.1]? = some q.2 := mem_order.mp (List.mem_of_find?_eq_some hq)
    rw [hq, s.keyed _ _ hlive']
  · intro h
    rw [h]
    rfl

/-- The range that starts at one entry. -/
def startAt (q : UInt64 × Conn) (l : List (UInt64 × Conn)) : List (UInt64 × Conn) :=
  if q ∈ l then q :: l.erase q else l

theorem startAt_perm (q : UInt64 × Conn) (l : List (UInt64 × Conn)) : (startAt q l).Perm l := by
  unfold startAt
  split_ifs with h
  · exact (List.perm_cons_erase h).symm
  · exact .refl l

/-- **The lookup finds the connection of the socket exactly when the range meets no other
connection with the same remote endpoint first**; it does so in every range order exactly when
there is no other one. -/
theorem resolve_exact_iff {p : Proc} {L R : Endpoint} (hcache : s.pidfd = ∅)
    (hnames : p.Names pid fd L R) (hlive : s.conns[c.sock]? = some c)
    (hends : c.localAddr = L.addrPort ∧ c.remote = R.addrPort) :
    (∀ v : View, v.procPeer = procPeer p →
      ((s.resolve v pid fd).1 = some c ↔
        ∀ q ∈ (v.order s.conns.toList).takeWhile (fun q => q.1 ≠ c.sock),
          q.2.remote ≠ R.addrPort)) ∧
    ((∀ v : View, v.procPeer = procPeer p → (s.resolve v pid fd).1 = some c) ↔
      ∀ (k : UInt64) (d : Conn), s.conns[k]? = some d → d.remote = R.addrPort → d = c) := by
  have hone : ∀ v : View, v.procPeer = procPeer p →
      ((s.resolve v pid fd).1 = some c ↔
        ∀ q ∈ (v.order s.conns.toList).takeWhile (fun q => q.1 ≠ c.sock),
          q.2.remote ≠ R.addrPort) := by
    intro v hv
    have hpeer : v.procPeer pid fd = some c.remote := by
      rw [hv, procPeer_of_names hnames, hends.2]
    rw [resolve_eq_exactMatch hnames.1 (cached_of_empty hcache) hlive hpeer,
      exactMatch_eq_some_iff hlive hpeer, hends.2]
  refine ⟨hone, ?_, ?_⟩
  · intro h k d hd hremote
    by_contra hne
    have hk : k ≠ c.sock := by
      rintro rfl
      exact hne (Option.some.inj (hd.symm.trans hlive))
    -- the range that starts at `d` answers `d`
    let v : View := { View.blind 0 with
      procPeer := procPeer p
      order := startAt (k, d)
      order_perm := startAt_perm (k, d) }
    have hfirst : v.order s.conns.toList = (k, d) :: s.conns.toList.erase (k, d) :=
      if_pos (Table.mem_toList.mpr hd)
    refine (hone v rfl).mp (h v rfl) (k, d) ?_ hremote
    rw [hfirst, List.takeWhile_cons_of_pos (by simpa using hk)]
    exact List.mem_cons_self
  · intro h v hv
    refine (hone v hv).mpr fun q hq hremote => ?_
    have hlive' : s.conns[q.1]? = some q.2 := mem_order.mp ((List.takeWhile_sublist _).subset hq)
    have hsock : q.1 = c.sock := by rw [← h q.1 q.2 hlive' hremote, s.keyed _ _ hlive']
    simpa [hsock] using List.mem_takeWhile_imp hq

/-! A process with two connections to one server: port 40000 on descriptor 5, port 40002 on
descriptor 6. -/

def client (port : UInt16) : Endpoint := ⟨{ w₀ := 0x0200000a }, false, port⟩
def server : Endpoint := ⟨{ w₀ := 0x0171a8c0 }, false, 443⟩

def poolFlow (sock : UInt64) (port : UInt16) : Flow :=
  { sock := sock, pid := 7, saddr := (client port).words, daddr := server.words, sport := port,
    dport := server.port, isTLS := true }

def pool : Store := (new 500 8192).updateFlows (.blind 0) [poolFlow 1 40000, poolFlow 2 40002]

def netHeader : Bytes :=
  "  sl  local_address rem_address   st tx_queue rx_queue tr tm->when retrnsmt   uid  timeout inode"
    |>.toUTF8.toList
def netRow₀ : Bytes :=
  "   0: 0200000A:9C40 0171A8C0:01BB 01 00000000:00000000 00:00000000 00000000  1000        0 51001 1"
    |>.toUTF8.toList
def netRow₁ : Bytes :=
  "   1: 0200000A:9C42 0171A8C0:01BB 01 00000000:00000000 00:00000000 00000000  1000        0 51002 1"
    |>.toUTF8.toList
def inode₀ : Bytes := "51001".toUTF8.toList
def inode₁ : Bytes := "51002".toUTF8.toList

def poolProc : Proc where
  readlink := fun pid fd =>
    if pid = 7 ∧ fd = 5 then some (socketPre ++ inode₀ ++ bracket)
    else if pid = 7 ∧ fd = 6 then some (socketPre ++ inode₁ ++ bracket)
    else none
  tcp := some (unlines [netHeader, netRow₀, netRow₁])
  tcp6 := none

theorem poolProc_rows : poolProc.rows = [netRow₀, netRow₁] := by
  have hlines : lines (unlines [netHeader, netRow₀, netRow₁]) = [netHeader, netRow₀, netRow₁] :=
    lines_unlines (by decide +kernel)
  change (lines (unlines [netHeader, netRow₀, netRow₁])).drop 1 ++ [] = _
  rw [hlines]
  rfl

theorem poolProc_names₀ : poolProc.Names 7 5 (client 40000) server := by
  refine ⟨by decide, inode₀, netRow₀, rfl, ?_, by decide +kernel, by decide +kernel⟩
  rw [poolProc_rows]
  decide +kernel

theorem poolProc_names₁ : poolProc.Names 7 6 (client 40002) server := by
  refine ⟨by decide, inode₁, netRow₁, rfl, ?_, by decide +kernel, by decide +kernel⟩
  rw [poolProc_rows]
  decide +kernel

def poolView : View := { View.blind 0 with procPeer := procPeer poolProc }

theorem pool_pidfd : pool.pidfd = ∅ := updateFlows_pidfd

theorem pool_conn (k : UInt64) (port : UInt16)
    (h : pool.conns[k]?.map (fun c => (c.sock, c.localAddr, c.remote)) =
      some (k, (client port).addrPort, server.addrPort)) :
    ∃ c : Conn, c.sock = k ∧ pool.conns[c.sock]? = some c ∧ c.localAddr = (client port).addrPort ∧
      c.remote = server.addrPort := by
  obtain ⟨c, hc, hval⟩ := Option.map_eq_some_iff.mp h
  simp only [Prod.mk.injEq] at hval
  obtain ⟨hsock, hlocal, hremote⟩ := hval
  exact ⟨c, hsock, hsock.symm ▸ hc, hlocal, hremote⟩

theorem resolve_exact_iff_pool : ∃ c, pool.conns[c.sock]? = some c ∧
    c.localAddr = (client 40000).addrPort ∧ (pool.resolve poolView 7 5).1 = some c := by
  obtain ⟨c, hsock, hc, hlocal, hremote⟩ := pool_conn 1 40000 (by decide +kernel)
  refine ⟨c, hc, hlocal, ?_⟩
  refine ((resolve_exact_iff pool_pidfd poolProc_names₀ hc ⟨hlocal, hremote⟩).1 poolView rfl).mpr ?_
  rw [hsock]
  decide +kernel

theorem shared_peer_misattributed : ∃ c,
    (pool.conns.toList.map fun q => (q.2.localAddr, q.2.remote)).Nodup ∧ pool.pidfd = ∅ ∧
    poolProc.Names 7 6 (client 40002) server ∧ pool.conns[c.sock]? = some c ∧
    c.localAddr = (client 40002).addrPort ∧ c.remote = server.addrPort ∧
    (pool.resolve poolView 7 6).1 ≠ some c := by
  obtain ⟨c, hsock, hc, hlocal, hremote⟩ := pool_conn 2 40002 (by decide +kernel)
  have hpeer : poolView.procPeer 7 6 = some c.remote := by
    rw [hremote]
    exact procPeer_of_names poolProc_names₁
  refine ⟨c, by decide +kernel, pool_pidfd, poolProc_names₁, hc, hlocal, hremote, ?_⟩
  rw [resolve_eq_exactMatch (by decide) (cached_of_empty pool_pidfd) hc hpeer, ne_eq,
    exactMatch_eq_some_iff hc hpeer, hsock, hremote]
  decide +kernel

/-! ### The cache -/

/-- `/proc` answers for the descriptor, with the remote endpoint of exactly one live connection. -/
def Pinned (s : Store) (v : View) (pid : UInt32) (fd : Int32) : Prop :=
  0 ≤ fd ∧ ∃ ap, v.procPeer pid fd = some ap ∧
    s.conns.toList.countP (fun q => q.2.remote = ap) = 1

/-- Such a call answers as it would with an empty cache. -/
def Transparent (s : Store) (v : View) (pid : UInt32) (fd : Int32) : Prop :=
  s.Pinned v pid fd →
    (s.resolve v pid fd).1 = ({ s with pidfd := ∅ : Store }.resolve v pid fd).1

/-- A live connection cached for the descriptor of such a call still has the descriptor's peer. -/
def Current (s : Store) (v : View) (pid : UInt32) (fd : Int32) : Prop :=
  s.Pinned v pid fd → ∀ c, s.cached pid fd = some c → v.procPeer pid fd = some c.remote

/-- `P` at every call of `resolve` an operation makes. -/
def AtCalls (P : Store → View → UInt32 → Int32 → Prop) (s : Store) : Op → Prop
  | .applyClose v e => P s v e.pid e.fd
  | .updateSSLStats stats =>
    Meets credit (fun s p => P s p.2 p.1.pid p.1.fd)
      (s.mapConns Conn.zeroPlain Conn.keeps_zeroPlain) stats
  | _ => True

theorem eq_of_countP_remote (h : s.conns.toList.countP (fun q => q.2.remote = ap) = 1)
    (hc : s.conns[c.sock]? = some c) (hcap : c.remote = ap) (hd : s.conns[d.sock]? = some d)
    (hdap : d.remote = ap) : c = d := by
  have hmem : ∀ b : Conn, s.conns[b.sock]? = some b → b.remote = ap →
      (b.sock, b) ∈ s.conns.toList.filter fun q => q.2.remote = ap := by
    intro b hb hbap
    exact List.mem_filter.mpr ⟨Table.mem_toList.mpr hb, by simpa using hbap⟩
  rw [List.countP_eq_length_filter] at h
  obtain ⟨q, hq⟩ := List.length_eq_one_iff.mp h
  have hcq := hmem c hc hcap
  have hdq := hmem d hd hdap
  rw [hq, List.mem_singleton] at hcq hdq
  exact congrArg Prod.snd (hcq.trans hdq.symm)

theorem transparent_iff_current : s.Transparent v pid fd ↔ s.Current v pid fd := by
  refine imp_congr_right fun hpin => ?_
  obtain ⟨hfd, ap, hpeer, hone⟩ := hpin
  -- the one connection with this peer is what the lookup finds
  have hpos : 0 < s.conns.toList.countP fun q => q.2.remote = ap := by omega
  obtain ⟨q, hq, hqap⟩ := List.countP_pos_iff.mp hpos
  have hqlive : s.conns[q.1]? = some q.2 := Table.mem_toList.mp hq
  have hqsock : q.2.sock = q.1 := s.keyed _ _ hqlive
  have hqap : q.2.remote = ap := by simpa using hqap
  rw [← hqsock] at hqlive
  have hexact : s.exactMatch v pid fd = some q.2 := by
    obtain ⟨d, hd⟩ := exactMatch_isSome hqlive (hqap ▸ hpeer)
    obtain ⟨hdlive, hdpeer⟩ := exactMatch_live hd
    have hdap : d.remote = ap := Option.some.inj (hdpeer.symm.trans hpeer)
    rw [hd, eq_of_countP_remote hone hdlive hdap hqlive hqap]
  have hempty : ({ s with pidfd := ∅ : Store }.resolve v pid fd).1 = some q.2 := by
    rw [resolve_fst, if_pos hfd, cached_of_empty rfl]
    change (s.exactMatch v pid fd).or _ = _
    rw [hexact]
    rfl
  rw [hempty, resolve_fst, if_pos hfd, hexact, hpeer]
  cases hcached : s.cached pid fd with
  | none => simp
  | some c =>
    have hclive := cached_live hcached
    rw [Option.some_or, Option.some.injEq]
    constructor
    · rintro rfl d hd
      rw [← Option.some.inj hd, hqap]
    · intro h
      exact eq_of_countP_remote hone hclive (Option.some.inj (h c rfl)).symm hqlive hqap

/-- **The cache is transparent in a run exactly when no call of it finds a live connection cached
whose remote endpoint is no longer the descriptor's peer.** -/
theorem cache_transparent_iff (x509 : X509) (s : Store) (ops : List Op) :
    Meets (Store.step x509) (AtCalls Transparent) s ops ↔
      Meets (Store.step x509) (AtCalls Current) s ops := by
  have hcalls : AtCalls Transparent = AtCalls Current := by
    funext s op
    have heq : Transparent = Current := by
      funext s v pid fd
      exact propext transparent_iff_current
    rw [heq]
  rw [hcalls]

/-! Descriptor 5 is closed and opened again on another connection while the first one is still
listed. -/

def elsewhere : Endpoint := { server with port := 8443 }

def firstFlow : Flow := poolFlow 1 40000
def secondFlow : Flow := { poolFlow 2 40002 with dport := elsewhere.port }

def facing (e : Endpoint) : View := { View.blind 0 with procPeer := fun _ _ => some e.addrPort }

def sessionStat : SSLStat := { ssl := 16, ptx := 100, prx := 200, pid := 7, fd := 5 }
def laterClose : CloseEvent := { pid := 7, fd := 5, ssl := 32, ptx := 1000, prx := 2000 }

def reopened : List Op :=
  [.updateFlows (.blind 0) [firstFlow, secondFlow], .updateSSLStats [(sessionStat, facing server)],
    .applyClose (facing elsewhere) laterClose]

theorem reopened_not_transparent :
    ¬Meets (Store.step fun _ => none) (AtCalls Transparent) (new 500 8192) reopened := by
  rintro ⟨-, -, hcall, -⟩
  have hsame := congrArg (Option.map Conn.sock)
    (hcall ⟨by decide, elsewhere.addrPort, rfl, by decide +kernel⟩)
  revert hsame
  decide +kernel

/-! ### The fallback -/

/-- What a connection shows of its sessions. -/
def plaintext (c : Conn) : UInt64 × UInt64 × Sample × Bool :=
  (c.ptxBytes, c.prxBytes, c.plain, c.plainFinal)

/-- Two connections of one process, `A` retired and `B` live, and the close of a session on the
descriptor `A` had, which `/proc` no longer knows, whatever the cache has for it. -/
structure Aftermath (s : Store) (v : View) (e : CloseEvent) (A B : Conn) : Prop where
  retired : A ∈ s.history
  live : s.conns[B.sock]? = some B
  pid_retired : A.pid = e.pid
  pid_live : B.pid = e.pid
  endpoints : (A.localAddr, A.remote) ≠ (B.localAddr, B.remote)
  fd : 0 ≤ e.fd
  peer : v.procPeer e.pid e.fd = none

/-- `B` took over the cached socket, or nothing live is cached and `B` is the only live
connection of the process. -/
def Exposed (s : Store) (e : CloseEvent) (B : Conn) : Prop :=
  s.pidfd[pidfdKey e.pid e.fd]? = some B.sock ∨
    s.cached e.pid e.fd = none ∧
      ∀ (k : UInt64) (d : Conn), s.conns[k]? = some d → d.pid = e.pid → k = B.sock

variable {e : CloseEvent} {A B : Conn}

theorem finalize_plaintext (smp : Option Sample) :
    plaintext (Conn.finalize e smp c) = (e.ptx, e.prx, smp.getD c.plain, true) := by
  cases smp <;> rfl

theorem Aftermath.resolve_iff (h : Aftermath s v e A B) :
    (s.resolve v e.pid e.fd).1.map Conn.sock = some B.sock ↔ s.Exposed e B := by
  have hexact : s.exactMatch v e.pid e.fd = none := by
    unfold exactMatch
    rw [h.peer]
    rfl
  rw [resolve_fst, if_pos h.fd, hexact, Option.none_or]
  unfold Exposed
  -- a live cache entry decides; behind it stands only the fallback
  cases hcached : s.cached e.pid e.fd with
  | some c =>
    obtain ⟨k, hk, hc⟩ := Option.bind_eq_some_iff.mp hcached
    simp [hk, s.keyed k c hc]
  | none =>
    have hnot : s.pidfd[pidfdKey e.pid e.fd]? ≠ some B.sock := by
      intro hk
      unfold cached at hcached
      rw [hk, Option.bind_some, h.live] at hcached
      cases hcached
    rw [Option.none_or, Option.map_eq_some_iff, or_iff_right hnot, and_iff_right rfl]
    constructor
    · rintro ⟨c, hc, hsock⟩
      exact hsock ▸ (sole_eq_some_iff.mp hc).2.2
    · intro hsole
      exact ⟨B, sole_eq_some_iff.mpr ⟨h.live, h.pid_live, hsole⟩, rfl⟩

/-- **The close leaves the other connection's plaintext alone exactly when that connection is not
what the cache or the fallback reaches**, or shows these very totals as final already. -/
theorem close_leaves_iff (h : Aftermath s v e A B) :
    (s.applyClose v e).conns[B.sock]?.map plaintext = some (plaintext B) ↔
      ¬s.Exposed e B ∨
        plaintext B = (e.ptx, e.prx, s.plainBySSL[e.ssl]?.getD B.plain, true) := by
  rw [applyClose_get, h.live, ← h.resolve_iff]
  split_ifs with hreach
  · rw [Option.map_some, Option.map_some, finalize_plaintext, Option.some.injEq,
      or_iff_right (not_not_intro hreach), eq_comm]
  · exact iff_of_true rfl (.inl hreach)

def closedFlow : Flow := { firstFlow with closed := true }
def thirdFlow : Flow := poolFlow 3 40004

/-- Three polls, the last without the first connection. -/
def afterFirst (others : List Flow) : Store :=
  (((new 500 8192).updateFlows (.blind 0) (firstFlow :: others)).updateFlows (.blind 1)
    (closedFlow :: others)).updateFlows (.blind 2) others

theorem afterFirst_aftermath (others : List Flow)
    (hA : (afterFirst others).history.head?.map (fun c => (c.pid, c.localAddr)) =
      some (7, (client 40000).addrPort))
    (hB : (afterFirst others).conns[(2 : UInt64)]?.map (fun c => (c.sock, c.pid, c.localAddr)) =
      some (2, 7, (client 40002).addrPort)) :
    ∃ A B, Aftermath (afterFirst others) (.blind 3) laterClose A B ∧ B.sock = 2 := by
  obtain ⟨A, hA, hAval⟩ := Option.map_eq_some_iff.mp hA
  obtain ⟨B, hB, hBval⟩ := Option.map_eq_some_iff.mp hB
  obtain ⟨hApid, hAlocal⟩ := Prod.ext_iff.mp hAval
  obtain ⟨hsock, hBrest⟩ := Prod.ext_iff.mp hBval
  obtain ⟨hBpid, hBlocal⟩ := Prod.ext_iff.mp hBrest
  refine ⟨A, B, ?_, hsock⟩
  refine ⟨List.mem_of_head? hA, ?_, hApid, hBpid, ?_, by decide, rfl⟩
  · exact (congrArg (fun k => (afterFirst others).conns[k]?) hsock).trans hB
  · intro heq
    have hlocal := hAlocal.symm.trans ((congrArg Prod.fst heq).trans hBlocal)
    exact absurd hlocal (by decide)

theorem close_leaves_iff_afterFirst : ∃ A B,
    Aftermath (afterFirst [secondFlow, thirdFlow]) (.blind 3) laterClose A B ∧
    ((afterFirst [secondFlow, thirdFlow]).applyClose (.blind 3) laterClose).conns[B.sock]?.map
      plaintext = some (plaintext B) := by
  obtain ⟨A, B, h, hsock⟩ := afterFirst_aftermath [secondFlow, thirdFlow]
    (by decide +kernel) (by decide +kernel)
  refine ⟨A, B, h, (close_leaves_iff h).mpr (.inl ?_)⟩
  have hthird : (afterFirst [secondFlow, thirdFlow]).conns[(3 : UInt64)]?.map Conn.pid = some 7 := by
    decide +kernel
  obtain ⟨C, hC, hpid⟩ := Option.map_eq_some_iff.mp hthird
  rw [Exposed, hsock]
  rintro (hcache | ⟨-, hsole⟩)
  · revert hcache
    decide +kernel
  · exact absurd (hsole 3 C hC hpid) (by decide)

theorem sole_survivor_charged : ∃ A B,
    Aftermath (afterFirst [secondFlow]) (.blind 3) laterClose A B ∧
    ((afterFirst [secondFlow]).applyClose (.blind 3) laterClose).conns[B.sock]?.map plaintext ≠
      some (plaintext B) := by
  obtain ⟨A, B, h, hsock⟩ := afterFirst_aftermath [secondFlow] (by decide +kernel)
    (by decide +kernel)
  refine ⟨A, B, h, ?_⟩
  have hbefore : (afterFirst [secondFlow]).conns[(2 : UInt64)]?.map plaintext =
      some (0, 0, {}, false) := by decide +kernel
  have hafter : ((afterFirst [secondFlow]).applyClose (.blind 3) laterClose).conns[(2 : UInt64)]?.map
      plaintext = some (1000, 2000, {}, true) := by decide +kernel
  have hB := h.live
  rw [hsock] at hB
  rw [hB, Option.map_some] at hbefore
  rw [hsock, hafter, hbefore]
  decide

end Store
end Tlstat.Model
