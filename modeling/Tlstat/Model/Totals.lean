import Mathlib.Data.List.Find
import Mathlib.Data.UInt
import Tlstat.Model.Track

/-! The recomputation of the plaintext totals from a snapshot. The loop fills the cache that its
own lookups read, so the lookups of a later entry are compared with those of the first. -/

namespace Tlstat.Model
open Base Loader

/-- A connection without what a snapshot of the sessions writes. -/
def Conn.bare (c : Conn) : Conn := { c with ptxBytes := 0, prxBytes := 0, plain := {} }

/-- The range goes by the keys of the table: what the connections hold does not move it. -/
def View.ByKey (v : View) : Prop := ∀ l l' : List (UInt64 × Conn),
  l.map Prod.fst = l'.map Prod.fst → (v.order l).map Prod.fst = (v.order l').map Prod.fst

namespace Store
variable {s t : Store} {v : View} {pid pid' : UInt32} {fd fd' : Int32} {k : UInt64}

/-! ### The cache -/

theorem pidfdKey_toNat (pid : UInt32) (fd : Int32) :
    (pidfdKey pid fd).toNat = pid.toNat * 2 ^ 32 + fd.toUInt32.toNat := by
  have hpid := pid.toNat_lt
  have hfd := fd.toUInt32.toNat_lt
  unfold pidfdKey
  rw [UInt64.toNat_or, UInt64.toNat_shiftLeft]
  simp only [UInt32.toNat_toUInt64, UInt64.reduceToNat, Nat.reduceMod]
  rw [Nat.mod_eq_of_lt (by rw [Nat.shiftLeft_eq]; omega), ← Nat.shiftLeft_add_eq_or_of_lt hfd,
    Nat.shiftLeft_eq]

theorem pidfdKey_inj (h : pidfdKey pid fd = pidfdKey pid' fd') : pid = pid' ∧ fd = fd' := by
  have hn := congrArg UInt64.toNat h
  rw [pidfdKey_toNat, pidfdKey_toNat] at hn
  have hfd := fd.toUInt32.toNat_lt
  have hfd' := fd'.toUInt32.toNat_lt
  refine ⟨UInt32.toNat_inj.mp (by omega), ?_⟩
  have hword : fd.toUInt32 = fd'.toUInt32 := UInt32.toNat_inj.mp (by omega)
  cases fd
  cases fd'
  exact congrArg Int32.ofUInt32 hword

/-- A lookup that misses the cache leaves there what it found. -/
theorem resolve_pidfd_get : (s.resolve v pid fd).2.pidfd[k]? =
    if fd ≥ 0 ∧ s.cached pid fd = none ∧ pidfdKey pid fd = k
    then (s.exactMatch v pid fd).map Conn.sock else s.pidfd[k]? := by
  unfold resolve cached exactMatch
  split
  · next hfd =>
    dsimp only
    split
    · next c hc => simp [hc]
    · next hc =>
      rw [hc]
      split
      · next hp =>
        rw [hp, Table.get_erase]
        by_cases hk : pidfdKey pid fd = k <;> simp [hk, hfd]
      · next ap hp =>
        rw [hp, Option.bind_some]
        split
        · next hfind =>
          rw [hfind, Table.get_insert, Table.get_erase]
          by_cases hk : pidfdKey pid fd = k <;> simp [hk, hfd]
        · next hfind =>
          rw [hfind, Table.get_erase]
          by_cases hk : pidfdKey pid fd = k <;> simp [hk, hfd]
  · next hfd => simp [hfd]

/-- A lookup does not change what another one finds. -/
theorem resolve_resolve :
    ((s.resolve v pid fd).2.resolve v pid' fd').1 = (s.resolve v pid' fd').1 := by
  have hexact : (s.resolve v pid fd).2.exactMatch v pid' fd' = s.exactMatch v pid' fd' := by
    unfold exactMatch
    rw [resolve_conns]
  have hsole : (s.resolve v pid fd).2.sole v pid' = s.sole v pid' := by
    unfold sole
    rw [resolve_conns]
  rw [resolve_fst, resolve_fst, hexact, hsole, ← Option.or_assoc, ← Option.or_assoc]
  refine if_congr Iff.rfl (congrArg (Option.or · _) ?_) rfl
  have hcached : (s.resolve v pid fd).2.cached pid' fd' =
      (if fd ≥ 0 ∧ s.cached pid fd = none ∧ pidfdKey pid fd = pidfdKey pid' fd'
        then (s.exactMatch v pid fd).map Conn.sock else s.pidfd[pidfdKey pid' fd']?).bind
      fun sock => s.conns[sock]? := by
    unfold cached
    rw [resolve_pidfd_get, resolve_conns]
    rfl
  rw [hcached]
  split_ifs with h
  · -- the same descriptor again: the cache answers what the row of `/proc` did
    obtain ⟨-, hmiss, hkey⟩ := h
    obtain ⟨rfl, rfl⟩ := pidfdKey_inj hkey
    rw [hmiss, Option.none_or]
    cases hmatch : s.exactMatch v pid fd with
    | none => rfl
    | some c =>
      rw [Option.map_some, Option.bind_some, (exactMatch_live hmatch).1]
      rfl
  · rfl

/-! ### What a lookup reads of the connections -/

/-- The socket that a session of the process on the descriptor is charged to. -/
def target (s : Store) (v : View) (pid : UInt32) (fd : Int32) : Option UInt64 :=
  (s.resolve v pid fd).1.map Conn.sock

/-- The same connections, up to their totals and their plaintext. -/
def Alike (s t : Store) : Prop :=
  ∀ k : UInt64, s.conns[k]?.map Conn.bare = t.conns[k]?.map Conn.bare

theorem Alike.map {β : Type} (h : Alike s t) {f : Conn → β} (hf : ∀ c, f c.bare = f c) (k : UInt64) :
    s.conns[k]?.map f = t.conns[k]?.map f := by
  have hcomp : ∀ o : Option Conn, o.map f = (o.map Conn.bare).map f := by
    intro o
    cases o with
    | none => rfl
    | some c => exact congrArg some (hf c).symm
  rw [hcomp, h k, ← hcomp]

theorem Alike.keys (h : Alike s t) :
    s.conns.toList.map Prod.fst = t.conns.toList.map Prod.fst := by
  have hmap : s.conns.map (fun _ => Conn.bare) = t.conns.map fun _ => Conn.bare := by
    refine Std.ExtTreeMap.ext_getElem? fun k => ?_
    rw [Table.get_map, Table.get_map]
    exact h k
  have hfst : ∀ l : List (UInt64 × Conn),
      (l.map fun p => (p.1, p.2.bare)).map Prod.fst = l.map Prod.fst := by
    intro l
    rw [List.map_map]
    rfl
  have hlist := congrArg Std.ExtTreeMap.toList hmap
  rw [Std.ExtTreeMap.toList_map, Std.ExtTreeMap.toList_map] at hlist
  rw [← hfst, hlist, hfst]

theorem cached_sock : (s.cached pid fd).map Conn.sock =
    s.pidfd[pidfdKey pid fd]?.bind fun sock => s.conns[sock]?.map Conn.sock := by
  unfold cached
  rw [Option.map_bind]
  rfl

theorem exactMatch_sock : (s.exactMatch v pid fd).map Conn.sock =
    (v.procPeer pid fd).bind fun ap => ((v.order s.conns.toList).map Prod.fst).find? fun k =>
      decide (s.conns[k]?.map Conn.remote = some ap) := by
  unfold exactMatch
  rw [Option.map_bind]
  refine congrArg (Option.bind _) (funext fun ap => ?_)
  rw [List.find?_map, Function.comp_apply]
  have hfind : (v.order s.conns.toList).find? (fun p => decide (p.2.remote = ap)) =
      (v.order s.conns.toList).find?
        ((fun k => decide (s.conns[k]?.map Conn.remote = some ap)) ∘ Prod.fst) := by
    refine List.find?_congr fun p hp => ?_
    simp [mem_order.mp hp]
  rw [hfind]
  cases hp : (v.order s.conns.toList).find?
      ((fun k => decide (s.conns[k]?.map Conn.remote = some ap)) ∘ Prod.fst) with
  | none => rfl
  | some p => exact congrArg some (s.keyed _ _ (mem_order.mp (List.mem_of_find?_eq_some hp)))

theorem sole_sock : (s.sole v pid).map Conn.sock = some k ↔
    s.conns[k]?.map Conn.pid = some pid ∧
      ∀ k' : UInt64, s.conns[k']?.map Conn.pid = some pid → k' = k := by
  constructor
  · intro h
    obtain ⟨c, hc, rfl⟩ := Option.map_eq_some_iff.mp h
    obtain ⟨hlive, hpid, hall⟩ := sole_eq_some_iff.mp hc
    refine ⟨by rw [hlive, Option.map_some, hpid], fun k' hk' => ?_⟩
    obtain ⟨d, hd, hdp⟩ := Option.map_eq_some_iff.mp hk'
    exact hall k' d hd hdp
  · rintro ⟨hk, hall⟩
    obtain ⟨c, hc, hpid⟩ := Option.map_eq_some_iff.mp hk
    have hsock : c.sock = k := s.keyed _ _ hc
    subst hsock
    have hsole : s.sole v pid = some c :=
      sole_eq_some_iff.mpr ⟨hc, hpid, fun k' d hd hdp => hall k' (by rw [hd, Option.map_some, hdp])⟩
    rw [hsole, Option.map_some]

theorem Alike.target (h : Alike s t) (hcache : s.pidfd = t.pidfd) (hv : v.ByKey)
    (pid : UInt32) (fd : Int32) : s.target v pid fd = t.target v pid fd := by
  have hcached : (s.cached pid fd).map Conn.sock = (t.cached pid fd).map Conn.sock := by
    rw [cached_sock, cached_sock, hcache]
    exact congrArg (Option.bind _) (funext fun sock => h.map (fun _ => rfl) sock)
  have hexact : (s.exactMatch v pid fd).map Conn.sock = (t.exactMatch v pid fd).map Conn.sock := by
    rw [exactMatch_sock, exactMatch_sock, hv _ _ h.keys]
    refine congrArg (Option.bind _) (funext fun ap => ?_)
    refine List.find?_congr fun k _ => ?_
    rw [h.map (fun _ => rfl) k]
  have hsole : (s.sole v pid).map Conn.sock = (t.sole v pid).map Conn.sock := by
    refine Option.ext fun k => ?_
    have hpid := h.map (f := Conn.pid) fun _ => rfl
    simp only [sole_sock, hpid]
  unfold Store.target
  rw [resolve_fst, resolve_fst]
  split_ifs
  · rw [Option.map_or, Option.map_or, hcached, hexact, hsole, ← Option.map_or, ← Option.map_or]
  · exact hsole

/-! ### The loop -/

/-- The entries of the snapshot that are charged to the connection at `k`. -/
def charges (s : Store) (v : View) (k : UInt64) (stats : List SSLStat) : List SSLStat :=
  stats.filter fun st => decide (s.target v st.pid st.fd = some k)

/-- The entries, each with the same view. -/
def under (v : View) (stats : List SSLStat) : List (SSLStat × View) := stats.map fun st => (st, v)

theorem accumulate_bare (st : SSLStat) (smp : Option Sample) (c : Conn) :
    (c.accumulate st smp).bare = c.bare := by
  cases smp <;> rfl

theorem zeroPlain_bare (c : Conn) : c.zeroPlain.bare = c.bare := by
  unfold Conn.zeroPlain
  split_ifs <;> rfl

theorem credit_pidfd {p : SSLStat × View} :
    (s.credit p).pidfd = (s.resolve p.2 p.1.pid p.1.fd).2.pidfd := by
  unfold credit
  dsimp only
  cases (s.resolve p.2 p.1.pid p.1.fd).1 <;> rfl

/-- One turn charges one connection, and every later lookup finds what it would have found. -/
theorem credit_row (st : SSLStat) : (s.credit (st, v)).conns[k]? =
    if s.target v st.pid st.fd = some k
    then s.conns[k]?.map (Conn.accumulate st s.plainBySSL[st.ssl]?) else s.conns[k]? := credit_get

theorem credit_alike (st : SSLStat) : (s.credit (st, v)).Alike s := by
  intro k
  rw [credit_row]
  split_ifs
  · rw [Option.map_map]
    exact congrArg (Option.map · _) (funext fun c => accumulate_bare st _ c)
  · rfl

theorem credit_target (hv : v.ByKey) (st : SSLStat) (pid : UInt32) (fd : Int32) :
    (s.credit (st, v)).target v pid fd = s.target v pid fd := by
  have hcache : (s.credit (st, v)).Alike (s.resolve v st.pid st.fd).2 := by
    intro k
    rw [resolve_conns]
    exact credit_alike st k
  rw [hcache.target credit_pidfd hv]
  unfold target
  rw [resolve_resolve]

theorem foldl_credit_row (hv : v.ByKey) (stats : List SSLStat) (k : UInt64) :
    ((under v stats).foldl credit s).conns[k]? = s.conns[k]?.map fun c =>
      (s.charges v k stats).foldl (fun c st => c.accumulate st s.plainBySSL[st.ssl]?) c := by
  induction stats generalizing s with
  | nil => simp [under, charges]
  | cons st stats ih =>
    have hcharges : (s.credit (st, v)).charges v k stats = s.charges v k stats := by
      unfold charges
      simp only [credit_target hv]
    have hplain : (s.credit (st, v)).plainBySSL = s.plainBySSL := credit_plainBySSL
    change ((under v stats).foldl credit (s.credit (st, v))).conns[k]? = _
    rw [ih, credit_row, hcharges, hplain]
    by_cases hk : s.target v st.pid st.fd = some k
    · have hcons : s.charges v k (st :: stats) = st :: s.charges v k stats :=
        List.filter_cons_of_pos (decide_eq_true hk)
      rw [if_pos hk, hcons, Option.map_map]
      rfl
    · have hskip : s.charges v k (st :: stats) = s.charges v k stats :=
        List.filter_cons_of_neg (by simpa using hk)
      rw [if_neg hk, hskip]

/-- The sum of the bytes that the entries report, modulo `2 ^ 64`. -/
theorem foldl_accumulate (plain : Table Sample) (stats : List SSLStat) (c : Conn) :
    (stats.foldl (fun c st => c.accumulate st plain[st.ssl]?) c).bare = c.bare ∧
    (stats.foldl (fun c st => c.accumulate st plain[st.ssl]?) c).ptxBytes.toNat =
      (c.ptxBytes.toNat + (stats.map fun st => st.ptx.toNat).sum) % 2 ^ 64 ∧
    (stats.foldl (fun c st => c.accumulate st plain[st.ssl]?) c).prxBytes.toNat =
      (c.prxBytes.toNat + (stats.map fun st => st.prx.toNat).sum) % 2 ^ 64 := by
  induction stats generalizing c with
  | nil =>
    refine ⟨rfl, ?_, ?_⟩
    · exact (Nat.mod_eq_of_lt c.ptxBytes.toNat_lt).symm
    · exact (Nat.mod_eq_of_lt c.prxBytes.toNat_lt).symm
  | cons st stats ih =>
    obtain ⟨hbare, hptx, hprx⟩ := ih (c.accumulate st plain[st.ssl]?)
    have htotals : ∀ smp : Option Sample, (c.accumulate st smp).ptxBytes = c.ptxBytes + st.ptx ∧
        (c.accumulate st smp).prxBytes = c.prxBytes + st.prx := by
      intro smp
      cases smp <;> exact ⟨rfl, rfl⟩
    rw [(htotals _).1, UInt64.toNat_add, Nat.mod_add_mod, Nat.add_assoc] at hptx
    rw [(htotals _).2, UInt64.toNat_add, Nat.mod_add_mod, Nat.add_assoc] at hprx
    exact ⟨hbare.trans (accumulate_bare st _ c), hptx, hprx⟩

/-- What the snapshot makes the totals of the connection at `k`. -/
def chargedBytes (s : Store) (v : View) (k : UInt64) (stats : List SSLStat)
    (bytes : SSLStat → UInt64) : ℕ :=
  ((s.charges v k stats).map fun st => (bytes st).toNat).sum % 2 ^ 64

theorem Alike.chargedBytes {stats stats' : List SSLStat} (h : Alike s t) (hcache : s.pidfd = t.pidfd)
    (hv : v.ByKey) (hperm : stats.Perm stats') (bytes : SSLStat → UInt64) :
    s.chargedBytes v k stats bytes = t.chargedBytes v k stats' bytes := by
  have hcharges : (s.charges v k stats).Perm (t.charges v k stats') := by
    unfold charges
    simp only [h.target hcache hv]
    exact hperm.filter _
  unfold Store.chargedBytes
  rw [(hcharges.map _).sum_nat]

theorem updateSSLStats_row (hv : v.ByKey) (stats : List SSLStat) {c : Conn}
    (hc : s.conns[k]? = some c) : ∃ c', (s.updateSSLStats (under v stats)).conns[k]? = some c' ∧
      c'.bare = c.bare ∧
      (c.plainFinal = false → c'.ptxBytes.toNat = s.chargedBytes v k stats SSLStat.ptx ∧
        c'.prxBytes.toNat = s.chargedBytes v k stats SSLStat.prx) := by
  have hzero : (s.mapConns Conn.zeroPlain Conn.keeps_zeroPlain).Alike s := by
    intro k
    rw [mapConns_get, Option.map_map]
    exact congrArg (Option.map · _) (funext zeroPlain_bare)
  have hcharged := fun bytes =>
    hzero.chargedBytes (k := k) mapConns_pidfd hv (List.Perm.refl stats) bytes
  have hrow : (s.updateSSLStats (under v stats)).conns[k]? = _ :=
    foldl_credit_row (s := s.mapConns Conn.zeroPlain Conn.keeps_zeroPlain) hv stats k
  rw [mapConns_get, hc, Option.map_some, Option.map_some] at hrow
  obtain ⟨hbare, hptx, hprx⟩ := foldl_accumulate
    (s.mapConns Conn.zeroPlain Conn.keeps_zeroPlain).plainBySSL
    ((s.mapConns Conn.zeroPlain Conn.keeps_zeroPlain).charges v k stats) c.zeroPlain
  refine ⟨_, hrow, hbare.trans (zeroPlain_bare c), fun hfinal => ?_⟩
  have hstart : c.zeroPlain.ptxBytes = 0 ∧ c.zeroPlain.prxBytes = 0 := by
    unfold Conn.zeroPlain
    rw [if_neg (by simp [hfinal])]
    exact ⟨rfl, rfl⟩
  rw [hstart.1, UInt64.toNat_zero, Nat.zero_add] at hptx
  rw [hstart.2, UInt64.toNat_zero, Nat.zero_add] at hprx
  exact ⟨hptx.trans (hcharged SSLStat.ptx), hprx.trans (hcharged SSLStat.prx)⟩

/-- What a snapshot of the sessions leaves of the store besides the tables. -/
def rest (s : Store) : List Conn × ℕ × ℕ × ℕ × List Conn :=
  (s.history, s.maxHistory, s.peekBytes, s.next, s.log)

theorem credit_rest {p : SSLStat × View} : (s.credit p).rest = s.rest := by
  have hresolve : (s.resolve p.2 p.1.pid p.1.fd).2.rest = s.rest := by rw [resolve_snd, rest, rest]
  unfold credit
  dsimp only
  cases (s.resolve p.2 p.1.pid p.1.fd).1 with
  | none => exact hresolve
  | some c => exact hresolve

theorem updateSSLStats_rest (ps : List (SSLStat × View)) : (s.updateSSLStats ps).rest = s.rest :=
  foldl_frame credit (g := rest) (fun _ _ => credit_rest)
    (s.mapConns Conn.zeroPlain Conn.keeps_zeroPlain) ps

/-- **A snapshot recomputes the totals of every connection that is not final from the entries that
resolve to it before the call**, whatever the order of the entries and the totals before; it keeps
the samples it lists, and changes nothing else but plaintext and cache. -/
theorem stats_recompute (s : Store) (v : View) (hv : v.ByKey) (stats : List SSLStat) :
    (∀ (k : UInt64) (c : Conn), s.conns[k]? = some c →
      ∃ c', (s.updateSSLStats (under v stats)).conns[k]? = some c' ∧ c'.bare = c.bare ∧
        (c.plainFinal = false → c'.ptxBytes.toNat = s.chargedBytes v k stats SSLStat.ptx ∧
          c'.prxBytes.toNat = s.chargedBytes v k stats SSLStat.prx)) ∧
    (∀ k : UInt64, s.conns[k]? = none → (s.updateSSLStats (under v stats)).conns[k]? = none) ∧
    (∀ (t : Store) (stats' : List SSLStat) (k : UInt64) (bytes : SSLStat → UInt64),
      s.Alike t → s.pidfd = t.pidfd → stats.Perm stats' →
      s.chargedBytes v k stats bytes = t.chargedBytes v k stats' bytes) ∧
    (∀ a : UInt64, (s.updateSSLStats (under v stats)).plainBySSL[a]? =
      if ∃ st ∈ stats, st.ssl = a then s.plainBySSL[a]? else none) ∧
    (s.updateSSLStats (under v stats)).rest = s.rest := by
  refine ⟨fun k c hc => updateSSLStats_row hv stats hc, fun k hk => ?_,
    fun t stats' k bytes h hcache hperm => h.chargedBytes hcache hv hperm bytes, fun a => ?_,
    updateSSLStats_rest _⟩
  · have hrow : (s.updateSSLStats (under v stats)).conns[k]? = _ :=
      foldl_credit_row (s := s.mapConns Conn.zeroPlain Conn.keeps_zeroPlain) hv stats k
    rw [hrow, mapConns_get, hk]
    rfl
  · rw [updateSSLStats_sample]
    refine if_congr ?_ rfl rfl
    simp [under]

def countedStat (ssl ptx : UInt64) (fd : Int32) : SSLStat := { ssl, ptx, prx := 1, pid := 7, fd }

def oneConn : Store := (new 500 8192).run (fun _ => none)
  [.updateFlows (.blind 0) [{ sock := 1, pid := 7 }]]

/-- Two sessions of one connection, one of them listed twice. -/
def twoSessions : List SSLStat :=
  [countedStat 16 10 5, countedStat 32 20 (-1), countedStat 16 10 5]

theorem sessions_summed :
    ∃ c, (oneConn.updateSSLStats (under (.blind 0) twoSessions)).conns[(1 : UInt64)]? = some c ∧
      c.totals = (40, 3) := by
  have hlive : (oneConn.conns[(1 : UInt64)]?).map Conn.plainFinal = some false := by decide +kernel
  obtain ⟨c, hc, hfinal⟩ := Option.map_eq_some_iff.mp hlive
  obtain ⟨c', hc', -, htotals⟩ := (stats_recompute oneConn (.blind 0) (fun _ _ h => h)
    twoSessions).1 1 c hc
  have hcharged : oneConn.chargedBytes (.blind 0) 1 twoSessions SSLStat.ptx = 40 ∧
      oneConn.chargedBytes (.blind 0) 1 twoSessions SSLStat.prx = 3 := by decide +kernel
  obtain ⟨hptx, hprx⟩ := htotals hfinal
  exact ⟨c', hc', Prod.ext (UInt64.toNat_inj.mp (hptx.trans hcharged.1))
    (UInt64.toNat_inj.mp (hprx.trans hcharged.2))⟩

end Store
end Tlstat.Model
