import Tlstat.Model.Spec

/-! What `resolve` does when the exact lookup gives nothing. Its comments speak of the sole TLS
connection of the process; the scan counts every connection of it, plain ones too. -/

namespace Tlstat.Model.Store
open Base Loader
variable {s : Store} {v : View} {pid : UInt32} {fd : Int32} {c : Conn}

/-- The exact lookup gives nothing. -/
def Inexact (s : Store) (v : View) (pid : UInt32) (fd : Int32) : Prop :=
  fd < 0 ∨
    ((∀ sock : UInt64, s.pidfd[pidfdKey pid fd]? = some sock → s.conns[sock]? = none) ∧
      ∀ ap, v.procPeer pid fd = some ap →
        ∀ d : Conn, s.conns[d.sock]? = some d → d.remote ≠ ap)

/-- The connections of the process with `P` are `c` and no other. -/
def SoleOf (P : Conn → Prop) (s : Store) (pid : UInt32) (c : Conn) : Prop :=
  s.conns[c.sock]? = some c ∧ c.pid = pid ∧ P c ∧
    ∀ d : Conn, s.conns[d.sock]? = some d → d.pid = pid → P d → d = c

/-- "the sole TLS connection owned by the pid" -/
def SoleTLS (s : Store) (pid : UInt32) (c : Conn) : Prop :=
  SoleOf (fun d => d.isTLS = true) s pid c

/-- "Fallback: the pid's single TLS connection (ambiguous → skip)" -/
def FallsBackToTLS (s : Store) (v : View) (pid : UInt32) (fd : Int32) : Prop :=
  ∀ c, (s.resolve v pid fd).1 = some c ↔ s.SoleTLS pid c

/-- A process with a single TLS connection has no plain one beside it, and a process with a single
connection has it speak TLS. -/
def Unmixed (s : Store) (pid : UInt32) : Prop :=
  (∀ c d : Conn, s.SoleTLS pid c → s.conns[d.sock]? = some d → d.pid = pid → d.isTLS = true) ∧
  ∀ c : Conn, SoleOf (fun _ => True) s pid c → c.isTLS = true

theorem cached_eq_none (h : ∀ sock : UInt64, s.pidfd[pidfdKey pid fd]? = some sock →
    s.conns[sock]? = none) : s.cached pid fd = none := by
  unfold cached
  rw [Option.bind_eq_none_iff]
  exact h

theorem exactMatch_eq_none (h : ∀ ap, v.procPeer pid fd = some ap →
    ∀ d : Conn, s.conns[d.sock]? = some d → d.remote ≠ ap) : s.exactMatch v pid fd = none := by
  rw [Option.eq_none_iff_forall_not_mem]
  intro d hd
  obtain ⟨hlive, hpeer⟩ := exactMatch_live hd
  exact h d.remote hpeer d hlive rfl

theorem resolve_of_inexact (h : s.Inexact v pid fd) : (s.resolve v pid fd).1 = s.sole v pid := by
  rw [resolve_fst]
  rcases h with hfd | ⟨hcache, hpeer⟩
  · exact if_neg (by simpa using hfd)
  · rw [cached_eq_none hcache, exactMatch_eq_none hpeer]
    exact ite_id _

/-- The scan finds the only connection of the process, whatever it speaks. -/
theorem sole_iff : s.sole v pid = some c ↔ SoleOf (fun _ => True) s pid c := by
  rw [sole_eq_some_iff]
  constructor
  · rintro ⟨hlive, hpid, hall⟩
    refine ⟨hlive, hpid, trivial, fun d hd hdp _ => ?_⟩
    rw [hall d.sock d hd hdp, hlive] at hd
    exact (Option.some.inj hd).symm
  · rintro ⟨hlive, hpid, -, hall⟩
    refine ⟨hlive, hpid, fun k d hd hdp => ?_⟩
    have hk : d.sock = k := s.keyed k d hd
    rw [← hk, hall d (hk ▸ hd) hdp trivial]

/-- **The fallback answers with the sole TLS connection of the process exactly when no plain
connection of the process stands beside it or for it.** -/
theorem fallsBackToTLS_iff (h : s.Inexact v pid fd) :
    s.FallsBackToTLS v pid fd ↔ s.Unmixed pid := by
  have hscan : s.FallsBackToTLS v pid fd ↔
      ∀ c, SoleOf (fun _ => True) s pid c ↔ s.SoleTLS pid c := by
    unfold FallsBackToTLS
    simp only [resolve_of_inexact h, sole_iff]
  rw [hscan]
  constructor
  · intro hsole
    constructor
    · intro c d hc hd hdp
      obtain ⟨-, -, -, hall⟩ := (hsole c).mpr hc
      rw [hall d hd hdp trivial]
      exact hc.2.2.1
    · intro c hc
      exact ((hsole c).mp hc).2.2.1
  · rintro ⟨hbeside, hlone⟩ c
    constructor
    · rintro ⟨hlive, hpid, -, hall⟩
      exact ⟨hlive, hpid, hlone c ⟨hlive, hpid, trivial, hall⟩,
        fun d hd hdp _ => hall d hd hdp trivial⟩
    · intro hc
      exact ⟨hc.1, hc.2.1, trivial, fun d hd hdp _ =>
        hc.2.2.2 d hd hdp (hbeside c d hc hd hdp)⟩

/-- The store after one poll that reports `flows`. -/
def afterPoll (flows : List Flow) : Store :=
  (new 500 8192).run (fun _ => none) [.updateFlows (.blind 0) flows]

def webFlow (sock : UInt64) (isTLS : Bool) : Flow := { sock, pid := 7, dport := 443, isTLS }

theorem lone_tls_falls_back : (afterPoll [webFlow 1 true]).FallsBackToTLS (.blind 0) 7 (-1) := by
  refine (fallsBackToTLS_iff (.inl (by decide))).mpr ?_
  have hall : ∀ p ∈ (afterPoll [webFlow 1 true]).conns.toList, p.2.isTLS = true := by decide +kernel
  have htls : ∀ d : Conn, (afterPoll [webFlow 1 true]).conns[d.sock]? = some d → d.isTLS = true :=
    fun d hd => hall (d.sock, d) (Table.mem_toList.mpr hd)
  exact ⟨fun _ d _ hd _ => htls d hd, fun c hc => htls c hc.1⟩

/-- A lone plain connection is answered; a TLS connection with a plain one beside it is not. -/
theorem plain_connections_counted :
    ¬(afterPoll [webFlow 1 false]).FallsBackToTLS (.blind 0) 7 (-1) ∧
    ¬(afterPoll [webFlow 1 true, webFlow 2 false]).FallsBackToTLS (.blind 0) 7 (-1) := by
  constructor
  · intro h
    have hplain : ((afterPoll [webFlow 1 false]).resolve (.blind 0) 7 (-1)).1.map Conn.isTLS =
        some false := by decide +kernel
    obtain ⟨c, hc, htls⟩ := Option.map_eq_some_iff.mp hplain
    rw [((h c).mp hc).2.2.1] at htls
    cases htls
  · intro h
    have hnone : ((afterPoll [webFlow 1 true, webFlow 2 false]).resolve (.blind 0) 7
        (-1)).1.isNone := by decide +kernel
    have hrow : ((afterPoll [webFlow 1 true, webFlow 2 false]).conns[(1 : UInt64)]?).map
        (fun c => (c.pid, c.isTLS)) = some (7, true) := by decide +kernel
    have hall : ∀ p ∈ (afterPoll [webFlow 1 true, webFlow 2 false]).conns.toList,
        p.2.isTLS = true → p.1 = 1 := by decide +kernel
    obtain ⟨c, hc, hfields⟩ := Option.map_eq_some_iff.mp hrow
    obtain ⟨hpid, htls⟩ := Prod.mk.inj hfields
    have hsole : (afterPoll [webFlow 1 true, webFlow 2 false]).SoleTLS 7 c := by
      refine ⟨?_, hpid, htls, fun d hd _ hdt => ?_⟩
      · rw [Store.keyed _ 1 c hc]
        exact hc
      · have hkey : d.sock = 1 := hall (d.sock, d) (Table.mem_toList.mpr hd) hdt
        rw [hkey] at hd
        exact Option.some.inj (hd.symm.trans hc)
    rw [(h c).mpr hsole] at hnone
    cases hnone

end Tlstat.Model.Store
