import Tlstat.Base.Table
import Tlstat.Model.Conn

/-! The connection table. Every `Store` is well formed: live connections sit under
their own socket, no object is both live and retired, and objects are distinct. -/

namespace Tlstat.Model
open Base Loader Tlsparse

/-- What an operation sees of the outside while it runs: the clock, `/proc`, and
the order in which Go happens to range over the table. -/
structure View where
  now : Time
  retireNow : UInt64 → Time
  procPeer : UInt32 → Int32 → Option AddrPort
  order : List (UInt64 × Conn) → List (UInt64 × Conn)
  now_pos : 0 < now
  retireNow_pos : ∀ k, 0 < retireNow k
  order_perm : ∀ l, (order l).Perm l

/-- A view in which the clock reads `n + 1`, `/proc` answers nothing and the range follows
the keys. -/
def View.blind (n : ℕ) : View where
  now := n + 1
  retireNow := fun _ => n + 1
  procPeer := fun _ _ => none
  order := id
  now_pos := n.succ_pos
  retireNow_pos := fun _ => n.succ_pos
  order_perm := fun l => List.Perm.refl l

structure Store where
  conns : Table Conn
  history : List Conn
  maxHistory : ℕ
  peekBytes : ℕ
  pidfd : Table UInt64
  plainBySSL : Table Sample
  next : ℕ
  /-- Ghost: every retirement so far, oldest first. No operation reads it. -/
  log : List Conn
  keyed : ∀ (k : UInt64) (c : Conn), conns[k]? = some c → c.sock = k
  live_lt : ∀ (k : UInt64) (c : Conn), conns[k]? = some c → c.obj < next
  live_inj : ∀ (k k' : UInt64) (c c' : Conn), conns[k]? = some c → conns[k']? = some c' →
    c.obj = c'.obj → k = k'
  log_lt : ∀ c ∈ log, c.obj < next
  log_ne : ∀ c ∈ log, ∀ (k : UInt64) (c' : Conn), conns[k]? = some c' → c.obj ≠ c'.obj
  log_nodup : (log.map Conn.obj).Nodup
  history_sub : ∀ c ∈ history, c ∈ log

namespace Store

/-- `New(maxHistory, peekBytes)`, negative arguments clamped to 0. -/
def new (maxHistory peekBytes : ℤ) : Store where
  conns := ∅
  history := []
  maxHistory := maxHistory.toNat
  peekBytes := peekBytes.toNat
  pidfd := ∅
  plainBySSL := ∅
  next := 0
  log := []
  keyed := by simp
  live_lt := by simp
  live_inj := by simp
  log_lt := by simp
  log_ne := by simp
  log_nodup := by simp
  history_sub := by simp

/-! ### The four ways the table changes -/

def fresh (s : Store) (sock : UInt64) (now : Time) : Conn :=
  { obj := s.next, sock := sock, firstSeen := now }

/-- `if c == nil { c = &Conn{...}; s.conns[sock] = c }` -/
def touch (s : Store) (sock : UInt64) (now : Time) : Store :=
  if h : s.conns[sock]? = none then
    { s with
      conns := s.conns.insert sock (s.fresh sock now)
      next := s.next + 1
      keyed := by
        intro k c hc
        rw [Table.get_insert] at hc
        split_ifs at hc with hk
        · obtain rfl := Option.some.inj hc
          exact hk
        · exact s.keyed k c hc
      live_lt := by
        intro k c hc
        rw [Table.get_insert] at hc
        split_ifs at hc with hk
        · obtain rfl := Option.some.inj hc
          exact Nat.lt_succ_self _
        · exact (s.live_lt k c hc).trans (Nat.lt_succ_self _)
      live_inj := by
        intro k k' c c' hc hc' ho
        rw [Table.get_insert] at hc hc'
        split_ifs at hc hc' with hk hk' hk'
        · exact hk.symm.trans hk'
        · obtain rfl := Option.some.inj hc
          exact absurd ho.symm (s.live_lt k' c' hc').ne
        · obtain rfl := Option.some.inj hc'
          exact absurd ho (s.live_lt k c hc).ne
        · exact s.live_inj k k' c c' hc hc' ho
      log_lt := fun c hc => (s.log_lt c hc).trans (Nat.lt_succ_self _)
      log_ne := by
        intro c hc k c' hc'
        rw [Table.get_insert] at hc'
        split_ifs at hc' with hk
        · obtain rfl := Option.some.inj hc'
          exact (s.log_lt c hc).ne
        · exact s.log_ne c hc k c' hc' }
  else s

/-- The table is replaced by one whose entries are the same objects. -/
def withConns (s : Store) (conns : Table Conn)
    (same : ∀ (k : UInt64) (c : Conn), conns[k]? = some c →
      ∃ c', s.conns[k]? = some c' ∧ c.obj = c'.obj ∧ c.sock = c'.sock) : Store :=
  { s with
    conns := conns
    keyed := by
      intro k c hc
      obtain ⟨c', hc', -, hs⟩ := same k c hc
      exact hs.trans (s.keyed k c' hc')
    live_lt := by
      intro k c hc
      obtain ⟨c', hc', ho, -⟩ := same k c hc
      exact ho ▸ s.live_lt k c' hc'
    live_inj := by
      intro k k' c c' hc hc' ho
      obtain ⟨d, hd, hdo, -⟩ := same k c hc
      obtain ⟨d', hd', hdo', -⟩ := same k' c' hc'
      exact s.live_inj k k' d d' hd hd' (by rw [← hdo, ho, hdo'])
    log_ne := by
      intro c hc k c' hc'
      obtain ⟨d, hd, hdo, -⟩ := same k c' hc'
      exact hdo ▸ s.log_ne c hc k d hd }

def modify (s : Store) (sock : UInt64) (f : Conn → Conn) (hf : Keeps f) : Store :=
  s.withConns (s.conns.modify sock f) <| by
    intro k c hc
    rw [Table.get_modify] at hc
    split_ifs at hc with hk
    · subst hk
      obtain ⟨c', hc', rfl⟩ := Option.map_eq_some_iff.mp hc
      exact ⟨c', hc', hf c'⟩
    · exact ⟨c, hc, rfl, rfl⟩

def mapConns (s : Store) (f : Conn → Conn) (hf : Keeps f) : Store :=
  s.withConns (s.conns.map fun _ => f) <| by
    intro k c hc
    rw [Table.get_map] at hc
    obtain ⟨c', hc', rfl⟩ := Option.map_eq_some_iff.mp hc
    exact ⟨c', hc', hf c'⟩

/-- The history ring after an append: its last `maxHistory` entries. -/
def trim (maxHistory : ℕ) (history : List Conn) : List Conn :=
  if history.length > maxHistory then history.drop (history.length - maxHistory) else history

/-- `retire` together with the `delete` that follows it. -/
def retire (s : Store) (sock : UInt64) (now : Time) : Store :=
  match h : s.conns[sock]? with
  | none => s
  | some c =>
    have live : ∀ (k : UInt64) (d : Conn), (s.conns.erase sock)[k]? = some d →
        sock ≠ k ∧ s.conns[k]? = some d := by
      intro k d hd
      rw [Table.get_erase] at hd
      split_ifs at hd with hk
      exact ⟨hk, hd⟩
    { s with
      conns := s.conns.erase sock
      -- with no room for a history the connection is dropped
      history := if s.maxHistory = 0 then s.history
        else trim s.maxHistory (s.history ++ [c.retired now])
      log := s.log ++ [c.retired now]
      keyed := fun k d hd => s.keyed k d (live k d hd).2
      live_lt := fun k d hd => s.live_lt k d (live k d hd).2
      live_inj := fun k k' d d' hd hd' => s.live_inj k k' d d' (live k d hd).2 (live k' d' hd').2
      log_lt := by
        intro d hd
        rcases List.mem_append.mp hd with hd | hd
        · exact s.log_lt d hd
        · obtain rfl := List.mem_singleton.mp hd
          exact s.live_lt sock c h
      log_ne := by
        intro d hd k d' hd'
        obtain ⟨hk, hl⟩ := live k d' hd'
        rcases List.mem_append.mp hd with hd | hd
        · exact s.log_ne d hd k d' hl
        · obtain rfl := List.mem_singleton.mp hd
          exact fun ho => hk (s.live_inj sock k c d' h hl ho)
      log_nodup := by
        rw [List.map_append, List.map_singleton, List.nodup_append]
        refine ⟨s.log_nodup, by simp, ?_⟩
        intro a ha b hb
        obtain ⟨d, hd, rfl⟩ := List.mem_map.mp ha
        obtain rfl := List.mem_singleton.mp hb
        exact s.log_ne d hd sock c h
      history_sub := by
        intro d hd
        split_ifs at hd
        · exact List.mem_append_left _ (s.history_sub d hd)
        · have hd' : d ∈ s.history ++ [c.retired now] := by
            unfold trim at hd
            split_ifs at hd
            · exact List.mem_of_mem_drop hd
            · exact hd
          rcases List.mem_append.mp hd' with hd' | hd'
          · exact List.mem_append_left _ (s.history_sub d hd')
          · exact List.mem_append_right _ hd' }

/-! ### Attribution -/

/-- `uint64(pid)<<32 | uint64(uint32(fd))` -/
def pidfdKey (pid : UInt32) (fd : Int32) : UInt64 :=
  pid.toUInt64 <<< 32 ||| fd.toUInt32.toUInt64

/-- The scan for the pid's single connection, with its early exit on a second one. -/
def soleLoop (pid : UInt32) : List (UInt64 × Conn) → Option Conn → Option Conn
  | [], m => m
  | (_, c) :: rest, m =>
    if c.pid = pid then
      match m with
      -- ambiguous: no guess
      | some _ => none
      | none => soleLoop pid rest (some c)
    else soleLoop pid rest m

def sole (s : Store) (v : View) (pid : UInt32) : Option Conn :=
  soleLoop pid (v.order s.conns.toList) none

/-- `resolve`: the connection, and the store with the `pidfd` cache it leaves. -/
def resolve (s : Store) (v : View) (pid : UInt32) (fd : Int32) : Option Conn × Store :=
  if fd ≥ 0 then
    let key := pidfdKey pid fd
    match s.pidfd[key]?.bind fun sock => s.conns[sock]? with
    -- a hit is not checked against what `/proc` says by now
    | some c => (some c, s)
    | none =>
      -- a stale entry is dropped; without an entry the erase does nothing
      let s := { s with pidfd := s.pidfd.erase key }
      match v.procPeer pid fd with
      | none => (s.sole v pid, s)
      | some ap =>
        -- the first connection with this peer, in the order of the range
        match (v.order s.conns.toList).find? fun p => p.2.remote = ap with
        | some (_, c) => (some c, { s with pidfd := s.pidfd.insert key c.sock })
        | none => (s.sole v pid, s)
  else (s.sole v pid, s)

/-! ### The operations -/

def updateFlow (now : Time) (s : Store) (f : Flow) : Store :=
  (s.touch f.sock now).modify f.sock (Conn.reconcile f now) (Conn.keeps_reconcile f now)

def gone (flows : List Flow) (p : UInt64 × Conn) : Bool :=
  !(flows.any fun f => f.sock == p.1) && p.2.closed

/-- The body of the retirement loop. -/
def sweep (v : View) (flows : List Flow) (s : Store) (p : UInt64 × Conn) : Store :=
  if gone flows p then s.retire p.1 (v.retireNow p.1) else s

def updateFlows (s : Store) (v : View) (flows : List Flow) : Store :=
  let s := flows.foldl (updateFlow v.now) s
  (v.order s.conns.toList).foldl (sweep v flows) s

def applyWire (x509 : X509) (s : Store) (now : Time) (w : WireEvent) : Store :=
  if w.data = [] then s
  else (s.touch w.sock now).modify w.sock (Conn.applyWire x509 w) (Conn.keeps_applyWire x509 w)

def applyData (s : Store) (d : DataEvent) : Store :=
  if d.data = [] then s
  else { s with plainBySSL :=
    s.plainBySSL.insert d.ssl ((s.plainBySSL[d.ssl]?.getD {}).record s.peekBytes d) }

def applyClose (s : Store) (v : View) (e : CloseEvent) : Store :=
  let r := s.resolve v e.pid e.fd
  let s := match r.1 with
    | none => r.2
    | some c => r.2.modify c.sock (Conn.finalize e r.2.plainBySSL[e.ssl]?) (Conn.keeps_finalize e _)
  -- the sample goes also where nothing was resolved
  { s with plainBySSL := s.plainBySSL.erase e.ssl }

/-- One turn of the accumulation loop, under what the outside shows at that turn. -/
def credit (s : Store) (p : SSLStat × View) : Store :=
  let r := s.resolve p.2 p.1.pid p.1.fd
  match r.1 with
  | none => r.2
  | some c =>
    r.2.modify c.sock (Conn.accumulate p.1 r.2.plainBySSL[p.1.ssl]?) (Conn.keeps_accumulate p.1 _)

/-- Each entry of the list comes with the view of its turn: `/proc` may change
between two turns of the loop. -/
def updateSSLStats (s : Store) (stats : List (SSLStat × View)) : Store :=
  let s := s.mapConns Conn.zeroPlain Conn.keeps_zeroPlain
  let s := stats.foldl credit s
  -- sessions that the snapshot does not list count as freed
  { s with plainBySSL := s.plainBySSL.filter fun ssl _ => stats.any fun p => p.1.ssl == ssl }

/-- `Snapshot`, in the order of the range. -/
def snapshot (s : Store) (v : View) : List Conn := (v.order s.conns.toList).map Prod.snd

def snapshotHistory (s : Store) : List Conn := s.history.reverse

end Store

/-- The calls the goroutines make, each under the lock. -/
inductive Op
  | updateFlows (v : View) (flows : List Flow)
  | applyWire (now : Time) (w : WireEvent)
  | applyData (d : DataEvent)
  | applyClose (v : View) (e : CloseEvent)
  | updateSSLStats (stats : List (SSLStat × View))

def Store.step (x509 : X509) (s : Store) : Op → Store
  | .updateFlows v flows => s.updateFlows v flows
  | .applyWire now w => s.applyWire x509 now w
  | .applyData d => s.applyData d
  | .applyClose v e => s.applyClose v e
  | .updateSSLStats stats => s.updateSSLStats stats

def Store.run (x509 : X509) (s : Store) (ops : List Op) : Store := ops.foldl (Store.step x509) s

end Tlstat.Model
