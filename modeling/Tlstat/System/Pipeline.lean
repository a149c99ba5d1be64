import Tlstat.Bpf.Spec
import Tlstat.Loader.Codec
import Tlstat.Model.Spec

/-! The whole program: the probes, the ring with its reader, and the poller, each taking its
steps in any order. -/

namespace Tlstat

namespace Loader
open Bpf

/-- The bytes before the first NUL. -/
def cstr (b : Bytes) : Bytes := b.takeWhile (· ≠ 0)

/-- One entry of the `flows` map, as `Flows` reports it. -/
def flowOf (p : UInt64 × Bpf.Flow) : Flow where
  sock := p.1
  pid := p.2.pid
  saddr := p.2.saddr
  daddr := p.2.daddr
  sport := p.2.sport
  dport := p.2.dport
  isIPv6 := p.2.isIpv6 ≠ 0
  direction := p.2.direction
  isTLS := p.2.isTls ≠ 0
  closed := p.2.closed ≠ 0
  comm := cstr p.2.comm
  tx := p.2.tx
  rx := p.2.rx

/-- One entry of the `ssl_stats` map, as `SSLStats` reports it. -/
def statOf (p : UInt64 × SslStat) : SSLStat where
  ssl := p.1
  ptx := p.2.ptx
  prx := p.2.prx
  pid := p.2.pid
  fd := p.2.fd

end Loader

namespace System
open Base Loader Model Tlsparse

/-- The switch of the reader goroutine. -/
def receive (x509 : X509) (v : View) (s : Store) : Loader.Event → Store
  | .wire w => s.applyWire x509 v.now w
  | .data d => s.applyData d
  | .close c => s.applyClose v c
  | .none => s

def deliver (x509 : X509) (s : Store) (p : View × Bpf.Event) : Store :=
  receive x509 p.1 s (readEvent p.2.encode)

inductive Poller
  | idle
  | flows (flows : List Flow)
  | deleting (socks : List UInt64)
  | stats (stats : List SSLStat)

structure State where
  kernel : Bpf.Kernel
  /-- How many ring records the reader has taken. -/
  read : ℕ
  store : Store
  poller : Poller

def init (maxHistory peekBytes : ℤ) : State := ⟨{}, 0, Store.new maxHistory peekBytes, .idle⟩

/-- The steps of the three parties. A snapshot lists the map in any order.

Assumed atomic: a hit runs a probe from its entry to its end, a read takes a whole record, and
`takeFlows` and `takeStats` copy a map in one step, where `Flows` and `SSLStats` take one `Next` and
one lookup for each entry and probes may run in between. What is said of one socket or one session
holds with a lookup for each entry too; only what is said of two entries of one snapshot together rests
on the copy. -/
inductive Move
  | hit (env : Bpf.Env) (h : Bpf.Hit)
  | read (v : View)
  | takeFlows (order : List Flow → List Flow) (perm : ∀ l, (order l).Perm l)
  | applyFlows (v : View)
  | deleteFlow
  | takeStats (order : List SSLStat → List SSLStat) (perm : ∀ l, (order l).Perm l)
  | applyStats (views : SSLStat → View)
  | skip

/-- One step; a party that is not at the point of a move does nothing. -/
def step (x509 : X509) (s : State) : Move → State
  | .hit env h => { s with kernel := s.kernel.step (env, h) }
  | .read v =>
    match s.kernel.events[s.read]? with
    | none => s
    | some e => { s with read := s.read + 1, store := deliver x509 s.store (v, e) }
  | .takeFlows order _ =>
    match s.poller with
    | .idle => { s with poller := .flows (order (s.kernel.flows.toList.map flowOf)) }
    | _ => s
  | .applyFlows v =>
    match s.poller with
    | .flows flows =>
      { s with
        store := s.store.updateFlows v flows
        -- `DeleteFlow` runs outside the lock, one closed socket after the other
        poller := .deleting ((flows.filter Flow.closed).map Flow.sock) }
    | _ => s
  | .deleteFlow =>
    match s.poller with
    | .deleting (sock :: socks) =>
      { s with kernel := s.kernel.deleteFlow sock, poller := .deleting socks }
    | _ => s
  | .takeStats order _ =>
    match s.poller with
    | .deleting [] => { s with poller := .stats (order (s.kernel.sslStats.toList.map statOf)) }
    | _ => s
  | .applyStats views =>
    match s.poller with
    | .stats stats =>
      { s with
        store := s.store.updateSSLStats (stats.map fun st => (st, views st))
        poller := .idle }
    | _ => s
  | .skip =>
    -- a read of a map failed: the round goes on without it
    match s.poller with
    | .idle => { s with poller := .deleting [] }
    | .deleting [] => { s with poller := .idle }
    | _ => s

def run (x509 : X509) (s : State) (moves : List Move) : State := moves.foldl (step x509) s

/-! ### The store's part in a run -/

/-- The call on the store that hands an event over. -/
def eventCall (v : View) : Loader.Event → Option Op
  | .wire w => some (.applyWire v.now w)
  | .data d => some (.applyData d)
  | .close c => some (.applyClose v c)
  | .none => none

/-- The call on the store that a move makes. -/
def call (s : State) : Move → Option Op
  | .read v => s.kernel.events[s.read]?.bind fun e => eventCall v (readEvent e.encode)
  | .applyFlows v =>
    match s.poller with
    | .flows flows => some (.updateFlows v flows)
    | _ => none
  | .applyStats views =>
    match s.poller with
    | .stats stats => some (.updateSSLStats (stats.map fun st => (st, views st)))
    | _ => none
  | .hit _ _ | .takeFlows _ _ | .deleteFlow | .takeStats _ _ | .skip => none

theorem receive_eq (x509 : X509) (v : View) (s : Store) (e : Loader.Event) :
    receive x509 v s e = (eventCall v e).elim s (s.step x509) := by
  cases e <;> rfl

theorem step_store (x509 : X509) (s : State) (m : Move) :
    (step x509 s m).store = (call s m).elim s.store (s.store.step x509) := by
  unfold step call
  cases m with
  | read v =>
    dsimp only
    cases s.kernel.events[s.read]? with
    | none => rfl
    | some e => exact receive_eq x509 v s.store _
  | hit env h => rfl
  | takeFlows order perm | applyFlows v | deleteFlow | takeStats order perm | applyStats views
  | skip =>
    dsimp only
    split <;> rfl

/-- The calls on the store that a run makes, in order. -/
def calls (x509 : X509) : State → List Move → List Op
  | _, [] => []
  | s, m :: moves => (call s m).toList ++ calls x509 (step x509 s m) moves

theorem calls_concat (x509 : X509) (s : State) (moves : List Move) (m : Move) :
    calls x509 s (moves ++ [m]) = calls x509 s moves ++ (call (run x509 s moves) m).toList := by
  induction moves generalizing s with
  | nil => exact List.append_nil _
  | cons m' moves ih =>
    change (call s m').toList ++ calls x509 (step x509 s m') (moves ++ [m]) =
      (call s m').toList ++ calls x509 (step x509 s m') moves ++ _
    rw [ih, List.append_assoc]
    rfl

/-- Whatever the three parties do, the store goes through one of its own runs. -/
theorem run_store (x509 : X509) (s : State) (moves : List Move) :
    (run x509 s moves).store = s.store.run x509 (calls x509 s moves) := by
  induction moves generalizing s with
  | nil => rfl
  | cons m moves ih =>
    refine (ih (step x509 s m)).trans ?_
    change _ = s.store.run x509 ((call s m).toList ++ calls x509 (step x509 s m) moves)
    rw [step_store]
    cases call s m <;> rfl

theorem call_ne_updateFlows {s : State} {m : Move} (hm : ∀ v, m ≠ .applyFlows v) {op : Op}
    (hop : call s m = some op) (v : View) (flows : List Flow) : op ≠ .updateFlows v flows := by
  rintro rfl
  cases m with
  | read v' =>
    obtain ⟨e, -, he⟩ := Option.bind_eq_some_iff.mp hop
    generalize readEvent e.encode = ev at he
    cases ev <;> cases he
  | applyFlows v' => exact hm v' rfl
  | applyStats views =>
    unfold call at hop
    dsimp only at hop
    split at hop <;> cases hop
  | hit env h | takeFlows order perm | deleteFlow | takeStats order perm | skip => cases hop

/-- Only the flow poll writes the log. -/
theorem step_log {x509 : X509} {s : State} {m : Move} (hm : ∀ v, m ≠ .applyFlows v) :
    (step x509 s m).store.log = s.store.log := by
  rw [step_store]
  cases hop : call s m with
  | none => rfl
  | some op => exact Store.step_log_of_not_poll (call_ne_updateFlows hm hop)

end System
end Tlstat
