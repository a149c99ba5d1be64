import Tlstat.Model.SockReuse

/-! One socket of the store on its own. An abstract machine holds the live connection of the socket
and the retired ones, and sees the polls and the wire events of that socket only. The store is one
such machine for each socket, the attribution of plaintext apart. -/

namespace Tlstat.Model
open Base Loader Tlsparse

/-- What there is of one socket: the live connection, and the retired ones, oldest first. -/
structure Socket where
  live : Option Conn := none
  past : List Conn := []
deriving DecidableEq, Repr

/-- What an operation shows of one socket: the entries of a snapshot that are about it, or a wire
event of it. -/
inductive Sight
  | poll (now retireNow : Time) (flows : List Flow)
  | wire (now : Time) (w : WireEvent)

namespace Socket

def opened (k : UInt64) (now : Time) (s : Socket) : Conn :=
  s.live.getD { obj := 0, sock := k, firstSeen := now }

def step (x509 : X509) (k : UInt64) (s : Socket) : Sight → Socket
  | .poll _ retireNow [] =>
    { live := s.live.filter fun c => !c.closed
      past := s.past ++ ((s.live.filter Conn.closed).map (Conn.retired retireNow)).toList }
  | .poll now _ (f :: fs) => { s with live := some (Store.reconcileAll now (f :: fs) (s.opened k now)) }
  | .wire now w => { s with live := some ((s.opened k now).applyWire x509 w) }

end Socket

def sight (k : UInt64) : Op → Option Sight
  | .updateFlows v flows => some (.poll v.now (v.retireNow k) (Store.flowsOf k flows))
  | .applyWire now w => if w.sock = k ∧ w.data ≠ [] then some (.wire now w) else none
  | _ => none

theorem Conn.map_core_filter (o : Option Conn) {p : Conn → Bool} (hp : ∀ c, p c.core = p c) :
    (o.filter p).map Conn.core = (o.map Conn.core).filter p := by
  cases o with
  | none => rfl
  | some c =>
    rw [Option.map_some, Option.filter_some, Option.filter_some, hp]
    cases p c <;> rfl

namespace Store
variable {s : Store} {k : UInt64} {x509 : X509}

/-- The socket as the store has it. -/
def socket (s : Store) (k : UInt64) : Socket where
  live := s.conns[k]?.map Conn.core
  past := (s.logOf k).map Conn.core

theorem socket_live {c : Conn} (hc : s.conns[k]? = some c) : (s.socket k).live = some c.core := by
  unfold socket
  rw [hc]
  rfl

theorem mem_socket_past {c : Conn} (hc : c ∈ s.log) : c.core ∈ (s.socket c.sock).past :=
  List.mem_map_of_mem (mem_logOf.mpr ⟨hc, rfl⟩)

theorem core_getD (s : Store) (k : UInt64) (o : ℕ) (now : Time) :
    (s.conns[k]?.getD { obj := o, sock := k, firstSeen := now }).core = (s.socket k).opened k now := by
  unfold Socket.opened socket
  cases s.conns[k]? <;> rfl

theorem logOf_congr {t : Store} (h : t.log = s.log) : t.logOf k = s.logOf k := by
  unfold logOf
  rw [h]

theorem socket_updateFlows (x509 : X509) (v : View) (flows : List Flow) : (s.updateFlows v flows).socket k =
    (s.socket k).step x509 k (.poll v.now (v.retireNow k) (flowsOf k flows)) := by
  cases hrep : flowsOf k flows with
  | nil =>
    obtain ⟨hget, hlog⟩ := updateFlows_of_unreported (s := s) (v := v) hrep
    unfold socket Socket.step
    rw [hget, hlog, Conn.map_core_filter _ fun _ => rfl, List.map_append]
    congr 2
    cases s.conns[k]? with
    | none => rfl
    | some c =>
      rw [Option.map_some, Option.filter_some, Option.filter_some]
      change _ = (Option.map _ (if c.closed = true then _ else none)).toList
      cases c.closed <;> rfl
  | cons f fs =>
    have hne : flowsOf k flows ≠ [] := hrep ▸ List.cons_ne_nil f fs
    obtain ⟨o, -, hget, hlog⟩ := updateFlows_get_of_reported (s := s) (v := v) hne
    change _ = { s.socket k with
      live := some (reconcileAll v.now (f :: fs) ((s.socket k).opened k v.now)) }
    rw [← core_getD s k o, ← hrep, ← Conn.core_reconcileAll]
    unfold socket
    rw [hget, hlog]
    rfl

theorem socket_applyWire (now : Time) (w : WireEvent) : (s.applyWire x509 now w).socket k =
    if w.sock = k ∧ w.data ≠ [] then (s.socket k).step x509 k (.wire now w) else s.socket k := by
  by_cases hw : w.data = []
  · rw [if_neg fun h => h.2 hw]
    unfold applyWire
    rw [if_pos hw]
  · have hlog : (s.applyWire x509 now w).logOf k = s.logOf k := logOf_congr applyWire_log
    change _ = if _ then { s.socket k with live := some (((s.socket k).opened k now).applyWire x509 w) }
      else _
    rw [← core_getD s k s.next, ← Conn.core_applyWire]
    unfold socket
    rw [hlog, applyWire_get x509 now hw]
    by_cases hk : w.sock = k
    · rw [if_pos hk, if_pos ⟨hk, hw⟩]
      rfl
    · rw [if_neg hk, if_neg fun h => hk h.1]

/-- Attribution shows nothing of any socket. -/
theorem socket_edit {t : Store} (hget : t.conns[k]?.map Conn.core = s.conns[k]?.map Conn.core)
    (hlog : t.log = s.log) : t.socket k = s.socket k := by
  unfold socket
  rw [hget, logOf_congr hlog]

theorem socket_step (s : Store) (op : Op) : (s.step x509 op).socket k =
    (sight k op).elim (s.socket k) ((s.socket k).step x509 k) := by
  cases op with
  | updateFlows v flows => exact socket_updateFlows x509 v flows
  | applyWire now w =>
    refine (socket_applyWire now w).trans ?_
    change _ = (if w.sock = k ∧ w.data ≠ [] then some (Sight.wire now w) else none).elim _ _
    split_ifs <;> rfl
  | applyData d =>
    exact socket_edit (congrArg (fun t => t[k]?.map Conn.core) applyData_conns) applyData_log
  | applyClose v e => exact socket_edit (applyClose_core v e) applyClose_log
  | updateSSLStats stats =>
    exact socket_edit (updateSSLStats_map Conn.core_zeroPlain (fun st smp c => c.core_accumulate st smp)
      stats)
      updateSSLStats_log

theorem socket_run (s : Store) (ops : List Op) : (s.run x509 ops).socket k =
    (ops.filterMap (sight k)).foldl (Socket.step x509 k) (s.socket k) :=
  foldl_view (Store.step x509) (fun s => s.socket k) (sight k) (Socket.step x509 k) socket_step s ops

theorem socket_new (maxHistory peekBytes : ℤ) : (new maxHistory peekBytes).socket k = {} := by
  unfold socket new logOf
  simp

/-- **The store is one independent machine for each socket.** In every run, what the table and the
log of retirements hold of a socket, plaintext totals and samples apart, is what the abstract machine
makes of the polls and wire events of that socket alone. So in two runs that show the same of a
socket, whatever else they do, in between and elsewhere, it has the same rows. -/
theorem sockets_independent (x509 : X509) (maxHistory peekBytes : ℤ) (k : UInt64) (ops : List Op) :
    ((new maxHistory peekBytes).run x509 ops).socket k =
      (ops.filterMap (sight k)).foldl (Socket.step x509 k) {} ∧
    ∀ (maxHistory' peekBytes' : ℤ) (ops' : List Op),
      ops'.filterMap (sight k) = ops.filterMap (sight k) →
      ((new maxHistory' peekBytes').run x509 ops').socket k =
        ((new maxHistory peekBytes).run x509 ops).socket k := by
  have hrun : ∀ (m p : ℤ) (ops : List Op), ((new m p).run x509 ops).socket k =
      (ops.filterMap (sight k)).foldl (Socket.step x509 k) {} := by
    intro m p ops
    rw [socket_run, socket_new]
  refine ⟨hrun _ _ ops, fun m p ops' hsame => ?_⟩
  rw [hrun, hrun, hsame]

end Store
end Tlstat.Model
