import Mathlib.Data.List.Forall2
import Tlstat.Model.Socket
import Tlstat.System.Feed
import Tlstat.System.Hearing

/-! Which row a wire record counts for. The records of a socket are cut into pieces, one for each
connection that the store makes of it, and a connection is what its own piece makes of it. -/

namespace Tlstat.Model
open Base Loader Tlsparse Hearing

namespace Socket
variable {x509 : X509} {k : UInt64} {s : Socket}

def wired : Sight → Option WireEvent
  | .wire _ w => some w
  | .poll .. => none

/-- The socket as its wire events made it. -/
structure Made (x509 : X509) (ws : List WireEvent) (s : Socket) : Prop where
  none : s.live = none → ws = []
  some : ∀ c, s.live = some c → Parsed x509 ws c

theorem Made.opened {ws : List WireEvent} (h : s.Made x509 ws) (now : Time) :
    Parsed x509 ws (s.opened k now) := by
  unfold Socket.opened
  cases hl : s.live with
  | none =>
    rw [h.none hl]
    exact parsed_new x509 0 k now
  | some c => exact h.some c hl

/-- The socket as its wire events made it: a piece of them made each retired connection, in order,
and what came after the last of these the live one. -/
structure Pieced (x509 : X509) (pieces : List (List WireEvent)) (ws : List WireEvent) (s : Socket) :
    Prop where
  past : List.Forall₂ (fun c p => c.info = infoOf x509 p) s.past pieces
  live : s.Made x509 ws

/-- A connection that is open stays where a snapshot does not list it. -/
theorem step_unlisted (x509 : X509) (k : UInt64) (now retireNow : Time)
    (hopen : ∀ c, s.live = some c → c.closed = false) :
    s.step x509 k (.poll now retireNow []) = s := by
  obtain ⟨live, past⟩ := s
  cases live with
  | none => exact congrArg (Socket.mk Option.none) (List.append_nil past)
  | some c =>
    unfold Socket.step
    rw [Option.filter_some, Option.filter_some, hopen c rfl]
    exact congrArg (Socket.mk (Option.some c)) (List.append_nil past)

theorem Pieced.step {pieces : List (List WireEvent)} {ws : List WireEvent}
    (h : s.Pieced x509 pieces ws) (x : Sight) : ∃ more rest,
      more.flatten ++ rest = ws ++ (wired x).toList ∧
      (s.step x509 k x).Pieced x509 (pieces ++ more) rest := by
  cases x with
  | poll now retireNow fs =>
    have hws : ws ++ (wired (.poll now retireNow fs)).toList = ws := List.append_nil _
    rw [hws]
    cases fs with
    | nil =>
      by_cases hopen : ∀ c, s.live = some c → c.closed = false
      · refine ⟨[], ws, rfl, ?_⟩
        rw [step_unlisted x509 k now retireNow hopen, List.append_nil]
        exact h
      · -- what made the connection so far is its piece
        obtain ⟨c, hl, hc⟩ : ∃ c, s.live = Option.some c ∧ c.closed = true := by simpa using hopen
        have hgone : s.step x509 k (.poll now retireNow []) =
            ⟨Option.none, s.past ++ [c.retired retireNow]⟩ := by
          unfold Socket.step
          rw [hl, Option.filter_some, Option.filter_some, hc]
          rfl
        refine ⟨[ws], [], by simp, ?_⟩
        rw [hgone]
        refine ⟨List.rel_append h.past (.cons ?_ .nil), fun _ => rfl, fun d hd => ?_⟩
        · exact (h.live.some c hl).info
        · cases hd
    | cons f fs =>
      refine ⟨[], ws, rfl, ?_⟩
      rw [List.append_nil]
      refine ⟨h.past, fun hnone => (Option.some_ne_none _ hnone).elim, fun c hc => ?_⟩
      obtain rfl := Option.some.inj hc
      exact @Parsed.congr x509 (fun _ => ws) _ _ (h.live.opened now)
        (wirePart_reconcileAll now (f :: fs) _)
  | wire now w =>
    refine ⟨[], ws ++ [w], rfl, ?_⟩
    rw [List.append_nil]
    refine ⟨h.past, fun hnone => (Option.some_ne_none _ hnone).elim, fun c hc => ?_⟩
    obtain rfl := Option.some.inj hc
    exact (h.live.opened now).applyWire

theorem pieced_foldl (x509 : X509) (k : UInt64) (xs : List Sight) : ∃ pieces ws,
    pieces.flatten ++ ws = xs.filterMap wired ∧
    (xs.foldl (step x509 k) {}).Pieced x509 pieces ws := by
  induction xs using List.reverseRecOn with
  | nil =>
    refine ⟨[], [], rfl, .nil, fun _ => rfl, fun c hc => ?_⟩
    cases hc
  | append_singleton xs x ih =>
    obtain ⟨pieces, ws, hws, hpieced⟩ := ih
    obtain ⟨more, rest, hrest, hnext⟩ := hpieced.step (k := k) x
    have hlast : [x].filterMap wired = (wired x).toList := by
      rw [List.filterMap_cons]
      cases wired x <;> rfl
    refine ⟨pieces ++ more, rest, ?_, ?_⟩
    · rw [List.flatten_append, List.append_assoc, hrest, List.filterMap_append, hlast, ← hws,
        List.append_assoc]
    · rw [List.foldl_concat]
      exact hnext

end Socket

/-- A wire event of the socket that `ApplyWire` does not ignore. -/
def wireFor (k : UInt64) : Loader.Event → Option WireEvent
  | .wire w => if w.sock = k ∧ w.data ≠ [] then some w else none
  | _ => none

end Tlstat.Model

namespace Tlstat.System
open Base Loader Model Tlsparse Bpf
variable {sk : UInt64}

/-- The wire events of the socket that the reader has taken, the empty ones apart. -/
def heard (sk : UInt64) (s : State) : List Loader.WireEvent :=
  ((s.kernel.events.take s.read).map Event.decoded).filterMap (wireFor sk)

theorem filterMap_wired (ops : List Op) : (ops.filterMap (sight sk)).filterMap Socket.wired =
    (ops.filterMap eventOf).filterMap (wireFor sk) := by
  rw [List.filterMap_filterMap, List.filterMap_filterMap]
  congr 1
  funext op
  cases op with
  | applyWire now w =>
    change Option.bind (if w.sock = sk ∧ w.data ≠ [] then _ else _) _ =
      if w.sock = sk ∧ w.data ≠ [] then some w else none
    split_ifs <;> rfl
  | updateFlows v flows | applyData d | applyClose v e | updateSSLStats stats => rfl

/-- The events of the socket, each in one piece. -/
theorem pieced_run (x509 : X509) (sk : UInt64) (maxHistory peekBytes : ℤ) (moves : List Move) :
    ∃ pieces ws, pieces.flatten ++ ws = heard sk (run x509 (init maxHistory peekBytes) moves) ∧
      ((run x509 (init maxHistory peekBytes) moves).store.socket sk).Pieced x509 pieces ws := by
  have hfed := fed_calls x509 maxHistory peekBytes moves
  have hsock : (run x509 (init maxHistory peekBytes) moves).store.socket sk =
      ((calls x509 (init maxHistory peekBytes) moves).filterMap (sight sk)).foldl
        (Socket.step x509 sk) {} := by
    rw [hfed.store]
    change ((Store.new maxHistory peekBytes).run x509 _).socket sk = _
    rw [Store.socket_run, Store.socket_new]
  have hheard : ((calls x509 (init maxHistory peekBytes) moves).filterMap (sight sk)).filterMap
      Socket.wired =
      heard sk (run x509 (init maxHistory peekBytes) moves) := by
    rw [filterMap_wired, hfed.events]
    rfl
  rw [hsock, ← hheard]
  exact Socket.pieced_foldl x509 sk _

/-- As long as nothing of the socket was retired, its connection is what all its events made of
it. -/
theorem made_run (x509 : X509) (sk : UInt64) (maxHistory peekBytes : ℤ) (moves : List Move)
    (hpast : ((run x509 (init maxHistory peekBytes) moves).store.socket sk).past = []) :
    ((run x509 (init maxHistory peekBytes) moves).store.socket sk).Made x509
      (heard sk (run x509 (init maxHistory peekBytes) moves)) := by
  obtain ⟨pieces, ws, hws, hretired, hlive⟩ := pieced_run x509 sk maxHistory peekBytes moves
  rw [hpast] at hretired
  obtain rfl := List.forall₂_nil_left_iff.mp hretired
  exact hws ▸ hlive

/-- **Every record counts for one row.** At every point of every run of the whole program, the wire
records of a socket that were read, in their order, are in as many pieces as it has rows: one for each
retired connection, oldest first, and the rest for the live one, if there is any. What a row says of
its handshake is what its own piece makes of an empty report, and the buffers of the live one hold its
piece as far as they have room: no record counts for two rows, and none for no row. -/
theorem records_dealt (x509 : X509) (sk : UInt64) (maxHistory peekBytes : ℤ) (moves : List Move) :
    ∃ pieces rest, pieces.flatten ++ rest = heard sk (run x509 (init maxHistory peekBytes) moves) ∧
      List.Forall₂ (fun c ws => c.info = infoOf x509 ws)
        ((run x509 (init maxHistory peekBytes) moves).store.logOf sk) pieces ∧
      ((run x509 (init maxHistory peekBytes) moves).store.conns[sk]? = none → rest = []) ∧
      ∀ c, (run x509 (init maxHistory peekBytes) moves).store.conns[sk]? = some c →
        c.info = infoOf x509 rest ∧ ∀ d, c.buf d = kept (chunks d rest) := by
  obtain ⟨pieces, rest, hws, hpieced⟩ := pieced_run x509 sk maxHistory peekBytes moves
  refine ⟨pieces, rest, hws, List.forall₂_map_left_iff.mp hpieced.past, fun hnone => ?_, fun c hc => ?_⟩
  · refine hpieced.live.none ?_
    unfold Store.socket
    rw [hnone]
    rfl
  · obtain ⟨hinfo, hbuf⟩ := hpieced.live.some c.core (Store.socket_live hc)
    refine ⟨hinfo, fun d => ?_⟩
    have hd := hbuf d
    cases d <;> exact hd

end Tlstat.System
