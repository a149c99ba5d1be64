import Tlstat.Model.Spec
import Tlstat.Tlsparse.Sides

/-! The handshake facts of a connection do not depend on how its two streams were cut into
events or on how the events of the two directions interleaved. -/

namespace Tlstat.Model
open Base Loader Tlsparse

def inbound (w : WireEvent) : Bool := w.dir = 2

/-- The bytes the events carry in one direction. -/
def stream (d : Bool) (ws : List WireEvent) : Bytes :=
  (ws.filter fun w => inbound w = d).flatMap WireEvent.data

theorem stream_concat (d : Bool) (ws : List WireEvent) (w : WireEvent) :
    stream d (ws ++ [w]) = stream d ws ++ if inbound w = d then w.data else [] := by
  unfold stream
  rw [List.filter_append, List.flatMap_append]
  congr 1
  split_ifs with h
  · rw [List.filter_cons_of_pos (by simpa using h)]
    simp
  · rw [List.filter_cons_of_neg (by simpa using h)]
    rfl

theorem stream_isPrefix (d : Bool) (ws : List WireEvent) (w : WireEvent) :
    stream d ws <+: stream d (ws ++ [w]) := by
  rw [stream_concat]
  exact List.prefix_append _ _

namespace Conn
variable {x509 : X509} {c : Conn} {w : WireEvent} {ws : List WireEvent} {d client : Bool}

def buf (d : Bool) (c : Conn) : Bytes := if d then c.wireIn else c.wireOut

theorem applyWire_buf : (c.applyWire x509 w).buf d =
    if inbound w = d then grow (c.buf d) w.data else c.buf d := by
  unfold applyWire inbound buf
  by_cases hdir : w.dir = 2 <;> cases d <;> simp only [hdir, if_true, if_false, decide_true,
    decide_false, Bool.false_eq_true, reduceCtorEq] <;> split_ifs <;> rfl

theorem applyWire_info : (c.applyWire x509 w).info =
    parse x509 (grow (c.buf (inbound w)) w.data) c.info := by
  unfold applyWire inbound buf
  by_cases hdir : w.dir = 2 <;> simp only [hdir, if_true, if_false, decide_true, decide_false,
    Bool.false_eq_true] <;> split_ifs <;> rfl

theorem applyWire_closed : (c.applyWire x509 w).closed = c.closed := by
  unfold applyWire
  dsimp only
  split_ifs <;> rfl

def applyWires (x509 : X509) (ws : List WireEvent) (c : Conn) : Conn :=
  ws.foldl (fun c w => c.applyWire x509 w) c

theorem applyWires_concat : applyWires x509 (ws ++ [w]) c = (applyWires x509 ws c).applyWire x509 w :=
  List.foldl_append

theorem grow_eq {b data : Bytes} (hdata : data ≠ []) (h : (b ++ data).length ≤ maxWireBuf) :
    grow b data = b ++ data := by
  have hpos := List.length_pos_iff.mpr hdata
  rw [List.length_append] at h
  exact if_pos (by omega)

theorem applyWires_folded (x509 : X509) (hc : c.buf true = [] ∧ c.buf false = [] ∧ c.info = {})
    (hdata : ∀ w ∈ ws, w.data ≠ []) (hlen : ∀ d, (stream d ws).length ≤ maxWireBuf)
    (hclient : ∀ m ∈ handshake (stream client ws), m.1 ≠ hsServerHello)
    (hserver : ∀ m ∈ handshake (stream (!client) ws), m.1 ≠ hsClientHello) :
    (∀ d, (applyWires x509 ws c).buf d = stream d ws) ∧
    ∃ e, (applyWires x509 ws c).info = e.apply {} ∧
      Folded (effect x509 (stream client ws)) (effect x509 (stream (!client) ws)) e := by
  induction ws using List.reverseRecOn with
  | nil =>
    refine ⟨fun d => ?_, 1, hc.2.2, ?_⟩
    · cases d
      · exact hc.2.1
      · exact hc.1
    · rw [show stream client [] = [] from rfl, show stream (!client) [] = [] from rfl, effect_nil]
      exact Folded.one
  | append_singleton ws w ih =>
    have hlen' : ∀ d, (stream d ws).length ≤ maxWireBuf := fun d =>
      (stream_isPrefix d ws w).length_le.trans (hlen d)
    obtain ⟨hbuf, e, hinfo, hfold⟩ := ih
      (fun w' hw' => hdata w' (List.mem_append_left _ hw')) hlen'
      (handshake_types (stream_isPrefix client ws w) hclient)
      (handshake_types (stream_isPrefix (!client) ws w) hserver)
    have hw : w.data ≠ [] := hdata w (List.mem_append_right _ List.mem_cons_self)
    have hgrow : ∀ d, inbound w = d → grow (stream d ws) w.data = stream d (ws ++ [w]) := by
      intro d hd
      have hnew : stream d (ws ++ [w]) = stream d ws ++ w.data := by
        rw [stream_concat, if_pos hd]
      rw [hnew]
      exact grow_eq hw (hnew ▸ hlen d)
    have hsame : ∀ d, inbound w ≠ d → stream d (ws ++ [w]) = stream d ws := by
      intro d hd
      rw [stream_concat, if_neg hd, List.append_nil]
    rw [applyWires_concat]
    refine ⟨fun d => ?_, e * effect x509 (stream (inbound w) (ws ++ [w])), ?_, ?_⟩
    · rw [applyWire_buf, hbuf]
      split_ifs with hd
      · exact hgrow d hd
      · exact (hsame d hd).symm
    · rw [applyWire_info, hbuf, hgrow _ rfl, hinfo, parse_eq_effect, Effect.apply_mul]
    · by_cases hside : inbound w = client
      · rw [hside, hsame (!client) (by rw [hside]; cases client <;> decide)]
        exact hfold.client (effect_absorbed x509 (stream_isPrefix client ws w)).mul_eq
          (effect_mem_clientSide x509 hclient)
      · have hother : inbound w = !client := by
          cases h : inbound w <;> cases hcl : client <;> simp_all
        rw [hother, hsame client hside]
        exact hfold.server (effect_absorbed x509 (stream_isPrefix (!client) ws w)).mul_eq
          (effect_mem_serverSide x509 hserver)

end Conn

namespace Store
variable {s : Store} {k : UInt64} {c : Conn} {x509 : X509}

theorem run_applyWires_get (hc : s.conns[k]? = some c) (ws : List (Time × WireEvent))
    (hws : ∀ w ∈ ws, w.2.sock = k ∧ w.2.data ≠ []) :
    (s.run x509 (ws.map fun w => .applyWire w.1 w.2)).conns[k]? =
      some (Conn.applyWires x509 (ws.map Prod.snd) c) := by
  induction ws generalizing s c with
  | nil => exact hc
  | cons w ws ih =>
    obtain ⟨hk, hdata⟩ := hws w List.mem_cons_self
    have hstep : (s.applyWire x509 w.1 w.2).conns[k]? = some (c.applyWire x509 w.2) := by
      rw [applyWire_get x509 w.1 hdata, if_pos hk, hc]
      rfl
    exact ih hstep fun w' hw' => hws w' (List.mem_cons_of_mem w hw')

/-- **Chunking and interleaving leave no trace in the handshake facts.** Whatever the cut of the
client stream and of the server stream into non-empty events and whatever their merge, the
connection ends with the facts of one parse of the client stream followed by one of the server
stream. `client` says in which direction the client's bytes were captured. -/
theorem facts_independent_of_arrival (x509 : X509) (now : Time) (client : Bool)
    (ws : List (Time × WireEvent)) (hfree : s.conns[k]? = none)
    (hws : ∀ w ∈ ws, w.2.sock = k ∧ w.2.data ≠ [])
    (hlen : ∀ d, (stream d (ws.map Prod.snd)).length ≤ maxWireBuf)
    (hclient : ∀ m ∈ handshake (stream client (ws.map Prod.snd)), m.1 ≠ hsServerHello)
    (hserver : ∀ m ∈ handshake (stream (!client) (ws.map Prod.snd)), m.1 ≠ hsClientHello)
    (hneg : (parse x509 (stream (!client) (ws.map Prod.snd)) {}).hasServerHello = false ∨
      (parse x509 (stream (!client) (ws.map Prod.snd)) {}).negVersion ≠ 0) :
    ∃ c, ((s.touch k now).run x509 (ws.map fun w => .applyWire w.1 w.2)).conns[k]? = some c ∧
      c.info.facts = (parse x509 (stream (!client) (ws.map Prod.snd))
        (parse x509 (stream client (ws.map Prod.snd)) {})).facts := by
  have hfresh : (s.touch k now).conns[k]? = some (s.fresh k now) := by
    rw [touch_get, if_pos rfl, hfree]
    rfl
  have hdata : ∀ w ∈ ws.map Prod.snd, w.data ≠ [] := by
    intro w hw
    obtain ⟨p, hp, rfl⟩ := List.mem_map.mp hw
    exact (hws p hp).2
  obtain ⟨-, e, hinfo, hfold⟩ := Conn.applyWires_folded x509 (c := s.fresh k now)
    ⟨rfl, rfl, rfl⟩ hdata hlen hclient hserver
  refine ⟨_, run_applyWires_get hfresh ws hws, ?_⟩
  simp only [parse_eq_effect] at hneg ⊢
  rw [hinfo]
  exact hfold.facts_eq (effect_mem_clientSide x509 hclient) (effect_mem_serverSide x509 hserver)
    hneg

def clientHello : Bytes :=
  [22, 3, 1, 0, 45, 1, 0, 0, 41, 3, 3] ++ List.replicate 32 0 ++ [0, 0, 2, 0x13, 1, 1, 0]
def serverHello : Bytes :=
  [22, 3, 3, 0, 42, 2, 0, 0, 38, 3, 3] ++ List.replicate 32 0 ++ [0, 0x13, 1, 0]

def merged : List (Time × WireEvent) :=
  [(1, ⟨1, 1, clientHello.take 20⟩), (2, ⟨2, 1, serverHello.take 5⟩), (3, ⟨2, 1, serverHello.drop 5⟩),
    (4, ⟨1, 1, clientHello.drop 20⟩)]

theorem merged_facts : ∃ c,
    (((new 500 8192).touch 1 1).run (fun _ => none)
      (merged.map fun w => .applyWire w.1 w.2)).conns[(1 : UInt64)]? = some c ∧
    c.info.facts = ⟨true, true, [], 0x0303, [], 0x0304, 0x1301, 0⟩ := by
  have hfree : (new 500 8192).conns[(1 : UInt64)]? = none := by decide +kernel
  obtain ⟨c, hc, hfacts⟩ := facts_independent_of_arrival (fun _ => none) 1 false merged hfree
    (by decide +kernel) (by decide +kernel) (by decide +kernel) (by decide +kernel)
    (.inr (by decide +kernel))
  refine ⟨c, hc, hfacts.trans ?_⟩
  decide +kernel

end Store
end Tlstat.Model
