import Tlstat.Model.Classify
import Tlstat.System.Spared
import Tlstat.Tlsparse.Opening

/-! From the wire to the row. What the probes captured of a handshake, in whatever chunks and between
whatever else, is what the row of its socket shows. -/

namespace Tlstat.System
open Base Loader Model Tlsparse Bpf
variable {x509 : X509} {sk : UInt64}

/-- The streams as the reader took them, in chunks and merged, give the facts of the two hellos. -/
theorem facts_infoOf (x509 : X509) {ws : List Loader.WireEvent} (hdata : ∀ w ∈ ws, w.data ≠ [])
    (hlen : ∀ d, (stream d ws).length ≤ maxWireBuf) {client : Bool} {ch : ClientHello}
    {sh : ServerHello} (hclient : OpensWith ch.message (stream client ws))
    (hserver : OpensWith sh.message (stream (!client) ws)) (hneg : sh.negotiated ≠ 0) :
    (infoOf x509 ws).facts = stated ch sh := by
  obtain ⟨later, hc, hlater⟩ := hclient.handshake_eq
  obtain ⟨later', hs, hlater'⟩ := hserver.handshake_eq
  have hctypes : ∀ m ∈ handshake (stream client ws), m.1 ≠ hsServerHello := by
    rw [hc]
    intro m hm
    rcases List.mem_cons.mp hm with rfl | hm
    · exact (by decide : hsClientHello ≠ hsServerHello)
    · exact (hlater m hm).2
  have hstypes : ∀ m ∈ handshake (stream (!client) ws), m.1 ≠ hsClientHello := by
    rw [hs]
    intro m hm
    rcases List.mem_cons.mp hm with rfl | hm
    · exact (by decide : hsServerHello ≠ hsClientHello)
    · exact (hlater' m hm).1
  obtain ⟨-, e, hinfo, hfold⟩ := Conn.applyWires_folded x509 (c := { obj := 0, sock := 0 })
    ⟨rfl, rfl, rfl⟩ hdata hlen hctypes hstypes
  have hversion : ((effect x509 (stream (!client) ws)).apply {}).negVersion = sh.negotiated := by
    rw [← parse_eq_effect]
    exact congrArg Facts.negVersion ((hserver.facts x509 {}).trans (sh.facts_parse {}))
  have hfacts := hfold.facts_eq (effect_mem_clientSide x509 hctypes) (effect_mem_serverSide x509 hstypes)
    (.inr (hversion.trans_ne hneg))
  unfold infoOf
  rw [hinfo, hfacts, ← parse_eq_effect, ← parse_eq_effect]
  exact facts_of_opening hclient hserver x509

theorem heard_nonempty {s : State} : ∀ w ∈ heard sk s, w.data ≠ [] := by
  intro w hw
  obtain ⟨e, -, he⟩ := List.mem_filterMap.mp hw
  cases e with
  | wire w' =>
    change (if w'.sock = sk ∧ w'.data ≠ [] then some w' else none) = some w at he
    split_ifs at he with h
    obtain rfl := Option.some.inj he
    exact h.2
  | data x | close x | none => cases he

theorem classified_run (x509 : X509) (maxHistory peekBytes : ℤ) (moves : List Move) {k : UInt64}
    {c : Conn} (hc : (run x509 (init maxHistory peekBytes) moves).store.conns[k]? = some c) :
    Classified c := by
  have hfresh : ∀ o k now, Classified { obj := o, sock := k, firstSeen := now } := by
    intro o k now
    rw [Model.classified_iff]
    exact ⟨rfl, fun h => absurd h Bool.false_ne_true⟩
  have hall : ((Store.new maxHistory peekBytes).run x509
      (calls x509 (init maxHistory peekBytes) moves)).All Classified :=
    Store.All.run_kept kept_classified hfresh fun c hc => absurd hc.lt_next (Nat.not_lt_zero _)
  rw [run_store] at hc
  exact hall c (Store.holds_of_live hc)

/-- Once the reader has taken anything of the socket, there is a row that shows what it says. -/
theorem row_heard (x509 : X509) (sk : UInt64) (maxHistory peekBytes : ℤ) {moves : List Move}
    (h : Meets (step x509) (Spares sk) (init maxHistory peekBytes) moves)
    (hws : heard sk (run x509 (init maxHistory peekBytes) moves) ≠ []) :
    ∃ c, (run x509 (init maxHistory peekBytes) moves).store.conns[sk]? = some c ∧
      c.info = infoOf x509 (heard sk (run x509 (init maxHistory peekBytes) moves)) := by
  have hheld := held_run x509 sk maxHistory peekBytes h
  have hmade := made_run x509 sk maxHistory peekBytes moves hheld.past
  obtain ⟨c, hc⟩ : ∃ c, (run x509 (init maxHistory peekBytes) moves).store.conns[sk]? = some c := by
    refine Option.ne_none_iff_exists'.mp fun hnone => hws (hmade.none ?_)
    unfold Store.socket
    rw [hnone]
    rfl
  exact ⟨c, hc, (hmade.some c.core (Store.socket_live hc)).info⟩

/-- **The row of a connection shows its handshake.** In every run in which the entry of the socket
is not deleted, once what the reader has taken of the client's bytes opens with a ClientHello and
what it has taken of the server's bytes with a ServerHello, however the two were cut into calls,
records and events, whatever was merged in between, and wherever the captures end, the socket has a
row with the name, the versions, the signature schemes, the suite and the group of those two, and
it counts as TLS whose handshake was seen. -/
theorem handshake_reported (x509 : X509) (sk : UInt64) (maxHistory peekBytes : ℤ) {moves : List Move}
    (h : Meets (step x509) (Spares sk) (init maxHistory peekBytes) moves) (client : Bool)
    (ch : ClientHello) (sh : ServerHello)
    (hclient : OpensWith ch.message (taken client sk (run x509 (init maxHistory peekBytes) moves)))
    (hserver : OpensWith sh.message (taken (!client) sk (run x509 (init maxHistory peekBytes) moves)))
    (hneg : sh.negotiated ≠ 0) :
    ∃ c, (run x509 (init maxHistory peekBytes) moves).store.conns[sk]? = some c ∧
      c.info.facts = stated ch sh ∧ c.isTLS = true ∧ c.preexisting = false := by
  have hlen := fun d => length_taken_le (held_run x509 sk maxHistory peekBytes h).counted d
  simp only [← stream_heard] at hclient hserver hlen
  have hfacts := facts_infoOf x509 heard_nonempty hlen hclient hserver hneg
  have hws : heard sk (run x509 (init maxHistory peekBytes) moves) ≠ [] := by
    intro hws
    rw [hws] at hfacts
    exact Bool.false_ne_true (congrArg Facts.hasClientHello hfacts)
  obtain ⟨c, hc, hinfo⟩ := row_heard x509 sk maxHistory peekBytes h hws
  have hclass := classified_run x509 maxHistory peekBytes moves hc
  have hhello : c.info.hasClientHello = true := by
    rw [hinfo]
    exact congrArg Facts.hasClientHello hfacts
  refine ⟨c, hc, hinfo ▸ hfacts, hclass.isTLS (.inl hhello), ?_⟩
  by_contra hpre
  exact (hclass.preexisting_iff.mp (by simpa using hpre)).2.1 hhello

def helloRecord : Record := ⟨3, 1, offersH2.message.encode, by decide +kernel⟩
def answerRecord : Record := ⟨3, 3, selectsH2.message.encode, by decide +kernel⟩

/-- The two hellos, the second one in two calls and with the start of another record behind it, and
a poll in between. -/
def greeting : List Move :=
  let sent := helloRecord.encode
  let answer := answerRecord.encode ++ [20, 3, 3, 0, 1, 1, 23]
  let send := plainTransfer (fun i => sent.getD i 0) sent.length (by decide +kernel) (by decide +kernel)
  let head := plainTransfer (fun i => answer.getD i 0) 9 (by decide) (by decide)
  let more := plainTransfer (fun i => answer.getD (9 + i) 0) (answer.length - 9) (by decide +kernel)
    (by decide +kernel)
  [.hit (Env.task 7) (.inetSockSetState 6 9 .synSent .established)] ++
    (send.hits .out 9).map (fun a => .hit a.1 a.2) ++ (head.hits .inward 9).map (fun a => .hit a.1 a.2) ++
    [.read (View.blind 0)] ++ round 0 1 ++ (more.hits .inward 9).map (fun a => .hit a.1 a.2) ++
    [.read (View.blind 0), .read (View.blind 0)]

theorem meets_greeting : Meets (step fun _ => none) (Spares 9) (init 500 8192) greeting := by
  decide +kernel

theorem handshake_reported_greeting :
    ∃ c, (run (fun _ => none) (init 500 8192) greeting).store.conns[(9 : UInt64)]? = some c ∧
      c.info.facts = ⟨true, true, [0x61, 0x2e, 0x62], 0x0303, [0x0403, 0x0804], 0x0304, 0x1301, 0x11ec⟩ ∧
      c.isTLS = true ∧ c.preexisting = false := by
  have hclient : OpensWith offersH2.message
      (taken false 9 (run (fun _ => none) (init 500 8192) greeting)) := by
    refine Begins.intro [] [helloRecord] [] [] rfl (.inl (by decide)) (fun x hx => nomatch hx)
      ?_ ?_ ?_
    · decide +kernel
    · decide +kernel
    · decide +kernel
  have hserver : OpensWith selectsH2.message
      (taken true 9 (run (fun _ => none) (init 500 8192) greeting)) := by
    refine Begins.intro [] [answerRecord] [] [20, 3, 3, 0, 1, 1, 23] rfl (.inr (by decide))
      (fun x hx => nomatch hx) ?_ ?_ ?_
    · decide +kernel
    · decide +kernel
    · decide +kernel
  exact handshake_reported (fun _ => none) 9 500 8192 meets_greeting false
    offersH2 selectsH2 hclient hserver (by decide +kernel)

end Tlstat.System
