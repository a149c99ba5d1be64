import Tlstat.Model.SharedInfo
import Tlstat.System.History
import Tlstat.Tlsparse.Names
import Tlstat.Ui.Text

/-! What a connection shows of the bytes it was made from. A connection reports the last server
name, the last protocol list and the last leaf of what its two buffers kept, and the screen and the
dump print these as they are. -/

namespace Tlstat.Model
open Base Loader Tlsparse Ui

/-! ### The report of a sequence of events -/

/-- What the events make of an empty report. -/
def infoOf (x509 : X509) (ws : List WireEvent) : Info :=
  (Conn.applyWires x509 ws { obj := 0, sock := 0 }).info

/-- The last of what `S` finds in the two streams, the stream of the last event coming last. -/
def lastHeard {β : Type} (S : Bytes → List β) (ws : List WireEvent) : Option β :=
  match ws.getLast? with
  | none => none
  | some w => (S (kept (chunks (!inbound w) ws)) ++ S (kept (chunks (inbound w) ws))).getLast?

section Report
variable {x509 : X509} {ws : List WireEvent} {w : WireEvent} {d : Bool}

theorem chunks_concat : chunks d (ws ++ [w]) =
    if inbound w = d then chunks d ws ++ [w.data] else chunks d ws := by
  unfold chunks
  rw [List.filter_append, List.map_append]
  split_ifs with hd
  · rw [List.filter_cons_of_pos (by simpa using hd)]
    rfl
  · rw [List.filter_cons_of_neg (by simpa using hd)]
    exact List.append_nil _

theorem kept_concat_isPrefix : kept (chunks d ws) <+: kept (chunks d (ws ++ [w])) := by
  rw [chunks_concat]
  split_ifs with hd
  · unfold kept
    rw [List.foldl_concat]
    unfold Conn.grow
    split_ifs
    · exact List.prefix_append _ _
    · exact List.prefix_rfl
  · exact List.prefix_rfl

theorem infoOf_concat : infoOf x509 (ws ++ [w]) =
    parse x509 (kept (chunks (inbound w) (ws ++ [w]))) (infoOf x509 ws) := by
  have hbuf : ∀ (d : Bool), ({ obj := 0, sock := 0 } : Conn).buf d = [] := by
    intro d
    cases d <;> rfl
  unfold infoOf kept
  rw [Conn.applyWires_info_concat, Conn.applyWires_buf, hbuf]

/-- A field that is the last of its kind in a stream is the last of its kind in the two. -/
theorem infoOf_last {β : Type} {g : Info → β} {S : Bytes → List β} (h : LastOf x509 g S)
    (ws : List WireEvent) : g (infoOf x509 ws) = (lastHeard S ws).getD (g {}) := by
  induction ws using List.reverseRecOn with
  | nil => rfl
  | append_singleton ws w ih =>
    have hother : chunks (!inbound w) (ws ++ [w]) = chunks (!inbound w) ws := by
      rw [chunks_concat, if_neg (by cases inbound w <;> decide)]
    have hlast : lastHeard S (ws ++ [w]) =
        (S (kept (chunks (!inbound w) ws)) ++ S (kept (chunks (inbound w) (ws ++ [w])))).getLast? := by
      unfold lastHeard
      rw [List.getLast?_concat]
      dsimp only
      rw [hother]
    rw [infoOf_concat, h.parse, hlast, List.getLast?_append, Option.getD_or, ih]
    cases hnow : (S (kept (chunks (inbound w) (ws ++ [w])))).getLast? with
    | some v => rfl
    | none =>
      -- the stream of `w` has nothing of the kind, so it had nothing before either
      have hnil := List.getLast?_eq_none_iff.mp hnow
      have hbefore : S (kept (chunks (inbound w) ws)) = [] := h.grows kept_concat_isPrefix hnil
      have hempty : S [] = [] := h.grows List.nil_prefix hnil
      have hheard : lastHeard S ws = (S (kept (chunks (!inbound w) ws))).getLast? := by
        unfold lastHeard
        cases hw : ws.getLast? with
        | none =>
          obtain rfl := List.getLast?_eq_none_iff.mp hw
          exact (congrArg List.getLast? hempty).symm
        | some w' =>
          dsimp only
          by_cases hsame : inbound w' = inbound w
          · rw [hsame, hbefore, List.append_nil]
          · have hflip : inbound w' = !inbound w := Bool.eq_not_of_ne hsame
            rw [hflip, Bool.not_not, hbefore, List.nil_append]
      rw [hheard]

/-- What the last names of the two streams hold is harmless. -/
structure NamesHarmless (x509 : X509) (ws : List WireEvent) : Prop where
  sni : ∀ name, lastHeard serverNames ws = some name → Harmless name
  subject : ∀ fields, lastHeard (leaves x509) ws = some fields → Harmless fields.subject
  alpn : ∀ ps, lastHeard protocolLists ws = some ps → ∀ p ∈ ps, Harmless p

theorem forall_getD {β : Type} {P : β → Prop} {o : Option β} {b : β} (hb : P b) :
    P (o.getD b) ↔ ∀ v, o = some v → P v := by
  cases o with
  | none => exact iff_of_true hb fun _ h => nomatch h
  | some v => simp

theorem named_iff {c : Conn} (hc : c.info = infoOf x509 ws) : Named c ↔ NamesHarmless x509 ws := by
  have hsni : Harmless c.info.sni ↔ ∀ name, lastHeard serverNames ws = some name →
      Harmless name := by
    rw [hc, infoOf_last (lastOf_sni x509)]
    exact forall_getD harmless_nil
  have hsubject : Harmless c.info.certSubject ↔ ∀ fields, lastHeard (leaves x509) ws = some fields →
      Harmless fields.subject := by
    change Harmless c.info.certFields.subject ↔ _
    rw [hc, infoOf_last (lastOf_certFields x509)]
    exact forall_getD (P := fun fields : CertFields => Harmless fields.subject) harmless_nil
  have halpn : (∀ p ∈ c.info.alpn, Harmless p) ↔ ∀ ps, lastHeard protocolLists ws = some ps →
      ∀ p ∈ ps, Harmless p := by
    rw [hc, infoOf_last (lastOf_alpn x509)]
    exact forall_getD (P := fun ps : List Bytes => ∀ p ∈ ps, Harmless p) fun _ h => nomatch h
  constructor
  · intro h
    exact ⟨hsni.mp h.sni, hsubject.mp h.subject, halpn.mp h.alpn⟩
  · intro h
    exact ⟨hsni.mpr h.sni, hsubject.mpr h.subject, halpn.mpr h.alpn⟩

end Report

/-! ### The events of each connection of a run -/

/-- The store, and for each connection object the wire events that were applied to it. -/
structure Hearing where
  store : Store
  heard : ℕ → List WireEvent := fun _ => []

namespace Hearing

/-- The object that `ApplyWire` parses an event into, if it does not ignore it. -/
def listener (x509 : X509) (s : Store) (now : Time) (w : WireEvent) : Option ℕ :=
  if w.data = [] then none else (s.applyWire x509 now w).conns[w.sock]?.map Conn.obj

def note (x509 : X509) (h : Hearing) : Op → ℕ → List WireEvent
  | .applyWire now w => fun o =>
    if listener x509 h.store now w = some o then h.heard o ++ [w] else h.heard o
  | _ => h.heard

def step (x509 : X509) (h : Hearing) (op : Op) : Hearing where
  store := h.store.step x509 op
  heard := note x509 h op

/-- The connection is what the events `ws` make of a new one, as far as they have a say. -/
structure Parsed (x509 : X509) (ws : List WireEvent) (c : Conn) : Prop where
  info : c.info = infoOf x509 ws
  buf : ∀ d, c.buf d = kept (chunks d ws)

structure Told (x509 : X509) (h : Hearing) : Prop where
  live : ∀ (k : UInt64) c, h.store.conns[k]? = some c → Parsed x509 (h.heard c.obj) c
  retired : ∀ c ∈ h.store.log, c.info = infoOf x509 (h.heard c.obj)
  unborn : ∀ o, h.store.next ≤ o → h.heard o = []

variable {x509 : X509} {h : Hearing} {s t : Store} {heard : ℕ → List WireEvent} {c c' : Conn}
  {ws : List WireEvent} {w : WireEvent}

/-- The part of a connection that only `ApplyWire` writes. -/
def wirePart (c : Conn) : ℕ × Info × Bytes × Bytes := (c.obj, c.info, c.wireOut, c.wireIn)

theorem Parsed.congr (hc : Parsed x509 (heard c.obj) c) (h : wirePart c' = wirePart c) :
    Parsed x509 (heard c'.obj) c' := by
  obtain ⟨hobj, hinfo, hout, hin⟩ : c'.obj = c.obj ∧ c'.info = c.info ∧ c'.wireOut = c.wireOut ∧
      c'.wireIn = c.wireIn := by
    simpa only [wirePart, Prod.mk.injEq] using h
  rw [hobj]
  refine ⟨hinfo.trans hc.info, fun d => ?_⟩
  have hd := hc.buf d
  cases d
  · exact hout.trans hd
  · exact hin.trans hd

theorem parsed_new (x509 : X509) (o : ℕ) (k : UInt64) (now : Time) :
    Parsed x509 [] { obj := o, sock := k, firstSeen := now } := by
  refine ⟨rfl, fun d => ?_⟩
  cases d <;> rfl

theorem Parsed.applyWire (hc : Parsed x509 ws c) :
    Parsed x509 (ws ++ [w]) (c.applyWire x509 w) := by
  have hbuf : ∀ d, (c.applyWire x509 w).buf d = kept (chunks d (ws ++ [w])) := by
    intro d
    rw [Conn.applyWire_buf, hc.buf, chunks_concat]
    split_ifs with hd
    · unfold kept
      rw [List.foldl_concat]
    · rfl
  refine ⟨?_, hbuf⟩
  have hown := hbuf (inbound w)
  rw [Conn.applyWire_buf, if_pos rfl] at hown
  rw [Conn.applyWire_info, hown, hc.info, infoOf_concat]

theorem wirePart_reconcileAll (now : Time) (fs : List Flow) (c : Conn) :
    wirePart (Store.reconcileAll now fs c) = wirePart c :=
  foldl_frame (fun c f => Conn.reconcile f now c) (fun _ _ => rfl) c fs

/-- The entry an operation goes on with: the one that is there, or a new one. -/
theorem Told.getD (hh : Told x509 h) {k : UInt64} {o : ℕ} (ho : h.store.next ≤ o) (now : Time) :
    Parsed x509 (h.heard (h.store.conns[k]?.getD { obj := o, sock := k, firstSeen := now }).obj)
      (h.store.conns[k]?.getD { obj := o, sock := k, firstSeen := now }) := by
  cases hc : h.store.conns[k]? with
  | none =>
    rw [Option.getD_none]
    change Parsed x509 (h.heard o) _
    rw [hh.unborn o ho]
    exact parsed_new x509 o k now
  | some c => exact hh.live k c hc

theorem Told.updateFlows (hh : Told x509 h) (v : View) (flows : List Flow) :
    Told x509 { store := h.store.updateFlows v flows, heard := h.heard } := by
  refine ⟨fun k c hc => ?_, fun c hc => ?_, fun o ho => ?_⟩
  · change (h.store.updateFlows v flows).conns[k]? = some c at hc
    by_cases hrep : Store.flowsOf k flows = []
    · rw [(Store.updateFlows_of_unreported hrep).1] at hc
      exact hh.live k c (Option.filter_eq_some_iff.mp hc).1
    · obtain ⟨o, ho, hget, -⟩ := Store.updateFlows_get_of_reported (s := h.store) (v := v) hrep
      rw [hget] at hc
      obtain rfl := Option.some.inj hc
      exact (hh.getD ho v.now).congr (wirePart_reconcileAll _ _ _)
  · change c ∈ (h.store.updateFlows v flows).log at hc
    rw [Store.updateFlows_log] at hc
    rcases List.mem_append.mp hc with hc | hc
    · exact hh.retired c hc
    · obtain ⟨d, hd, rfl⟩ := List.mem_map.mp hc
      exact (hh.live d.sock d (Store.mem_retiring.mp hd).1).info
  · exact hh.unborn o (Store.next_le_updateFlows.trans ho)

theorem Told.applyWire (hh : Told x509 h) (now : Time) (w : WireEvent) :
    Told x509 (h.step x509 (.applyWire now w)) := by
  have hnote : ∀ o, (h.step x509 (.applyWire now w)).heard o =
      if listener x509 h.store now w = some o then h.heard o ++ [w] else h.heard o := fun _ => rfl
  by_cases hw : w.data = []
  · have hstore : (h.step x509 (.applyWire now w)).store = h.store := if_pos hw
    have hheard : (h.step x509 (.applyWire now w)).heard = h.heard := by
      funext o
      rw [hnote, listener, if_pos hw]
      rfl
    exact ⟨hstore ▸ hheard ▸ hh.live, hstore ▸ hheard ▸ hh.retired, hstore ▸ hheard ▸ hh.unborn⟩
  · -- the event goes to the entry of its socket, or to a new one
    let c₀ := h.store.conns[w.sock]?.getD (h.store.fresh w.sock now)
    have hget : ∀ k : UInt64, (h.step x509 (.applyWire now w)).store.conns[k]? =
        if w.sock = k then some ((h.store.conns[k]?.getD (h.store.fresh k now)).applyWire x509 w)
        else h.store.conns[k]? := fun _ => Store.applyWire_get x509 now hw
    have hlistener : listener x509 h.store now w = some c₀.obj := by
      have hown := hget w.sock
      rw [if_pos rfl] at hown
      rw [listener, if_neg hw]
      exact (congrArg (Option.map Conn.obj) hown).trans
        (congrArg some (Conn.keeps_applyWire x509 w c₀).1)
    have hc₀ : (h.step x509 (.applyWire now w)).store.conns[w.sock]? =
        some (c₀.applyWire x509 w) := (hget w.sock).trans (if_pos rfl)
    have hobj₀ : (c₀.applyWire x509 w).obj = c₀.obj := (Conn.keeps_applyWire x509 w c₀).1
    have hother : ∀ o, o ≠ c₀.obj → (h.step x509 (.applyWire now w)).heard o = h.heard o := by
      intro o ho
      rw [hnote, hlistener, if_neg fun heq => ho (Option.some.inj heq).symm]
    refine ⟨fun k c hc => ?_, fun c hc => ?_, fun o ho => ?_⟩
    · by_cases hk : w.sock = k
      · subst hk
        obtain rfl := Option.some.inj (hc₀.symm.trans hc)
        rw [hobj₀, hnote, hlistener, if_pos rfl]
        exact (hh.getD le_rfl now).applyWire
      · have hne : c.obj ≠ c₀.obj := fun heq =>
          hk ((h.step x509 (.applyWire now w)).store.live_inj w.sock k _ c hc₀ hc
            (hobj₀.trans heq.symm))
        rw [hget, if_neg hk] at hc
        rw [hother _ hne]
        exact hh.live k c hc
    · have hne : c.obj ≠ c₀.obj := fun heq =>
        (h.step x509 (.applyWire now w)).store.log_ne c hc w.sock _ hc₀ (heq.trans hobj₀.symm)
      rw [hother _ hne]
      exact hh.retired c (Store.applyWire_log (s := h.store) ▸ hc)
    · have hlt : c₀.obj < (h.step x509 (.applyWire now w)).store.next :=
        hobj₀ ▸ (h.step x509 (.applyWire now w)).store.live_lt w.sock _ hc₀
      rw [hother o (fun heq => absurd ho (not_le.mpr (heq ▸ hlt)))]
      exact hh.unborn o (Store.next_le_applyWire.trans ho)

/-- An operation that leaves the wire part of every connection alone. -/
theorem Told.edit (hh : Told x509 h) (hget : ∀ k : UInt64, t.conns[k]?.map wirePart =
    h.store.conns[k]?.map wirePart) (hlog : t.log = h.store.log) (hnext : t.next = h.store.next) :
    Told x509 { store := t, heard := h.heard } := by
  refine ⟨fun k c hc => ?_, hlog ▸ hh.retired, hnext ▸ hh.unborn⟩
  have hmap := hget k
  rw [show t.conns[k]? = some c from hc] at hmap
  obtain ⟨d, hd, hpart⟩ := Option.map_eq_some_iff.mp hmap.symm
  exact (hh.live k d hd).congr hpart.symm

theorem Told.step (hh : Told x509 h) (op : Op) : Told x509 (h.step x509 op) := by
  cases op with
  | updateFlows v flows => exact hh.updateFlows v flows
  | applyWire now w => exact hh.applyWire now w
  | applyData d =>
    exact hh.edit (fun k => congrArg (fun t => t[k]?.map wirePart) Store.applyData_conns)
      Store.applyData_log Store.applyData_next
  | applyClose v e =>
    refine hh.edit (fun k => Store.applyClose_map (fun e smp c => ?_) v e) Store.applyClose_log
      Store.applyClose_next
    cases smp <;> rfl
  | updateSSLStats stats =>
    refine hh.edit (fun k => Store.updateSSLStats_map (fun c => ?_) (fun st smp c => ?_) stats)
      Store.updateSSLStats_log Store.updateSSLStats_next
    · unfold Conn.zeroPlain
      split_ifs <;> rfl
    · cases smp <;> rfl

theorem run_store (x509 : X509) (ops : List Op) (h : Hearing) :
    (ops.foldl (step x509) h).store = h.store.run x509 ops := by
  induction ops generalizing h with
  | nil => rfl
  | cons op ops ih => exact ih (h.step x509 op)

theorem told_run (x509 : X509) (maxHistory peekBytes : ℤ) (ops : List Op) :
    Told x509 (ops.foldl (step x509) { store := Store.new maxHistory peekBytes }) := by
  refine foldl_invariant (I := Told x509) (p := fun _ => True) (fun h op _ hh => hh.step op)
    (fun _ _ => trivial) ?_
  refine ⟨fun k c hc => ?_, fun c hc => absurd hc List.not_mem_nil, fun _ _ => rfl⟩
  change (∅ : Table Conn)[k]? = some c at hc
  rw [Table.get_empty] at hc
  cases hc

/-- **What the screen and the dump write of a connection holds no control character exactly when
the last server name, the last protocol list and the last leaf subject of the bytes it was parsed
from hold none**: nothing on the way takes one out. -/
theorem shown_texts_iff (x509 : X509) (maxHistory peekBytes : ℤ) (ops : List Op) :
    let h := ops.foldl (step x509) { store := Store.new maxHistory peekBytes }
    h.store = (Store.new maxHistory peekBytes).run x509 ops ∧
    (∀ v, ∀ c ∈ h.store.snapshot v,
      (∀ t ∈ liveTexts c, Harmless t) ↔ NamesHarmless x509 (h.heard c.obj)) ∧
    ∀ c ∈ h.store.snapshotHistory,
      (∀ t ∈ closedTexts c, Harmless t) ↔ NamesHarmless x509 (h.heard c.obj) := by
  intro h
  have hh : Told x509 h := told_run x509 maxHistory peekBytes ops
  refine ⟨run_store x509 ops _, fun v c hc => ?_, fun c hc => ?_⟩
  · obtain ⟨p, hp, rfl⟩ := List.mem_map.mp hc
    exact harmless_liveTexts.trans (named_iff (hh.live p.1 p.2 (Store.mem_order.mp hp)).info)
  · have hlog : c ∈ h.store.log := h.store.history_sub c (List.mem_reverse.mp hc)
    exact harmless_closedTexts.trans (named_iff (hh.retired c hlog))

/-- A record with a ClientHello that names one server and offers one protocol. -/
def helloNaming (name protocol : Bytes) : Bytes :=
  let exts := extension (0, vec16 (serverNameEntry (0, name))) ++ extension (16, vec16 (vec8 protocol))
  let body := [3, 3] ++ List.replicate 32 7 ++ vec8 [] ++ vec16 [0x13, 0x01] ++ vec8 [0] ++ vec16 exts
  [22, 3, 1] ++ vec16 (hsClientHello :: (put24 body.length ++ body))

/-- A connection to port 443, and the first bytes sent on it. -/
def naming (name protocol : Bytes) : List Op :=
  [.updateFlows (.blind 0) [{ sock := 1, pid := 7, dport := 443, isTLS := true }],
    .applyWire 1 ⟨1, 1, helloNaming name protocol⟩]

def webRun : Hearing :=
  (naming [0x61, 0x2e, 0x62] [0x68, 0x32]).foldl (step fun _ => none)
    { store := Store.new 500 8192 }

theorem web_names_harmless : webRun.store.snapshot (.blind 0) ≠ [] ∧
    ∀ c ∈ webRun.store.snapshot (.blind 0), ∀ t ∈ liveTexts c, Harmless t := by
  obtain ⟨-, hlive, -⟩ := shown_texts_iff (fun _ => none) 500 8192
    (naming [0x61, 0x2e, 0x62] [0x68, 0x32])
  have hnames : ∀ c ∈ webRun.store.snapshot (.blind 0),
      lastHeard serverNames (webRun.heard c.obj) = some [0x61, 0x2e, 0x62] ∧
      lastHeard protocolLists (webRun.heard c.obj) = some [[0x68, 0x32]] ∧
      lastHeard (leaves fun _ => none) (webRun.heard c.obj) = none := by decide +kernel
  refine ⟨by decide +kernel, fun c hc => ?_⟩
  obtain ⟨hsni, halpn, hleaf⟩ := hnames c hc
  refine (hlive (.blind 0) c hc).mpr ⟨fun name h => ?_, fun fields h => ?_, fun ps h => ?_⟩
  · obtain rfl := Option.some.inj (hsni.symm.trans h)
    decide
  · cases hleaf.symm.trans h
  · obtain rfl := Option.some.inj (halpn.symm.trans h)
    decide

/-- A server name that clears the screen: the column, the two lines and the id of the dump all
hold the escape sequence. -/
theorem escape_reaches_terminal :
    ∃ c ∈ ((Store.new 500 8192).run (fun _ => none)
      (naming [0x1b, 0x5b, 0x32, 0x4a] [0x1b, 0x5d])).snapshot (.blind 0),
      (liveTexts c).length = 4 ∧ ∀ t ∈ liveTexts c, ¬Harmless t := by
  decide +kernel

end Hearing

end Tlstat.Model
