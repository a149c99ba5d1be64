import Tlstat.Bpf.Capture
import Tlstat.System.Mirror
import Tlstat.System.Pieces
import Tlstat.System.Reassembly

/-! A socket whose entry the poller never deletes. Its counters then bound what is captured of it,
its connection is never retired, and the buffers hold every byte that was captured and read. -/

namespace Tlstat

namespace Bpf
open Base

/-- The direction of a reassembly buffer. -/
def dirOf (d : Bool) : Dir := if d then .inward else .out

/-- What an event carries of the socket in one direction. -/
def Event.chunk? (d : Bool) (sk : UInt64) : Event → Option Bytes
  | .wire w => if w.sk = sk ∧ decide (w.direction = 2) = d then some (w.data.take w.len.toNat) else none
  | _ => none

theorem code_eq_two (dir : Dir) (d : Bool) : decide (dir.code = 2) = d ↔ dirOf d = dir := by
  cases dir <;> cases d <;> decide

theorem wireCount_congr {f g : Flow} (h : f.wire = g.wire) (dir : Dir) :
    wireCount dir f = wireCount dir g := by
  obtain ⟨-, hout, hin⟩ : f.isTls = g.isTls ∧ f.wireOut = g.wireOut ∧ f.wireIn = g.wireIn := by
    simpa only [Flow.wire, Prod.mk.injEq] using h
  cases dir
  · exact hout
  · exact hin

namespace Kernel
variable {k k' : Kernel} {env : Env} {sk sk' buf n : UInt64} {dir : Dir}

def chunks (d : Bool) (sk : UInt64) (k : Kernel) : List Bytes := k.events.filterMap (Event.chunk? d sk)

/-- The counters of the entry count what was captured of the socket, and stop at 16. -/
structure Counted (sk : UInt64) (k : Kernel) : Prop where
  count : ∀ d, (k.chunks d sk).length = (wireCount (dirOf d) (k.flows[sk]?.getD {})).toNat
  le : ∀ d, (k.chunks d sk).length ≤ 16
  short : ∀ d, ∀ c ∈ k.chunks d sk, c.length ≤ 1023

theorem chunks_append (sk : UInt64) {e : Option Event} (h : k'.events = k.events ++ e.toList) (d : Bool) :
    k'.chunks d sk = k.chunks d sk ++ (e.bind (Event.chunk? d sk)).toList := by
  unfold chunks
  rw [h, List.filterMap_append]
  congr 1
  cases e with
  | none => rfl
  | some x =>
    rw [Option.toList_some, List.filterMap_cons, Option.bind_some]
    cases Event.chunk? d sk x <;> rfl

theorem Counted.frame (h : Counted sk k) (hflow : (k'.flows[sk]?.getD {}).wire = (k.flows[sk]?.getD {}).wire)
    {e : Option Event} (hev : k'.events = k.events ++ e.toList)
    (he : ∀ d, e.bind (Event.chunk? d sk) = none) : Counted sk k' := by
  have hsame : ∀ d, k'.chunks d sk = k.chunks d sk := by
    intro d
    rw [chunks_append sk hev, he, Option.toList_none, List.append_nil]
  refine ⟨fun d => ?_, fun d => ?_, fun d => ?_⟩
  · rw [hsame, wireCount_congr hflow]
    exact h.count d
  · rw [hsame]
    exact h.le d
  · rw [hsame]
    exact h.short d

theorem chunk?_captureWire {f : Flow} {e : WireEvent} (h : (captureWire env sk f buf n dir).2 = some e)
    (d : Bool) : (Event.wire e).chunk? d sk =
      if dirOf d = dir then some (e.data.take e.len.toNat) else none := by
  obtain ⟨hsk, hdir, -⟩ := captureWire_snd h
  change (if e.sk = sk ∧ decide (e.direction = 2) = d then _ else _) = _
  simp only [hsk, hdir, true_and, code_eq_two]

theorem Counted.capture (h : Counted sk k) {count : Flow → Flow}
    (hcount : ∀ f, (count f).wire = f.wire) {f : Flow} (hf : k.flowGet env sk = some f) :
    Counted sk (k.transfer env sk count buf n dir) := by
  have hwire : (count f).wire = (k.flows[sk]?.getD {}).wire :=
    (hcount f).trans (Capture.flowGet_wire hf)
  have hget : (k.transfer env sk count buf n dir).flows[sk]? =
      some (captureWire env sk (count f) buf n dir).1 := by
    rw [transfer_get, if_pos rfl, hf, Option.map_some]
  have hev : (k.transfer env sk count buf n dir).events = k.events ++
      ((captureWire env sk (count f) buf n dir).2.map Event.wire).toList := by
    rw [transfer_events, hf, Option.bind_some]
  have hchunks := fun d => chunks_append sk hev d
  have hentry : ∀ d, (wireCount (dirOf d) ((k.transfer env sk count buf n dir).flows[sk]?.getD {})).toNat =
      (k.chunks d sk).length + if dirOf d = dir
        then (captureWire env sk (count f) buf n dir).2.toList.length else 0 := by
    intro d
    rw [hget, Option.getD_some, captureWire_count, wireCount_congr hwire, h.count d]
  cases hcap : (captureWire env sk (count f) buf n dir).2 with
  | none =>
    rw [hcap] at hchunks hentry
    have hsame : ∀ d, (k.transfer env sk count buf n dir).chunks d sk = k.chunks d sk := by
      intro d
      rw [hchunks]
      exact List.append_nil _
    refine ⟨fun d => ?_, fun d => ?_, fun d => ?_⟩
    · rw [hsame, hentry, Option.toList_none, List.length_nil, ite_self, Nat.add_zero]
    · rw [hsame]
      exact h.le d
    · rw [hsame]
      exact h.short d
  | some e =>
    have hlen : (e.data.take e.len.toNat).length ≤ 1023 := by
      obtain ⟨-, -, hlen, -⟩ := captureWire_snd hcap
      rw [hlen, clamp_toUInt16, List.length_take]
      exact (Nat.min_le_left _ _).trans (clamp_le n)
    have hnew : ∀ d, (k.transfer env sk count buf n dir).chunks d sk = k.chunks d sk ++
        if dirOf d = dir then [e.data.take e.len.toNat] else [] := by
      intro d
      rw [hchunks, hcap, Option.map_some, Option.bind_some, chunk?_captureWire hcap]
      split_ifs <;> rfl
    refine ⟨fun d => ?_, fun d => ?_, fun d c hc => ?_⟩
    · rw [hnew, hentry, hcap, List.length_append]
      split_ifs <;> rfl
    · rw [hnew, List.length_append]
      split_ifs with hd
      · -- the direction had room
        have hroom : (wireCount dir (count f)).toNat < 16 := (captureWire_some hcap).1
        rw [wireCount_congr hwire, ← hd, ← h.count d] at hroom
        exact hroom
      · exact h.le d
    · rw [hnew] at hc
      rcases List.mem_append.mp hc with hc | hc
      · exact h.short d c hc
      · split_ifs at hc
        · obtain rfl := List.mem_singleton.mp hc
          exact hlen
        · cases hc

theorem Counted.transfer (h : Counted sk k) {count : Flow → Flow}
    (hcount : ∀ f, (count f).wire = f.wire) : Counted sk (k.transfer env sk' count buf n dir) := by
  by_cases hsk : sk' = sk
  · subst hsk
    cases hf : k.flowGet env sk' with
    | none =>
      refine h.frame (e := none) ?_ ?_ fun _ => rfl
      · rw [transfer_get, if_pos rfl, hf, flowGet_none hf]
        rfl
      · rw [transfer_events, hf]
        rfl
    | some f => exact h.capture hcount hf
  · refine h.frame ?_ transfer_events fun d => ?_
    · rw [transfer_get, if_neg hsk]
    · cases hr : (k.flowGet env sk').bind fun f => (captureWire env sk' (count f) buf n dir).2 with
      | none => rfl
      | some e =>
        obtain ⟨f, -, hcap⟩ := Option.bind_eq_some_iff.mp hr
        exact if_neg fun hc => hsk ((captureWire_snd hcap).1.symm.trans hc.1)

theorem Counted.emitPlaintext (h : Counted sk k) (ssl : UInt64) :
    Counted sk (k.emitPlaintext env ssl buf n dir) := by
  refine h.frame (by rw [emitPlaintext_flows]) emitPlaintext_events fun d => ?_
  split_ifs
  · cases (k.sslStatGet env ssl).bind fun s =>
      captureData env ssl buf n dir (addPlain dir n s).fd <;> rfl
  · rfl

/-- A hit that lets the entry of the socket be. -/
def spares (sk : UInt64) : Hit → Bool
  | .deleteFlow sk' => sk' ≠ sk
  | _ => true

theorem Counted.step (h : Counted sk k) {a : Env × Hit} (ha : spares sk a.2 = true) :
    Counted sk (k.step a) := by
  obtain ⟨env, hit⟩ := a
  cases hit with
  | tcpSendmsg sk' iter size => exact h.transfer fun _ => rfl
  | tcpRecvmsg sk' iter => exact h.frame (e := none) rfl (List.append_nil _).symm fun _ => rfl
  | tcpRecvmsgRet ret =>
    have hpop : Counted sk { k with recvCtxs := k.recvCtxs.erase env.pidTgid } :=
      h.frame (e := none) rfl (List.append_nil _).symm fun _ => rfl
    exact krTcpRecvmsg_cases (P := Counted sk) k env ret h hpop fun _ _ _ =>
      hpop.transfer fun _ => rfl
  | inetSockSetState protocol sk' oldstate newstate =>
    exact h.frame (e := none)
      (setState_field k env sk' protocol oldstate newstate Flow.wire sk (fun _ _ => rfl) fun _ _ => rfl)
      ((setState_events ..).trans (List.append_nil _).symm) fun _ => rfl
  | sslFree ssl =>
    refine h.frame rfl rfl fun d => ?_
    cases k.sslStats[ssl]?.bind (closeEvent env ssl) <;> rfl
  | sslSetFd ssl fd => exact h.frame (e := none) rfl (List.append_nil _).symm fun _ => rfl
  | sslWrite ssl buf num =>
    exact uSslWrite_cases (P := Counted sk) k env ssl buf num h (h.emitPlaintext ssl)
  | sslRead ssl buf => exact h.frame (e := none) rfl (List.append_nil _).symm fun _ => rfl
  | sslReadRet ret =>
    have hpop : Counted sk { k with sslCtxs := k.sslCtxs.erase env.pidTgid } :=
      h.frame (e := none) rfl (List.append_nil _).symm fun _ => rfl
    exact urSslRead_cases (P := Counted sk) k env ret h hpop fun c => hpop.emitPlaintext c.ssl
  | deleteFlow sk' =>
    refine h.frame (e := none) ?_ (List.append_nil _).symm fun _ => rfl
    change ((k.flows.erase sk')[sk]?.getD {}).wire = _
    rw [Table.get_erase, if_neg (of_decide_eq_true ha)]

/-- An entry stays until it is deleted. -/
theorem transfer_keeps (h : k.flows[sk]? ≠ none) {count : Flow → Flow} :
    (k.transfer env sk' count buf n dir).flows[sk]? ≠ none := by
  rw [transfer_get]
  split_ifs with hsk
  · subst hsk
    cases hf : k.flowGet env sk' with
    | none => exact absurd (flowGet_none hf) h
    | some f => exact Option.some_ne_none _
  · exact h

theorem step_keeps (h : k.flows[sk]? ≠ none) {a : Env × Hit} (ha : spares sk a.2 = true) :
    (k.step a).flows[sk]? ≠ none := by
  obtain ⟨env, hit⟩ := a
  cases hit with
  | tcpSendmsg sk' iter size => exact transfer_keeps h
  | tcpRecvmsg sk' iter | sslFree ssl | sslSetFd ssl fd | sslRead ssl buf => exact h
  | tcpRecvmsgRet ret =>
    exact krTcpRecvmsg_cases (P := fun k' => k'.flows[sk]? ≠ none) k env ret h h fun _ _ _ =>
      transfer_keeps (k := { k with recvCtxs := k.recvCtxs.erase env.pidTgid }) h
  | inetSockSetState protocol sk' oldstate newstate =>
    change (k.tpInetSockSetState env protocol sk' oldstate newstate).flows[sk]? ≠ none
    rcases setState_shape k env sk' protocol oldstate newstate with hk | ⟨f, hk⟩
    · rwa [hk]
    · rw [hk]
      change (k.flows.insert sk' f)[sk]? ≠ none
      rw [Table.get_insert]
      split_ifs
      · exact Option.some_ne_none f
      · exact h
  | sslWrite ssl buf num =>
    change (k.uSslWrite env ssl buf num).flows[sk]? ≠ none
    rwa [uSslWrite_flows]
  | sslReadRet ret =>
    change (k.urSslRead env ret).flows[sk]? ≠ none
    rwa [urSslRead_flows]
  | deleteFlow sk' =>
    change (k.flows.erase sk')[sk]? ≠ none
    rwa [Table.get_erase, if_neg (of_decide_eq_true ha)]

end Kernel
end Bpf

namespace System
open Base Loader Model Tlsparse Bpf
variable {x509 : X509} {sk : UInt64} {s : State}

/-- A move that does not delete the entry of the socket. -/
def Spares (sk : UInt64) (s : State) : Move → Prop
  | .hit _ h => Kernel.spares sk h = true
  | .deleteFlow =>
    match s.poller with
    | .deleting (sk' :: _) => sk' ≠ sk
    | _ => True
  | _ => True

instance (sk : UInt64) (s : State) : ∀ m, Decidable (Spares sk s m)
  | .hit _ h => inferInstanceAs (Decidable (Kernel.spares sk h = true))
  | .deleteFlow => by
    unfold Spares
    dsimp only
    split <;> infer_instance
  | .read _ | .takeFlows _ _ | .applyFlows _ | .takeStats _ _ | .applyStats _ | .skip =>
    inferInstanceAs (Decidable True)

/-- A socket that was never let go: a connection that is shown closed has its entry, and so has
one that the poller is about to show. -/
structure Held (sk : UInt64) (s : State) : Prop where
  counted : s.kernel.Counted sk
  past : (s.store.socket sk).past = []
  entry : ∀ c, (s.store.socket sk).live = some c → c.closed = true → s.kernel.flows[sk]? ≠ none
  listed : ∀ flows, s.poller = .flows flows → Store.flowsOf sk flows ≠ [] →
    s.kernel.flows[sk]? ≠ none
  inHand : ∀ flows c, s.poller = .flows flows → (s.store.socket sk).live = some c →
    c.closed = true → Store.flowsOf sk flows ≠ []

/-- Between two polls nothing is marked closed. -/
theorem step_closed (x509 : X509) (sk : UInt64) {m : Move} (hm : ∀ v, m ≠ .applyFlows v) {c : Conn}
    (hc : ((step x509 s m).store.socket sk).live = some c) (hclosed : c.closed = true) :
    ∃ d, (s.store.socket sk).live = some d ∧ d.closed = true := by
  rcases (step_socket x509 sk hm).2 c hc with ⟨-, hnone⟩ | ⟨d, hd, hreport⟩
  · have hopen : c.closed = false := congrArg Report.closed hnone
    rw [hopen] at hclosed
    cases hclosed
  · have hsame : d.closed = c.closed := congrArg Report.closed hreport
    exact ⟨d, hd, hsame.trans hclosed⟩

namespace Held

/-- A move of the store that is no poll, where the poller and the entries stay. -/
theorem quiet (h : Held sk s) {m : Move} (hm : ∀ v, m ≠ .applyFlows v)
    (hkernel : (step x509 s m).kernel = s.kernel) (hpoller : ∀ flows,
      (step x509 s m).poller = .flows flows → s.poller = .flows flows) : Held sk (step x509 s m) := by
  have hpast := (step_socket x509 sk (s := s) hm).1
  refine ⟨hkernel ▸ h.counted, hpast.trans h.past, fun c hc hcl => ?_, fun flows hp hl => ?_,
    fun flows c hp hc hcl => ?_⟩
  · obtain ⟨d, hd, hdc⟩ := step_closed x509 sk hm hc hcl
    rw [hkernel]
    exact h.entry d hd hdc
  · rw [hkernel]
    exact h.listed flows (hpoller flows hp) hl
  · obtain ⟨d, hd, hdc⟩ := step_closed x509 sk hm hc hcl
    exact h.inHand flows d (hpoller flows hp) hd hdc

theorem applyFlows (h : Held sk s) (v : View) : Held sk (step x509 s (.applyFlows v)) := by
  unfold step
  dsimp only
  split
  · rename_i flows hp
    have hsock := Store.socket_updateFlows (s := s.store) (k := sk) x509 v flows
    cases hfs : Store.flowsOf sk flows with
    | nil =>
      -- an unlisted connection is open, so it stays as it is
      have hopen : ∀ c, (s.store.socket sk).live = some c → c.closed = false := by
        intro c hc
        by_contra hcl
        exact h.inHand flows c hp hc (by simpa using hcl) hfs
      rw [hfs] at hsock
      have hnone : (s.store.socket sk).live.filter Conn.closed = none := by
        cases hl : (s.store.socket sk).live with
        | none => rfl
        | some c => rw [Option.filter_some, hopen c hl]; rfl
      have hpast : ((s.store.updateFlows v flows).socket sk).past = (s.store.socket sk).past := by
        rw [hsock]
        change (s.store.socket sk).past ++ (Option.map _ _).toList = _
        rw [hnone]
        exact List.append_nil _
      have hlive : ∀ c, ((s.store.updateFlows v flows).socket sk).live = some c →
          c.closed = true → False := by
        intro c hc hcl
        rw [hsock] at hc
        rw [hopen c (Option.filter_eq_some_iff.mp hc).1] at hcl
        cases hcl
      exact
        { counted := h.counted
          past := hpast.trans h.past
          entry := fun c hc hcl => (hlive c hc hcl).elim
          listed := fun _ hq => nomatch hq
          inHand := fun _ _ hq => nomatch hq }
    | cons f fs =>
      rw [hfs] at hsock
      have hentry : s.kernel.flows[sk]? ≠ none := h.listed flows hp (hfs ▸ List.cons_ne_nil f fs)
      exact
        { counted := h.counted
          past := (congrArg Socket.past hsock).trans h.past
          entry := fun _ _ _ => hentry
          listed := fun _ hq => nomatch hq
          inHand := fun _ _ hq => nomatch hq }
  · exact h

theorem takeFlows (h : Held sk s) (order : List Loader.Flow → List Loader.Flow)
    (perm : ∀ l, (order l).Perm l) : Held sk (step x509 s (.takeFlows order perm)) := by
  unfold step
  dsimp only
  split
  · refine { h with listed := ?_, inHand := ?_ }
    · rintro flows ⟨⟩ hne hnone
      refine hne (Store.flowsOf_eq_nil.mpr fun f hf hsk => ?_)
      obtain ⟨⟨k', f'⟩, hmem, rfl⟩ := List.mem_map.mp ((perm _).mem_iff.mp hf)
      have hget : s.kernel.flows[k']? = some f' := Table.mem_toList.mp hmem
      rw [show k' = sk from hsk, hnone] at hget
      cases hget
    · rintro flows c ⟨⟩ hc hcl
      obtain ⟨f, hf⟩ := Option.ne_none_iff_exists'.mp (h.entry c hc hcl)
      intro hnil
      refine Store.flowsOf_eq_nil.mp hnil (flowOf (sk, f)) ((perm _).mem_iff.mpr ?_) rfl
      exact List.mem_map_of_mem (Table.mem_toList.mpr hf)
  · exact h

theorem deleteFlow (h : Held sk s) (hm : Spares sk s .deleteFlow) :
    Held sk (step x509 s .deleteFlow) := by
  unfold Spares at hm
  unfold step
  dsimp only at hm ⊢
  split
  · rename_i sk' socks hp
    rw [hp] at hm
    have hget : (s.kernel.deleteFlow sk').flows[sk]? = s.kernel.flows[sk]? := by
      change (s.kernel.flows.erase sk')[sk]? = _
      rw [Table.get_erase, if_neg hm]
    exact
      { counted := h.counted.step (a := (Env.task 0, .deleteFlow sk')) (decide_eq_true hm)
        past := h.past
        entry := fun c hc hcl => hget ▸ h.entry c hc hcl
        listed := by
          intro flows hq
          cases hq
        inHand := by
          intro flows c hq
          cases hq }
  · exact h

theorem step (h : Held sk s) {m : Move} (hm : Spares sk s m) : Held sk (step x509 s m) := by
  cases m with
  | hit env a =>
    exact
      { counted := h.counted.step hm
        past := h.past
        entry := fun c hc hcl => Kernel.step_keeps (h.entry c hc hcl) hm
        listed := fun flows hp hl => Kernel.step_keeps (h.listed flows hp hl) hm
        inHand := h.inHand }
  | read v =>
    refine h.quiet (fun _ hv => nomatch hv) ?_ fun flows hp => ?_
    · unfold System.step
      dsimp only
      split <;> rfl
    · unfold System.step at hp
      dsimp only at hp
      split at hp <;> exact hp
  | takeFlows order perm => exact h.takeFlows order perm
  | applyFlows v => exact h.applyFlows v
  | deleteFlow => exact h.deleteFlow hm
  | takeStats order perm | applyStats views =>
    refine h.quiet (fun _ hv => nomatch hv) ?_ fun flows hp => ?_
    · unfold System.step
      dsimp only
      split <;> rfl
    · unfold System.step at hp
      dsimp only at hp
      split at hp
      · cases hp
      · exact hp
  | skip =>
    refine h.quiet (fun _ hv => nomatch hv) ?_ fun flows hp => ?_
    · unfold System.step
      dsimp only
      split <;> rfl
    · unfold System.step at hp
      dsimp only at hp
      split at hp
      · cases hp
      · cases hp
      · exact hp

end Held

theorem held_run (x509 : X509) (sk : UInt64) (maxHistory peekBytes : ℤ) {moves : List Move}
    (h : Meets (step x509) (Spares sk) (init maxHistory peekBytes) moves) :
    Held sk (run x509 (init maxHistory peekBytes) moves) := by
  have hinit : Held sk (init maxHistory peekBytes) := by
    refine ⟨⟨fun d => ?_, fun d => Nat.zero_le _, fun d c hc => ?_⟩, rfl, fun c hc => ?_,
      fun flows hp => ?_, fun flows c hp => ?_⟩
    · cases d <;> rfl
    · cases hc
    · cases hc
    · cases hp
    · cases hp
  exact (h.along (I := Held sk) (fun _ _ hs hm => hs.step hm) hinit).last

/-- The chunks of the events are those of the records. -/
theorem chunks_heard (d : Bool) (es : List Bpf.Event) :
    (chunks d ((es.map Event.decoded).filterMap (wireFor sk))).flatten =
      (es.filterMap (Event.chunk? d sk)).flatten := by
  induction es with
  | nil => rfl
  | cons e es ih =>
    rw [List.map_cons]
    cases e with
    | data x => exact ih
    | close x => exact ih
    | wire w =>
      have hdec : wireFor sk (Event.wire w).decoded =
          if w.sk = sk ∧ w.data.take w.len.toNat ≠ [] then
            some ⟨w.direction, w.sk, w.data.take w.len.toNat⟩ else none := rfl
      have hown : (Event.wire w).chunk? d sk =
          if w.sk = sk ∧ decide (w.direction = 2) = d then some (w.data.take w.len.toNat) else none :=
        rfl
      by_cases hempty : w.data.take w.len.toNat = []
      · -- an empty chunk adds nothing
        rw [if_neg fun h => h.2 hempty] at hdec
        rw [List.filterMap_cons_none hdec, ih]
        split_ifs at hown
        · rw [List.filterMap_cons_some hown, List.flatten_cons, hempty, List.nil_append]
        · rw [List.filterMap_cons_none hown]
      · by_cases hsk : w.sk = sk
        · rw [if_pos ⟨hsk, hempty⟩] at hdec
          rw [List.filterMap_cons_some hdec]
          unfold chunks at ih ⊢
          by_cases hd : decide (w.direction = 2) = d
          · rw [if_pos ⟨hsk, hd⟩] at hown
            rw [List.filterMap_cons_some hown, List.filter_cons_of_pos (by exact decide_eq_true hd),
              List.map_cons, List.flatten_cons, List.flatten_cons, ih]
          · rw [if_neg fun h => hd h.2] at hown
            rw [List.filterMap_cons_none hown,
              List.filter_cons_of_neg (by exact mt of_decide_eq_true hd), ih]
        · rw [if_neg fun h => hsk h.1] at hdec hown
          rw [List.filterMap_cons_none hdec, List.filterMap_cons_none hown, ih]

/-- What the reader has taken of the socket in one direction. -/
def taken (d : Bool) (sk : UInt64) (s : State) : Bytes :=
  ((s.kernel.events.take s.read).filterMap (Event.chunk? d sk)).flatten

theorem length_flatten_le {cs : List Bytes} {n : ℕ} (h : ∀ c ∈ cs, c.length ≤ n) :
    cs.flatten.length ≤ cs.length * n := by
  induction cs with
  | nil => exact Nat.zero_le _
  | cons c cs ih =>
    have hc := h c List.mem_cons_self
    have hcs := ih fun c' hc' => h c' (List.mem_cons_of_mem c hc')
    rw [List.flatten_cons, List.length_append, List.length_cons, Nat.succ_mul]
    omega

/-- 16 events of 1023 bytes stay below the cap of a buffer. -/
theorem length_taken_le (h : s.kernel.Counted sk) (d : Bool) : (taken d sk s).length ≤ maxWireBuf := by
  have hsub : (s.kernel.events.take s.read).filterMap (Event.chunk? d sk) <+: s.kernel.chunks d sk :=
    (List.take_prefix _ _).filterMap _
  have hmax : maxWireBuf = 16384 := rfl
  calc (taken d sk s).length
      ≤ ((s.kernel.events.take s.read).filterMap (Event.chunk? d sk)).length * 1023 :=
        length_flatten_le fun c hc => h.short d c (hsub.subset hc)
    _ ≤ 16 * 1023 := Nat.mul_le_mul_right _ (hsub.length_le.trans (h.le d))
    _ ≤ maxWireBuf := by omega

theorem stream_heard (d : Bool) (sk : UInt64) (s : State) : stream d (heard sk s) = taken d sk s := by
  rw [stream_eq_flatten]
  exact chunks_heard d _

theorem wireBuf_of_made {t : Store} {ws : List Loader.WireEvent} (h : (t.socket sk).Made x509 ws)
    (d : Bool) : t.wireBuf d sk = kept (chunks d ws) := by
  unfold Store.wireBuf
  cases hc : t.conns[sk]? with
  | none =>
    have hlive : (t.socket sk).live = none := by
      unfold Store.socket
      rw [hc]
      rfl
    rw [h.none hlive]
    rfl
  | some c =>
    have hbuf := (h.some c.core (Store.socket_live hc)).buf d
    cases d <;> exact hbuf

/-- **Nothing that was captured is dropped.** In every run in which the entry of the socket is not
deleted, whatever else the probes, the reader and the poller do, its connection is not retired, and
each of its two buffers is exactly what was captured in that direction and read from the ring since
the beginning: at most 16 chunks of at most 1023 bytes, for which the buffer has room. -/
theorem captured_kept (x509 : X509) (sk : UInt64) (maxHistory peekBytes : ℤ) {moves : List Move}
    (h : Meets (step x509) (Spares sk) (init maxHistory peekBytes) moves) :
    (run x509 (init maxHistory peekBytes) moves).store.logOf sk = [] ∧
    ∀ d, (run x509 (init maxHistory peekBytes) moves).store.wireBuf d sk =
        taken d sk (run x509 (init maxHistory peekBytes) moves) ∧
      ((run x509 (init maxHistory peekBytes) moves).kernel.chunks d sk).length ≤ 16 ∧
      ∀ c ∈ (run x509 (init maxHistory peekBytes) moves).kernel.chunks d sk, c.length ≤ 1023 := by
  have hheld := held_run x509 sk maxHistory peekBytes h
  have hmade := made_run x509 sk maxHistory peekBytes moves hheld.past
  refine ⟨List.map_eq_nil_iff.mp hheld.past, fun d => ⟨?_, hheld.counted.le d, hheld.counted.short d⟩⟩
  have hfit := length_taken_le hheld.counted d
  rw [← stream_heard, stream_eq_flatten] at hfit ⊢
  rw [wireBuf_of_made hmade, kept_eq hfit]

/-- A handshake in both directions, polls in between, and the deletion of another socket. -/
def busy : List Move :=
  (Transfer.hits .out 9 header).map (fun a => .hit a.1 a.2) ++
    [.hit (Env.task 7) (.inetSockSetState 6 8 .synSent .established),
      .hit (Env.task 7) (.inetSockSetState 6 8 .established .close)] ++ round 1 1 ++
    [.read (View.blind 0)] ++ (Transfer.hits .inward 9 header).map (fun a => .hit a.1 a.2) ++
    (Transfer.hits .out 9 body).map (fun a => .hit a.1 a.2) ++
    [.read (View.blind 0), .read (View.blind 0)] ++ round 0 2

theorem meets_busy : Meets (step fun _ => none) (Spares 9) (init 500 8192) busy := by decide +kernel

theorem captured_kept_busy :
    (run (fun _ => none) (init 500 8192) busy).store.wireBuf false 9 = [22, 3, 1, 0, 2, 1, 9] ∧
    (run (fun _ => none) (init 500 8192) busy).store.wireBuf true 9 = [22, 3, 1, 0, 2] := by
  obtain ⟨-, hbuf⟩ := captured_kept (fun _ => none) 9 500 8192 meets_busy
  refine ⟨(hbuf false).1.trans ?_, (hbuf true).1.trans ?_⟩
  · decide +kernel
  · decide +kernel

end System
end Tlstat
