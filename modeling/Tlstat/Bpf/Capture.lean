import Tlstat.Base.Run
import Tlstat.Bpf.FlowReuse

/-! `capture_wire` as a machine on one flow entry: the counters count the events, the first
event of a direction is a TLS record, and nothing disarms the entry. -/

namespace Tlstat.Bpf
open Base

/-- One call on the entry. `rest` holds the fields that `capture_wire` does not touch, as the
other probes left them by then. -/
structure WireCall where
  env : Env
  buf : UInt64
  n : UInt64
  dir : Dir
  rest : Flow
  n_pos : 1 ≤ n.toNat
  n_lt : n.toNat < 2 ^ 31

/-- The entry, and the events submitted for it since its creation, each with its call. -/
structure Capture where
  entry : Flow := {}
  submitted : List (WireCall × WireEvent) := []

/-- The fields `capture_wire` writes. -/
def Flow.wire (f : Flow) : UInt8 × UInt8 × UInt8 := (f.isTls, f.wireOut, f.wireIn)

/-- The entry a call finds. -/
def WireCall.found (c : WireCall) (f : Flow) : Flow :=
  { c.rest with isTls := f.isTls, wireOut := f.wireOut, wireIn := f.wireIn }

/-- The gate of the first chunk: five readable bytes that look like a TLS record. -/
def Opens (env : Env) (buf n : UInt64) : Prop :=
  5 ≤ n.toNat ∧ ∃ hdr, env.readUser buf 5 = some hdr ∧ looksLikeTls hdr = true

namespace Capture

def step (sk : UInt64) (s : Capture) (c : WireCall) : Capture :=
  let r := captureWire c.env sk (c.found s.entry) c.buf c.n c.dir
  { entry := r.1
    submitted := s.submitted ++ (r.2.map fun e => (c, e)).toList }

def run (sk : UInt64) (calls : List WireCall) : Capture := calls.foldl (step sk) {}

/-- The events submitted in one direction. -/
def sent (dir : Dir) (s : Capture) : List (WireCall × WireEvent) :=
  s.submitted.filter fun p => p.2.direction = dir.code

end Capture

/-! ### One call -/

section Call
variable {env : Env} {sk buf n : UInt64} {dir : Dir} {f f' : Flow}

theorem arm_spec (h : arm env f buf n dir = some f') :
    (wireCount dir f = 0 → Opens env buf n ∧ f'.isTls = 1) ∧ (wireCount dir f ≠ 0 → f' = f) := by
  unfold arm at h
  split_ifs at h with h₁ h₂ h₃ h₄
  · refine ⟨fun _ => ?_, fun hne => absurd h₃ hne⟩
    cases hr : env.readUser buf 5 with
    | none => simp [hr] at h
    | some hdr =>
      simp only [hr] at h
      split_ifs at h with hlook
      obtain rfl := Option.some.inj h
      exact ⟨⟨UInt64.not_lt.mp h₄, hdr, hr, hlook⟩, rfl⟩
  · exact ⟨fun h₀ => absurd h₀ h₃, fun _ => (Option.some.inj h).symm⟩

theorem arm_isTls (h : arm env f buf n dir = some f') : f'.isTls = f.isTls ∨ f'.isTls = 1 := by
  by_cases h₀ : wireCount dir f = 0
  · exact .inr ((arm_spec h).1 h₀).2
  · rw [(arm_spec h).2 h₀]
    exact .inl rfl

/-- An event was submitted: the direction had room, and if it was the first one the chunk passed
the gate. -/
theorem captureWire_some {e : WireEvent} (h : (captureWire env sk f buf n dir).2 = some e) :
    wireCount dir f < maxWireEvents ∧ (wireCount dir f = 0 →
      Opens env buf n ∧ (captureWire env sk f buf n dir).1.isTls = 1) := by
  unfold captureWire at h ⊢
  cases ha : arm env f buf n dir with
  | none => simp [ha] at h
  | some f' =>
    refine ⟨Kernel.arm_lt ha, fun h₀ => ?_⟩
    obtain ⟨hopen, htls⟩ := (arm_spec ha).1 h₀
    refine ⟨hopen, ?_⟩
    dsimp only
    split_ifs
    · exact htls
    · cases env.readUser buf (clamp n).toNat with
      | none => exact htls
      | some bytes =>
        cases dir
        · exact htls
        · exact htls

theorem captureWire_isTls (env : Env) (sk : UInt64) (f : Flow) (buf n : UInt64) (dir : Dir) :
    (captureWire env sk f buf n dir).1.isTls = f.isTls ∨
      (captureWire env sk f buf n dir).1.isTls = 1 := by
  unfold captureWire
  cases ha : arm env f buf n dir with
  | none => exact .inl rfl
  | some f' =>
    have htls := arm_isTls ha
    dsimp only
    split_ifs
    · exact htls
    · cases env.readUser buf (clamp n).toNat with
      | none => exact htls
      | some bytes =>
        cases dir
        · exact htls
        · exact htls

end Call

theorem Dir.code_inj {d d' : Dir} : d.code = d'.code ↔ d' = d := by
  cases d <;> cases d' <;> decide

theorem WireCall.clamp_n (c : WireCall) : (clamp c.n).toNat = min c.n.toNat (wireCap - 1) := by
  have h := clamp_eq (c.n_lt.trans (by decide))
  rwa [Nat.toUInt64_eq, UInt64.ofNat_toNat] at h

theorem WireCall.count_found (c : WireCall) (f : Flow) (dir : Dir) :
    wireCount dir (c.found f) = wireCount dir f := by
  cases dir <;> rfl

/-! ### A run of calls -/

namespace Capture
variable {sk : UInt64}

/-- What holds after any number of calls. -/
structure Inv (sk : UInt64) (s : Capture) : Prop where
  count : ∀ dir, (wireCount dir s.entry).toNat = (s.sent dir).length
  le : ∀ dir, wireCount dir s.entry ≤ maxWireEvents
  event : ∀ p ∈ s.submitted, p.2.sk = sk ∧ p.2.direction = p.1.dir.code ∧
    p.2.len.toNat = min p.1.n.toNat (wireCap - 1)
  first : ∀ dir p, (s.sent dir).head? = some p → Opens p.1.env p.1.buf p.1.n
  armed : ∀ dir, wireCount dir s.entry ≠ 0 → s.entry.isTls = 1

theorem step_of_none {s : Capture} {c : WireCall}
    (h : (captureWire c.env sk (c.found s.entry) c.buf c.n c.dir).2 = none) :
    (s.step sk c).submitted = s.submitted ∧
      ∀ dir, wireCount dir (s.step sk c).entry = wireCount dir s.entry := by
  refine ⟨?_, fun dir => ?_⟩
  · change s.submitted ++ (Option.map _ _).toList = _
    rw [h]
    exact List.append_nil _
  · have hcount := Kernel.captureWire_count c.env sk (c.found s.entry) c.buf c.n c.dir dir
    rw [h, c.count_found, Option.toList_none, List.length_nil, ite_self, Nat.add_zero] at hcount
    exact UInt8.toNat_inj.mp hcount

theorem step_of_some {s : Capture} {c : WireCall} {e : WireEvent}
    (h : (captureWire c.env sk (c.found s.entry) c.buf c.n c.dir).2 = some e) :
    (s.step sk c).submitted = s.submitted ++ [(c, e)] ∧
      (∀ dir, (s.step sk c).sent dir = s.sent dir ++ if dir = c.dir then [(c, e)] else []) ∧
      ∀ dir, (wireCount dir (s.step sk c).entry).toNat =
        (wireCount dir s.entry).toNat + if dir = c.dir then 1 else 0 := by
  have hsub : (s.step sk c).submitted = s.submitted ++ [(c, e)] := by
    change s.submitted ++ (Option.map _ _).toList = _
    rw [h]
    rfl
  refine ⟨hsub, fun dir => ?_, fun dir => ?_⟩
  · have hdir : e.direction = dir.code ↔ dir = c.dir := by
      rw [(Kernel.captureWire_snd h).2.1]
      exact Dir.code_inj
    unfold sent
    rw [hsub, List.filter_append]
    congr 1
    split_ifs with hd
    · exact List.filter_cons_of_pos (by simpa using hdir.mpr hd)
    · exact List.filter_cons_of_neg (by simpa using mt hdir.mp hd)
  · have hcount := Kernel.captureWire_count c.env sk (c.found s.entry) c.buf c.n c.dir dir
    rwa [h, c.count_found] at hcount

theorem sent_nil_iff {s : Capture} (h : Inv sk s) (dir : Dir) :
    s.sent dir = [] ↔ wireCount dir s.entry = 0 := by
  rw [← List.length_eq_zero_iff, ← h.count dir]
  exact UInt8.toNat_inj (b := 0)

theorem Inv.step {s : Capture} (h : Inv sk s) (c : WireCall) : Inv sk (s.step sk c) := by
  have htls := captureWire_isTls c.env sk (c.found s.entry) c.buf c.n c.dir
  change (s.step sk c).entry.isTls = s.entry.isTls ∨ (s.step sk c).entry.isTls = 1 at htls
  cases hr : (captureWire c.env sk (c.found s.entry) c.buf c.n c.dir).2 with
  | none =>
    obtain ⟨hsub, hcount⟩ := step_of_none hr
    have hsent : ∀ dir, (s.step sk c).sent dir = s.sent dir := fun dir => by
      unfold sent
      rw [hsub]
    refine ⟨fun dir => ?_, fun dir => ?_, hsub ▸ h.event, fun dir => ?_, fun dir hpos => ?_⟩
    · rw [hcount, hsent]
      exact h.count dir
    · rw [hcount]
      exact h.le dir
    · rw [hsent]
      exact h.first dir
    · rw [hcount] at hpos
      exact htls.elim (fun heq => heq.trans (h.armed dir hpos)) id
  | some e =>
    obtain ⟨hsub, hsent, hcount⟩ := step_of_some hr
    obtain ⟨hlt, hgate⟩ := captureWire_some hr
    rw [c.count_found] at hlt hgate
    refine ⟨fun dir => ?_, fun dir => ?_, fun p hp => ?_, fun dir p hp => ?_, fun dir hpos => ?_⟩
    · rw [hcount, hsent, List.length_append, h.count dir]
      split_ifs <;> rfl
    · have hle : (wireCount dir s.entry).toNat ≤ 16 := h.le dir
      have hroom : (wireCount c.dir s.entry).toNat < 16 := hlt
      apply UInt8.le_iff_toNat_le.mpr
      rw [hcount]
      split_ifs with hd
      · rw [hd]
        exact hroom
      · exact hle
    · rw [hsub] at hp
      rcases List.mem_append.mp hp with hp | hp
      · exact h.event p hp
      · obtain rfl := List.mem_singleton.mp hp
        obtain ⟨hsk, hdir, hlen, -⟩ := Kernel.captureWire_snd hr
        refine ⟨hsk, hdir, ?_⟩
        change e.len.toNat = _
        rw [hlen, clamp_toUInt16, c.clamp_n]
    · rw [hsent] at hp
      cases hold : s.sent dir with
      | cons q qs =>
        rw [hold] at hp
        exact h.first dir p (hold ▸ hp)
      | nil =>
        rw [hold, List.nil_append] at hp
        split_ifs at hp with hd
        · obtain rfl := Option.some.inj hp
          exact (hgate (hd ▸ (sent_nil_iff h dir).mp hold)).1
        · cases hp
    · by_cases hzero : wireCount c.dir s.entry = 0
      · exact (hgate hzero).2
      · exact htls.elim (fun heq => heq.trans (h.armed c.dir hzero)) id

theorem inv_run (sk : UInt64) (calls : List WireCall) : Inv sk (run sk calls) := by
  refine foldl_invariant (I := Inv sk) (p := fun _ => True) (fun s c _ h => h.step c)
    (fun _ _ => trivial) ?_
  refine ⟨fun dir => ?_, fun dir => ?_, ?_, ?_, fun dir hpos => ?_⟩
  · cases dir <;> rfl
  · cases dir <;> decide
  · intro p hp
    exact absurd hp List.not_mem_nil
  · intro dir p hp
    cases hp
  · cases dir <;> exact absurd rfl hpos

/-- **The wire-capture machine.** -/
theorem capture_machine (sk : UInt64) (calls : List WireCall) :
    (∀ dir, (wireCount dir (run sk calls).entry).toNat = ((run sk calls).sent dir).length ∧
      wireCount dir (run sk calls).entry ≤ maxWireEvents) ∧
    (∀ p ∈ (run sk calls).submitted,
      p.2.len.toNat = min p.1.n.toNat (wireCap - 1) ∧ p.2.len ≠ 0) ∧
    (∀ dir p, ((run sk calls).sent dir).head? = some p → Opens p.1.env p.1.buf p.1.n) ∧
    (∀ dir, wireCount dir (run sk calls).entry ≠ 0 → (run sk calls).entry.isTls = 1) ∧
    (∀ more, (run sk calls).entry.isTls = 1 → (run sk (calls ++ more)).entry.isTls = 1) ∧
    ∀ c, ((run sk calls).step sk c).submitted = (run sk calls).submitted →
      ∀ dir, wireCount dir ((run sk calls).step sk c).entry = wireCount dir (run sk calls).entry := by
  have h := inv_run sk calls
  refine ⟨fun dir => ⟨h.count dir, h.le dir⟩, fun p hp => ?_, h.first, h.armed, fun more htls => ?_,
    fun c hsame => ?_⟩
  · have hlen := (h.event p hp).2.2
    refine ⟨hlen, fun hzero => ?_⟩
    have hpos : 1 ≤ min p.1.n.toNat (wireCap - 1) := Nat.le_min.mpr ⟨p.1.n_pos, by decide⟩
    rw [← hlen, hzero] at hpos
    exact absurd hpos (Nat.not_succ_le_zero 0)
  · unfold run
    rw [List.foldl_append]
    refine foldl_invariant (I := fun s : Capture => s.entry.isTls = 1) (p := fun _ => True)
      (fun s c _ hs => ?_) (fun _ _ => trivial) htls
    exact (captureWire_isTls c.env sk (c.found s.entry) c.buf c.n c.dir).elim (fun heq => heq.trans hs) id
  · cases hr : (captureWire c.env sk (c.found (run sk calls).entry) c.buf c.n c.dir).2 with
    | none => exact (step_of_none hr).2
    | some e =>
      rw [(step_of_some hr).1] at hsame
      exact absurd (List.append_right_eq_self.mp hsame) (List.cons_ne_nil _ _)

end Capture

/-! ### The calls of a kernel run -/

/-- The wire events of `sk` in the ring. -/
def Kernel.wires (sk : UInt64) (k : Kernel) : List WireEvent :=
  k.events.filterMap fun
    | .wire e => if e.sk = sk then some e else none
    | _ => none

/-- A hit that lets the entry of `sk` be and asks for a length `capture_wire` is meant for. -/
def Hit.InRange (sk : UInt64) : Hit → Prop
  | .tcpSendmsg sk' _ size => sk' = sk → size.toNat < 2 ^ 31
  | .deleteFlow sk' => sk' ≠ sk
  | _ => True

namespace Capture
variable {sk : UInt64}

/-- The kernel is where the calls in `s` took the entry of `sk` and the ring. -/
structure Of (sk : UInt64) (k₀ k : Kernel) (s : Capture) : Prop where
  wire : (k.flows[sk]?.getD {}).wire = s.entry.wire
  wires : k.wires sk = k₀.wires sk ++ s.submitted.map Prod.snd

variable {k₀ k k' : Kernel} {s : Capture} {env : Env} {sk' buf n : UInt64} {dir : Dir}

theorem Of.frame (h : Of sk k₀ k s) (hflow : (k'.flows[sk]?.getD {}).wire = (k.flows[sk]?.getD {}).wire)
    (hwires : k'.wires sk = k.wires sk) : Of sk k₀ k' s := ⟨hflow.trans h.wire, hwires.trans h.wires⟩

theorem identify_wire (env : Env) (sk : UInt64) (f : Flow) : (identify env sk f).wire = f.wire := by
  unfold identify
  split_ifs
  · unfold readTuple
    dsimp only
    split_ifs <;> rfl
  · rfl

theorem flowGet_wire {f : Flow} (h : k.flowGet env sk = some f) :
    f.wire = (k.flows[sk]?.getD {}).wire := by
  obtain ⟨f₀, rfl, hf | ⟨hf, rfl⟩⟩ := Kernel.flowGet_eq h
  · rw [hf]
    exact identify_wire env sk f₀
  · rw [hf]
    exact identify_wire env sk {}

theorem captureWire_zero (f : Flow) : captureWire env sk f buf 0 dir = (f, none) := by
  have harm : arm env f buf 0 dir = none := if_pos (by simp)
  unfold captureWire
  rw [harm]

/-- A transfer on another socket. -/
theorem Of.transfer_other (h : Of sk k₀ k s) {count : Flow → Flow} (hsk : sk' ≠ sk) :
    Of sk k₀ (k.transfer env sk' count buf n dir) s := by
  refine h.frame ?_ ?_
  · rw [Kernel.transfer_get, if_neg hsk]
  · unfold Kernel.wires
    have hother : ∀ e, ((k.flowGet env sk').bind fun f =>
        (captureWire env sk' (count f) buf n dir).2) = some e → e.sk ≠ sk := by
      intro e he
      obtain ⟨f, -, hcap⟩ := Option.bind_eq_some_iff.mp he
      exact (Kernel.captureWire_snd hcap).1.trans_ne hsk
    rw [Kernel.transfer_events, List.filterMap_append]
    refine (congrArg _ ?_).trans (List.append_nil _)
    cases hr : (k.flowGet env sk').bind fun f => (captureWire env sk' (count f) buf n dir).2 with
    | none => rfl
    | some e => exact List.filterMap_cons_none (if_neg (hother e hr))

/-- A transfer with no entry to be had. -/
theorem Of.transfer_none (h : Of sk k₀ k s) {count : Flow → Flow} (hf : k.flowGet env sk = none) :
    Of sk k₀ (k.transfer env sk count buf n dir) s := by
  refine h.frame ?_ ?_
  · rw [Kernel.transfer_get, if_pos rfl, hf, Kernel.flowGet_none hf]
    rfl
  · unfold Kernel.wires
    rw [Kernel.transfer_events, hf]
    simp

theorem wires_transfer {f : Flow} {count : Flow → Flow} (hf : k.flowGet env sk = some f) :
    (k.transfer env sk count buf n dir).wires sk =
      k.wires sk ++ (captureWire env sk (count f) buf n dir).2.toList := by
  unfold Kernel.wires
  rw [Kernel.transfer_events, hf, Option.bind_some, List.filterMap_append]
  congr 1
  cases hr : (captureWire env sk (count f) buf n dir).2 with
  | none => rfl
  | some e => exact List.filterMap_cons_some (if_pos (Kernel.captureWire_snd hr).1)

theorem found_of_wire {c : WireCall} {f : Flow} (h : c.rest.wire = f.wire) : c.found f = c.rest := by
  obtain ⟨htls, hout, hin⟩ : c.rest.isTls = f.isTls ∧ c.rest.wireOut = f.wireOut ∧
      c.rest.wireIn = f.wireIn := by
    simpa only [Flow.wire, Prod.mk.injEq] using h
  unfold WireCall.found
  rw [← htls, ← hout, ← hin]

/-- A transfer on the socket is one call, unless there is no entry to be had or nothing to
capture. -/
theorem Of.transfer (h : Of sk k₀ k s) {count : Flow → Flow} (hcount : ∀ f, (count f).wire = f.wire)
    (hn : sk' = sk → n.toNat < 2 ^ 31) :
    ∃ calls : List WireCall,
      Of sk k₀ (k.transfer env sk' count buf n dir) (calls.foldl (Capture.step sk) s) := by
  by_cases hsk : sk' = sk
  · subst hsk
    cases hf : k.flowGet env sk' with
    | none => exact ⟨[], h.transfer_none hf⟩
    | some f =>
      have hwire : (count f).wire = s.entry.wire :=
        (hcount f).trans ((flowGet_wire hf).trans h.wire)
      have hget : (k.transfer env sk' count buf n dir).flows[sk']? =
          some (captureWire env sk' (count f) buf n dir).1 := by
        rw [Kernel.transfer_get, if_pos rfl, hf]
        rfl
      by_cases hzero : n = 0
      · subst hzero
        have hwires : (k.transfer env sk' count buf 0 dir).wires sk' =
            k.wires sk' ++ (captureWire env sk' (count f) buf 0 dir).2.toList := wires_transfer hf
        rw [captureWire_zero] at hget hwires
        refine ⟨[], ⟨?_, ?_⟩⟩
        · rw [hget]
          exact hwire
        · rw [hwires]
          exact (List.append_nil _).trans h.wires
      · have hpos : 1 ≤ n.toNat := Nat.one_le_iff_ne_zero.mpr fun h₀ => hzero (UInt64.toNat_inj.mp h₀)
        let c : WireCall := ⟨env, buf, n, dir, count f, hpos, hn rfl⟩
        have hfound : c.found s.entry = count f := found_of_wire hwire
        refine ⟨[c], ⟨?_, ?_⟩⟩
        · rw [hget]
          change _ = (captureWire env sk' (c.found s.entry) buf n dir).1.wire
          rw [hfound]
          rfl
        · rw [wires_transfer hf, h.wires]
          change _ = k₀.wires sk' ++ (s.submitted ++ (Option.map _
            (captureWire env sk' (c.found s.entry) buf n dir).2).toList).map Prod.snd
          rw [hfound, List.map_append, List.append_assoc]
          congr 2
          cases (captureWire env sk' (count f) buf n dir).2 <;> rfl
  · exact ⟨[], h.transfer_other hsk⟩

theorem wires_of_ssl {e : Option Event} (hev : k'.events = k.events ++ e.toList)
    (he : ∀ w, e ≠ some (.wire w)) : k'.wires sk = k.wires sk := by
  unfold Kernel.wires
  rw [hev, List.filterMap_append]
  refine (congrArg _ ?_).trans (List.append_nil _)
  rcases e with _ | w | d | c
  · rfl
  · exact absurd rfl (he w)
  · rfl
  · rfl

theorem Of.emitPlaintext (h : Of sk k₀ k s) (ssl : UInt64) :
    Of sk k₀ (k.emitPlaintext env ssl buf n dir) s := by
  refine h.frame (by rw [Kernel.emitPlaintext_flows]) (wires_of_ssl Kernel.emitPlaintext_events ?_)
  intro w hw
  split_ifs at hw
  obtain ⟨d, -, hd⟩ := Option.map_eq_some_iff.mp hw
  cases hd

theorem Of.step (h : Of sk k₀ k s) {a : Env × Hit} (ha : a.2.InRange sk) :
    ∃ calls : List WireCall, Of sk k₀ (k.step a) (calls.foldl (Capture.step sk) s) := by
  obtain ⟨env, hit⟩ := a
  cases hit with
  | tcpSendmsg sk' iter size => exact h.transfer (fun _ => rfl) ha
  | tcpRecvmsg sk' iter => exact ⟨[], h.frame rfl rfl⟩
  | tcpRecvmsgRet ret =>
    have hpop : Of sk k₀ { k with recvCtxs := k.recvCtxs.erase env.pidTgid } s := h.frame rfl rfl
    refine Kernel.krTcpRecvmsg_cases
      (P := fun k' => ∃ calls : List WireCall, Of sk k₀ k' (calls.foldl (Capture.step sk) s))
      k env ret ⟨[], h⟩ ⟨[], hpop⟩ fun c _ hpos => ?_
    exact hpop.transfer (fun _ => rfl) fun _ => Kernel.widen_lt hpos
  | inetSockSetState protocol sk' oldstate newstate =>
    exact ⟨[], h.frame
      (Kernel.setState_field k env sk' protocol oldstate newstate Flow.wire sk (fun _ _ => rfl) fun _ _ => rfl)
      (wires_of_ssl (e := none) ((Kernel.setState_events ..).trans (List.append_nil _).symm)
        fun _ h => nomatch h)⟩
  | sslFree ssl =>
    refine ⟨[], h.frame rfl (wires_of_ssl (e := _) rfl ?_)⟩
    intro w hw
    obtain ⟨c, -, hc⟩ := Option.map_eq_some_iff.mp hw
    cases hc
  | sslSetFd ssl fd => exact ⟨[], h.frame rfl rfl⟩
  | sslWrite ssl buf num =>
    exact ⟨[], Kernel.uSslWrite_cases (P := fun k' => Of sk k₀ k' s) k env ssl buf num h
      (h.emitPlaintext ssl)⟩
  | sslRead ssl buf => exact ⟨[], h.frame rfl rfl⟩
  | sslReadRet ret =>
    have hpop : Of sk k₀ { k with sslCtxs := k.sslCtxs.erase env.pidTgid } s := h.frame rfl rfl
    exact ⟨[], Kernel.urSslRead_cases (P := fun k' => Of sk k₀ k' s) k env ret h hpop
      fun c => hpop.emitPlaintext c.ssl⟩
  | deleteFlow sk' =>
    refine ⟨[], h.frame ?_ rfl⟩
    change ((k.flows.erase sk')[sk]?.getD {}).wire = _
    rw [Table.get_erase, if_neg ha]

/-- **The machine is the kernel's.** While the entry of a socket is not deleted, what the probes
do to it and submit for it, in any run, is a run of `capture_wire` calls. -/
theorem run_captures {hits : List (Env × Hit)} (hk : k.flows[sk]? = none)
    (hhits : ∀ a ∈ hits, a.2.InRange sk) :
    ∃ calls, Of sk k (k.run hits) (run sk calls) := by
  have hstart : Of sk k k {} := ⟨by rw [hk]; rfl, (List.append_nil _).symm⟩
  have hrun : ∃ calls, Of sk k (k.run hits) (run sk calls) := by
    refine foldl_invariant (I := fun k' => ∃ calls, Of sk k k' (run sk calls))
      (p := fun a => a.2.InRange sk) ?_ hhits ⟨[], hstart⟩
    rintro k' a ha ⟨calls, h⟩
    obtain ⟨more, h'⟩ := h.step ha
    refine ⟨calls ++ more, ?_⟩
    unfold run
    rwa [List.foldl_append]
  exact hrun

end Capture
end Tlstat.Bpf
