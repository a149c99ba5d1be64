import Tlstat.System.OneRow

/-! The two feeds of the store. The ring hands over every record the probes submit, once and in
order; a poll hands over entries of the kernel's maps. -/

namespace Tlstat.System
open Base Loader Model Tlsparse

/-- The event an operation applies. -/
def eventOf : Op → Option Loader.Event
  | .applyWire _ w => some (.wire w)
  | .applyData d => some (.data d)
  | .applyClose _ e => some (.close e)
  | .updateFlows _ _ | .updateSSLStats _ => none

def flowsPolled : Op → Option (List Flow)
  | .updateFlows _ flows => some flows
  | _ => none

def statsPolled : Op → Option (List SSLStat)
  | .updateSSLStats stats => some (stats.map Prod.fst)
  | _ => none

section Feed
variable (x509 : X509) (s₀ : State) (moves : List Move)

/-- The list is the `flows` map as it stood at some moment of the run. -/
def WasFlows (flows : List Flow) : Prop := ∃ pre, pre <+: moves ∧
  flows.Perm ((run x509 s₀ pre).kernel.flows.toList.map flowOf)

/-- The same of `ssl_stats`. -/
def WasStats (stats : List SSLStat) : Prop := ∃ pre, pre <+: moves ∧
  stats.Perm ((run x509 s₀ pre).kernel.sslStats.toList.map statOf)

/-- What the poller has in its hands. -/
def InHand : Poller → Prop
  | .flows flows => WasFlows x509 s₀ moves flows
  | .stats stats => WasStats x509 s₀ moves stats
  | .idle | .deleting _ => True

/-- The operations `ops` are what the store was given in the run. -/
structure Fed (ops : List Op) : Prop where
  store : (run x509 s₀ moves).store = s₀.store.run x509 ops
  fits : ∀ e ∈ (run x509 s₀ moves).kernel.events, e.Fits
  read_le : (run x509 s₀ moves).read ≤ (run x509 s₀ moves).kernel.events.length
  events : ops.filterMap eventOf =
    ((run x509 s₀ moves).kernel.events.take (run x509 s₀ moves).read).map Bpf.Event.decoded
  flows : ∀ fl ∈ ops.filterMap flowsPolled, WasFlows x509 s₀ moves fl
  stats : ∀ st ∈ ops.filterMap statsPolled, WasStats x509 s₀ moves st
  inHand : InHand x509 s₀ moves (run x509 s₀ moves).poller

end Feed

section Step
variable {x509 : X509} {s s₀ : State} {moves moves' : List Move} {ops : List Op} {m : Move}

theorem WasFlows.mono (h : moves <+: moves') {flows : List Flow} (hf : WasFlows x509 s₀ moves flows) :
    WasFlows x509 s₀ moves' flows := by
  obtain ⟨pre, hpre, hperm⟩ := hf
  exact ⟨pre, hpre.trans h, hperm⟩

theorem WasStats.mono (h : moves <+: moves') {stats : List SSLStat}
    (hs : WasStats x509 s₀ moves stats) : WasStats x509 s₀ moves' stats := by
  obtain ⟨pre, hpre, hperm⟩ := hs
  exact ⟨pre, hpre.trans h, hperm⟩

theorem InHand.mono (h : moves <+: moves') {p : Poller} (hp : InHand x509 s₀ moves p) :
    InHand x509 s₀ moves' p := by
  cases p with
  | flows flows => exact WasFlows.mono h hp
  | stats stats => exact WasStats.mono h hp
  | idle | deleting socks => trivial

/-- The reader's call applies the record as it was written. -/
theorem call_read (hfits : ∀ e ∈ s.kernel.events, e.Fits) (v : View) :
    (call s (.read v)).toList.filterMap eventOf =
      (s.kernel.events[s.read]?.toList).map Bpf.Event.decoded := by
  unfold call
  dsimp only
  cases he : s.kernel.events[s.read]? with
  | none => rfl
  | some e =>
    have hdec : readEvent e.encode = e.decoded := by
      have h := Bpf.readEvent_encode e (hfits e (List.mem_of_getElem? he)) []
      rwa [List.append_nil] at h
    rw [Option.bind_some, hdec]
    cases e <;> rfl

theorem call_of_not_read (hm : ∀ v, m ≠ .read v) : (call s m).toList.filterMap eventOf = [] := by
  cases m with
  | read v => exact absurd rfl (hm v)
  | applyFlows v | applyStats views =>
    unfold call
    dsimp only
    split <;> rfl
  | hit env h | takeFlows order perm | deleteFlow | takeStats order perm | skip => rfl

theorem eventCall_polls (v : View) (e : Loader.Event) : (eventCall v e).toList.filterMap flowsPolled = [] ∧
    (eventCall v e).toList.filterMap statsPolled = [] := by
  cases e <;> exact ⟨rfl, rfl⟩

/-- The reader hands over no snapshot. -/
theorem call_read_polls (s : State) (v : View) : (call s (.read v)).toList.filterMap flowsPolled = [] ∧
    (call s (.read v)).toList.filterMap statsPolled = [] := by
  unfold call
  dsimp only
  cases s.kernel.events[s.read]? with
  | none => exact ⟨rfl, rfl⟩
  | some e => exact eventCall_polls v _

/-- A snapshot that is handed over is the one in hand. -/
theorem call_flowsPolled {fl : List Flow} (h : fl ∈ (call s m).toList.filterMap flowsPolled) :
    s.poller = .flows fl := by
  cases m with
  | read v =>
    rw [(call_read_polls s v).1] at h
    cases h
  | applyFlows v =>
    unfold call at h
    dsimp only at h
    split at h
    · next flows hp =>
      obtain rfl : fl = flows := List.mem_singleton.mp h
      exact hp
    · cases h
  | applyStats views =>
    unfold call at h
    dsimp only at h
    split at h <;> cases h
  | hit env h' | takeFlows order perm | deleteFlow | takeStats order perm | skip => cases h

theorem call_statsPolled {st : List SSLStat} (h : st ∈ (call s m).toList.filterMap statsPolled) :
    s.poller = .stats st := by
  cases m with
  | read v =>
    rw [(call_read_polls s v).2] at h
    cases h
  | applyStats views =>
    unfold call at h
    dsimp only at h
    split at h
    · next stats hp =>
      have hst : st = (stats.map fun st => (st, views st)).map Prod.fst := List.mem_singleton.mp h
      rw [hst, List.map_map]
      exact hp.trans (congrArg Poller.stats (List.map_id _).symm)
    · cases h
  | applyFlows v =>
    unfold call at h
    dsimp only at h
    split at h <;> cases h
  | hit env h' | takeFlows order perm | deleteFlow | takeStats order perm | skip => cases h

/-- The ring grows at its end, and the reader is one record further after a read. -/
theorem step_ring_read (x509 : X509) (h : s.read ≤ s.kernel.events.length) (m : Move) :
    (step x509 s m).read ≤ (step x509 s m).kernel.events.length ∧
    (step x509 s m).kernel.events.take (step x509 s m).read =
      s.kernel.events.take s.read ++
        (match m with
          | .read _ => s.kernel.events[s.read]?.toList
          | _ => []) := by
  have hsame : s.read ≤ s.kernel.events.length ∧ s.kernel.events.take s.read =
      s.kernel.events.take s.read ++ [] := ⟨h, (List.append_nil _).symm⟩
  cases m with
  | hit env hit =>
    obtain ⟨new, hnew⟩ := Bpf.Kernel.events_isPrefix_step s.kernel (env, hit)
    change s.read ≤ (s.kernel.step (env, hit)).events.length ∧
      (s.kernel.step (env, hit)).events.take s.read = _
    rw [← hnew, List.length_append, List.take_append_of_le_length h]
    exact ⟨h.trans (Nat.le_add_right _ _), hsame.2⟩
  | read v =>
    unfold step
    dsimp only
    cases he : s.kernel.events[s.read]? with
    | none => exact hsame
    | some e =>
      obtain ⟨hlt, -⟩ := List.getElem?_eq_some_iff.mp he
      refine ⟨hlt, ?_⟩
      rw [Option.toList_some]
      exact List.take_add_one.trans (by rw [he, Option.toList_some])
  | takeFlows order perm | applyFlows v | deleteFlow | takeStats order perm | applyStats views
  | skip =>
    unfold step
    dsimp only
    split <;> exact hsame

theorem inHand_step (h : InHand x509 s₀ moves (run x509 s₀ moves).poller) (m : Move) :
    InHand x509 s₀ (moves ++ [m]) (step x509 (run x509 s₀ moves) m).poller := by
  have hlong : moves <+: moves ++ [m] := List.prefix_append _ _
  cases m with
  | hit env hit => exact h.mono hlong
  | read v =>
    unfold step
    dsimp only
    split <;> exact h.mono hlong
  | takeFlows order perm =>
    unfold step
    dsimp only
    split
    · exact ⟨moves, hlong, perm _⟩
    · exact h.mono hlong
  | takeStats order perm =>
    unfold step
    dsimp only
    split
    · exact ⟨moves, hlong, perm _⟩
    · exact h.mono hlong
  | applyFlows v | deleteFlow | applyStats views =>
    unfold step
    dsimp only
    split
    · trivial
    · exact h.mono hlong
  | skip =>
    unfold step
    dsimp only
    split
    · trivial
    · trivial
    · exact h.mono hlong

theorem Fed.step (h : Fed x509 s₀ moves ops) (m : Move) :
    Fed x509 s₀ (moves ++ [m]) (ops ++ (call (run x509 s₀ moves) m).toList) := by
  have hlong : moves <+: moves ++ [m] := List.prefix_append _ _
  have hrun : run x509 s₀ (moves ++ [m]) = System.step x509 (run x509 s₀ moves) m :=
    List.foldl_append
  obtain ⟨hle, hring⟩ := step_ring_read x509 h.read_le m
  refine ⟨?_, ?_, ?_, ?_, fun fl hfl => ?_, fun st hst => ?_, ?_⟩
  · rw [hrun, step_store, h.store]
    unfold Store.run
    rw [List.foldl_append]
    cases call (run x509 s₀ moves) m <;> rfl
  · rw [hrun]
    exact step_fits h.fits m
  · rw [hrun]
    exact hle
  · rw [hrun, hring, List.filterMap_append, List.map_append, ← h.events]
    congr 1
    cases m with
    | read v => exact call_read h.fits v
    | hit env h' | takeFlows order perm | applyFlows v | deleteFlow | takeStats order perm
    | applyStats views | skip => exact call_of_not_read fun v hv => nomatch hv
  · rw [List.filterMap_append] at hfl
    rcases List.mem_append.mp hfl with hfl | hfl
    · exact (h.flows fl hfl).mono hlong
    · have hhand := h.inHand
      rw [call_flowsPolled hfl] at hhand
      exact WasFlows.mono hlong hhand
  · rw [List.filterMap_append] at hst
    rcases List.mem_append.mp hst with hst | hst
    · exact (h.stats st hst).mono hlong
    · have hhand := h.inHand
      rw [call_statsPolled hst] at hhand
      exact WasStats.mono hlong hhand
  · rw [hrun]
    exact inHand_step h.inHand m

theorem fed_calls (x509 : X509) (maxHistory peekBytes : ℤ) (moves : List Move) :
    Fed x509 (init maxHistory peekBytes) moves (calls x509 (init maxHistory peekBytes) moves) := by
  induction moves using List.reverseRecOn with
  | nil =>
    refine ⟨rfl, fun e he => ?_, le_rfl, rfl, fun fl hfl => ?_, fun st hst => ?_, trivial⟩
    · cases he
    · cases hfl
    · cases hst
  | append_singleton moves m ih =>
    rw [calls_concat]
    exact ih.step m

theorem WasFlows.entry {flows : List Flow} (h : WasFlows x509 s₀ moves flows) {f : Flow}
    (hf : f ∈ flows) : ∃ pre, pre <+: moves ∧ ∃ g, (run x509 s₀ pre).kernel.flows[f.sock]? = some g ∧
      f = flowOf (f.sock, g) := by
  obtain ⟨pre, hpre, hperm⟩ := h
  obtain ⟨p, hp, rfl⟩ := List.mem_map.mp (hperm.mem_iff.mp hf)
  exact ⟨pre, hpre, p.2, Table.mem_toList.mp hp, rfl⟩

theorem WasStats.entry {stats : List SSLStat} (h : WasStats x509 s₀ moves stats) {st : SSLStat}
    (hst : st ∈ stats) : ∃ pre, pre <+: moves ∧ ∃ g,
      (run x509 s₀ pre).kernel.sslStats[st.ssl]? = some g ∧ st = statOf (st.ssl, g) := by
  obtain ⟨pre, hpre, hperm⟩ := h
  obtain ⟨p, hp, rfl⟩ := List.mem_map.mp (hperm.mem_iff.mp hst)
  exact ⟨pre, hpre, p.2, Table.mem_toList.mp hp, rfl⟩

end Step

/-- **Nothing is lost, doubled, reordered or torn between the kernel and the store.** In every run of
the whole program the store is what its own operations, in the order in which the reader and the poller
called them, make of an empty one. The events among them are exactly the records of the ring that were
read, each once, in the order the probes submitted them and with the contents they wrote, and every
entry of a snapshot among them is what the kernel had of that socket or that session at one moment of
the run. -/
theorem store_fed (x509 : X509) (maxHistory peekBytes : ℤ) (moves : List Move) :
    let s := run x509 (init maxHistory peekBytes) moves
    let ops := calls x509 (init maxHistory peekBytes) moves
    s.store = (Store.new maxHistory peekBytes).run x509 ops ∧
      ops.filterMap eventOf = (s.kernel.events.take s.read).map Bpf.Event.decoded ∧
      s.read ≤ s.kernel.events.length ∧
      (∀ fl ∈ ops.filterMap flowsPolled, ∀ f ∈ fl, ∃ pre, pre <+: moves ∧ ∃ g,
        (run x509 (init maxHistory peekBytes) pre).kernel.flows[f.sock]? = some g ∧
          f = flowOf (f.sock, g)) ∧
      ∀ st ∈ ops.filterMap statsPolled, ∀ t ∈ st, ∃ pre, pre <+: moves ∧ ∃ g,
        (run x509 (init maxHistory peekBytes) pre).kernel.sslStats[t.ssl]? = some g ∧
          t = statOf (t.ssl, g) := by
  intro s ops
  have h := fed_calls x509 maxHistory peekBytes moves
  exact ⟨h.store, h.events, h.read_le, fun fl hfl f hf => (h.flows fl hfl).entry hf,
    fun st hst t ht => (h.stats st hst).entry ht⟩

end Tlstat.System
