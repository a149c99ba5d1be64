import Tlstat.System.Ring

/-! How long the plaintext sample of a session lasts. -/

namespace Tlstat
namespace System
open Base Loader Model Tlsparse
variable {x509 : X509} {s : State} {a : UInt64}

/-- The events the reader has handed to the store, oldest first. -/
def applied (s : State) : List Loader.Event :=
  (s.kernel.events.take s.read).map fun e => readEvent e.encode

/-- The chunks of the session at `a`, one event later. A close ends the session. -/
def sessionNext (a : UInt64) (ds : List DataEvent) : Loader.Event → List DataEvent
  | .data d => if d.ssl = a ∧ d.data ≠ [] then ds ++ [d] else ds
  | .close c => if c.ssl = a then [] else ds
  | .wire _ => ds
  | .none => ds

/-- The chunks applied so far of the session that is open at `a`. -/
def session (a : UInt64) (es : List Loader.Event) : List DataEvent := es.foldl (sessionNext a) []

def firstChunk (out : Bool) (ds : List DataEvent) : Bytes :=
  match ds.find? fun d => decide (d.dir = 1) == out with
  | none => []
  | some d => d.data

/-- The store has a sample for `a` whose heads are the first of the chunks `ds`. -/
def HasHeads (a : UInt64) (ds : List DataEvent) (st : Store) : Prop :=
  ∃ smp, st.plainBySSL[a]? = some smp ∧ smp.headOut = firstChunk true ds ∧
    smp.headIn = firstChunk false ds

/-- Every session with an applied chunk and no applied close has its sample. -/
def Sampled (s : State) : Prop :=
  ∀ a, session a (applied s) ≠ [] → HasHeads a (session a (applied s)) s.store

/-- A snapshot is applied only if it lists every such session. -/
def Listed (s : State) : Move → Prop
  | .applyStats _ =>
    ∀ stats, s.poller = .stats stats → ∀ a, session a (applied s) ≠ [] → ∃ st ∈ stats, st.ssl = a
  | _ => True

theorem session_concat (a : UInt64) (es : List Loader.Event) (e : Loader.Event) :
    session a (es ++ [e]) = sessionNext a (session a es) e := List.foldl_append

theorem data_ne_nil_of_mem_session {es : List Loader.Event} {d : DataEvent}
    (h : d ∈ session a es) : d.data ≠ [] := by
  induction es using List.reverseRecOn with
  | nil => cases h
  | append_singleton es e ih =>
    rw [session_concat] at h
    cases e with
    | data d' =>
      simp only [sessionNext] at h
      split_ifs at h with hd
      · rcases List.mem_append.mp h with h | h
        · exact ih h
        · rw [List.mem_singleton.mp h]
          exact hd.2
      · exact ih h
    | close c =>
      simp only [sessionNext] at h
      split_ifs at h
      · cases h
      · exact ih h
    | wire w => exact ih h
    | none => exact ih h

/-- Chunks are never empty, so an empty head means that there was none. -/
theorem firstChunk_concat {out : Bool} {ds : List DataEvent} {d : DataEvent}
    (h : ∀ d' ∈ ds, d'.data ≠ []) : firstChunk out (ds ++ [d]) =
      if (decide (d.dir = 1) == out) = true ∧ firstChunk out ds = [] then d.data
      else firstChunk out ds := by
  unfold firstChunk
  rw [List.find?_append]
  cases hf : ds.find? fun d => decide (d.dir = 1) == out with
  | none =>
    cases hd : decide (d.dir = 1) == out <;> simp [hd]
  | some d' =>
    have hne : d'.data ≠ [] := h d' (List.mem_of_find?_eq_some hf)
    simp [hne]

theorem record_heads {peekBytes : ℕ} {smp : Sample} {ds : List DataEvent} {d : DataEvent}
    (hds : ∀ d' ∈ ds, d'.data ≠ []) (hout : smp.headOut = firstChunk true ds)
    (hin : smp.headIn = firstChunk false ds) :
    (smp.record peekBytes d).headOut = firstChunk true (ds ++ [d]) ∧
    (smp.record peekBytes d).headIn = firstChunk false (ds ++ [d]) := by
  rw [firstChunk_concat hds, firstChunk_concat hds, ← hout, ← hin]
  unfold Sample.record
  by_cases hd : d.dir = 1 <;> simp [hd]

/-! ### One step -/

section Receive
variable {st : Store} {v : View} {ds : List DataEvent} {ev : Loader.Event}

theorem receive_without_session (h : ds = [] → st.plainBySSL[a]? = none)
    (hnext : sessionNext a ds ev = []) : (receive x509 v st ev).plainBySSL[a]? = none := by
  cases ev with
  | wire w => exact (congrArg (·[a]?) (Store.applyWire_plainBySSL)).trans (h hnext)
  | data d =>
    refine Store.applyData_sample.trans ?_
    simp only [sessionNext] at hnext
    split_ifs at hnext ⊢ with hd
    · exact absurd hnext (by simp)
    · exact h hnext
  | close c =>
    refine Store.applyClose_sample.trans ?_
    simp only [sessionNext] at hnext
    split_ifs at hnext ⊢
    · rfl
    · exact h hnext
  | none => exact h hnext

theorem receive_hasHeads (hds : ∀ d ∈ ds, d.data ≠ []) (h : ds = [] → st.plainBySSL[a]? = none)
    (hs : ds ≠ [] → HasHeads a ds st) (hnext : sessionNext a ds ev ≠ []) :
    HasHeads a (sessionNext a ds ev) (receive x509 v st ev) := by
  cases ev with
  | wire w =>
    obtain ⟨smp, hsmp, hheads⟩ := hs hnext
    exact ⟨smp, (congrArg (·[a]?) (Store.applyWire_plainBySSL)).trans hsmp, hheads⟩
  | data d =>
    have hget := Store.applyData_sample (s := st) (d := d) (a := a)
    simp only [sessionNext] at hnext ⊢
    split_ifs at hget hnext ⊢ with hd
    · -- the first chunk finds no sample, a later one the sample of the chunks before it
      cases ds with
      | nil =>
        rw [h rfl] at hget
        exact ⟨_, hget, record_heads hds rfl rfl⟩
      | cons d' ds =>
        obtain ⟨smp, hsmp, hout, hin⟩ := hs (List.cons_ne_nil _ _)
        rw [hsmp] at hget
        exact ⟨_, hget, record_heads hds hout hin⟩
    · obtain ⟨smp, hsmp, hheads⟩ := hs hnext
      exact ⟨smp, hget.trans hsmp, hheads⟩
  | close c =>
    have hget := Store.applyClose_sample (s := st) (v := v) (e := c) (a := a)
    simp only [sessionNext] at hnext ⊢
    split_ifs at hget hnext ⊢
    · exact absurd rfl hnext
    · obtain ⟨smp, hsmp, hheads⟩ := hs hnext
      exact ⟨smp, hget.trans hsmp, hheads⟩
  | none => exact hs hnext

end Receive

/-- Without a session there is no sample, and the reader is not ahead of the ring. -/
structure Clear (s : State) : Prop where
  read_le : s.read ≤ s.kernel.events.length
  empty : ∀ a, session a (applied s) = [] → s.store.plainBySSL[a]? = none

theorem step_read (x509 : X509) (s : State) (v : View) : step x509 s (.read v) = s ∨
    ∃ ev, applied (step x509 s (.read v)) = applied s ++ [ev] ∧
      (step x509 s (.read v)).store = receive x509 v s.store ev ∧
      (step x509 s (.read v)).read ≤ (step x509 s (.read v)).kernel.events.length := by
  unfold step
  dsimp only
  cases he : s.kernel.events[s.read]? with
  | none => exact .inl rfl
  | some e =>
    refine .inr ⟨readEvent e.encode, ?_, rfl, ?_⟩
    · unfold applied
      dsimp only
      rw [List.take_add_one, he, List.map_append]
      rfl
    · exact (List.getElem?_eq_some_iff.mp he).1

def Same (s t : State) : Prop :=
  applied t = applied s ∧ t.store.plainBySSL = s.store.plainBySSL ∧ t.read ≤ t.kernel.events.length

theorem Clear.of_same {t : State} (h : Clear s) (hst : Same s t) : Clear t := by
  obtain ⟨happ, hplain, hle⟩ := hst
  refine ⟨hle, fun a ha => ?_⟩
  rw [happ] at ha
  rw [hplain]
  exact h.empty a ha

theorem Sampled.of_same {t : State} (h : Sampled s) (hst : Same s t) : Sampled t := by
  obtain ⟨happ, hplain, -⟩ := hst
  intro a ha
  rw [happ] at ha ⊢
  unfold HasHeads
  rw [hplain]
  exact h a ha

/-- Only the reader and the application of a snapshot touch the samples. -/
theorem step_quiet (h : s.read ≤ s.kernel.events.length) {m : Move} (hread : ∀ v, m ≠ .read v)
    (hstats : ∀ views, m ≠ .applyStats views) : Same s (step x509 s m) := by
  cases m with
  | hit env hit =>
    obtain ⟨rest, hrest⟩ := Bpf.Kernel.events_isPrefix_step s.kernel (env, hit)
    refine ⟨?_, rfl, ?_⟩
    · unfold applied
      change ((s.kernel.step (env, hit)).events.take s.read).map _ = _
      rw [← hrest, List.take_append_of_le_length h]
    · change s.read ≤ (s.kernel.step (env, hit)).events.length
      rw [← hrest, List.length_append]
      omega
  | read v => exact absurd rfl (hread v)
  | applyStats views => exact absurd rfl (hstats views)
  | applyFlows v =>
    unfold step
    dsimp only
    split
    · exact ⟨rfl, Store.updateFlows_plainBySSL, h⟩
    · exact ⟨rfl, rfl, h⟩
  | takeFlows order perm | deleteFlow | takeStats order perm | skip =>
    unfold step
    dsimp only
    split <;> exact ⟨rfl, rfl, h⟩

theorem step_applyStats (x509 : X509) (s : State) (views : SSLStat → View) :
    applied (step x509 s (.applyStats views)) = applied s ∧
    (step x509 s (.applyStats views)).kernel = s.kernel ∧
    (step x509 s (.applyStats views)).read = s.read ∧
    ∀ a, (step x509 s (.applyStats views)).store.plainBySSL[a]? =
      match s.poller with
      | .stats stats => if stats.any (fun st => st.ssl == a) then s.store.plainBySSL[a]? else none
      | _ => s.store.plainBySSL[a]? := by
  unfold step
  dsimp only
  cases s.poller with
  | stats stats =>
    refine ⟨rfl, rfl, rfl, fun a => ?_⟩
    refine (Store.updateSSLStats_sample _).trans ?_
    rw [List.any_map]
    rfl
  | idle | flows flows | deleting socks => exact ⟨rfl, rfl, rfl, fun _ => rfl⟩

theorem Clear.step (h : Clear s) (m : Move) : Clear (step x509 s m) := by
  cases m with
  | read v =>
    rcases step_read x509 s v with hs | ⟨ev, happ, hstore, hle⟩
    · rw [hs]
      exact h
    · refine ⟨hle, fun a ha => ?_⟩
      rw [happ, session_concat] at ha
      rw [hstore]
      exact receive_without_session (h.empty a) ha
  | applyStats views =>
    obtain ⟨happ, hk, hr, hget⟩ := step_applyStats x509 s views
    refine ⟨by rw [hk, hr]; exact h.read_le, fun a ha => ?_⟩
    rw [happ] at ha
    rw [hget, h.empty a ha]
    cases s.poller <;> simp
  | hit env a | takeFlows order perm | applyFlows v | deleteFlow | takeStats order perm | skip =>
    exact h.of_same (step_quiet h.read_le nofun nofun)

theorem sampled_step_iff (hc : Clear s) (hs : Sampled s) (m : Move) :
    Sampled (step x509 s m) ↔ Listed s m := by
  cases m with
  | read v =>
    refine ⟨fun _ => trivial, fun _ => ?_⟩
    rcases step_read x509 s v with hq | ⟨ev, happ, hstore, -⟩
    · rw [hq]
      exact hs
    · intro a ha
      rw [happ, session_concat] at ha ⊢
      rw [hstore]
      exact receive_hasHeads (fun _ hd => data_ne_nil_of_mem_session hd) (hc.empty a) (hs a) ha
  | applyStats views =>
    obtain ⟨happ, -, -, hget⟩ := step_applyStats x509 s views
    unfold Sampled HasHeads Listed
    simp only [happ, hget]
    cases hp : s.poller with
    | stats stats =>
      constructor
      · rintro h _ ⟨⟩ a ha
        by_contra hno
        obtain ⟨smp, hsmp, -⟩ := h a ha
        dsimp only at hsmp
        rw [if_neg] at hsmp
        · cases hsmp
        · simpa using fun st hst hssl => hno ⟨st, hst, hssl⟩
      · intro h a ha
        obtain ⟨st, hst, hssl⟩ := h stats rfl a ha
        obtain ⟨smp, hsmp, hheads⟩ := hs a ha
        refine ⟨smp, ?_, hheads⟩
        dsimp only
        rw [if_pos]
        · exact hsmp
        · exact List.any_eq_true.mpr ⟨st, hst, by simpa using hssl⟩
    | idle | flows flows | deleting socks => exact ⟨fun _ => nofun, fun _ => hs⟩
  | hit env a | takeFlows order perm | applyFlows v | deleteFlow | takeStats order perm | skip =>
    exact ⟨fun _ => trivial, fun _ => hs.of_same (step_quiet hc.read_le nofun nofun)⟩

/-- **A sample lasts until its session is closed exactly when no snapshot misses the session.**
From the first applied chunk of a session to its applied close the store holds its sample, with
the first chunk of each direction as head, in every state of a run if and only if each snapshot
of `ssl_stats` that is applied lists every session that is open in the store at that point. The
chunks at one address up to a close event are one session. -/
theorem sampled_iff (x509 : X509) (maxHistory peekBytes : ℤ) (moves : List Move) :
    Along (System.step x509) Sampled (init maxHistory peekBytes) moves ↔
      Meets (System.step x509) Listed (init maxHistory peekBytes) moves := by
  have hclear : Clear (init maxHistory peekBytes) := ⟨Nat.zero_le _, fun _ _ => Table.get_empty _⟩
  have hinit : Sampled (init maxHistory peekBytes) := fun _ ha => absurd rfl ha
  exact along_iff_meets (p := fun _ => True) (fun _ m _ hc => hc.step m)
    (fun _ m _ hc hs => sampled_step_iff hc hs m) (fun _ _ => trivial) hclear hinit

/-- The poller takes a snapshot, a session begins and its first chunk is applied, and only then
the snapshot is. -/
def lateSession : List Move :=
  [.takeFlows id List.Perm.refl, .applyFlows (View.blind 0), .takeStats id List.Perm.refl,
    .hit { Bpf.Env.task 7 with user := fun _ => some 65 } (.sslWrite 5 1 3), .read (View.blind 0),
    .applyStats fun _ => View.blind 0]

theorem late_session_evicted :
    ¬Along (System.step fun _ => none) Sampled (init 500 8192) lateSession := by
  intro h
  obtain ⟨smp, hsmp, -⟩ := h.last 5 (by decide +kernel)
  have hgone : (lateSession.foldl (System.step fun _ => none)
      (init 500 8192)).store.plainBySSL[(5 : UInt64)]? = none := by decide +kernel
  rw [hgone] at hsmp
  cases hsmp

end System
end Tlstat
