import Tlstat.Model.StableTails

/-! Where the plaintext of a row comes from. A row takes the sample of one session, and its tails go
on sharing the arrays of that sample: what they read is a cut of a window on the chunks of the same
session, read in one piece. -/

namespace Tlstat.Model
open Base Loader Tlsparse

instance decidableEvicts (a : UInt64) : ∀ op : Op, Decidable (op.Evicts a)
  | .updateFlows _ _ => inferInstanceAs (Decidable False)
  | .applyWire _ _ => inferInstanceAs (Decidable False)
  | .applyData _ => inferInstanceAs (Decidable False)
  | .applyClose _ e => inferInstanceAs (Decidable (e.ssl = a))
  | .updateSSLStats stats => inferInstanceAs (Decidable (∀ p ∈ stats, p.1.ssl ≠ a))

/-- The sessions of the past that are left: the end of a session takes its pointer out. -/
def surviving (past : List UInt64) (op : Op) : List UInt64 := past.filter fun a => ¬op.Evicts a

/-- `seg` is a piece of `ops` without an end of a session at `a`, which where the piece begins is
none of the past. -/
structure Piece (past : List UInt64) (a : UInt64) (ops seg : List Op) : Prop where
  one : ∀ op ∈ seg, ¬op.Evicts a
  place : ∃ before after, before ++ seg ++ after = ops ∧ a ∉ before.foldl surviving past

/-- The sample that the chunks of the session at `a` among `seg` ask for. -/
def madeOf (n : ℕ) (a : UInt64) (seg : List Op) : Sample := sampleOf n (seg.filterMap (Op.dataFor a))

section Piece
variable {past : List UInt64} {a : UInt64} {ops seg : List Op} {op : Op} {n : ℕ}

theorem mem_surviving : a ∈ surviving past op ↔ a ∈ past ∧ ¬op.Evicts a := by
  unfold surviving
  rw [List.mem_filter, decide_eq_true_iff]

theorem Piece.later (h : Piece past a ops seg) (op : Op) : Piece past a (ops ++ [op]) seg := by
  obtain ⟨before, after, rfl, ha⟩ := h.place
  exact ⟨h.one, before, after ++ [op], (List.append_assoc _ _ _).symm, ha⟩

/-- A piece that goes on to the present. -/
structure Ongoing (n : ℕ) (past : List UInt64) (a : UInt64) (ops seg : List Op) (s : Store) :
    Prop where
  one : ∀ op ∈ seg, ¬op.Evicts a
  place : ∃ before, before ++ seg = ops ∧ a ∉ before.foldl surviving past
  keeping : s.Keeping a n (seg.filterMap (Op.dataFor a))

theorem Ongoing.piece {s : Store} (h : Ongoing n past a ops seg s) : Piece past a ops seg := by
  obtain ⟨before, rfl, ha⟩ := h.place
  exact ⟨h.one, before, [], List.append_nil _, ha⟩

theorem Ongoing.step {s : Store} (x509 : X509) (hn : s.peekBytes = n) (h : Ongoing n past a ops seg s)
    (hop : ¬op.Evicts a) : Ongoing n past a (ops ++ [op]) (seg ++ [op]) (s.step x509 op) := by
  refine ⟨?_, ?_, ?_⟩
  · exact List.forall_mem_append.mpr ⟨h.one, List.forall_mem_singleton.mpr hop⟩
  · obtain ⟨before, rfl, ha⟩ := h.place
    exact ⟨before, (List.append_assoc _ _ _).symm, ha⟩
  · have hnext : (s.step x509 op).Keeping a n _ := h.keeping.step hn hop
    rw [List.filterMap_append]
    cases hd : op.dataFor a <;> simpa [hd] using hnext

theorem Ongoing.getD {s : Store} (h : Ongoing n past a ops seg s) :
    s.plainBySSL[a]?.getD {} = madeOf n a seg := by
  have hkeep := h.keeping
  unfold Store.Keeping at hkeep
  rw [hkeep]
  split_ifs with hempty
  · exact (sampleOf_of_empty hempty).symm
  · rfl

end Piece

namespace Store
variable {s : Store} {x509 : X509} {past : List UInt64} {a : UInt64} {op : Op} {n : ℕ} {ops : List Op}

/-- What the store keeps of each session that is none of the past are the chunks of a piece that goes
on to the present. -/
def Unbroken (n : ℕ) (past : List UInt64) (ops : List Op) (s : Store) : Prop :=
  ∀ a ∉ ops.foldl surviving past, ∃ seg, Ongoing n past a ops seg s

theorem evicted (hop : op.Evicts a) : (s.step x509 op).plainBySSL[a]? = none := by
  cases op with
  | updateFlows v flows | applyWire now w | applyData d => exact absurd hop id
  | applyClose v e => exact applyClose_sample.trans (if_pos hop)
  | updateSSLStats stats =>
    refine (updateSSLStats_sample stats).trans (if_neg ?_)
    simpa [Op.Evicts] using hop

theorem ongoing_nil (h : s.plainBySSL[a]? = none) (ha : a ∉ ops.foldl surviving past) :
    Ongoing n past a ops [] s := by
  refine ⟨fun op hop => absurd hop List.not_mem_nil, ⟨ops, List.append_nil _, ha⟩, ?_⟩
  unfold Keeping
  rw [if_pos (by simp)]
  exact h

theorem Unbroken.step (hn : s.peekBytes = n) (h : Unbroken n past ops s) (op : Op) :
    Unbroken n past (ops ++ [op]) (s.step x509 op) := by
  intro a ha
  by_cases hop : op.Evicts a
  · -- the session has ended, and the next one at `a` starts its own piece
    exact ⟨[], ongoing_nil (evicted hop) ha⟩
  · rw [List.foldl_concat, mem_surviving, not_and_not_right] at ha
    obtain ⟨seg, hseg⟩ := h a fun hmem => hop (ha hmem)
    exact ⟨seg ++ [op], hseg.step x509 hn hop⟩

theorem unbroken_nil (h : ∀ a : UInt64, s.plainBySSL[a]? ≠ none → a ∈ past) : Unbroken n past [] s :=
  fun a ha => ⟨[], ongoing_nil (by_contra fun hsmp => ha (h a hsmp)) ha⟩

theorem foldl_surviving_nil (ops : List Op) : ops.foldl surviving [] = [] := by
  induction ops with
  | nil => rfl
  | cons op ops ih => exact ih

theorem unbroken_run (x509 : X509) (maxHistory peekBytes : ℤ) (ops : List Op) (a : UInt64) :
    ∃ seg, Ongoing peekBytes.toNat [] a ops seg ((new maxHistory peekBytes).run x509 ops) := by
  have hrun : ((new maxHistory peekBytes).run x509 ops).Unbroken peekBytes.toNat [] ops := by
    induction ops using List.reverseRecOn with
    | nil => exact unbroken_nil fun a ha => absurd (Table.get_empty a) ha
    | append_singleton ops op ih =>
      have hn : ((new maxHistory peekBytes).run x509 ops).peekBytes = peekBytes.toNat :=
        (preserved_peekBytes _).run ops rfl
      unfold Store.run at ih hn ⊢
      rw [List.foldl_concat]
      exact ih.step hn op
  refine hrun a ?_
  rw [foldl_surviving_nil]
  exact List.not_mem_nil

end Store

namespace Shared

/-! ### One slice -/

/-- What the slice reads is a cut, as long as it was when it was taken, of the window of a piece that
goes on where `seg` ends. -/
def CutOf (n : ℕ) (past : List UInt64) (a : UInt64) (ops seg : List Op) (out : Bool) (t : Slice)
    (h : Heap UInt8) : Prop :=
  ∃ mid, seg <+: mid ∧ Piece past a ops mid ∧ t.read h =
    (sampleTail (madeOf n a mid) out).take (sampleTail (madeOf n a seg) out).length

/-- The buffer of the session still is where the slice was taken. -/
def On (s : Shared) (i : UInt64 × Bool) (t : Slice) : Prop :=
  0 < t.len ∧ 0 < (s.slot i).cap ∧ (s.slot i).arr = t.arr

/-- A slice that was taken from the buffer of a session when `seg` had been applied of it. -/
structure Taken (n : ℕ) (past : List UInt64) (a : UInt64) (ops seg : List Op) (out : Bool) (s : Shared)
    (t : Slice) : Prop where
  len : t.len = (sampleTail (madeOf n a seg) out).length
  held : Slice.Held s.slot s.heap t
  only : ∀ i, s.On i t → i = (a, out)
  current : s.On (a, out) t → ∃ mid, seg <+: mid ∧ Ongoing n past a ops mid s.store
  cut : CutOf n past a ops seg out t s.heap

/-- The store with slices is sound, reads what the store with bytes keeps, and has made nothing of
the objects to come. -/
structure Coupled (n : ℕ) (s : Shared) : Prop where
  sound : s.Sound
  reads : s.Reads
  samples : ∀ a : UInt64, s.samples[a]? = none ↔ s.store.plainBySSL[a]? = none
  unmade : ∀ o, s.store.next ≤ o → s.fields o = {}
  peekBytes : s.store.peekBytes = n

section Taken
variable {x509 : X509} {room : ℕ → ℕ → ℕ} {s : Shared} {t : Slice} {op : Op} {d : DataEvent}
variable {n : ℕ} {past : List UInt64} {a : UInt64} {ops seg : List Op} {out : Bool}

theorem slot_evicted (ha : op.Evicts a) : (s.step x509 room op).slot (a, out) = {} := by
  refine slot_of_none ?_
  cases op with
  | updateFlows v flows | applyWire now w | applyData d => exact absurd ha id
  | applyClose v e => exact (Table.get_erase ..).trans (if_pos ha)
  | updateSSLStats stats =>
    refine (Table.get_filter s.samples a fun ssl => stats.any fun p => p.1.ssl == ssl).trans (if_neg ?_)
    simpa [Op.Evicts] using ha

/-- A buffer that is where a slice was taken was there before the step. -/
theorem on_of_on_step (hs : s.Sound) (ht : Slice.Held s.slot s.heap t) {i : UInt64 × Bool}
    (h : (s.step x509 room op).On i t) : s.On i t := by
  obtain ⟨hlen, hcap, harr⟩ := h
  rcases step_cases x509 room s op with ⟨hq, -⟩ | ⟨d, -, -, -, hslot, -⟩
  · rcases hq.slot i with hi | hi
    · exact ⟨hlen, hi ▸ hcap, hi ▸ harr⟩
    · rw [hi] at hcap
      exact absurd hcap (Nat.lt_irrefl 0)
  · rw [hslot] at hcap harr
    by_cases hi : i = target d
    · rw [hi, Function.update_self] at hcap harr
      rcases (hs.recorded_grown d).origin hcap with ⟨hpos, hsame, -, -⟩ | hnew
      · exact hi ▸ ⟨hlen, hpos, hsame.symm.trans harr⟩
      · have hlt := (ht hlen).1
        omega
    · rw [Function.update_of_ne hi] at hcap harr
      exact ⟨hlen, hcap, harr⟩

/-- Once its buffer has moved away, a slice reads on what it read. -/
theorem read_of_not_on (hs : s.Sound) (ht : Slice.Held s.slot s.heap t)
    (hoff : ∀ i, s.On i t → ¬(s.step x509 room op).On i t) :
    t.read (s.step x509 room op).heap = t.read s.heap := by
  rcases step_cases x509 room s op with ⟨hq, -⟩ | ⟨d, -, -, hheap, hslot, -⟩
  · rw [hq.heap]
  · rw [hheap]
    by_cases hon : s.On (target d) t
    · obtain ⟨hlen, hcap, harr⟩ := hon
      obtain ⟨hbegin, hle⟩ := (ht hlen).2 _ hcap harr
      unfold recorded
      rw [held_read_appendTail (hs.buffers.valid _) hcap (hs.window _) harr hbegin hle, if_neg]
      -- a shift in place would leave the buffer where the slice was taken
      rintro ⟨hmax, hfits, hshift⟩
      refine hoff (target d) ⟨hlen, hcap, harr⟩ ?_
      have hplace : (s.recorded room d).1 =
          ((s.slot (target d)).upTo ((s.slot (target d)).len + d.data.length)).upTo s.store.peekBytes := by
        unfold recorded
        rcases appendTail_cases room (s.slot (target d)) d.data s.store.peekBytes s.heap with
          ⟨hzero, -⟩ | ⟨-, hlt, heq⟩ | ⟨-, hge, -⟩
        · exact absurd hzero hmax.ne'
        · rw [heq, shift_eq (hs.buffers.valid _).append hlt, Slice.append_fits hfits]
        · rw [Slice.len_append] at hge
          omega
      unfold On
      rw [hslot, Function.update_self, hplace]
      exact ⟨hlen, hcap, harr⟩
    · exact hs.read_recorded_ne ht fun hlen hcap harr => hon ⟨hlen, hcap, harr⟩

/-- While the buffer is where the slice was taken, the slice reads a cut of what the buffer reads. -/
theorem cut_of_on (hs : s.Coupled n) (ht : Slice.Held s.slot s.heap t)
    (hlen : t.len = (sampleTail (madeOf n a seg) out).length) (hon : s.On (a, out) t) {mid : List Op}
    (hmid : seg <+: mid) (hcur : Ongoing n past a ops mid s.store) :
    CutOf n past a ops seg out t s.heap := by
  refine ⟨mid, hmid, hcur.piece, ?_⟩
  obtain ⟨hpos, hcap, harr⟩ := hon
  obtain ⟨hoff, hle⟩ := (ht hpos).2 _ hcap harr
  have hread : t.read s.heap = ((s.slot (a, out)).read s.heap).take t.len := by
    unfold Slice.read
    rw [harr, hoff, List.take_take, Nat.min_eq_left hle]
  rw [hread, hs.reads (a, out), hcur.getD, hlen]

theorem Taken.step (x509 : X509) (room : ℕ → ℕ → ℕ) (hs : s.Coupled n)
    (hs' : (s.step x509 room op).Coupled n) (h : Taken n past a ops seg out s t) :
    Taken n past a (ops ++ [op]) seg out (s.step x509 room op) t := by
  have hheld : Slice.Held (s.step x509 room op).slot (s.step x509 room op).heap t :=
    held_step hs.sound h.held
  have hcurrent : (s.step x509 room op).On (a, out) t →
      ∃ mid, seg <+: mid ∧ Ongoing n past a (ops ++ [op]) mid (s.step x509 room op).store := by
    intro hon
    -- an end of the session would have taken its buffer away
    have hkeep : ¬op.Evicts a := by
      intro hev
      have hcap := hon.2.1
      rw [slot_evicted hev] at hcap
      exact Nat.lt_irrefl 0 hcap
    obtain ⟨mid, hmid, hcur⟩ := h.current (on_of_on_step hs.sound h.held hon)
    refine ⟨mid ++ [op], hmid.trans (List.prefix_append _ _), ?_⟩
    rw [step_store]
    exact hcur.step x509 hs.peekBytes hkeep
  refine ⟨h.len, hheld, fun i hon => h.only i (on_of_on_step hs.sound h.held hon), hcurrent, ?_⟩
  -- the slice reads what its buffer reads, or is left alone from now on
  by_cases hon : (s.step x509 room op).On (a, out) t
  · obtain ⟨mid, hmid, hcur⟩ := hcurrent hon
    exact cut_of_on hs' hheld h.len hon hmid hcur
  · obtain ⟨mid, hmid, hpiece, hread⟩ := h.cut
    refine ⟨mid, hmid, hpiece.later op, ?_⟩
    rw [read_of_not_on hs.sound h.held, hread]
    intro i hi
    rw [h.only i hi]
    exact hon

/-- A slice taken now. -/
theorem taken_slot (hs : s.Coupled n) (hcur : Ongoing n past a ops seg s.store) (out : Bool) :
    Taken n past a ops seg out s (s.slot (a, out)) := by
  have hread : (s.slot (a, out)).read s.heap = sampleTail (madeOf n a seg) out := by
    rw [hs.reads (a, out), hcur.getD]
  refine ⟨?_, hs.sound.buffers.held _, fun i hon => ?_, fun _ => ⟨seg, List.prefix_rfl, hcur⟩, ?_⟩
  · rw [← hread, (hs.sound.buffers.valid _).length_read]
  · obtain ⟨hlen, hcap, harr⟩ := hon
    exact hs.sound.buffers.apart _ _ hcap (hlen.trans_le (hs.sound.buffers.valid _).len_le) harr
  · refine ⟨seg, List.prefix_rfl, hcur.piece, ?_⟩
    rw [hread, List.take_length]

end Taken

/-! ### The coupling -/

section Coupled
variable {x509 : X509} {room : ℕ → ℕ → ℕ} {s : Shared} {op : Op} {n : ℕ}

theorem coupled_new (maxHistory peekBytes : ℤ) : (new maxHistory peekBytes).Coupled peekBytes.toNat :=
  ⟨sound_new maxHistory peekBytes, reads_run (fun _ => none) (fun _ _ => 0) maxHistory peekBytes [],
    fun a => iff_of_true (Table.get_empty a) (Table.get_empty a), fun _ _ => rfl, rfl⟩

theorem samples_step (h : ∀ a : UInt64, s.samples[a]? = none ↔ s.store.plainBySSL[a]? = none) (a : UInt64) :
    (s.step x509 room op).samples[a]? = none ↔ (s.step x509 room op).store.plainBySSL[a]? = none := by
  rw [step_store]
  cases op with
  | updateFlows v flows =>
    rw [show (s.store.step x509 (.updateFlows v flows)).plainBySSL = s.store.plainBySSL from
      Store.updateFlows_plainBySSL]
    exact h a
  | applyWire now w =>
    rw [show (s.store.step x509 (.applyWire now w)).plainBySSL = s.store.plainBySSL from
      Store.applyWire_plainBySSL]
    exact h a
  | applyData d =>
    change (s.applyData room d).samples[a]? = none ↔ (s.store.applyData d).plainBySSL[a]? = none
    rw [Store.applyData_sample]
    unfold applyData
    by_cases hd : d.data = []
    · rw [if_pos hd, if_neg fun hc => hc.2 hd]
      exact h a
    · rw [if_neg hd]
      dsimp only
      rw [Table.get_insert]
      by_cases ha : d.ssl = a
      · rw [if_pos ha, if_pos ⟨ha, hd⟩]
        simp
      · rw [if_neg ha, if_neg fun hc => ha hc.1]
        exact h a
  | applyClose v e =>
    change (s.samples.erase e.ssl)[a]? = none ↔ (s.store.applyClose v e).plainBySSL[a]? = none
    rw [Store.applyClose_sample, Table.get_erase]
    split_ifs
    · exact iff_of_true rfl rfl
    · exact h a
  | updateSSLStats stats =>
    change (s.samples.filter fun ssl _ => stats.any fun p => p.1.ssl == ssl)[a]? = none ↔
      (s.store.updateSSLStats stats).plainBySSL[a]? = none
    rw [Store.updateSSLStats_sample,
      Table.get_filter s.samples a fun ssl => stats.any fun p => p.1.ssl == ssl]
    split_ifs
    · exact h a
    · exact iff_of_true rfl rfl

/-- The tails after an attribution to what was resolved, if anything was. -/
def attributed (samples : Table Tails) (ssl : UInt64) (fields : ℕ → Tails) (r : Option Conn) : ℕ → Tails :=
  r.elim fields fun c => join samples ssl c fields

theorem attributed_other {samples : Table Tails} {ssl : UInt64} {fields : ℕ → Tails} {r : Option Conn}
    {o : ℕ} (h : ∀ c, r = some c → c.obj ≠ o) : attributed samples ssl fields r o = fields o := by
  cases r with
  | none => rfl
  | some c =>
    change join samples ssl c fields o = fields o
    unfold join
    cases samples[ssl]? with
    | none => rfl
    | some smp => exact Function.update_of_ne (h c rfl).symm smp fields

theorem attributed_unmade {t : Store} {samples : Table Tails} {fields : ℕ → Tails} {r : Option Conn}
    (hr : ∀ c, r = some c → t.conns[c.sock]? = some c) (h : ∀ o, t.next ≤ o → fields o = {})
    (ssl : UInt64) (o : ℕ) (ho : t.next ≤ o) : attributed samples ssl fields r o = {} := by
  refine (attributed_other fun c hc => ?_).trans (h o ho)
  exact ((t.live_lt _ c (hr c hc)).trans_le ho).ne

theorem fields_applyClose (s : Shared) (v : View) (e : CloseEvent) : (s.applyClose v e).fields =
    attributed s.samples e.ssl s.fields (s.store.resolve v e.pid e.fd).1 := by
  unfold applyClose attributed
  cases (s.store.resolve v e.pid e.fd).1 <;> rfl

theorem fields_credit (samples : Table Tails) (r : Store × (ℕ → Tails)) (p : SSLStat × View) :
    (credit samples r p).2 =
      attributed samples p.1.ssl r.2 (r.1.resolve p.2 p.1.pid p.1.fd).1 := by
  unfold credit attributed
  cases (r.1.resolve p.2 p.1.pid p.1.fd).1 <;> rfl

/-- What one turn of the accumulation loop keeps, the loop keeps. -/
theorem foldl_credit (samples : Table Tails) {I : Store → (ℕ → Tails) → Prop}
    (hturn : ∀ t fields (p : SSLStat × View), I t fields →
      I (t.credit p) (attributed samples p.1.ssl fields (t.resolve p.2 p.1.pid p.1.fd).1))
    (stats : List (SSLStat × View)) {r : Store × (ℕ → Tails)} (h : I r.1 r.2) :
    I (stats.foldl Store.credit r.1) (stats.foldl (credit samples) r).2 := by
  induction stats generalizing r with
  | nil => exact h
  | cons p stats ih =>
    refine ih (r := credit samples r p) ?_
    rw [fields_credit]
    exact hturn _ _ p h

theorem Coupled.step (hs : s.Coupled n) (x509 : X509) (room : ℕ → ℕ → ℕ) (op : Op) :
    (s.step x509 room op).Coupled n := by
  refine ⟨hs.sound.step op, hs.reads.step hs.sound, samples_step hs.samples, ?_, ?_⟩
  · intro o ho
    rw [step_store] at ho
    have ho' : s.store.next ≤ o := Store.next_le_step.trans ho
    cases op with
    | updateFlows v flows | applyWire now w => exact hs.unmade o ho'
    | applyData d =>
      change (s.applyData room d).fields o = {}
      unfold applyData
      split_ifs <;> exact hs.unmade o ho'
    | applyClose v e =>
      exact (congrFun (fields_applyClose s v e) o).trans
        (attributed_unmade (fun c hc => Store.resolve_live hc) hs.unmade e.ssl o ho')
    | updateSSLStats stats =>
      let zeroed := s.store.mapConns Conn.zeroPlain Conn.keeps_zeroPlain
      have hfold := foldl_credit s.samples
        (I := fun t fields => t.next = s.store.next ∧ ∀ o, t.next ≤ o → fields o = {})
        (fun t fields p ht => ⟨Store.credit_next.trans ht.1, fun o ho => attributed_unmade
          (fun c hc => Store.resolve_live hc) ht.2 p.1.ssl o (Store.credit_next.symm.trans_le ho)⟩)
        stats (r := (zeroed, s.fields)) ⟨rfl, hs.unmade⟩
      exact hfold.2 o (hfold.1.trans_le ho')
  · rw [step_peekBytes]
    exact hs.peekBytes

theorem Coupled.run (hs : s.Coupled n) (x509 : X509) (room : ℕ → ℕ → ℕ) (ops : List Op) :
    (s.run x509 room ops).Coupled n :=
  foldl_invariant (p := fun _ => True) (fun _ op _ hs => hs.step x509 room op) (fun _ _ => trivial) hs

end Coupled

/-! ### The rows of one socket -/

/-- No close event of a session of the past, and no turn of the accumulation loop for one, resolves
to the socket `k`. -/
def Apart (k : UInt64) (s : Store × List UInt64) : Op → Prop
  | .applyClose v e => e.ssl ∈ s.2 → (s.1.resolve v e.pid e.fd).1.map Conn.sock ≠ some k
  | .updateSSLStats stats => Meets Store.credit
      (fun t p => p.1.ssl ∈ s.2 → (t.resolve p.2 p.1.pid p.1.fd).1.map Conn.sock ≠ some k)
      (s.1.mapConns Conn.zeroPlain Conn.keeps_zeroPlain) stats
  | _ => True

instance decidableApart (k : UInt64) (s : Store × List UInt64) : ∀ op, Decidable (Apart k s op)
  | .updateFlows _ _ => inferInstanceAs (Decidable True)
  | .applyWire _ _ => inferInstanceAs (Decidable True)
  | .applyData _ => inferInstanceAs (Decidable True)
  | .applyClose _ _ => inferInstanceAs (Decidable (_ → _))
  | .updateSSLStats _ => inferInstanceAs (Decidable (Meets _ _ _ _))

/-- The store, and the sessions of the past that are left. -/
def stepPast (x509 : X509) (s : Store × List UInt64) (op : Op) : Store × List UInt64 :=
  (s.1.step x509 op, surviving s.2 op)

theorem apart_nil (k : UInt64) (s : Store) (op : Op) : Apart k (s, []) op := by
  cases op with
  | updateFlows | applyWire | applyData => trivial
  | applyClose v e => exact fun h => absurd h List.not_mem_nil
  | updateSSLStats stats =>
    unfold Apart
    dsimp only
    generalize s.mapConns Conn.zeroPlain Conn.keeps_zeroPlain = t
    induction stats generalizing t with
    | nil => trivial
    | cons p stats ih => exact ⟨fun h => absurd h List.not_mem_nil, ih _⟩

theorem meets_apart_nil (x509 : X509) (k : UInt64) (s : Store) (ops : List Op) :
    Meets (stepPast x509) (Apart k) (s, []) ops := by
  induction ops generalizing s with
  | nil => trivial
  | cons op ops ih => exact ⟨apart_nil k s op, ih _⟩

/-- The objects of `k` made from `o₀` on, with the tails that go with them. -/
def Rows (k : UInt64) (o₀ : ℕ) (R : Conn → Tails → Prop) (s : Store) (fields : ℕ → Tails) : Prop :=
  s.All fun c => c.sock = k → o₀ ≤ c.obj → R c (fields c.obj)

section Rows
variable {k : UInt64} {o₀ : ℕ} {R : Conn → Tails → Prop} {s s' : Store} {fields : ℕ → Tails}

/-- One attribution: the connection that was resolved takes the sample, the others stay. -/
theorem Rows.turn {samples : Table Tails} {ssl : UInt64} {r : Option Conn} {g : Conn → Conn}
    (hr : ∀ c, r = some c → s.conns[c.sock]? = some c) (hg : Keeps g) (hlog : s'.log = s.log)
    (hget : ∀ k : UInt64, s'.conns[k]? =
      if r.map Conn.sock = some k then s.conns[k]?.map g else s.conns[k]?)
    (hturn : ∀ c, r = some c → c.sock = k → o₀ ≤ c.obj → R c (fields c.obj) →
      R (g c) (join samples ssl c fields c.obj))
    (h : Rows k o₀ R s fields) : Rows k o₀ R s' (attributed samples ssl fields r) := by
  rintro d (hd | hd) hk ho
  · rw [hget] at hd
    by_cases hres : r.map Conn.sock = some d.sock
    · obtain ⟨c, rfl, hsock⟩ := Option.map_eq_some_iff.mp hres
      have hc := hr c rfl
      rw [if_pos hres, ← hsock, hc, Option.map_some] at hd
      obtain rfl := Option.some.inj hd
      rw [(hg c).1] at ho ⊢
      rw [(hg c).2] at hk
      exact hturn c rfl hk ho (h c (.inl hc) hk ho)
    · rw [if_neg hres] at hd
      rw [attributed_other]
      · exact h d (.inl hd) hk ho
      · rintro c rfl hobj
        refine hres (congrArg some ?_)
        exact s.live_inj _ _ _ _ (hr c rfl) hd hobj
  · rw [hlog] at hd
    rw [attributed_other]
    · exact h d (.inr hd) hk ho
    · rintro c rfl hobj
      exact s.log_ne d hd _ c (hr c rfl) hobj.symm

end Rows

/-! ### The plaintext of a row -/

section Plain
variable {x509 : X509} {room : ℕ → ℕ → ℕ} {s : Shared} {op : Op} {k : UInt64} {o₀ : ℕ}
variable {P : Sample → Tails → Prop} {past : List UInt64}

/-- What a row may take over in a step. -/
def Offers (s : Shared) (past : List UInt64) (P : Sample → Tails → Prop) : Prop :=
  ∀ a ∉ past, ∀ smp tails, s.store.plainBySSL[a]? = some smp → s.samples[a]? = some tails → P smp tails

theorem join_plain {n : ℕ} (hs : s.Coupled n) (hoffers : s.Offers past P) {a : UInt64} (ha : a ∉ past)
    {c d : Conn} {fields : ℕ → Tails} (hplain : d.plain = (s.store.plainBySSL[a]?).getD c.plain)
    (h : P c.plain (fields c.obj)) : P d.plain (join s.samples a c fields c.obj) := by
  rw [hplain]
  unfold join
  cases hsmp : s.samples[a]? with
  | none =>
    rw [(hs.samples a).mp hsmp]
    exact h
  | some tails =>
    cases hval : s.store.plainBySSL[a]? with
    | none =>
      rw [(hs.samples a).mpr hval] at hsmp
      cases hsmp
    | some smp =>
      rw [Option.getD_some]
      dsimp only
      rw [Function.update_self]
      exact hoffers a ha smp tails hval hsmp

theorem finalize_plain (e : CloseEvent) (smp : Option Sample) (c : Conn) :
    (c.finalize e smp).plain = smp.getD c.plain := by
  cases smp <;> rfl

theorem accumulate_plain (st : SSLStat) (smp : Option Sample) (c : Conn) :
    (c.accumulate st smp).plain = smp.getD c.plain := by
  cases smp <;> rfl

theorem zeroPlain_plain (c : Conn) : c.zeroPlain.plain = c.plain := by
  unfold Conn.zeroPlain
  split_ifs <;> rfl

/-- The accumulation loop: each turn has its row take over the sample of a session that is none of the
past, or leaves the rows of `k` alone. -/
theorem rows_foldl_credit {n : ℕ} (hs : s.Coupled n) (hoffers : s.Offers past P)
    (stats : List (SSLStat × View)) {r : Store × (ℕ → Tails)}
    (hplain : r.1.plainBySSL = s.store.plainBySSL) (h : Rows k o₀ (fun c => P c.plain) r.1 r.2)
    (hapart : Meets Store.credit (fun t p => p.1.ssl ∈ past →
      (t.resolve p.2 p.1.pid p.1.fd).1.map Conn.sock ≠ some k) r.1 stats) :
    Rows k o₀ (fun c => P c.plain) (stats.foldl Store.credit r.1)
      (stats.foldl (credit s.samples) r).2 := by
  induction stats generalizing r with
  | nil => exact h
  | cons p stats ih =>
    refine ih (r := credit s.samples r p) (Store.credit_plainBySSL.trans hplain) ?_ hapart.2
    rw [fields_credit]
    refine h.turn (fun c hc => Store.resolve_live hc) (Conn.keeps_accumulate p.1 _)
      Store.credit_log (fun _ => Store.credit_get) fun c hres hk ho hP => ?_
    have ha : p.1.ssl ∉ past := fun ha => hapart.1 ha (by rw [hres, Option.map_some, hk])
    refine join_plain hs hoffers ha ?_ hP
    rw [accumulate_plain, hplain]

/-- A row of `k` keeps its plaintext, or takes over the sample of a session that is none of the
past. -/
theorem rows_plain_step {n : ℕ} (hs : s.Coupled n) (hempty : P {} {}) (hoffers : s.Offers past P)
    (hapart : Apart k (s.store, past) op) (h : Rows k o₀ (fun c => P c.plain) s.store s.fields) :
    Rows k o₀ (fun c => P c.plain) (s.step x509 room op).store (s.step x509 room op).fields := by
  have hsteady : Steady fun c => c.sock = k → o₀ ≤ c.obj → P c.plain (s.fields c.obj) :=
    ⟨fun _ _ _ h => h, fun _ _ c h => Conn.applyWire_frame
      (P := fun d => d.sock = k → o₀ ≤ d.obj → P d.plain (s.fields d.obj)) fun _ _ _ _ _ => h,
      fun _ _ h => h⟩
  have hnew : ∀ o ≥ s.store.next, ∀ (sock : UInt64) (now : Time),
      sock = k → o₀ ≤ o → P {} (s.fields o) := by
    intro o ho _ _ _ _
    rw [hs.unmade o ho]
    exact hempty
  cases op with
  | updateFlows v flows => exact Store.All.updateFlows hsteady hnew h
  | applyWire now w => exact Store.All.applyWire hsteady hnew h
  | applyData d =>
    change Rows k o₀ _ (s.applyData room d).store (s.applyData room d).fields
    unfold applyData
    split_ifs
    · exact h
    · exact Store.All.applyData h
  | applyClose v e =>
    change Rows k o₀ _ (s.store.applyClose v e) (s.applyClose v e).fields
    rw [fields_applyClose]
    refine h.turn (fun c hc => Store.resolve_live hc) (Conn.keeps_finalize e _) Store.applyClose_log
      (fun _ => Store.applyClose_get) fun c hres hk ho hP => ?_
    have ha : e.ssl ∉ past := fun ha => hapart ha (by rw [hres, Option.map_some, hk])
    exact join_plain hs hoffers ha (finalize_plain e _ c) hP
  | updateSSLStats stats =>
    have hzero : Rows k o₀ (fun c => P c.plain)
        (s.store.mapConns Conn.zeroPlain Conn.keeps_zeroPlain) s.fields := by
      refine Store.All.edit Store.mapConns_log (fun k' d hd => ?_) h
      rw [Store.mapConns_get] at hd
      obtain ⟨c, hc, rfl⟩ := Option.map_eq_some_iff.mp hd
      refine ⟨c, hc, fun hP => ?_⟩
      change c.zeroPlain.sock = k → o₀ ≤ c.zeroPlain.obj → P c.zeroPlain.plain (s.fields c.zeroPlain.obj)
      rw [(Conn.keeps_zeroPlain c).1, (Conn.keeps_zeroPlain c).2, zeroPlain_plain]
      exact hP
    let zeroed := s.store.mapConns Conn.zeroPlain Conn.keeps_zeroPlain
    exact rows_foldl_credit hs hoffers stats (r := (zeroed, s.fields)) rfl hzero hapart

end Plain

/-! ### Every run -/

/-- The plaintext of a row is nothing, or of the chunks of one session: its heads are those of a
piece, and its tails read cuts of the windows of the same piece or of one that goes on from it. -/
def FromOne (n : ℕ) (past : List UInt64) (ops : List Op) (h : Heap UInt8) (plain : Sample) (tails : Tails) :
    Prop :=
  plain = {} ∧ tails = {} ∨ ∃ a seg, Piece past a ops seg ∧ plain = madeOf n a seg ∧
    ∀ out, CutOf n past a ops seg out (tails.side out) h

/-- The same with the slices followed. -/
def Followed (n : ℕ) (past : List UInt64) (ops : List Op) (s : Shared) (plain : Sample) (tails : Tails) :
    Prop :=
  plain = {} ∧ tails = {} ∨ ∃ a seg, Piece past a ops seg ∧ plain = madeOf n a seg ∧
    ∀ out, Taken n past a ops seg out s (tails.side out)

section Run
variable {x509 : X509} {room : ℕ → ℕ → ℕ} {s : Shared} {op : Op} {k : UInt64} {o₀ n : ℕ}
variable {past : List UInt64} {ops done : List Op} {plain : Sample} {tails : Tails}

theorem Followed.fromOne (h : Followed n past ops s plain tails) :
    FromOne n past ops s.heap plain tails := by
  rcases h with h | ⟨a, seg, hpiece, hplain, htaken⟩
  · exact .inl h
  · exact .inr ⟨a, seg, hpiece, hplain, fun out => (htaken out).cut⟩

theorem Followed.step (x509 : X509) (room : ℕ → ℕ → ℕ) (hs : s.Coupled n)
    (h : Followed n past ops s plain tails) :
    Followed n past (ops ++ [op]) (s.step x509 room op) plain tails := by
  rcases h with h | ⟨a, seg, hpiece, hplain, htaken⟩
  · exact .inl h
  · exact .inr ⟨a, seg, hpiece.later op, hplain,
      fun out => (htaken out).step x509 room hs (hs.step x509 room op)⟩

theorem offers_followed (hs : s.Coupled n) (h : s.store.Unbroken n past ops) :
    s.Offers (ops.foldl surviving past) (Followed n past ops s) := by
  intro a ha smp tails hsmp htails
  obtain ⟨seg, hseg⟩ := h a ha
  refine .inr ⟨a, seg, hseg.piece, ?_, fun out => ?_⟩
  · rw [← hseg.getD, hsmp, Option.getD_some]
  · rw [← slot_of_get htails]
    exact taken_slot hs hseg out

/-- The rows of `k` made from `o₀` on are followed, and so are the samples. -/
structure Following (n : ℕ) (past : List UInt64) (k : UInt64) (o₀ : ℕ) (ops : List Op) (s : Shared) :
    Prop where
  coupled : s.Coupled n
  unbroken : s.store.Unbroken n past ops
  rows : Rows k o₀ (fun c => Followed n past ops s c.plain) s.store s.fields

theorem Following.step (x509 : X509) (room : ℕ → ℕ → ℕ) (h : Following n past k o₀ ops s)
    (hapart : Apart k (s.store, ops.foldl surviving past) op) :
    Following n past k o₀ (ops ++ [op]) (s.step x509 room op) := by
  refine ⟨h.coupled.step x509 room op, ?_, fun c hc hk ho => ?_⟩
  · rw [step_store]
    exact h.unbroken.step h.coupled.peekBytes op
  · have hrow : Rows k o₀ (fun c => Followed n past ops s c.plain) (s.step x509 room op).store
        (s.step x509 room op).fields :=
      rows_plain_step h.coupled (.inl ⟨rfl, rfl⟩) (offers_followed h.coupled h.unbroken) hapart h.rows
    exact (hrow c hc hk ho).step x509 room h.coupled

theorem Following.run (x509 : X509) (room : ℕ → ℕ → ℕ) {done : List Op} (h : Following n past k o₀ done s)
    (hapart : Meets (stepPast x509) (Apart k) (s.store, done.foldl surviving past) ops) :
    Following n past k o₀ (done ++ ops) (s.run x509 room ops) :=
  hapart.history (fun _ _ => step_store.symm) (fun _ _ _ hop h => h.step x509 room hop) h

theorem following_nil (hs : s.Coupled n)
    (hpast : ∀ a : UInt64, s.store.plainBySSL[a]? ≠ none → a ∈ past) :
    Following n past k s.store.next [] s :=
  ⟨hs, Store.unbroken_nil hpast, fun _ hc _ ho => absurd hc.lt_next ho.not_gt⟩

/-- What the objects of `k` made from now on show is of one session each, and of none of the past,
as long as no session of the past is attributed to `k`. -/
theorem rows_from_one (room : ℕ → ℕ → ℕ) (hs : s.Coupled n)
    (hpast : ∀ a : UInt64, s.store.plainBySSL[a]? ≠ none → a ∈ past)
    (hapart : Meets (stepPast x509) (Apart k) (s.store, past) ops) :
    Rows k s.store.next (fun c => FromOne n past ops (s.run x509 room ops).heap c.plain)
      (s.run x509 room ops).store (s.run x509 room ops).fields :=
  fun c hc hk ho => (((following_nil hs hpast).run x509 room hapart).rows c hc hk ho).fromOne

/-- In every run from the start, what any row shows is of one session. -/
theorem from_one_run (x509 : X509) (room : ℕ → ℕ → ℕ) (maxHistory peekBytes : ℤ) (ops : List Op) {c : Conn}
    (hc : ((new maxHistory peekBytes).run x509 room ops).store.Holds c) :
    FromOne peekBytes.toNat [] ops ((new maxHistory peekBytes).run x509 room ops).heap c.plain
      (((new maxHistory peekBytes).run x509 room ops).fields c.obj) :=
  rows_from_one room (coupled_new maxHistory peekBytes) (fun a ha => absurd (Table.get_empty a) ha)
    (meets_apart_nil x509 c.sock _ ops) c hc rfl (Nat.zero_le _)

end Run

end Shared
end Tlstat.Model
