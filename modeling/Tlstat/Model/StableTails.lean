import Tlstat.Model.Sharing

/-! The bytes that a snapshot reads. Each tail has an array of its own, so only an append to the
tail that the slice was taken from can change them, and of those only one that shifts in place. -/

namespace Tlstat.Model.Shared
open Base Loader Tlsparse

/-- The tails are apart and inside the window, and what the connections hold was taken of them. -/
structure Sound (s : Shared) : Prop where
  buffers : Slice.Buffers s.slot s.heap
  window : ∀ i, (s.slot i).len ≤ s.store.peekBytes
  held : ∀ o out, Slice.Held s.slot s.heap ((s.fields o).side out)

section Sound
variable {x509 : X509} {room : ℕ → ℕ → ℕ} {s s' : Shared} {t : Slice} {op : Op} {d : DataEvent}

theorem sound_new (maxHistory peekBytes : ℤ) : (new maxHistory peekBytes).Sound := by
  have hslot : ∀ i, (new maxHistory peekBytes).slot i = {} := fun i => slot_of_none (Table.get_empty _)
  have hnil : ∀ out, (({} : Tails).side out) = {} := fun out => by cases out <;> rfl
  refine ⟨⟨fun i => ?_, fun i j hi => ?_⟩, fun i => ?_, fun o out hlen => ?_⟩
  · rw [hslot]
    exact Slice.valid_nil
  · rw [hslot] at hi
    exact absurd hi (Nat.lt_irrefl 0)
  · rw [hslot]
    exact Nat.zero_le _
  · change 0 < (({} : Tails).side out).len at hlen
    rw [hnil] at hlen
    exact absurd hlen (Nat.lt_irrefl 0)

theorem step_peekBytes : (s.step x509 room op).store.peekBytes = s.store.peekBytes := by
  rw [step_store]
  exact (Store.preserved_peekBytes s.store.peekBytes).step op rfl

theorem Sound.recorded_grown (hs : s.Sound) (d : DataEvent) :
    Slice.Grown (s.slot (target d)) s.heap (s.recorded room d) :=
  appendTail_grown (hs.buffers.valid _) (hs.window _)

theorem Quiet.held (hq : s.Quiet s') (ht : Slice.Held s.slot s.heap t) :
    Slice.Held s'.slot s'.heap t := by
  rw [hq.heap]
  exact ht.drop hq.slot

theorem held_step (hs : s.Sound) (ht : Slice.Held s.slot s.heap t) :
    Slice.Held (s.step x509 room op).slot (s.step x509 room op).heap t := by
  rcases step_cases x509 room s op with ⟨hq, -⟩ | ⟨d, -, -, hheap, hslot, -⟩
  · exact hq.held ht
  · rw [hheap, hslot]
    exact ht.grown (hs.recorded_grown d)

theorem Sound.step (hs : s.Sound) (op : Op) : (s.step x509 room op).Sound := by
  rcases step_cases x509 room s op with ⟨hq, -⟩ | ⟨d, -, -, hheap, hslot, hfields⟩
  · refine ⟨?_, fun i => ?_, fun o out => hq.held ?_⟩
    · rw [hq.heap]
      exact hs.buffers.drop hq.slot
    · rw [step_peekBytes]
      rcases hq.slot i with hi | hi
      · rw [hi]
        exact hs.window i
      · rw [hi]
        exact Nat.zero_le _
    · rcases hq.fields o with hsame | ⟨a, hsmp⟩
      · rw [hsame]
        exact hs.held o out
      · rw [← slot_of_get hsmp]
        exact hs.buffers.held _
  · refine ⟨?_, fun i => ?_, fun o out => ?_⟩
    · rw [hheap, hslot]
      exact hs.buffers.grown (hs.recorded_grown d)
    · rw [step_peekBytes, hslot]
      by_cases hi : i = target d
      · rw [hi, Function.update_self]
        exact len_appendTail (hs.buffers.valid _)
      · rw [Function.update_of_ne hi]
        exact hs.window i
    · rw [hfields]
      exact held_step hs (hs.held o out)

theorem sound_run (x509 : X509) (room : ℕ → ℕ → ℕ) (maxHistory peekBytes : ℤ) (ops : List Op) :
    ((new maxHistory peekBytes).run x509 room ops).Sound :=
  foldl_invariant (p := fun _ => True) (fun _ op _ hs => hs.step op) (fun _ _ => trivial)
    (sound_new maxHistory peekBytes)

/-! ### One step -/

/-- The step does not disturb what `t` reads: a chunk that its buffer takes in place either stays
inside the window, or what it moves to the front are the bytes that stand there. -/
def Spares (t : Slice) (s : Shared) : Op → Prop
  | .applyData d =>
    let buf := s.slot (target d)
    let tail := buf.read s.heap
    buf.arr = t.arr → Shifts s.store.peekBytes buf d.data.length →
      (lastN s.store.peekBytes (tail ++ d.data)).take t.len = tail.take t.len
  | _ => True

instance (t : Slice) (s : Shared) : ∀ op, Decidable (Spares t s op)
  | .applyData _ => inferInstanceAs (Decidable (_ → _ → _))
  | .updateFlows _ _ => inferInstanceAs (Decidable True)
  | .applyWire _ _ => inferInstanceAs (Decidable True)
  | .applyClose _ _ => inferInstanceAs (Decidable True)
  | .updateSSLStats _ => inferInstanceAs (Decidable True)

/-- A slice that holds nothing, or that is not on the array of the buffer. -/
theorem Sound.read_recorded_ne (hs : s.Sound) (ht : Slice.Held s.slot s.heap t)
    (hne : 0 < t.len → 0 < (s.slot (target d)).cap → (s.slot (target d)).arr ≠ t.arr) :
    t.read (s.recorded room d).2 = t.read s.heap := by
  rcases Nat.eq_zero_or_pos t.len with hlen | hlen
  · unfold Slice.read
    rw [hlen, List.take_zero, List.take_zero]
  · exact (hs.recorded_grown d).read_eq (fun _ => (ht hlen).1) (hne hlen)

theorem Sound.read_step_iff (hs : s.Sound) (ht : Slice.Held s.slot s.heap t) (op : Op) :
    t.read (s.step x509 room op).heap = t.read s.heap ↔ Spares t s op := by
  rcases step_cases x509 room s op with ⟨hq, hempty⟩ | ⟨d, rfl, hd, hheap, -, -⟩
  · refine iff_of_true (by rw [hq.heap]) ?_
    cases op with
    | applyData d =>
      intro _ hshifts
      have hwindow := hs.window (target d)
      have hlen : s.store.peekBytes < (s.slot (target d)).len + d.data.length := hshifts.2.2
      rw [hempty d rfl, List.length_nil] at hlen
      omega
    | updateFlows v flows => trivial
    | applyWire now w => trivial
    | applyClose v e => trivial
    | updateSSLStats stats => trivial
  · rw [hheap]
    change _ ↔ ((s.slot (target d)).arr = t.arr → Shifts s.store.peekBytes (s.slot (target d))
      d.data.length → _)
    by_cases hon : 0 < t.len ∧ 0 < (s.slot (target d)).cap ∧ (s.slot (target d)).arr = t.arr
    · obtain ⟨hlen, hcap, harr⟩ := hon
      obtain ⟨hoff, hle⟩ := (ht hlen).2 _ hcap harr
      have hread : t.read s.heap = ((s.slot (target d)).read s.heap).take t.len := by
        unfold Slice.read
        rw [harr, hoff, List.take_take, Nat.min_eq_left hle]
      unfold recorded
      rw [held_read_appendTail (hs.buffers.valid _) hcap (hs.window _) harr hoff hle, hread]
      split_ifs with hshifts
      · exact ⟨fun heq _ _ => heq, fun h => h harr hshifts⟩
      · exact iff_of_true rfl fun _ h => absurd h hshifts
    · refine iff_of_true (hs.read_recorded_ne ht fun hlen hcap harr => hon ⟨hlen, hcap, harr⟩) ?_
      intro harr hshifts
      have hpos : 0 < d.data.length := List.length_pos_iff.mpr hd
      have hfits : (s.slot (target d)).len + d.data.length ≤ (s.slot (target d)).cap := hshifts.2.1
      have hlen : t.len = 0 := by
        by_contra hne
        exact hon ⟨Nat.pos_of_ne_zero hne, by omega, harr⟩
      rw [hlen, List.take_zero, List.take_zero]

end Sound

/-! ### The bytes of the samples -/

def sampleTail (smp : Sample) (out : Bool) : Bytes := if out then smp.tailOut else smp.tailIn

theorem sampleTail_record (peekBytes : ℕ) (d : DataEvent) (smp : Sample) (out : Bool) :
    sampleTail (smp.record peekBytes d) out =
      if out = decide (d.dir = 1) then Model.appendTail (sampleTail smp out) d.data peekBytes
      else sampleTail smp out := by
  unfold Sample.record
  by_cases hdir : d.dir = 1
  · rw [if_pos hdir, decide_eq_true hdir]
    cases out <;> rfl
  · rw [if_neg hdir, decide_eq_false hdir]
    cases out <;> rfl

/-- The slices of the samples read the bytes that the store keeps. -/
def Reads (s : Shared) : Prop :=
  ∀ i, (s.slot i).read s.heap = sampleTail (s.store.plainBySSL[i.1]?.getD {}) i.2

section Reads
variable {x509 : X509} {room : ℕ → ℕ → ℕ} {s : Shared} {op : Op} {d : DataEvent}

theorem Reads.applyData (hs : s.Sound) (h : s.Reads) : (s.step x509 room (.applyData d)).Reads := by
  by_cases hd : d.data = []
  · have hsame : s.step x509 room (.applyData d) = s := if_pos hd
    rw [hsame]
    exact h
  · rcases step_cases x509 room s (.applyData d) with ⟨-, hempty⟩ | ⟨d', hd', -, hheap, hslot, -⟩
    · exact absurd (hempty d rfl) hd
    · cases hd'
      intro i
      rw [hheap, hslot, step_store]
      change _ = sampleTail ((s.store.applyData d).plainBySSL[i.1]?.getD {}) i.2
      rw [Store.applyData_sample]
      by_cases hi : i = target d
      · rw [hi, Function.update_self, if_pos ⟨rfl, hd⟩, Option.getD_some, sampleTail_record]
        change _ = if decide (d.dir = 1) = decide (d.dir = 1) then _ else _
        rw [if_pos rfl]
        exact (read_appendTail (hs.buffers.valid _)).trans (congrArg (Model.appendTail · _ _) (h _))
      · have hother : (s.slot i).read (s.recorded room d).2 = (s.slot i).read s.heap := by
          refine hs.read_recorded_ne (hs.buffers.held i) fun hlen hcap harr => hi ?_
          have hpos : 0 < (s.slot i).cap := hlen.trans_le (hs.buffers.valid i).len_le
          exact (hs.buffers.apart _ _ hcap hpos harr).symm
        rw [Function.update_of_ne hi, hother, h i]
        split_ifs with hssl
        · rw [Option.getD_some, sampleTail_record, if_neg]
          exact fun hout => hi (Prod.ext hssl.1.symm hout)
        · rfl

theorem Reads.congr {s' : Shared} (h : s.Reads) (hslot : s'.slot = s.slot)
    (hheap : s'.heap = s.heap) (hplain : s'.store.plainBySSL = s.store.plainBySSL) : s'.Reads := by
  intro i
  rw [hslot, hheap, hplain]
  exact h i

theorem Reads.step (hs : s.Sound) (h : s.Reads) : (s.step x509 room op).Reads := by
  cases op with
  | applyData d => exact h.applyData hs
  | updateFlows v flows => exact h.congr rfl rfl Store.updateFlows_plainBySSL
  | applyWire now w => exact h.congr rfl rfl Store.applyWire_plainBySSL
  | applyClose v e =>
    intro i
    change (((s.samples.erase e.ssl)[i.1]?.getD {}).side i.2).read s.heap =
      sampleTail ((s.store.applyClose v e).plainBySSL[i.1]?.getD {}) i.2
    rw [Store.applyClose_sample, Table.get_erase]
    split_ifs with hi
    · cases i.2 <;> rfl
    · exact h i
  | updateSSLStats stats =>
    intro i
    change (((s.samples.filter fun ssl _ => stats.any fun p => p.1.ssl == ssl)[i.1]?.getD {}).side
      i.2).read s.heap = sampleTail ((s.store.updateSSLStats stats).plainBySSL[i.1]?.getD {}) i.2
    rw [Store.updateSSLStats_sample, Table.get_filter s.samples i.1 fun ssl =>
      stats.any fun p => p.1.ssl == ssl]
    split_ifs with hi
    · exact h i
    · cases i.2 <;> rfl

/-- **The store with slices keeps the samples that the store with bytes keeps.** -/
theorem reads_run (x509 : X509) (room : ℕ → ℕ → ℕ) (maxHistory peekBytes : ℤ) (ops : List Op) :
    ((new maxHistory peekBytes).run x509 room ops).Reads := by
  have hnew : (new maxHistory peekBytes).Sound ∧ (new maxHistory peekBytes).Reads := by
    refine ⟨sound_new maxHistory peekBytes, fun i => ?_⟩
    have hstore : (new maxHistory peekBytes).store.plainBySSL[i.1]? = none := Table.get_empty _
    rw [slot_of_none (Table.get_empty _), hstore]
    cases i.2 <;> rfl
  exact (foldl_invariant (I := fun s : Shared => s.Sound ∧ s.Reads) (p := fun _ => True)
    (fun _ op _ hs => ⟨hs.1.step op, hs.2.step hs.1⟩) (fun _ _ => trivial) hnew).2

end Reads

/-! ### Every run -/

/-- **What a snapshot reads of a tail stays the same through any later operations exactly when each
of them spares it: no chunk makes the window shift on the array of the tail, unless the bytes that
it moves to the front are those that stand there.** -/
theorem snapshot_tail_iff (x509 : X509) (room : ℕ → ℕ → ℕ) (maxHistory peekBytes : ℤ)
    (before after : List Op) (v : View) (p : Conn × Tails)
    (hp : p ∈ ((new maxHistory peekBytes).run x509 room before).snapshot v) (out : Bool) :
    let s := (new maxHistory peekBytes).run x509 room before
    Along (step x509 room) (fun s' => (p.2.side out).read s'.heap = (p.2.side out).read s.heap)
      s after ↔ Meets (step x509 room) (Spares (p.2.side out)) s after := by
  intro s
  obtain ⟨c, -, rfl⟩ := List.mem_map.mp hp
  have hs : s.Sound := sound_run x509 room maxHistory peekBytes before
  refine along_iff_meets (p := fun _ => True)
    (J := fun s' => s'.Sound ∧ Slice.Held s'.slot s'.heap ((s.fields c.obj).side out))
    (fun s' op _ hJ => ⟨hJ.1.step op, held_step hJ.1 hJ.2⟩) (fun s' op _ hJ hread => ?_)
    (fun _ _ => trivial) ⟨hs, hs.held c.obj out⟩ rfl
  change (((s.fields c.obj).side out).read s'.heap = _) at hread
  rw [← hread]
  exact hJ.1.read_step_iff hJ.2 op

/-- The room of a new array for up to 32 bytes: at least twice the old one, in steps of 8. -/
def smallRoom (cap n : ℕ) : ℕ := (Nat.max n (2 * cap) + 7) / 8 * 8 - n

/-- A connection that has sent 5 bytes, under a window of 5, up to a poll that joins them. -/
def joined : Shared := (new 500 5).run (fun _ => none) smallRoom
  [.updateFlows (.blind 0) [{ sock := 1, pid := 7, dport := 443, isTLS := true }],
    Store.chunkAt 16 1 [1, 2, 3, 4, 5],
    .updateSSLStats [({ ssl := 16, pid := 7, fd := -1, ptx := 5, prx := 0 }, .blind 1)]]

/-- The next 3 bytes fit behind the tail: the snapshot taken before reads them. -/
theorem snapshot_tail_moves : ∃ p ∈ joined.snapshot (.blind 2),
    p.2.tailOut.read joined.heap = [1, 2, 3, 4, 5] ∧
    p.2.tailOut.read (joined.step (fun _ => none) smallRoom (Store.chunkAt 16 1 [6, 7, 8])).heap =
      [4, 5, 6, 7, 8] := by
  decide +kernel

/-- 4 bytes do not fit, and from then on the tail is on another array. -/
theorem snapshot_tail_stays : ∃ p ∈ joined.snapshot (.blind 2),
    p.2.tailOut.read joined.heap = [1, 2, 3, 4, 5] ∧
    Along (step (fun _ => none) smallRoom)
      (fun s => (p.2.side true).read s.heap = (p.2.side true).read joined.heap) joined
      [Store.chunkAt 16 1 [6, 7, 8, 9], Store.chunkAt 16 1 [10, 11, 12]] := by
  have hmeets : ∃ p ∈ joined.snapshot (.blind 2), p.2.tailOut.read joined.heap = [1, 2, 3, 4, 5] ∧
      Meets (step (fun _ => none) smallRoom) (Spares (p.2.side true)) joined
        [Store.chunkAt 16 1 [6, 7, 8, 9], Store.chunkAt 16 1 [10, 11, 12]] := by
    decide +kernel
  obtain ⟨p, hp, hread, hm⟩ := hmeets
  exact ⟨p, hp, hread, (snapshot_tail_iff _ _ 500 5 _ _ _ p hp true).mpr hm⟩

end Tlstat.Model.Shared
