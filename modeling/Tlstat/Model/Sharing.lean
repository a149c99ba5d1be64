import Tlstat.Base.Run
import Tlstat.Base.Slice
import Tlstat.Model.Samples

/-! The tails of the samples as slices. A join copies the slices into the connection and `Snapshot`
copies them out, not the bytes, so what a snapshot reads is up to the appends that follow it. -/

namespace Tlstat.Model
open Base Loader Tlsparse

/-- What the tails of a sample or of a connection are: slices of arrays that they may share. -/
structure Tails where
  tailOut : Slice := {}
  tailIn : Slice := {}
deriving DecidableEq, Repr

namespace Tails

def side (t : Tails) (out : Bool) : Slice := if out then t.tailOut else t.tailIn

def withSide (t : Tails) (out : Bool) (s : Slice) : Tails :=
  if out then { t with tailOut := s } else { t with tailIn := s }

theorem side_withSide (t : Tails) (out : Bool) (s : Slice) (o : Bool) :
    (t.withSide out s).side o = if o = out then s else t.side o := by
  cases out <;> cases o <;> rfl

end Tails

/-- The store with the arrays of the tails beside it. `fields` are the tails of each connection,
by its object. -/
structure Shared where
  store : Store
  heap : Heap UInt8
  samples : Table Tails
  fields : ℕ → Tails

namespace Shared

def new (maxHistory peekBytes : ℤ) : Shared where
  store := Store.new maxHistory peekBytes
  heap := []
  samples := ∅
  fields := fun _ => {}

/-! ### The operations -/

def appendTail (room : ℕ → ℕ → ℕ) (buf : Slice) (data : Bytes) (max : ℕ) (h : Heap UInt8) :
    Slice × Heap UInt8 :=
  if max = 0 then ({}, h)
  else
    let (buf, h) := buf.append room data h
    if buf.len > max then
      (buf.upTo 0).append room ((buf.startAt (buf.len - max)).read h) h
    else (buf, h)

section Step
variable (x509 : X509) (room : ℕ → ℕ → ℕ)

def applyData (s : Shared) (d : DataEvent) : Shared :=
  if d.data = [] then s
  else
    let smp := s.samples[d.ssl]?.getD {}
    let out : Bool := d.dir = 1
    let (tail, heap) := appendTail room (smp.side out) d.data s.store.peekBytes s.heap
    { s with
      store := s.store.applyData d
      heap
      samples := s.samples.insert d.ssl (smp.withSide out tail) }

/-- `c.TailOut = smp.tailOut`, `c.TailIn = smp.tailIn`, if there is a sample. -/
def join (samples : Table Tails) (ssl : UInt64) (c : Conn) (fields : ℕ → Tails) : ℕ → Tails :=
  match samples[ssl]? with
  | none => fields
  | some smp => Function.update fields c.obj smp

def applyClose (s : Shared) (v : View) (e : CloseEvent) : Shared :=
  { s with
    store := s.store.applyClose v e
    samples := s.samples.erase e.ssl
    fields := match (s.store.resolve v e.pid e.fd).1 with
      | none => s.fields
      | some c => join s.samples e.ssl c s.fields }

/-- A turn of the accumulation loop. -/
def credit (samples : Table Tails) (s : Store × (ℕ → Tails)) (p : SSLStat × View) :
    Store × (ℕ → Tails) :=
  (s.1.credit p, match (s.1.resolve p.2 p.1.pid p.1.fd).1 with
    | none => s.2
    | some c => join samples p.1.ssl c s.2)

def updateSSLStats (s : Shared) (stats : List (SSLStat × View)) : Shared :=
  let zeroed := s.store.mapConns Conn.zeroPlain Conn.keeps_zeroPlain
  { s with
    store := s.store.updateSSLStats stats
    samples := s.samples.filter fun ssl _ => stats.any fun p => p.1.ssl == ssl
    fields := (stats.foldl (credit s.samples) (zeroed, s.fields)).2 }

def step (s : Shared) : Op → Shared
  | .applyData d => s.applyData room d
  | .applyClose v e => s.applyClose v e
  | .updateSSLStats stats => s.updateSSLStats stats
  | .updateFlows v flows => { s with store := s.store.updateFlows v flows }
  | .applyWire now w => { s with store := s.store.applyWire x509 now w }

def run (s : Shared) (ops : List Op) : Shared := ops.foldl (step x509 room) s

end Step

/-- `Snapshot`: the connections, each with the slices of its tails. -/
def snapshot (s : Shared) (v : View) : List (Conn × Tails) :=
  (s.store.snapshot v).map fun c => (c, s.fields c.obj)

/-- The tail of a session in one direction. -/
def slot (s : Shared) (i : UInt64 × Bool) : Slice := (s.samples[i.1]?.getD {}).side i.2

/-! ### One append -/

section AppendTail
variable {room : ℕ → ℕ → ℕ} {buf t : Slice} {data : Bytes} {max : ℕ} {h : Heap UInt8}

/-- The second append of `appendTail`, on what the first one left. -/
def shift (room : ℕ → ℕ → ℕ) (max : ℕ) (r : Slice × Heap UInt8) : Slice × Heap UInt8 :=
  (r.1.upTo 0).append room ((r.1.startAt (r.1.len - max)).read r.2) r.2

theorem appendTail_cases (room : ℕ → ℕ → ℕ) (buf : Slice) (data : Bytes) (max : ℕ)
    (h : Heap UInt8) :
    (max = 0 ∧ appendTail room buf data max h = ({}, h)) ∨
    (0 < max ∧ max < (buf.append room data h).1.len ∧
      appendTail room buf data max h = shift room max (buf.append room data h)) ∨
    (0 < max ∧ (buf.append room data h).1.len ≤ max ∧
      appendTail room buf data max h = buf.append room data h) := by
  unfold appendTail shift
  dsimp only
  rcases Nat.eq_zero_or_pos max with hzero | hmax
  · exact .inl ⟨hzero, if_pos hzero⟩
  · rw [if_neg hmax.ne']
    by_cases hlen : max < (buf.append room data h).1.len
    · exact .inr (.inl ⟨hmax, hlen, if_pos hlen⟩)
    · exact .inr (.inr ⟨hmax, Nat.le_of_not_lt hlen, if_neg hlen⟩)

section Shift
variable {r : Slice × Heap UInt8} (hr : r.1.Valid r.2) (hlen : max < r.1.len)
include hr

/-- The bytes that a shift moves to the front. -/
theorem read_moved : (r.1.startAt (r.1.len - max)).read r.2 = lastN max (r.1.read r.2) := by
  rw [Slice.read_startAt, lastN_eq_drop, hr.length_read]

theorem shift_valid : (shift room max r).1.Valid (shift room max r).2 :=
  (hr.upTo (Nat.zero_le _)).append

theorem shift_read : (shift room max r).1.read (shift room max r).2 = lastN max (r.1.read r.2) := by
  have hread : (shift room max r).1.read (shift room max r).2 =
      (r.1.upTo 0).read r.2 ++ (r.1.startAt (r.1.len - max)).read r.2 :=
    (hr.upTo (Nat.zero_le r.1.cap)).read_append
  have hnil : (r.1.upTo 0).read r.2 = [] := List.take_zero
  rw [hread, hnil, List.nil_append, read_moved hr]

include hlen

theorem length_moved : (lastN max (r.1.read r.2)).length = max := by
  rw [length_lastN, hr.length_read]
  exact Nat.min_eq_left (Nat.le_of_lt hlen)

/-- A shift finds the room that it needs. -/
theorem shift_eq : shift room max r =
    (r.1.upTo max, r.2.write r.1.arr r.1.off (lastN max (r.1.read r.2))) := by
  have hfits : (r.1.upTo 0).Fits (lastN max (r.1.read r.2)).length := by
    have hcap := hr.len_le
    rw [length_moved hr hlen]
    change 0 + max ≤ r.1.cap
    omega
  unfold shift
  rw [read_moved hr, Slice.append_fits hfits, length_moved hr hlen]
  change (r.1.upTo (0 + max), r.2.write r.1.arr (r.1.off + 0) _) = _
  rw [Nat.zero_add, Nat.add_zero]

/-- What a shift leaves of a buffer that has grown is still the buffer grown, if it was no longer
than the window. -/
theorem shift_grown (hg : Slice.Grown buf h r) (hwindow : buf.len ≤ max) :
    Slice.Grown buf h (shift room max r) := by
  refine ⟨shift_valid hr, ?_, ?_, ?_⟩
  · rw [shift_eq hr hlen]
    exact hg.length_le.trans_eq Heap.length_write.symm
  · rw [shift_eq hr hlen]
    intro hcap
    rcases hg.origin hcap with ⟨hpos, harr, hoff, -⟩ | hnew
    · exact .inl ⟨hpos, harr, hoff, hwindow⟩
    · exact .inr hnew
  · intro k hk hne
    have hcap : 0 < r.1.cap := (Nat.zero_le _).trans_lt (hlen.trans_le hr.len_le)
    have harr : r.1.arr ≠ k := by
      rcases hg.origin hcap with ⟨hpos, harr, -, -⟩ | hnew
      · rw [harr]
        exact hne hpos
      · exact (hk.trans_le hnew).ne'
    rw [shift_eq hr hlen]
    exact (Heap.array_write_ne harr).trans (hg.frame k hk hne)

/-- A slice that starts where the buffer starts reads the bytes that were moved there. -/
theorem read_shifted (harr : t.arr = r.1.arr) (hoff : t.off = r.1.off) (ht : t.len ≤ max) :
    t.read (shift room max r).2 = (lastN max (r.1.read r.2)).take t.len := by
  have hcap : max ≤ r.1.cap := hlen.le.trans hr.len_le
  unfold shift
  rw [read_moved hr]
  refine hr.read_overwritten ((Nat.zero_le _).trans_lt (hlen.trans_le hr.len_le)) ?_ harr hoff ?_
  · rwa [length_moved hr hlen]
  · rwa [length_moved hr hlen]

end Shift

/-- Whether it shifts or not, the buffer only grows. -/
theorem appendTail_grown (hbuf : buf.Valid h) (hwindow : buf.len ≤ max) :
    Slice.Grown buf h (appendTail room buf data max h) := by
  have hg : Slice.Grown buf h (buf.append room data h) := hbuf.grown
  rcases appendTail_cases room buf data max h with ⟨-, heq⟩ | ⟨-, hlen, heq⟩ | ⟨-, -, heq⟩
  · rw [heq]
    exact ⟨Slice.valid_nil, Nat.le_refl _, fun hcap => absurd hcap (Nat.lt_irrefl 0),
      fun _ _ _ => rfl⟩
  · rw [heq]
    exact shift_grown hg.valid hlen hg hwindow
  · rw [heq]
    exact hg

/-- Over slices it computes what it computes over their bytes. -/
theorem read_appendTail (hbuf : buf.Valid h) :
    (appendTail room buf data max h).1.read (appendTail room buf data max h).2 =
      Model.appendTail (buf.read h) data max := by
  rw [appendTail_eq]
  rcases appendTail_cases room buf data max h with ⟨rfl, heq⟩ | ⟨-, hlen, heq⟩ | ⟨-, hlen, heq⟩
  · rw [heq, lastN_zero]
    exact List.take_zero
  · rw [heq, shift_read hbuf.append, hbuf.read_append]
  · rw [heq, hbuf.read_append, lastN_of_length_le]
    rw [Slice.len_append] at hlen
    rwa [List.length_append, hbuf.length_read]

theorem len_appendTail (hbuf : buf.Valid h) : (appendTail room buf data max h).1.len ≤ max := by
  rcases appendTail_cases room buf data max h with ⟨rfl, heq⟩ | ⟨-, hlen, heq⟩ | ⟨-, hlen, heq⟩
  · rw [heq]
  · rw [heq, shift_eq hbuf.append hlen]
    exact Nat.le_refl max
  · rw [heq]
    exact hlen

/-- The chunk is appended in place and makes the window shift. -/
def Shifts (max : ℕ) (buf : Slice) (n : ℕ) : Prop := 0 < max ∧ buf.Fits n ∧ max < buf.len + n

instance (max : ℕ) (buf : Slice) (n : ℕ) : Decidable (Shifts max buf n) :=
  inferInstanceAs (Decidable (_ ∧ _ ∧ _))

/-- What an earlier state of the buffer reads after the append: only a shift in place changes it. -/
theorem held_read_appendTail (hbuf : buf.Valid h) (hcap : 0 < buf.cap) (hwindow : buf.len ≤ max)
    (harr : buf.arr = t.arr) (hoff : buf.off = t.off) (ht : t.len ≤ buf.len) :
    t.read (appendTail room buf data max h).2 =
      if Shifts max buf data.length then (lastN max (buf.read h ++ data)).take t.len
      else t.read h := by
  have hk : buf.arr < h.length := hbuf.arr_lt hcap
  rcases appendTail_cases room buf data max h with ⟨rfl, heq⟩ | ⟨hmax, hlen, heq⟩ | ⟨-, hlen, heq⟩
  · rw [heq, if_neg fun hshifts => Nat.lt_irrefl 0 hshifts.1]
  · have hr : (buf.append room data h).1.Valid (buf.append room data h).2 := hbuf.append
    rw [heq]
    by_cases hfits : buf.Fits data.length
    · have hsame : (buf.append room data h).1 = buf.upTo (buf.len + data.length) := by
        rw [Slice.append_fits hfits]
      have hshifts : Shifts max buf data.length := by
        rw [Slice.len_append] at hlen
        exact ⟨hmax, hfits, hlen⟩
      rw [if_pos hshifts, read_shifted hr hlen ?_ ?_ (ht.trans hwindow), hbuf.read_append]
      · rw [hsame]
        exact harr.symm
      · rw [hsame]
        exact hoff.symm
    · have hne : (buf.append room data h).1.arr ≠ t.arr := by
        rw [Slice.append_moves hfits, ← harr]
        exact hk.ne'
      rw [if_neg fun hshifts => hfits hshifts.2.1]
      refine Slice.read_congr ?_
      rw [shift_eq hr hlen, Heap.array_write_ne hne, ← harr, Slice.array_append_moves hk hfits]
  · rw [Slice.len_append] at hlen
    rw [heq, if_neg fun hshifts => Nat.not_lt.mpr hlen hshifts.2.2]
    refine Slice.read_congr ?_
    rw [← harr]
    exact hbuf.take_append hk (by omega)

end AppendTail

/-! ### What a step does -/

section Steps
variable {x509 : X509} {room : ℕ → ℕ → ℕ} {s : Shared} {t : Slice} {op : Op} {d : DataEvent}

theorem step_store : (s.step x509 room op).store = s.store.step x509 op := by
  cases op with
  | applyData d =>
    change (s.applyData room d).store = s.store.applyData d
    unfold applyData Store.applyData
    split_ifs <;> rfl
  | updateFlows v flows => rfl
  | applyWire now w => rfl
  | applyClose v e => rfl
  | updateSSLStats stats => rfl

theorem run_store (ops : List Op) : (s.run x509 room ops).store = s.store.run x509 ops :=
  (List.foldl_hom Shared.store fun _ _ => step_store.symm).symm

theorem slot_of_get {a : UInt64} {smp : Tails} (h : s.samples[a]? = some smp) (out : Bool) :
    s.slot (a, out) = smp.side out := by
  change (s.samples[a]?.getD {}).side out = smp.side out
  rw [h]
  rfl

theorem slot_of_none {i : UInt64 × Bool} (h : s.samples[i.1]? = none) : s.slot i = {} := by
  unfold slot
  rw [h]
  cases i.2 <;> rfl

/-- The buffer that a chunk is for. -/
def target (d : DataEvent) : UInt64 × Bool := (d.ssl, d.dir = 1)

/-- What `appendTail` makes of that buffer, and of the heap. -/
def recorded (room : ℕ → ℕ → ℕ) (s : Shared) (d : DataEvent) : Slice × Heap UInt8 :=
  appendTail room (s.slot (target d)) d.data s.store.peekBytes s.heap

theorem slot_applyData (hd : d.data ≠ []) :
    (s.applyData room d).slot = Function.update s.slot (target d) (s.recorded room d).1 := by
  funext ⟨a, out⟩
  have hsamples : (s.applyData room d).samples = s.samples.insert d.ssl
      ((s.samples[d.ssl]?.getD {}).withSide (d.dir = 1) (s.recorded room d).1) := by
    unfold applyData
    rw [if_neg hd]
    rfl
  unfold slot
  dsimp only
  rw [hsamples, Table.get_insert]
  by_cases ha : d.ssl = a
  · rw [if_pos ha, Option.getD_some, Tails.side_withSide]
    by_cases hout : out = decide (d.dir = 1)
    · rw [if_pos hout, hout, ← ha]
      change _ = Function.update s.slot (target d) _ (target d)
      rw [Function.update_self]
    · rw [if_neg hout, Function.update_of_ne, ha]
      exact fun heq => hout (congrArg Prod.snd heq)
  · rw [if_neg ha, Function.update_of_ne]
    exact fun heq => ha (congrArg Prod.fst heq).symm

/-- The tails of a connection are what they were, or those of a sample. -/
def Joined (s : Shared) (fields : ℕ → Tails) : Prop :=
  ∀ o, fields o = s.fields o ∨ ∃ a : UInt64, s.samples[a]? = some (fields o)

theorem Joined.join {fields : ℕ → Tails} (h : s.Joined fields) (a : UInt64) (c : Conn) :
    s.Joined (join s.samples a c fields) := by
  intro o
  unfold Shared.join
  cases hsmp : s.samples[a]? with
  | none => exact h o
  | some smp =>
    dsimp only
    by_cases ho : o = c.obj
    · rw [ho, Function.update_self]
      exact .inr ⟨a, hsmp⟩
    · rw [Function.update_of_ne ho]
      exact h o

theorem joined_applyClose (v : View) (e : CloseEvent) : s.Joined (s.applyClose v e).fields := by
  have hself : s.Joined s.fields := fun _ => .inl rfl
  unfold applyClose
  dsimp only
  split
  · exact hself
  · exact hself.join e.ssl _

theorem joined_updateSSLStats (stats : List (SSLStat × View)) :
    s.Joined (s.updateSSLStats stats).fields := by
  unfold updateSSLStats
  refine foldl_invariant (I := fun r : Store × (ℕ → Tails) => s.Joined r.2) (p := fun _ => True)
    (fun r p _ hr => ?_) (fun _ _ => trivial) fun _ => .inl rfl
  unfold credit
  dsimp only
  split
  · exact hr
  · exact hr.join p.1.ssl _

/-- A step that writes no array: some samples may go, and their tails may be joined. -/
structure Quiet (s s' : Shared) : Prop where
  heap : s'.heap = s.heap
  slot : ∀ i, s'.slot i = s.slot i ∨ s'.slot i = {}
  fields : s.Joined s'.fields

/-- A step is quiet or records a chunk. -/
theorem step_cases (x509 : X509) (room : ℕ → ℕ → ℕ) (s : Shared) (op : Op) :
    (s.Quiet (s.step x509 room op) ∧ ∀ d, op = .applyData d → d.data = []) ∨
    ∃ d, op = .applyData d ∧ d.data ≠ [] ∧ (s.step x509 room op).heap = (s.recorded room d).2 ∧
      (s.step x509 room op).slot = Function.update s.slot (target d) (s.recorded room d).1 ∧
      (s.step x509 room op).fields = s.fields := by
  have hself : s.Joined s.fields := fun _ => .inl rfl
  cases op with
  | applyData d =>
    change (s.Quiet (s.applyData room d) ∧ _) ∨ _
    by_cases hd : d.data = []
    · have hsame : s.applyData room d = s := if_pos hd
      rw [hsame]
      exact .inl ⟨⟨rfl, fun _ => .inl rfl, hself⟩, fun d' hd' => by
        cases hd'
        exact hd⟩
    · refine .inr ⟨d, rfl, hd, ?_, slot_applyData hd, ?_⟩
      · change (s.applyData room d).heap = _
        unfold applyData
        rw [if_neg hd]
        rfl
      · change (s.applyData room d).fields = _
        unfold applyData
        rw [if_neg hd]
  | updateFlows v flows => exact .inl ⟨⟨rfl, fun _ => .inl rfl, hself⟩, fun _ h => nomatch h⟩
  | applyWire now w => exact .inl ⟨⟨rfl, fun _ => .inl rfl, hself⟩, fun _ h => nomatch h⟩
  | applyClose v e =>
    refine .inl ⟨⟨rfl, fun i => ?_, joined_applyClose v e⟩, fun _ h => nomatch h⟩
    by_cases hi : e.ssl = i.1
    · refine .inr (slot_of_none ?_)
      exact Table.get_erase .. |>.trans (if_pos hi)
    · refine .inl ?_
      change ((s.samples.erase e.ssl)[i.1]?.getD {}).side i.2 = _
      rw [Table.get_erase, if_neg hi]
      rfl
  | updateSSLStats stats =>
    refine .inl ⟨⟨rfl, fun i => ?_, joined_updateSSLStats stats⟩, fun _ h => nomatch h⟩
    have hget := Table.get_filter s.samples i.1 fun ssl => stats.any fun p => p.1.ssl == ssl
    by_cases hi : (stats.any fun p => p.1.ssl == i.1) = true
    · refine .inl ?_
      change ((s.samples.filter fun ssl _ => stats.any fun p => p.1.ssl == ssl)[i.1]?.getD {}).side
        i.2 = _
      rw [hget, if_pos hi]
      rfl
    · exact .inr (slot_of_none (hget.trans (if_neg hi)))

end Steps

end Shared
end Tlstat.Model
