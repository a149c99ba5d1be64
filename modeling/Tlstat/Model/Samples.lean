import Tlstat.Base.Window
import Tlstat.Model.Conservation

/-! The plaintext kept for a session: the first chunk of each direction, and a rolling window on
the end of all of them. -/

namespace Tlstat.Model
open Base Loader Tlsparse

/-- The data event of the session at `a` in an operation. -/
def Op.dataFor (a : UInt64) : Op → Option DataEvent
  | .applyData d => if d.ssl = a then some d else none
  | _ => none

/-- The operation drops the sample of the session at `a`. -/
def Op.Evicts (a : UInt64) : Op → Prop
  | .applyClose _ e => e.ssl = a
  | .updateSSLStats stats => ∀ p ∈ stats, p.1.ssl ≠ a
  | _ => False

/-- The chunks of one direction, empty ones included. -/
def plainChunks (out : Bool) (ds : List DataEvent) : List Bytes :=
  (ds.filter fun d => decide (d.dir = 1) == out).map DataEvent.data

/-- The first chunk that is not empty. -/
def headOf (bs : List Bytes) : Bytes := (bs.find? (· ≠ [])).getD []

/-- The last bytes of all chunks together. -/
def tailOf (peekBytes : ℕ) (bs : List Bytes) : Bytes := lastN peekBytes bs.flatten

/-- The sample that the chunks of a session ask for. -/
def sampleOf (peekBytes : ℕ) (ds : List DataEvent) : Sample where
  headOut := headOf (plainChunks true ds)
  tailOut := tailOf peekBytes (plainChunks true ds)
  headIn := headOf (plainChunks false ds)
  tailIn := tailOf peekBytes (plainChunks false ds)

/-! ### One chunk -/

section Chunk
variable {peekBytes : ℕ} {ds : List DataEvent} {d : DataEvent} {bs : List Bytes} {b : Bytes}

theorem appendTail_eq (buf data : Bytes) (max : ℕ) :
    appendTail buf data max = lastN max (buf ++ data) := by
  unfold appendTail
  dsimp only
  split_ifs with hzero hlen
  · rw [hzero, lastN_zero]
  · rw [lastN_eq_drop]
  · exact (lastN_of_length_le (Nat.le_of_not_lt hlen)).symm

theorem tailOf_concat :
    tailOf peekBytes (bs ++ [b]) = appendTail (tailOf peekBytes bs) b peekBytes := by
  unfold tailOf
  rw [appendTail_eq, lastN_lastN_append, List.flatten_append, List.flatten_singleton]

theorem headOf_concat : headOf (bs ++ [b]) = if headOf bs = [] then b else headOf bs := by
  unfold headOf
  rw [List.find?_append]
  cases hfind : bs.find? (· ≠ []) with
  | none => by_cases hb : b = [] <;> simp [hb]
  | some b' =>
    have hb' : b' ≠ [] := by simpa using List.find?_some hfind
    simp [hb']

theorem plainChunks_concat (out : Bool) : plainChunks out (ds ++ [d]) =
    if decide (d.dir = 1) = out then plainChunks out ds ++ [d.data] else plainChunks out ds := by
  unfold plainChunks
  rw [List.filter_append, List.map_append]
  by_cases hout : decide (d.dir = 1) = out <;> simp [hout]

/-- A chunk is recorded in its own direction; the other one stays. -/
theorem sampleOf_concat :
    sampleOf peekBytes (ds ++ [d]) = (sampleOf peekBytes ds).record peekBytes d := by
  unfold sampleOf Sample.record
  by_cases hdir : d.dir = 1
  · simp only [plainChunks_concat, hdir, decide_true, if_true, Bool.true_eq_false, if_false,
      headOf_concat, tailOf_concat]
  · simp only [plainChunks_concat, hdir, decide_false, if_true, Bool.false_eq_true, if_false,
      headOf_concat, tailOf_concat]

theorem sampleOf_concat_nil (hd : d.data = []) :
    sampleOf peekBytes (ds ++ [d]) = sampleOf peekBytes ds := by
  have hhead : ∀ bs : List Bytes, headOf (bs ++ [[]]) = headOf bs := by
    intro bs
    rw [headOf_concat]
    split_ifs with h
    · exact h.symm
    · rfl
  have htail : ∀ bs : List Bytes, tailOf peekBytes (bs ++ [[]]) = tailOf peekBytes bs := by
    intro bs
    unfold tailOf
    rw [List.flatten_append, List.flatten_singleton, List.append_nil]
  unfold sampleOf
  by_cases hdir : d.dir = 1
  · simp only [plainChunks_concat, hdir, hd, decide_true, if_true, Bool.true_eq_false, if_false,
      hhead, htail]
  · simp only [plainChunks_concat, hdir, hd, decide_false, if_true, Bool.false_eq_true, if_false, hhead,
      htail]

theorem sampleOf_of_empty (h : ∀ d ∈ ds, d.data = []) : sampleOf peekBytes ds = {} := by
  induction ds using List.reverseRecOn with
  | nil => simp [sampleOf, plainChunks, headOf, tailOf]
  | append_singleton ds d ih =>
    rw [sampleOf_concat_nil (h d (by simp))]
    exact ih fun d' hd' => h d' (List.mem_append_left _ hd')

end Chunk

/-! ### A run -/

namespace Store
variable {s : Store} {x509 : X509} {a : UInt64} {op : Op} {n : ℕ}

theorem preserved_peekBytes (n : ℕ) : Preserved fun s => s.peekBytes = n where
  touch := by
    intro s k now hs
    unfold touch
    split_ifs <;> exact hs
  modify := fun _ _ _ _ hs => hs
  mapConns := fun _ _ _ hs => hs
  retire := by
    intro s k now _ hs
    unfold retire
    split <;> exact hs
  caches := fun _ _ _ hs => hs

/-- The sample that the chunks `ds` ask for, once there is a byte in them. -/
def Keeping (a : UInt64) (n : ℕ) (ds : List DataEvent) (s : Store) : Prop :=
  s.plainBySSL[a]? = if ∀ d ∈ ds, d.data = [] then none else some (sampleOf n ds)

theorem Keeping.applyData {ds : List DataEvent} {d : DataEvent} (hn : s.peekBytes = n)
    (h : s.Keeping a n ds) (hd : d.ssl = a) : (s.applyData d).Keeping a n (ds ++ [d]) := by
  have hget := applyData_sample (s := s) (d := d) (a := a)
  unfold Keeping at h ⊢
  have hall : (∀ d' ∈ ds ++ [d], d'.data = []) ↔ (∀ d' ∈ ds, d'.data = []) ∧ d.data = [] := by
    rw [List.forall_mem_append, List.forall_mem_singleton]
  rw [hget, hn]
  by_cases hdata : d.data = []
  · rw [if_neg (by simp [hdata]), h, sampleOf_concat_nil hdata]
    refine if_congr ?_ rfl rfl
    rw [hall, and_iff_left hdata]
  · rw [if_pos ⟨hd, hdata⟩, if_neg (by simp [hdata]), sampleOf_concat, h]
    split_ifs with hempty
    · rw [sampleOf_of_empty hempty]
      rfl
    · rfl

theorem Keeping.step {ds : List DataEvent} (hn : s.peekBytes = n) (h : s.Keeping a n ds)
    (hop : ¬op.Evicts a) : (s.step x509 op).Keeping a n (ds ++ (op.dataFor a).toList) := by
  have hsame : op.dataFor a = none → (s.step x509 op).plainBySSL[a]? = s.plainBySSL[a]? →
      (s.step x509 op).Keeping a n (ds ++ (op.dataFor a).toList) := by
    intro hnone hget
    rw [hnone, Option.toList_none, List.append_nil]
    exact hget.trans h
  cases op with
  | updateFlows v flows => exact hsame rfl (congrArg (·[a]?) updateFlows_plainBySSL)
  | applyWire now w => exact hsame rfl (congrArg (·[a]?) applyWire_plainBySSL)
  | applyData d =>
    by_cases hd : d.ssl = a
    · have hfor : (Op.applyData d).dataFor a = some d := if_pos hd
      rw [hfor]
      exact h.applyData hn hd
    · refine hsame (if_neg hd) (applyData_sample.trans (if_neg ?_))
      rintro ⟨hd', -⟩
      exact hd hd'
  | applyClose v e => exact hsame rfl (applyClose_sample.trans (if_neg hop))
  | updateSSLStats stats =>
    refine hsame rfl ((updateSSLStats_sample stats).trans (if_pos ?_))
    simpa [Op.Evicts] using hop

theorem Keeping.run {ds : List DataEvent} {ops : List Op} (hn : s.peekBytes = n)
    (h : s.Keeping a n ds) (hops : ∀ op ∈ ops, ¬op.Evicts a) :
    (s.run x509 ops).Keeping a n (ds ++ ops.filterMap (Op.dataFor a)) := by
  induction ops generalizing s ds with
  | nil =>
    rw [List.filterMap_nil, List.append_nil]
    exact h
  | cons op ops ih =>
    have hfirst : (s.step x509 op).Keeping a n (ds ++ (op.dataFor a).toList) :=
      h.step hn (hops op List.mem_cons_self)
    have hrest := ih ((preserved_peekBytes n).step op hn) hfirst
      fun op' hop' => hops op' (List.mem_cons_of_mem op hop')
    have hds : ds ++ (op :: ops).filterMap (Op.dataFor a) =
        ds ++ (op.dataFor a).toList ++ ops.filterMap (Op.dataFor a) := by
      rw [List.filterMap_cons, List.append_assoc]
      cases op.dataFor a <;> rfl
    rw [hds]
    exact hrest

/-- **As long as nothing evicts a session, its sample holds the first non-empty chunk of each
direction and the last `peekBytes` bytes of all chunks of it**, and there is one as soon as a chunk
holds a byte. -/
theorem sample_of_chunks (x509 : X509) (maxHistory : ℤ) (peekBytes : ℕ) {ops : List Op} {a : UInt64}
    (hops : ∀ op ∈ ops, ¬op.Evicts a) :
    ((new maxHistory peekBytes).run x509 ops).plainBySSL[a]? =
      if ∀ d ∈ ops.filterMap (Op.dataFor a), d.data = [] then none
      else some (sampleOf peekBytes (ops.filterMap (Op.dataFor a))) := by
  have hnew : (new maxHistory peekBytes).Keeping a peekBytes [] := by
    unfold Keeping
    rw [if_pos (by simp)]
    exact Table.get_empty _
  have hrun : ((new maxHistory peekBytes).run x509 ops).Keeping a peekBytes
      ([] ++ ops.filterMap (Op.dataFor a)) := hnew.run (Int.toNat_natCast peekBytes) hops
  exact hrun

def chunkAt (ssl : UInt64) (dir : UInt8) (data : Bytes) : Op :=
  .applyData { dir, pid := 7, tid := 7, fd := 5, ssl, data }

/-- Chunks shorter than the window, across another session, and one that fills it. -/
theorem three_chunks : ((new 500 4).run (fun _ => none)
    [chunkAt 16 1 [], chunkAt 16 1 [1, 2], chunkAt 32 1 [9], chunkAt 16 2 [7], chunkAt 16 1 [3, 4, 5]]
    ).plainBySSL[(16 : UInt64)]? =
      some { headOut := [1, 2], tailOut := [2, 3, 4, 5], headIn := [7], tailIn := [7] } :=
  (sample_of_chunks _ 500 4 (by simp [chunkAt, Op.Evicts])).trans (by decide)

end Store
end Tlstat.Model
