import Mathlib.Algebra.GroupWithZero.Nat
import Mathlib.Algebra.Order.BigOperators.Group.List
import Mathlib.Algebra.Order.Group.Nat
import Tlstat.Model.Socket
import Tlstat.System.Provenance

/-! How much the store holds. A buffer stops growing once it is past its cap, and a head is one
chunk, so that what a connection holds depends on no more than the caps and `peekBytes`. -/

namespace Tlstat.Model
open Base Loader Tlsparse

/-- The chunks of the operation hold no more than `n` bytes. -/
def Op.Short (n : ℕ) : Op → Prop
  | .applyWire _ w => w.data.length ≤ n
  | .applyData d => d.data.length ≤ n
  | _ => True

/-! ### The reassembly buffers -/

namespace Conn
variable {c : Conn} {n : ℕ}

/-- No buffer is longer than one that was below its cap when the last chunk came. -/
structure Capped (n : ℕ) (c : Conn) : Prop where
  out : c.wireOut.length < maxWireBuf + n
  inn : c.wireIn.length < maxWireBuf + n

theorem length_grow_lt {buf data : Bytes} (hbuf : buf.length < maxWireBuf + n)
    (hdata : data.length ≤ n) : (grow buf data).length < maxWireBuf + n := by
  unfold grow
  split_ifs with hlt
  · rw [List.length_append]
    omega
  · exact hbuf

theorem Capped.applyWire (h : c.Capped n) (x509 : X509) {w : WireEvent} (hw : w.data.length ≤ n) :
    (c.applyWire x509 w).Capped n := by
  have hout := length_grow_lt h.out hw
  have hin := length_grow_lt h.inn hw
  unfold Conn.applyWire
  dsimp only
  by_cases hdir : w.dir = 2
  · simp only [if_pos hdir]
    split_ifs <;> exact ⟨h.out, hin⟩
  · simp only [if_neg hdir]
    split_ifs <;> exact ⟨hout, h.inn⟩

theorem Capped.reconcileAll (h : c.Capped n) (now : Time) (fs : List Flow) :
    (Store.reconcileAll now fs c).Capped n :=
  foldl_invariant (p := fun _ => True) (fun _ _ _ hc => ⟨hc.out, hc.inn⟩) (fun _ _ => trivial) h

end Conn

/-- A live connection is within the caps and a retired one holds no buffer. -/
structure Socket.Capped (n : ℕ) (s : Socket) : Prop where
  live : ∀ c, s.live = some c → c.Capped n
  past : ∀ c ∈ s.past, c.wireOut = [] ∧ c.wireIn = []

def Sight.Short (n : ℕ) : Sight → Prop
  | .wire _ w => w.data.length ≤ n
  | .poll _ _ _ => True

theorem Socket.Capped.opened {n : ℕ} {s : Socket} (h : s.Capped n) (k : UInt64) (now : Time) :
    (s.opened k now).Capped n := by
  unfold Socket.opened
  cases hlive : s.live with
  | none => exact ⟨Nat.add_pos_left (by decide) n, Nat.add_pos_left (by decide) n⟩
  | some c => exact h.live c hlive

theorem Socket.Capped.step {n : ℕ} {s : Socket} (h : s.Capped n) (x509 : X509) (k : UInt64)
    {t : Sight} (ht : t.Short n) : (s.step x509 k t).Capped n := by
  cases t with
  | wire now w =>
    refine ⟨fun c hc => ?_, h.past⟩
    obtain rfl := Option.some.inj hc
    exact (h.opened k now).applyWire x509 ht
  | poll now retireNow flows =>
    cases flows with
    | cons f fs =>
      refine ⟨fun c hc => ?_, h.past⟩
      obtain rfl := Option.some.inj hc
      exact (h.opened k now).reconcileAll now (f :: fs)
    | nil =>
      refine ⟨fun c hc => h.live c (Option.filter_eq_some_iff.mp hc).1, fun c hc => ?_⟩
      rcases List.mem_append.mp hc with hc | hc
      · exact h.past c hc
      · obtain ⟨d, -, rfl⟩ := Option.map_eq_some_iff.mp (Option.mem_toList.mp hc)
        exact ⟨rfl, rfl⟩

/-! ### The samples -/

/-- The bounds of a sample: a head is one chunk, a tail the last `p` bytes. -/
structure Sample.Within (n p : ℕ) (smp : Sample) : Prop where
  headOut : smp.headOut.length ≤ n
  headIn : smp.headIn.length ≤ n
  tailOut : smp.tailOut.length ≤ p
  tailIn : smp.tailIn.length ≤ p

theorem length_headOf_le {n : ℕ} {bs : List Bytes} (h : ∀ b ∈ bs, b.length ≤ n) :
    (headOf bs).length ≤ n := by
  unfold headOf
  cases hfind : bs.find? (· ≠ []) with
  | none => exact Nat.zero_le n
  | some b => exact h b (List.mem_of_find?_eq_some hfind)

theorem length_tailOf_le (p : ℕ) (bs : List Bytes) : (tailOf p bs).length ≤ p := by
  unfold tailOf
  rw [length_lastN]
  exact Nat.min_le_left _ _

theorem within_sampleOf {n : ℕ} (p : ℕ) {ds : List DataEvent} (h : ∀ d ∈ ds, d.data.length ≤ n) :
    (sampleOf p ds).Within n p := by
  have hchunks : ∀ out, ∀ b ∈ plainChunks out ds, b.length ≤ n := by
    intro out b hb
    obtain ⟨d, hd, rfl⟩ := List.mem_map.mp hb
    exact h d (List.mem_filter.mp hd).1
  exact ⟨length_headOf_le (hchunks true), length_headOf_le (hchunks false), length_tailOf_le p _,
    length_tailOf_le p _⟩

/-- The bytes a connection holds. -/
def Conn.held (c : Conn) : ℕ := c.wireOut.length + c.wireIn.length + c.plain.headOut.length +
  c.plain.tailOut.length + c.plain.headIn.length + c.plain.tailIn.length

namespace Store
variable {x509 : X509} {n : ℕ} {ops : List Op}

theorem capped_run (x509 : X509) (maxHistory peekBytes : ℤ) (hops : ∀ op ∈ ops, op.Short n)
    (k : UInt64) : (((new maxHistory peekBytes).run x509 ops).socket k).Capped n := by
  rw [socket_run, socket_new]
  refine foldl_invariant (p := Sight.Short n) (fun s t ht h => h.step x509 k ht) ?_ ?_
  · intro t ht
    obtain ⟨op, hop, hsight⟩ := List.mem_filterMap.mp ht
    cases op with
    | updateFlows v flows =>
      obtain rfl := Option.some.inj hsight
      exact trivial
    | applyWire now w =>
      unfold sight at hsight
      dsimp only at hsight
      split_ifs at hsight
      obtain rfl := Option.some.inj hsight
      exact hops _ hop
    | applyData d | applyClose v e | updateSSLStats stats => cases hsight
  · refine ⟨fun c hc => ?_, fun c hc => ?_⟩ <;> cases hc

theorem within_madeOf {p : ℕ} (hops : ∀ op ∈ ops, op.Short n) {a : UInt64} {seg : List Op}
    (h : Piece [] a ops seg) : (madeOf p a seg).Within n p := by
  obtain ⟨before, after, hplace, -⟩ := h.place
  refine within_sampleOf p fun d hd => ?_
  obtain ⟨op, hop, hdata⟩ := List.mem_filterMap.mp hd
  have hmem : op ∈ ops := hplace ▸ List.mem_append_left _ (List.mem_append_right _ hop)
  cases op with
  | applyData d' =>
    unfold Op.dataFor at hdata
    dsimp only at hdata
    split_ifs at hdata
    obtain rfl := Option.some.inj hdata
    exact hops _ hmem
  | updateFlows v flows | applyWire now w | applyClose v e | updateSSLStats stats => cases hdata

theorem within_sample (x509 : X509) (maxHistory peekBytes : ℤ) (hops : ∀ op ∈ ops, op.Short n) {a : UInt64}
    {smp : Sample} (hsmp : ((new maxHistory peekBytes).run x509 ops).plainBySSL[a]? = some smp) :
    smp.Within n peekBytes.toNat := by
  obtain ⟨seg, hseg⟩ := unbroken_run x509 maxHistory peekBytes ops a
  have hmade := hseg.getD
  rw [hsmp, Option.getD_some] at hmade
  rw [hmade]
  exact within_madeOf hops hseg.piece

theorem within_row (x509 : X509) (maxHistory peekBytes : ℤ) (hops : ∀ op ∈ ops, op.Short n) {c : Conn}
    (hc : ((new maxHistory peekBytes).run x509 ops).Holds c) : c.plain.Within n peekBytes.toNat := by
  have hstore : ((Shared.new maxHistory peekBytes).run x509 (fun _ _ => 0) ops).store =
      (new maxHistory peekBytes).run x509 ops := Shared.run_store ops
  rcases Shared.from_one_run x509 _ maxHistory peekBytes ops (hstore ▸ hc) with
    ⟨hnone, -⟩ | ⟨a, seg, hpiece, hplain, -⟩
  · rw [hnone]
    constructor <;> exact Nat.zero_le _
  · rw [hplain]
    exact within_madeOf hops hpiece

/-- What the store may hold: `n` bounds the chunks it is given, `p` a tail, `m` the history. -/
structure Bounded (n p m : ℕ) (s : Store) : Prop where
  live : ∀ (k : UInt64) c, s.conns[k]? = some c → c.held < 2 * (maxWireBuf + n) + 2 * n + 2 * p
  samples : ∀ (a : UInt64) smp, s.plainBySSL[a]? = some smp → smp.Within n p
  history : (s.history.map Conn.held).sum ≤ m * (2 * n + 2 * p)

section Held
variable (x509 : X509) (maxHistory peekBytes : ℤ)

theorem held_live_lt (hops : ∀ op ∈ ops, op.Short n) {k : UInt64} {c : Conn}
    (hc : ((new maxHistory peekBytes).run x509 ops).conns[k]? = some c) :
    c.held < 2 * (maxWireBuf + n) + 2 * n + 2 * peekBytes.toNat := by
  have hcapped := (capped_run x509 maxHistory peekBytes hops k).live c.core (socket_live hc)
  have hplain := within_row x509 maxHistory peekBytes hops (holds_of_live hc)
  have hout : c.wireOut.length < maxWireBuf + n := hcapped.out
  have hin : c.wireIn.length < maxWireBuf + n := hcapped.inn
  obtain ⟨hheadOut, hheadIn, htailOut, htailIn⟩ := hplain
  unfold Conn.held
  omega

/-- A retired connection has no buffers left. -/
theorem held_log_le (hops : ∀ op ∈ ops, op.Short n) {c : Conn}
    (hc : c ∈ ((new maxHistory peekBytes).run x509 ops).log) :
    c.held ≤ 2 * n + 2 * peekBytes.toNat := by
  have hempty := (capped_run x509 maxHistory peekBytes hops c.sock).past c.core (mem_socket_past hc)
  have hplain := within_row x509 maxHistory peekBytes hops (.inr hc)
  have hout : c.wireOut.length = 0 := congrArg List.length hempty.1
  have hin : c.wireIn.length = 0 := congrArg List.length hempty.2
  obtain ⟨hheadOut, hheadIn, htailOut, htailIn⟩ := hplain
  unfold Conn.held
  omega

theorem bounded_run (hops : ∀ op ∈ ops, op.Short n) :
    ((new maxHistory peekBytes).run x509 ops).Bounded n peekBytes.toNat maxHistory.toNat := by
  obtain ⟨hmax, hhistory⟩ := ring_run x509 maxHistory peekBytes ops
  refine ⟨fun k c hc => held_live_lt x509 maxHistory peekBytes hops hc,
    fun a smp hsmp => within_sample x509 maxHistory peekBytes hops hsmp, ?_⟩
  have hlen : ((new maxHistory peekBytes).run x509 ops).history.length ≤ maxHistory.toNat := by
    rw [hhistory, List.length_drop]
    omega
  have hsum := List.sum_le_card_nsmul (((new maxHistory peekBytes).run x509 ops).history.map
    Conn.held) (2 * n + 2 * peekBytes.toNat) fun b hb => by
      obtain ⟨c, hc, rfl⟩ := List.mem_map.mp hb
      rw [hhistory] at hc
      exact held_log_le x509 maxHistory peekBytes hops (List.mem_of_mem_drop hc)
  rw [List.length_map, Nat.nsmul_eq_mul] at hsum
  exact hsum.trans (Nat.mul_le_mul_right _ hlen)

end Held

end Store
end Tlstat.Model

namespace Tlstat.System
open Base Loader Model Tlsparse

theorem short_of_fits {op : Op} {e : Bpf.Event} (he : e.Fits) (hop : eventOf op = some e.decoded) :
    op.Short Bpf.dataCap := by
  cases op with
  | updateFlows v flows | updateSSLStats stats | applyClose v c => exact trivial
  | applyWire now w =>
    cases e with
    | data d | close c => cases hop
    | wire e =>
      obtain rfl := Loader.Event.wire.inj (Option.some.inj hop)
      exact (List.length_take_le _ _).trans he
  | applyData d =>
    cases e with
    | wire e | close c => cases hop
    | data e =>
      obtain rfl := Loader.Event.data.inj (Option.some.inj hop)
      exact (List.length_take_le _ _).trans he

/-- **What is held is bounded.** At every point of every run of the whole program, however much
traffic there was, a live connection holds less than two capped buffers with a capture more, two
heads and two tails, a cached sample its two heads and two tails, and all of the history together no
more than `maxHistory` connections' heads and tails. -/
theorem footprint_bounded (x509 : X509) (maxHistory peekBytes : ℤ) (moves : List Move) :
    (run x509 (init maxHistory peekBytes) moves).store.Bounded Bpf.dataCap peekBytes.toNat
      maxHistory.toNat := by
  have hfed := fed_calls x509 maxHistory peekBytes moves
  rw [hfed.store]
  refine Store.bounded_run x509 maxHistory peekBytes fun op hop => ?_
  cases hevent : eventOf op with
  | none =>
    cases op with
    | updateFlows v flows | updateSSLStats stats => exact trivial
    | applyWire now w | applyData d | applyClose v e => cases hevent
  | some ev =>
    have hmem : ev ∈ (calls x509 (init maxHistory peekBytes) moves).filterMap eventOf :=
      List.mem_filterMap.mpr ⟨op, hop, hevent⟩
    rw [hfed.events] at hmem
    obtain ⟨e, he, rfl⟩ := List.mem_map.mp hmem
    exact short_of_fits (hfed.fits e (List.mem_of_mem_take he)) hevent

end Tlstat.System
