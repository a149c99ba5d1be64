import Tlstat.Model.Chunking
import Tlstat.System.Ring

/-! From the transfers of one direction of a socket to its reassembly buffer. -/

namespace Tlstat
namespace Bpf
open Base Loader

/-! ### Reading user memory -/

/-- The first `n` bytes of a list of segments. -/
def Env.gather (env : Env) : List (UInt64 × UInt64) → ℕ → Option Bytes
  | [], _ => some []
  | (base, len) :: rest, n => do
    let a ← env.readUser base (min n len.toNat)
    let b ← env.gather rest (n - len.toNat)
    return a ++ b

/-- The iterator describes memory that holds `bs`. Nothing is said about the kinds whose memory
is not user memory. -/
def IovIter.Holds (env : Env) (bs : Bytes) : IovIter → Prop
  | .ubuf base => env.readUser base bs.length = some bs
  | .iovec first rest => env.gather (first :: rest) bs.length = some bs
  | .other => True

/-- How much of `n` bytes lies in the first buffer of the iterator. -/
def IovIter.firstLen (n : ℕ) : IovIter → ℕ
  | .ubuf _ => n
  | .iovec first _ => min n first.2.toNat
  | .other => 0

theorem IovIter.readUser_base {env : Env} {iter : IovIter} {bs : Bytes} {m : ℕ}
    (h : iter.Holds env bs) (hm : m ≤ iter.firstLen bs.length) (hbase : iterBase iter ≠ 0) :
    env.readUser (iterBase iter) m = some (bs.take m) := by
  cases iter with
  | ubuf base => exact (Env.readUser_take h).2 m hm
  | iovec first rest =>
    obtain ⟨base, len⟩ := first
    simp only [Holds, Env.gather, bind, pure] at h
    obtain ⟨a, ha, hrest⟩ := Option.bind_eq_some_iff.mp h
    obtain ⟨b, -, hab⟩ := Option.bind_eq_some_iff.mp hrest
    obtain ⟨hlen, htake⟩ := Env.readUser_take ha
    change env.readUser base m = _
    change m ≤ min bs.length len.toNat at hm
    rw [htake m hm, ← Option.some.inj hab, List.take_append_of_le_length (by omega)]
  | other => exact absurd rfl hbase

/-! ### Transfers -/

/-- One `tcp_sendmsg`, or one `tcp_recvmsg` with its return, that moves `bytes`. The ring has
room and the map takes new keys. -/
structure Transfer where
  env : Env
  iter : IovIter
  bytes : Bytes
  ne_nil : bytes ≠ []
  lt : bytes.length < 2 ^ 31
  insert : env.insert = true
  reserve : env.reserve = true
  holds : iter.Holds env bytes

namespace Transfer

def hits (dir : Dir) (sk : UInt64) (t : Transfer) : List (Env × Hit) :=
  match dir with
  | .out => [(t.env, .tcpSendmsg sk t.iter t.bytes.length.toUInt64)]
  | .inward =>
    [(t.env, .tcpRecvmsg sk t.iter), (t.env, .tcpRecvmsgRet (Int32.ofNat t.bytes.length))]

/-- The test the first chunk of a direction has to pass. -/
def arms (t : Transfer) : Bool :=
  iterBase t.iter ≠ 0 && 5 ≤ t.bytes.length &&
    match t.env.readUser (iterBase t.iter) 5 with
    | none => false
    | some hdr => looksLikeTls hdr

/-- The part of a transfer that fits an event. -/
def chunk (t : Transfer) : Bytes := t.bytes.take (wireCap - 1)

/-- The part that fits an event lies in the first buffer of the iterator. -/
def Flat (t : Transfer) : Prop :=
  iterBase t.iter ≠ 0 ∧ t.chunk.length ≤ t.iter.firstLen t.bytes.length

instance (t : Transfer) : Decidable t.Flat := inferInstanceAs (Decidable (_ ∧ _))

/-- The transfers from the first captured one on. -/
def armed (ts : List Transfer) : List Transfer := ts.dropWhile fun t => !t.arms

/-- The transfers that are captured, if all of them are flat. -/
def captured (ts : List Transfer) : List Transfer := (armed ts).take maxWireEvents.toNat

/-- Nothing that is captured is cut, except perhaps the last of it. -/
structure Uncut (ts : List Transfer) : Prop where
  flat : ∀ t ∈ captured ts, t.Flat
  short : ∀ t ∈ (captured ts).dropLast, t.bytes.length ≤ wireCap - 1

theorem length_chunk (t : Transfer) : t.chunk.length = min t.bytes.length 1023 := by
  unfold chunk
  rw [List.length_take, Nat.min_comm]
  rfl

theorem chunk_ne_nil (t : Transfer) : t.chunk ≠ [] := by
  have hpos := List.length_pos_iff.mpr t.ne_nil
  refine List.ne_nil_of_length_pos ?_
  rw [length_chunk]
  omega

theorem chunk_isPrefix (t : Transfer) : t.chunk <+: t.bytes := List.take_prefix _ _

theorem readUser_chunk {t : Transfer} (h : t.Flat) :
    t.env.readUser (iterBase t.iter) (clamp t.bytes.length.toUInt64).toNat = some t.chunk := by
  have hclamp := clamp_eq (t.lt.trans (by decide))
  rw [hclamp, ← length_chunk, IovIter.readUser_base t.holds h.2 h.1]
  exact congrArg some (List.prefix_iff_eq_take.mp t.chunk_isPrefix).symm

theorem length_flatMap_chunk (ts : List Transfer) :
    (ts.flatMap chunk).length ≤ ts.length * 1023 := by
  induction ts with
  | nil => exact Nat.zero_le _
  | cons t ts ih =>
    have ht : t.chunk.length ≤ 1023 := by
      rw [length_chunk]
      exact Nat.min_le_right _ _
    rw [List.flatMap_cons, List.length_append, List.length_cons]
    omega

theorem flatMap_chunk_isPrefix {ts : List Transfer}
    (h : ∀ t ∈ ts.dropLast, t.bytes.length ≤ wireCap - 1) :
    ts.flatMap chunk <+: ts.flatMap bytes := by
  induction ts with
  | nil => exact List.prefix_rfl
  | cons t ts ih =>
    cases ts with
    | nil =>
      rw [List.flatMap_singleton, List.flatMap_singleton]
      exact t.chunk_isPrefix
    | cons t' ts =>
      rw [List.dropLast_cons_of_ne_nil (List.cons_ne_nil _ _)] at h
      have hwhole : t.chunk = t.bytes := List.take_of_length_le (h t List.mem_cons_self)
      have hrest := ih fun u hu => h u (List.mem_cons_of_mem _ hu)
      change t.chunk ++ (t' :: ts).flatMap chunk <+: t.bytes ++ (t' :: ts).flatMap bytes
      rw [hwhole]
      exact (List.prefix_append_right_inj _).mpr hrest

end Transfer

/-! ### Capture -/

namespace Kernel
variable {k : Kernel} {sk : UInt64} {dir : Dir} {t : Transfer} {ts : List Transfer}

def captures (dir : Dir) (sk : UInt64) (k : Kernel) : ℕ :=
  match k.flows[sk]? with
  | none => 0
  | some f => (wireCount dir f).toNat

/-- The gate of `capture_wire` for a transfer in a direction with `n` events. -/
def admits (n : ℕ) (t : Transfer) : Bool :=
  if n = 0 then t.arms else n < maxWireEvents.toNat

theorem flowGet_captures {env : Env} (h : env.insert = true) (dir : Dir) (sk : UInt64) (k : Kernel) :
    ∃ f, k.flowGet env sk = some f ∧ (wireCount dir f).toNat = captures dir sk k := by
  have hident : ∀ f, wireCount dir (identify env sk f) = wireCount dir f := by
    intro f
    unfold identify readTuple
    cases dir <;> dsimp only <;> split_ifs <;> rfl
  unfold flowGet captures
  cases k.flows[sk]? with
  | some f => exact ⟨_, rfl, congrArg UInt8.toNat (hident f)⟩
  | none =>
    rw [h]
    refine ⟨_, rfl, (congrArg UInt8.toNat (hident {})).trans ?_⟩
    cases dir <;> rfl

theorem length_toUInt64 (t : Transfer) : t.bytes.length.toUInt64.toNat = t.bytes.length := by
  have h := t.lt
  rw [Nat.toUInt64_eq, UInt64.toNat_ofNat']
  omega

/-- `arm` in terms of the transfer. -/
theorem arm_isSome {f : Flow} (hbase : iterBase t.iter ≠ 0 ∨ wireCount dir f = 0) :
    (arm t.env f (iterBase t.iter) t.bytes.length.toUInt64 dir).isSome =
      admits (wireCount dir f).toNat t := by
  have hpos := List.length_pos_iff.mpr t.ne_nil
  have hn := length_toUInt64 t
  have h1 : ¬t.bytes.length.toUInt64 < 1 := by
    rw [UInt64.lt_iff_toNat_lt, hn]
    exact Nat.not_lt.mpr hpos
  have h5 : t.bytes.length.toUInt64 < 5 ↔ ¬5 ≤ t.bytes.length := by
    rw [UInt64.lt_iff_toNat_lt, hn, Nat.not_le]
    rfl
  have hzero : wireCount dir f = 0 ↔ (wireCount dir f).toNat = 0 := UInt8.toNat_inj.symm
  have hfull : wireCount dir f ≥ maxWireEvents ↔ ¬(wireCount dir f).toNat < maxWireEvents.toNat := by
    rw [Nat.not_lt]
    exact UInt8.le_iff_toNat_le
  unfold arm admits Transfer.arms
  by_cases hb : iterBase t.iter = 0
  · have h0 := hzero.mp (hbase.resolve_left fun h => h hb)
    simp [hb, h0]
  · by_cases h0 : (wireCount dir f).toNat = 0
    · have hlt : ¬wireCount dir f ≥ maxWireEvents := by
        rw [hfull, h0]
        decide
      rw [if_neg (by simp [hb, h1]), if_neg hlt, if_pos (hzero.mpr h0), if_pos h0]
      by_cases hlen : 5 ≤ t.bytes.length
      · rw [if_neg (by simpa [h5] using hlen)]
        cases t.env.readUser (iterBase t.iter) 5 with
        | none => simp
        | some hdr => cases hl : looksLikeTls hdr <;> simp [hb, hlen, hl]
      · rw [if_pos (h5.mpr hlen)]
        simp [hlen]
    · rw [if_neg (by simp [hb, h1]), if_neg h0, if_neg fun h => h0 (hzero.mp h)]
      by_cases hlt : (wireCount dir f).toNat < maxWireEvents.toNat
      · rw [if_neg fun h => hfull.mp h hlt]
        simp [hlt]
      · rw [if_pos (hfull.mpr hlt)]
        simp [hlt]

/-- What the captured part of a transfer becomes in user space. -/
def wireOf (dir : Dir) (sk : UInt64) (t : Transfer) : Loader.Event :=
  .wire { dir := dir.code, sock := sk, data := t.chunk }

theorem captureWire_flat {f : Flow} (hflat : t.Flat)
    (ha : admits (wireCount dir f).toNat t = true) :
    ∃ e, (captureWire t.env sk f (iterBase t.iter) t.bytes.length.toUInt64 dir).2 = some e ∧
      (Event.wire e).decoded = wireOf dir sk t := by
  rw [← arm_isSome (.inl hflat.1)] at ha
  obtain ⟨f', hf'⟩ := Option.isSome_iff_exists.mp ha
  have hlen : t.chunk.length = (clamp t.bytes.length.toUInt64).toNat := by
    rw [clamp_eq (t.lt.trans (by decide)), Transfer.length_chunk]
  have hcap : t.chunk.length ≤ wireCap := hlen ▸ (clamp_le _).trans (by decide)
  unfold captureWire
  rw [hf']
  dsimp only
  rw [t.reserve, Transfer.readUser_chunk hflat]
  refine ⟨_, rfl, ?_⟩
  have hdata := t.env.overlay_take hcap
  rw [hlen, ← clamp_toUInt16] at hdata
  exact congrArg (fun d => Loader.Event.wire ⟨dir.code, sk, d⟩) hdata

theorem captureWire_of_not_admits {f : Flow} (ha : admits (wireCount dir f).toNat t = false) :
    (captureWire t.env sk f (iterBase t.iter) t.bytes.length.toUInt64 dir).2 = none := by
  have harm : arm t.env f (iterBase t.iter) t.bytes.length.toUInt64 dir = none := by
    by_cases hbase : iterBase t.iter = 0
    · exact if_pos (by simp [hbase])
    · rw [← arm_isSome (.inl hbase)] at ha
      exact Option.isNone_iff_eq_none.mp (Option.not_isSome _ ▸ by simp [ha])
  unfold captureWire
  rw [harm]

theorem run_hits (hsk : sk ≠ 0) (dir : Dir) (t : Transfer) (k : Kernel) :
    ∃ (k₀ : Kernel) (count : Flow → Flow), k₀.flows = k.flows ∧ k₀.events = k.events ∧
      (∀ f, wireCount dir (count f) = wireCount dir f) ∧
      k.run (t.hits dir sk) =
        k₀.transfer t.env sk count (iterBase t.iter) t.bytes.length.toUInt64 dir := by
  cases dir with
  | out =>
    exact ⟨k, fun f => { f with tx := f.tx + t.bytes.length.toUInt64 }, rfl, rfl, fun _ => rfl, rfl⟩
  | inward =>
    have hpos := List.length_pos_iff.mpr t.ne_nil
    have hwide : widen (Int32.ofNat t.bytes.length) = t.bytes.length.toUInt64 := by
      have h64 : (Int32.ofNat t.bytes.length).toInt64 = Int64.ofNat t.bytes.length := by
        apply Int64.toInt_inj.mp
        rw [Int32.toInt_toInt64, Int32.toInt_ofNat_of_lt t.lt,
          Int64.toInt_ofNat_of_lt (t.lt.trans (by decide))]
      unfold widen
      rw [h64]
      rfl
    have hret : Int32.ofNat t.bytes.length > 0 := by
      apply Int32.lt_iff_toInt_lt.mpr
      rw [Int32.toInt_ofNat_of_lt t.lt]
      exact Int.natCast_pos.mpr hpos
    have hctx : (k.kTcpRecvmsg t.env sk t.iter).recvCtxs[t.env.pidTgid]? =
        some ⟨sk, iterBase t.iter⟩ := by
      change (t.env.update k.recvCtxs t.env.pidTgid _)[t.env.pidTgid]? = _
      rw [update_get, if_pos ⟨rfl, by simp [t.insert]⟩]
    let k₁ := k.kTcpRecvmsg t.env sk t.iter
    refine ⟨{ k₁ with recvCtxs := k₁.recvCtxs.erase t.env.pidTgid },
      fun f => { f with rx := f.rx + t.bytes.length.toUInt64 }, rfl, rfl, fun _ => rfl, ?_⟩
    change k₁.krTcpRecvmsg t.env (Int32.ofNat t.bytes.length) = _
    rw [krTcpRecvmsg_of_slot _ hctx hsk, if_pos hret, hwide]

/-- The ring between two kernels: what was submitted, as user space will see it. -/
def Logs (k k' : Kernel) (ws : List Loader.Event) : Prop :=
  ∃ es : List Event, k'.events = k.events ++ es ∧ (∀ e ∈ es, e.Fits) ∧ es.map Event.decoded = ws

theorem Logs.trans {k' k'' : Kernel} {ws ws' : List Loader.Event} (h : Logs k k' ws)
    (h' : Logs k' k'' ws') : Logs k k'' (ws ++ ws') := by
  obtain ⟨es, he, hfit, rfl⟩ := h
  obtain ⟨es', he', hfit', rfl⟩ := h'
  refine ⟨es ++ es', by rw [he', he, List.append_assoc], ?_, List.map_append⟩
  intro e hmem
  rcases List.mem_append.mp hmem with hmem | hmem
  · exact hfit e hmem
  · exact hfit' e hmem

theorem run_hits_logs (hsk : sk ≠ 0) (hflat : admits (captures dir sk k) t = true → t.Flat) :
    Logs k (k.run (t.hits dir sk)) (if admits (captures dir sk k) t then [wireOf dir sk t] else []) ∧
    captures dir sk (k.run (t.hits dir sk)) =
      captures dir sk k + if admits (captures dir sk k) t then 1 else 0 := by
  obtain ⟨k₀, count, hflows, hevents, hcount, hrun⟩ := run_hits hsk dir t k
  have hcaptures : captures dir sk k₀ = captures dir sk k := by
    unfold captures
    rw [hflows]
  obtain ⟨f, hf, hfc⟩ := flowGet_captures t.insert dir sk k₀
  have hn : (wireCount dir (count f)).toNat = captures dir sk k := by
    rw [hcount, hfc, hcaptures]
  let r := captureWire t.env sk (count f) (iterBase t.iter) t.bytes.length.toUInt64 dir
  have hget : (k.run (t.hits dir sk)).flows[sk]? = some r.1 := by
    rw [hrun, transfer_get, if_pos rfl, hf]
    rfl
  have hevs : (k.run (t.hits dir sk)).events = k.events ++ (r.2.map Event.wire).toList := by
    rw [hrun, transfer_events, hf, hevents]
    rfl
  have hnew : captures dir sk (k.run (t.hits dir sk)) =
      captures dir sk k + r.2.toList.length := by
    have hr := captureWire_count t.env sk (count f) (iterBase t.iter) t.bytes.length.toUInt64 dir dir
    rw [if_pos rfl, hn] at hr
    rw [← hr]
    unfold captures
    rw [hget]
  cases ha : admits (captures dir sk k) t with
  | true =>
    obtain ⟨e, hr, hdec⟩ : ∃ e, r.2 = some e ∧ (Event.wire e).decoded = wireOf dir sk t :=
      captureWire_flat (hflat ha) (hn.symm ▸ ha)
    rw [hr] at hevs hnew
    refine ⟨⟨[.wire e], hevs, ?_, congrArg (fun w => [w]) hdec⟩, hnew⟩
    intro x hx
    obtain rfl := List.mem_singleton.mp hx
    exact captureWire_fits hr
  | false =>
    have hr : r.2 = none := captureWire_of_not_admits (hn.symm ▸ ha)
    rw [hr] at hevs hnew
    exact ⟨⟨[], hevs, by simp, rfl⟩, hnew⟩

theorem run_flatMap_cons (dir : Dir) (sk : UInt64) (t : Transfer) (ts : List Transfer) (k : Kernel) :
    k.run ((t :: ts).flatMap (Transfer.hits dir sk)) =
      (k.run (t.hits dir sk)).run (ts.flatMap (Transfer.hits dir sk)) := by
  rw [List.flatMap_cons]
  exact List.foldl_append

theorem run_armed (ts : List Transfer) (hsk : sk ≠ 0) (hpos : captures dir sk k ≠ 0)
    (hflat : ∀ t ∈ ts.take (maxWireEvents.toNat - captures dir sk k), t.Flat) :
    Logs k (k.run (ts.flatMap (Transfer.hits dir sk)))
      ((ts.take (maxWireEvents.toNat - captures dir sk k)).map (wireOf dir sk)) := by
  induction ts generalizing k with
  | nil => exact ⟨[], (List.append_nil _).symm, by simp, by simp⟩
  | cons t ts ih =>
    have hadm : admits (captures dir sk k) t = decide (captures dir sk k < maxWireEvents.toNat) :=
      if_neg hpos
    rw [run_flatMap_cons]
    by_cases hlt : captures dir sk k < maxWireEvents.toNat
    · -- one more event, and the room for the rest shrinks by one
      have hroom : maxWireEvents.toNat - captures dir sk k =
          maxWireEvents.toNat - (captures dir sk k + 1) + 1 := by omega
      rw [hroom, List.take_succ_cons] at hflat ⊢
      have ha : admits (captures dir sk k) t = true := by simp [hadm, hlt]
      obtain ⟨hlog, hcount⟩ := run_hits_logs hsk fun _ => hflat t List.mem_cons_self
      rw [if_pos ha] at hlog hcount
      have hrest := ih (k := k.run (t.hits dir sk)) (by omega) (by
        rw [hcount]
        exact fun t' ht' => hflat t' (List.mem_cons_of_mem _ ht'))
      rw [hcount] at hrest
      exact hlog.trans hrest
    · have hroom : maxWireEvents.toNat - captures dir sk k = 0 := by omega
      have ha : ¬admits (captures dir sk k) t = true := by simp [hadm, hlt]
      obtain ⟨hlog, hcount⟩ := run_hits_logs hsk fun h => absurd h ha
      rw [if_neg ha] at hlog hcount
      have hrest := ih (k := k.run (t.hits dir sk)) (by omega) (by
        rw [hcount, Nat.add_zero, hroom]
        simp)
      rw [hcount, Nat.add_zero, hroom] at hrest
      rw [hroom]
      exact hlog.trans hrest

/-- The events of a sequence of transfers in a direction that was not captured before. -/
theorem run_unarmed (hsk : sk ≠ 0) (hzero : captures dir sk k = 0)
    (hflat : ∀ t ∈ Transfer.captured ts, t.Flat) :
    Logs k (k.run (ts.flatMap (Transfer.hits dir sk)))
      ((Transfer.captured ts).map (wireOf dir sk)) := by
  induction ts generalizing k with
  | nil => exact ⟨[], (List.append_nil _).symm, by simp, rfl⟩
  | cons t ts ih =>
    have hadm : admits (captures dir sk k) t = t.arms := if_pos hzero
    rw [run_flatMap_cons]
    unfold Transfer.captured Transfer.armed at hflat ⊢
    cases ha : t.arms with
    | true =>
      have hsplit : (t :: ts).dropWhile (fun t => !t.arms) = t :: ts :=
        List.dropWhile_cons_of_neg (by simp [ha])
      rw [hsplit] at hflat ⊢
      obtain ⟨hlog, hcount⟩ := run_hits_logs hsk fun _ => hflat t List.mem_cons_self
      rw [if_pos (hadm.trans ha)] at hlog hcount
      have hroom : maxWireEvents.toNat - captures dir sk (k.run (t.hits dir sk)) = 15 := by
        rw [hcount, hzero]
        rfl
      have hrest := run_armed ts hsk (k := k.run (t.hits dir sk)) (by rw [hcount]; omega) (by
        rw [hroom]
        exact fun t' ht' => hflat t' (List.mem_cons_of_mem _ ht'))
      rw [hroom] at hrest
      exact hlog.trans hrest
    | false =>
      have hsplit : (t :: ts).dropWhile (fun t => !t.arms) = ts.dropWhile (fun t => !t.arms) :=
        List.dropWhile_cons_of_pos (by simp [ha])
      rw [hsplit] at hflat ⊢
      have hna : ¬admits (captures dir sk k) t = true := by simp [hadm, ha]
      obtain ⟨hlog, hcount⟩ := run_hits_logs hsk fun h => absurd h hna
      rw [if_neg hna] at hlog hcount
      exact hlog.trans (ih (by omega) hflat)

end Kernel
end Bpf

/-! ### Delivery -/

namespace Model.Store
open Tlsparse

/-- The reassembly buffer of a direction of a socket, empty while the socket has no connection. -/
def wireBuf (d : Bool) (sk : UInt64) (s : Store) : Bytes :=
  match s.conns[sk]? with
  | none => []
  | some c => c.buf d

theorem applyWire_wireBuf (x509 : X509) (s : Store) (now : Time) {w : Loader.WireEvent}
    (hdata : w.data ≠ [])
    (hlen : (s.wireBuf (inbound w) w.sock ++ w.data).length ≤ maxWireBuf) :
    (s.applyWire x509 now w).wireBuf (inbound w) w.sock =
      s.wireBuf (inbound w) w.sock ++ w.data := by
  unfold wireBuf at hlen ⊢
  rw [applyWire_get x509 now hdata, if_pos rfl]
  dsimp only
  rw [Conn.applyWire_buf, if_pos rfl]
  cases hc : s.conns[w.sock]? with
  | none =>
    rw [hc] at hlen
    have hfresh : ((none : Option Conn).getD (s.fresh w.sock now)).buf (inbound w) = [] := by
      cases h : inbound w <;> rfl
    rw [hfresh]
    exact Conn.grow_eq hdata hlen
  | some c =>
    rw [hc] at hlen
    exact Conn.grow_eq hdata hlen

end Model.Store

namespace System
open Base Loader Model Tlsparse Bpf
variable {dir : Dir} {sk : UInt64} {s : State}

def inBuf (dir : Dir) : Bool := dir = .inward

theorem inbound_code (dir : Dir) (sk : UInt64) (data : Bytes) :
    inbound ⟨dir.code, sk, data⟩ = inBuf dir := by
  cases dir <;> rfl

theorem deliver_wireBuf (x509 : X509) (ts : List Transfer) (es : List (View × Bpf.Event)) (s : Store)
    (hfit : ∀ e ∈ es, e.2.Fits)
    (hes : es.map (fun e => e.2.decoded) = ts.map (Kernel.wireOf dir sk))
    (hlen : (s.wireBuf (inBuf dir) sk ++ ts.flatMap Transfer.chunk).length ≤ maxWireBuf) :
    (es.foldl (deliver x509) s).wireBuf (inBuf dir) sk =
      s.wireBuf (inBuf dir) sk ++ ts.flatMap Transfer.chunk := by
  induction es generalizing s ts with
  | nil =>
    obtain rfl : ts = [] := List.map_eq_nil_iff.mp hes.symm
    exact (List.append_nil _).symm
  | cons e es ih =>
    obtain ⟨t, ts, rfl⟩ := List.exists_cons_of_ne_nil (l := ts) (by rintro rfl; cases hes)
    obtain ⟨hhead, htail⟩ := List.cons.inj hes
    change e.2.decoded = Kernel.wireOf dir sk t at hhead
    rw [List.flatMap_cons, ← List.append_assoc] at hlen ⊢
    have hstep : (deliver x509 s e).wireBuf (inBuf dir) sk = s.wireBuf (inBuf dir) sk ++ t.chunk := by
      rw [deliver_eq x509 s e.1 (hfit e List.mem_cons_self), hhead, ← inbound_code dir sk t.chunk]
      refine Store.applyWire_wireBuf x509 s e.1.now t.chunk_ne_nil ?_
      rw [inbound_code]
      exact (List.prefix_append _ _).length_le.trans hlen
    rw [← hstep] at hlen ⊢
    exact ih ts _ (fun e' he' => hfit e' (List.mem_cons_of_mem _ he')) htail hlen

def Move.asHit : Move → Option (Env × Hit)
  | .hit env h => some (env, h)
  | _ => none

/-- Only the probes and the reader move. -/
def Unpolled (moves : List Move) : Prop :=
  ∀ m ∈ moves, (∃ v, m = .read v) ∨ ∃ env h, m = .hit env h

theorem concat_isPrefix {α : Type} {l l' : List α} {a : α} (h : l <+: l')
    (ha : l'[l.length]? = some a) : l ++ [a] <+: l' := by
  obtain ⟨r, rfl⟩ := h
  rw [List.getElem?_append_right (Nat.le_refl _), Nat.sub_self] at ha
  cases r with
  | nil => cases ha
  | cons b r =>
    obtain rfl := Option.some.inj ha
    exact ⟨r, by simp⟩

/-- The reader delivers what the probes submitted, in order and up to some point. -/
theorem run_unpolled (x509 : X509) {moves : List Move} (hmoves : Unpolled moves)
    (hread : s.read = s.kernel.events.length) :
    (run x509 s moves).kernel = s.kernel.run (moves.filterMap Move.asHit) ∧
    ∃ es : List (View × Bpf.Event),
      (run x509 s moves).store = es.foldl (deliver x509) s.store ∧
      (run x509 s moves).read = (s.kernel.events ++ es.map Prod.snd).length ∧
      s.kernel.events ++ es.map Prod.snd <+: (run x509 s moves).kernel.events := by
  induction moves using List.reverseRecOn with
  | nil => exact ⟨rfl, [], rfl, by simpa [run] using hread, by simp [run]⟩
  | append_singleton moves m ih =>
    obtain ⟨hk, es, hstore, hr, hpre⟩ := ih fun m' hm' => hmoves m' (List.mem_append_left _ hm')
    have hrun : run x509 s (moves ++ [m]) = step x509 (run x509 s moves) m := List.foldl_append
    rw [hrun, List.filterMap_append]
    rcases hmoves m (List.mem_append_right _ List.mem_cons_self) with ⟨v, rfl⟩ | ⟨env, h, rfl⟩
    · have hkeep : moves.filterMap Move.asHit ++ [Move.read v].filterMap Move.asHit =
          moves.filterMap Move.asHit := List.append_nil _
      rw [hkeep]
      unfold step
      dsimp only
      cases he : (run x509 s moves).kernel.events[(run x509 s moves).read]? with
      | none => exact ⟨hk, es, hstore, hr, hpre⟩
      | some e =>
        have hnext := concat_isPrefix hpre (hr ▸ he)
        refine ⟨hk, es ++ [(v, e)], ?_, ?_, ?_⟩
        · rw [List.foldl_append, ← hstore]
          rfl
        · simp [hr]
          omega
        · rw [List.map_append, ← List.append_assoc]
          exact hnext
    · refine ⟨?_, es, hstore, hr, hpre.trans (Kernel.events_isPrefix_step _ _)⟩
      change (run x509 s moves).kernel.step (env, h) = s.kernel.run (_ ++ [(env, h)])
      rw [hk]
      unfold Kernel.run
      rw [List.foldl_append, List.foldl_cons, List.foldl_nil]

/-- What the buffer holds at any time, cut or not: the chunks of the captured transfers whose
events were read. -/
theorem wireBuf_run (x509 : X509) (dir : Dir) {sk : UInt64} (hsk : sk ≠ 0)
    (hzero : s.kernel.captures dir sk = 0) (hbuf : s.store.wireBuf (inBuf dir) sk = [])
    (hread : s.read = s.kernel.events.length) (ts : List Transfer) {moves : List Move} (hmoves : Unpolled moves)
    (hhits : moves.filterMap Move.asHit <+: ts.flatMap (Transfer.hits dir sk))
    (hflat : ∀ t ∈ Transfer.captured ts, t.Flat) :
    (run x509 s moves).store.wireBuf (inBuf dir) sk =
      ((Transfer.captured ts).take ((run x509 s moves).read - s.read)).flatMap Transfer.chunk := by
  obtain ⟨hk, es, hstore, hnow, hpre⟩ := run_unpolled x509 hmoves hread
  obtain ⟨es', hevents, hfit, hdec⟩ := Kernel.run_unarmed hsk hzero hflat
  -- what was delivered is the beginning of what all the transfers submit
  have hsub : es.map Prod.snd <+: es' := by
    obtain ⟨rest, hrest⟩ := hhits
    have hall : s.kernel.run (ts.flatMap (Transfer.hits dir sk)) =
        (run x509 s moves).kernel.run rest := by
      rw [hk, ← hrest]
      exact List.foldl_append
    have h := hpre.trans (Kernel.events_isPrefix_run (run x509 s moves).kernel rest)
    rw [← hall, hevents] at h
    exact (List.prefix_append_right_inj _).mp h
  have hcount : (run x509 s moves).read - s.read = es.length := by
    rw [hnow, hread, List.length_append, List.length_map, Nat.add_sub_cancel_left]
  let done := (Transfer.captured ts).take es.length
  have hdone : es.map (fun e => e.2.decoded) = done.map (Kernel.wireOf dir sk) := by
    have h := List.prefix_iff_eq_take.mp (hsub.map Event.decoded)
    rw [hdec, List.map_map, List.length_map, ← List.map_take] at h
    exact h
  have hlen : ([] ++ done.flatMap Transfer.chunk).length ≤ maxWireBuf := by
    have hle : done.length ≤ 16 := (List.length_take_le' _ _).trans (List.length_take_le _ _)
    have h := Transfer.length_flatMap_chunk done
    have hmax : maxWireBuf = 16384 := rfl
    rw [List.nil_append]
    omega
  rw [hcount, hstore, deliver_wireBuf x509 done es s.store
    (fun e he => hfit e.2 (hsub.subset (List.mem_map_of_mem he))) hdone (hbuf.symm ▸ hlen), hbuf,
    List.nil_append]

/-- **Reassembly is sound where nothing is cut.** Along any run of transfers of one direction of
a socket and of the ring reader, the reassembly buffer of that direction is a prefix of the bytes
that were transferred from the first captured transfer on, provided that no captured transfer
other than the last outgrows its event and that each lies in the first buffer of its iterator. -/
theorem reassembled_isPrefix (x509 : X509) (dir : Dir) {sk : UInt64} (hsk : sk ≠ 0)
    (hzero : s.kernel.captures dir sk = 0) (hbuf : s.store.wireBuf (inBuf dir) sk = [])
    (hread : s.read = s.kernel.events.length) (ts : List Transfer) {moves : List Move}
    (hmoves : Unpolled moves)
    (hhits : moves.filterMap Move.asHit <+: ts.flatMap (Transfer.hits dir sk))
    (hcut : Transfer.Uncut ts) :
    (run x509 s moves).store.wireBuf (inBuf dir) sk <+:
      (Transfer.armed ts).flatMap Transfer.bytes := by
  rw [wireBuf_run x509 dir hsk hzero hbuf hread ts hmoves hhits hcut.flat]
  calc ((Transfer.captured ts).take ((run x509 s moves).read - s.read)).flatMap Transfer.chunk
      <+: (Transfer.captured ts).flatMap Transfer.chunk := (List.take_prefix _ _).flatMap _
    _ <+: (Transfer.captured ts).flatMap Transfer.bytes :=
      Transfer.flatMap_chunk_isPrefix hcut.short
    _ <+: (Transfer.armed ts).flatMap Transfer.bytes := (List.take_prefix _ _).flatMap _

def readAtOnce (dir : Dir) (sk : UInt64) (ts : List Transfer) : List Move :=
  ts.flatMap fun t => (t.hits dir sk).map (fun a => .hit a.1 a.2) ++ [.read (View.blind 0)]

theorem unpolled_readAtOnce (dir : Dir) (sk : UInt64) (ts : List Transfer) :
    Unpolled (readAtOnce dir sk ts) := by
  intro m hm
  obtain ⟨t, -, hm⟩ := List.mem_flatMap.mp hm
  rcases List.mem_append.mp hm with hm | hm
  · obtain ⟨a, -, rfl⟩ := List.mem_map.mp hm
    exact .inr ⟨a.1, a.2, rfl⟩
  · exact .inl ⟨_, List.mem_singleton.mp hm⟩

theorem readAtOnce_hits (dir : Dir) (sk : UInt64) (ts : List Transfer) :
    (readAtOnce dir sk ts).filterMap Move.asHit <+: ts.flatMap (Transfer.hits dir sk) := by
  have heq : (readAtOnce dir sk ts).filterMap Move.asHit = ts.flatMap (Transfer.hits dir sk) := by
    induction ts with
    | nil => rfl
    | cons t ts ih =>
      have hone : ((t.hits dir sk).map (fun a => Move.hit a.1 a.2) ++
          [Move.read (View.blind 0)]).filterMap Move.asHit = t.hits dir sk := by
        cases dir <;> rfl
      unfold readAtOnce at ih ⊢
      rw [List.flatMap_cons, List.filterMap_append, hone, ih, List.flatMap_cons]
  rw [heq]

/-- A thread whose memory holds `mem` from address 1 on. -/
def holding (mem : ℕ → UInt8) : Env :=
  { Env.thread 1 with user := fun p => some (mem (p.toNat - 1)) }

theorem readUser_holding (mem : ℕ → UInt8) {n : ℕ} (h : n < 2 ^ 31) :
    (holding mem).readUser 1 n = some ((List.range n).map mem) := by
  induction n with
  | zero => rfl
  | succ n ih =>
    have hp : (1 + n.toUInt64).toNat - 1 = n := by
      rw [UInt64.toNat_add, Nat.toUInt64_eq, UInt64.toNat_ofNat']
      change (1 + n % 2 ^ 64) % 2 ^ 64 - 1 = n
      omega
    have hu : (holding mem).user (1 + n.toUInt64) = some (mem n) :=
      congrArg (fun i => some (mem i)) hp
    rw [Env.readUser_succ, ih (by omega), hu, List.range_succ, List.map_append]
    rfl

def plainTransfer (mem : ℕ → UInt8) (n : ℕ) (hpos : 0 < n) (hlt : n < 2 ^ 31) : Transfer where
  env := holding mem
  iter := .ubuf 1
  bytes := (List.range n).map mem
  ne_nil := List.ne_nil_of_length_pos (by simpa using hpos)
  lt := by simpa using hlt
  insert := rfl
  reserve := rfl
  holds := by
    change (holding mem).readUser 1 _ = _
    rw [List.length_map, List.length_range]
    exact readUser_holding mem hlt

/-- A record header, the body it announces, and a record of 1024 bytes. -/
def header : Transfer := plainTransfer (fun i => [22, 3, 1, 0, 2].getD i 0) 5 (by decide) (by decide)
def body : Transfer := plainTransfer (fun i => [1, 9].getD i 0) 2 (by decide) (by decide)
def longRecord : Transfer :=
  plainTransfer (fun i => if i < 1023 then [22, 3, 1, 3, 251].getD i 0 else 7) 1024 (by decide)
    (by decide)

theorem header_body_isPrefix :
    (run (fun _ => none) (init 500 8192) (readAtOnce .inward 9 [header, body])).store.wireBuf true 9 <+:
      [22, 3, 1, 0, 2, 1, 9] :=
  reassembled_isPrefix (fun _ => none) .inward (by decide) (by decide +kernel)
    (by decide +kernel) rfl [header, body] (unpolled_readAtOnce _ _ _) (readAtOnce_hits _ _ _)
    ⟨by decide +kernel, by decide +kernel⟩

/-- The last byte of the long record is lost, and what follows it is spliced on. -/
theorem long_record_spliced :
    ¬(run (fun _ => none) (init 500 8192) (readAtOnce .out 9 [longRecord, body])).store.wireBuf
        (inBuf .out) 9 <+: (Transfer.armed [longRecord, body]).flatMap Transfer.bytes := by
  have hread : (run (fun _ => none) (init 500 8192) (readAtOnce .out 9 [longRecord, body])).read -
      (init 500 8192).read = 2 := by decide +kernel
  rw [wireBuf_run (fun _ => none) .out (by decide) (by decide +kernel) (by decide +kernel) rfl
    [longRecord, body] (unpolled_readAtOnce _ _ _) (readAtOnce_hits _ _ _) (by decide +kernel), hread]
  decide +kernel

end System
end Tlstat
