import Tlstat.System.Pipeline

/-! What reaches the ring: one hit submits at most one event, every record is read back as it
was written, and a wire event leaves the entry of its socket behind. -/

namespace Tlstat
namespace Bpf

namespace Kernel
variable {k k' : Kernel} {env : Env} {sk buf n : UInt64} {dir : Dir}

/-- What a hit may do to the ring. -/
def Emits (k k' : Kernel) : Prop :=
  ∃ e : Option Event, k'.events = k.events ++ e.toList ∧
    ∀ x, e = some x → x.Fits ∧ ∀ w, x = .wire w → k'.flows[w.sk]? ≠ none

theorem Emits.of_eq (h : k'.events = k.events) : Emits k k' :=
  ⟨none, h.trans (List.append_nil _).symm, fun _ hx => nomatch hx⟩

theorem captureWire_fits {f : Flow} {w : WireEvent}
    (h : (captureWire env sk f buf n dir).2 = some w) : (Event.wire w).Fits := by
  obtain ⟨-, -, hlen, -⟩ := captureWire_snd h
  change w.len.toNat ≤ wireCap
  rw [hlen, clamp_toUInt16]
  exact (clamp_le n).trans (by decide)

theorem emits_transfer (count : Flow → Flow) : Emits k (k.transfer env sk count buf n dir) := by
  refine ⟨_, transfer_events, ?_⟩
  intro x hx
  obtain ⟨w, hw, rfl⟩ := Option.map_eq_some_iff.mp hx
  obtain ⟨f, hf, hcap⟩ := Option.bind_eq_some_iff.mp hw
  refine ⟨captureWire_fits hcap, ?_⟩
  rintro _ ⟨⟩
  rw [(captureWire_snd hcap).1, transfer_get, if_pos rfl, hf]
  exact Option.some_ne_none _

theorem emits_emitPlaintext (ssl : UInt64) : Emits k (k.emitPlaintext env ssl buf n dir) := by
  refine ⟨_, emitPlaintext_events, ?_⟩
  intro x hx
  split_ifs at hx
  obtain ⟨d, hd, rfl⟩ := Option.map_eq_some_iff.mp hx
  obtain ⟨s, -, hcap⟩ := Option.bind_eq_some_iff.mp hd
  refine ⟨?_, fun _ h => nomatch h⟩
  obtain ⟨-, -, -, hlen, -⟩ := captureData_some hcap
  change d.len.toNat ≤ dataCap
  rw [hlen, clamp_toUInt16]
  exact (clamp_le n).trans (by decide)

theorem emits_uSslFree (ssl : UInt64) : Emits k (k.uSslFree env ssl) := by
  refine ⟨_, rfl, ?_⟩
  intro x hx
  obtain ⟨c, -, rfl⟩ := Option.map_eq_some_iff.mp hx
  exact ⟨trivial, fun _ h => nomatch h⟩

theorem emits_step (k : Kernel) (a : Env × Hit) : Emits k (k.step a) := by
  obtain ⟨env, hit⟩ := a
  cases hit with
  | tcpSendmsg sk iter size => exact emits_transfer _
  | tcpRecvmsg sk iter => exact Emits.of_eq rfl
  | tcpRecvmsgRet ret =>
    exact krTcpRecvmsg_cases (P := Emits k) k env ret (.of_eq rfl) (.of_eq rfl)
      fun _ _ _ => emits_transfer (k := { k with recvCtxs := _ }) _
  | inetSockSetState protocol sk oldstate newstate =>
    exact Emits.of_eq (setState_events ..)
  | sslFree ssl => exact emits_uSslFree ssl
  | sslSetFd ssl fd => exact Emits.of_eq rfl
  | sslWrite ssl buf num =>
    exact uSslWrite_cases (P := Emits k) k env ssl buf num (.of_eq rfl) (emits_emitPlaintext ssl)
  | sslRead ssl buf => exact Emits.of_eq rfl
  | sslReadRet ret =>
    exact urSslRead_cases (P := Emits k) k env ret (.of_eq rfl) (.of_eq rfl)
      fun c => emits_emitPlaintext (k := { k with sslCtxs := _ }) c.ssl
  | deleteFlow sk => exact Emits.of_eq rfl

theorem events_isPrefix_step (k : Kernel) (a : Env × Hit) : k.events <+: (k.step a).events := by
  obtain ⟨e, he, -⟩ := emits_step k a
  exact ⟨e.toList, he.symm⟩

/-- What a hit submits. -/
def news (k : Kernel) (a : Env × Hit) : List Event := (k.step a).events.drop k.events.length

theorem events_isPrefix_run (k : Kernel) (hits : List (Env × Hit)) :
    k.events <+: (k.run hits).events := by
  induction hits generalizing k with
  | nil => exact List.prefix_rfl
  | cons a hits ih => exact (events_isPrefix_step k a).trans (ih (k.step a))

end Kernel
end Bpf

namespace System
open Base Model Tlsparse

theorem deliver_eq (x509 : X509) (s : Store) (v : View) {e : Bpf.Event} (he : e.Fits) :
    deliver x509 s (v, e) = receive x509 v s e.decoded := by
  have h := Bpf.readEvent_encode e he []
  rw [List.append_nil] at h
  exact congrArg (receive x509 v s) h

end System
end Tlstat
