import Tlstat.Base.Run
import Tlstat.Tlsparse.Hello
import Tlstat.Tlsparse.Sides

/-! A stream that opens with a hello. Whatever follows the hello, and wherever the capture is cut
behind it, the handshake facts are those the hello states. -/

namespace Tlstat.Tlsparse
open Base

def ClientHello.message (h : ClientHello) : Message := ⟨hsClientHello, h.encode, h.encode_lt⟩
def ServerHello.message (h : ServerHello) : Message := ⟨hsServerHello, h.encode, h.encode_lt⟩

/-! ### The stream -/

theorem messagesLoop_append (ms : List Message) {s rest : Bytes} {p : ℕ} (hp : p ≤ s.length)
    (h : s.drop p = ms.flatMap Message.encode ++ rest) : messagesLoop s p =
      ms.map (fun m => (m.mtype, m.body)) ++
        messagesLoop s (p + (ms.flatMap Message.encode).length) := by
  induction ms generalizing p with
  | nil => rfl
  | cons m ms ih =>
    rw [List.flatMap_cons, List.append_assoc] at h
    have hlen := length_of_drop h hp
    rw [List.length_append] at hlen
    have hnext : s.drop (p + m.encode.length) = ms.flatMap Message.encode ++ rest := by
      rw [← List.drop_drop, h, List.drop_left]
    rw [messagesLoop_message m hp h, ih (by omega) hnext, List.flatMap_cons, List.length_append,
      Nat.add_assoc]
    rfl

/-- `p` is what was captured of a stream that begins with the messages `ms`. The stream consists of
handshake records, in which messages of `quiet` types follow, and of something that is no handshake
record; `p` is cut anywhere behind the records that hold `ms`. -/
inductive Begins (ms : List Message) (quiet : UInt8 → Prop) (p : Bytes) : Prop
  | intro (rest : List Message) (first more : List Record) (tail : Bytes)
      (framed : (first ++ more).flatMap Record.payload = (ms ++ rest).flatMap Message.encode)
      (tail_end : tail.length < 5 ∨ tail.head? ≠ some ctHandshake)
      (rest_quiet : ∀ x ∈ rest, quiet x.mtype)
      (holds : ms.flatMap Message.encode <+: first.flatMap Record.payload)
      (behind : first.flatMap Record.encode <+: p)
      (cut : p <+: (first ++ more).flatMap Record.encode ++ tail)

theorem Begins.handshake_eq {ms : List Message} {quiet : UInt8 → Prop} {p : Bytes}
    (h : Begins ms quiet p) : ∃ later,
      handshake p = ms.map (fun m => (m.mtype, m.body)) ++ later ∧ ∀ x ∈ later, quiet x.1 := by
  obtain ⟨rest, first, more, tail, hframed, htail, hquiet, hholds, hbehind, hcut⟩ := h
  have hfirst : collectHandshake (first.flatMap Record.encode) = first.flatMap Record.payload := by
    have hempty : ([] : Bytes).length < 5 ∨ ([] : Bytes).head? ≠ some ctHandshake := .inl (by decide)
    have h := collectHandshake_records first hempty
    rwa [List.append_nil] at h
  have hpre : ms.flatMap Message.encode <+: collectHandshake p := by
    rw [← hfirst] at hholds
    exact hholds.trans (collectHandshake_isPrefix hbehind)
  obtain ⟨s, hs⟩ := hpre
  have hhead : handshake p = ms.map (fun m => (m.mtype, m.body)) ++
      messagesLoop (collectHandshake p) (0 + (ms.flatMap Message.encode).length) :=
    messagesLoop_append ms (Nat.zero_le _) hs.symm
  refine ⟨_, hhead, ?_⟩
  generalize messagesLoop (collectHandshake p) (0 + (ms.flatMap Message.encode).length) = later at hhead
  -- the last message may be cut short, but its type is there
  have htypes : (handshake p).filterMap (fun x => some x.1) <+:
      ((ms ++ rest).map fun m => (m.mtype, m.body)).filterMap fun x => some x.1 := by
    rw [← messages_records hframed htail]
    exact (messages_truncates hcut).filterMap fun x y hxy => .inr (congrArg some hxy.1)
  rw [hhead, List.map_append, List.filterMap_append, List.filterMap_append,
    List.prefix_append_right_inj] at htypes
  intro x hx
  obtain ⟨y, hy, hxy⟩ := List.mem_filterMap.mp
    (htypes.subset (List.mem_filterMap.mpr ⟨x, hx, rfl⟩))
  obtain ⟨m, hm, rfl⟩ := List.mem_map.mp hy
  rw [← Option.some.inj hxy]
  exact hquiet m hm

/-- `p` is what was captured of a stream whose first message is `m`, and which holds no hello behind
it. -/
def OpensWith (m : Message) (p : Bytes) : Prop :=
  Begins [m] (fun t => t ≠ hsClientHello ∧ t ≠ hsServerHello) p

section Opening
variable {m : Message} {p : Bytes}

theorem OpensWith.handshake_eq (h : OpensWith m p) : ∃ rest, handshake p = (m.mtype, m.body) :: rest ∧
    ∀ x ∈ rest, x.1 ≠ hsClientHello ∧ x.1 ≠ hsServerHello := Begins.handshake_eq h

theorem facts_parseMessage (x509 : X509) {t : UInt8} (h : t ≠ hsClientHello ∧ t ≠ hsServerHello)
    (b : Bytes) (i : Info) : (parseMessage x509 t b i).facts = i.facts := by
  unfold parseMessage
  rw [if_neg h.1, if_neg h.2]
  split_ifs
  · rw [parseCertificate_eq]
    obtain ⟨⟨h₁, h₂, h₃, -⟩, h₄, h₅, h₆, h₇, h₈⟩ := certificateEffect_mem x509 b
    have hneg : (certificateEffect x509 b).negVersion = .keep := by
      rcases h₈ with ⟨-, h₈⟩ | ⟨hput, -⟩
      · exact h₈
      · rw [h₁] at hput
        cases hput
    unfold Info.facts Effect.apply
    dsimp only
    rw [h₁, h₂, h₃, h₄, h₅, h₆, h₇, hneg]
    rfl
  · rfl

/-- A parse of what opens with `m` shows the facts of `m`. -/
theorem OpensWith.facts (h : OpensWith m p) (x509 : X509) (i : Info) :
    (parse x509 p i).facts = (parseMessage x509 m.mtype m.body i).facts := by
  obtain ⟨rest, hmessages, hrest⟩ := h.handshake_eq
  rw [parse_foldl]
  change ((handshake p).foldl _ i).facts = _
  rw [hmessages, List.foldl_cons]
  refine foldl_invariant (I := fun j => Info.facts j = _) (p := fun x => x ∈ rest) (fun j x hx hj => ?_)
    (fun _ hx => hx) rfl
  rw [facts_parseMessage x509 (hrest x hx)]
  exact hj

theorem ClientHello.facts_parse (h : ClientHello) : (parseClientHello h.encode {}).facts =
    ⟨true, false, h.sni.getD [], h.version, h.sigs.getD [], h.version, 0, 0⟩ := by
  obtain ⟨r, hr, hwalk⟩ := h.walk_encode
  obtain ⟨hsni, hsigs, -⟩ := h.items_say
  rw [parseClientHello_walk hr, hwalk, clientFold, foldl_handle_client h.items_nodup, hsni, hsigs]
  rfl

theorem ServerHello.facts_parse (h : ServerHello) (i : Info) : (parseServerHello h.encode i).facts =
    { i.facts with
      hasServerHello := true
      negVersion := h.negotiated
      cipherSuite := h.cipherSuite
      group := h.group.getD i.group } := by
  obtain ⟨r, hr, hwalk⟩ := h.walk_encode
  obtain ⟨hver, hgroup, -⟩ := h.items_say
  rw [parseServerHello_walk hr, hwalk, serverFold]
  dsimp only
  rw [foldl_handle_server h.items_nodup, hver, hgroup, upgrade_negVersion]
  rfl

/-- The facts that the two hellos state. -/
def stated (ch : ClientHello) (sh : ServerHello) : Facts :=
  ⟨true, true, ch.sni.getD [], ch.version, ch.sigs.getD [], sh.negotiated, sh.cipherSuite,
    sh.group.getD 0⟩

theorem facts_of_opening {ch : ClientHello} {sh : ServerHello} {c s : Bytes}
    (hc : OpensWith ch.message c) (hs : OpensWith sh.message s) (x509 : X509) :
    (parse x509 s (parse x509 c {})).facts = stated ch sh := by
  have hclient : (parse x509 c {}).facts = _ := (hc.facts x509 {}).trans ch.facts_parse
  have hserver : (parse x509 s (parse x509 c {})).facts = _ :=
    (hs.facts x509 _).trans (sh.facts_parse _)
  have hgroup : (parse x509 c {}).group = 0 := congrArg Facts.group hclient
  rw [hserver, hclient, hgroup]
  rfl

end Opening
end Tlstat.Tlsparse
