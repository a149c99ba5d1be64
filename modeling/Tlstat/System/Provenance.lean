import Tlstat.Model.Traces
import Tlstat.System.Feed

/-! Where the plaintext of a row comes from: from the chunks of one session, read in one piece. The
rows share the arrays of the samples, so that the tails are followed as slices. -/

namespace Tlstat.System
open Base Loader Model Tlsparse

/-- A chunk of the session at `a`. -/
def dataOf (a : UInt64) : Loader.Event → Option DataEvent
  | .data d => if d.ssl = a then some d else none
  | _ => none

def Closes (a : UInt64) : Loader.Event → Prop
  | .close c => c.ssl = a
  | _ => False

theorem dataFor_eq (a : UInt64) (op : Op) : op.dataFor a = (eventOf op).bind (dataOf a) := by
  cases op <;> rfl

theorem evicts_of_closes {a : UInt64} {op : Op} {e : Loader.Event} (he : eventOf op = some e)
    (h : Closes a e) : op.Evicts a := by
  cases op with
  | updateFlows v flows | updateSSLStats stats => cases he
  | applyWire now w | applyData d =>
    obtain rfl := Option.some.inj he
    exact absurd h id
  | applyClose v c =>
    obtain rfl := Option.some.inj he
    exact h

/-- The store of a run with the slices that its tails are, the arrays growing by `room`. -/
def slices (x509 : X509) (room : ℕ → ℕ → ℕ) (maxHistory peekBytes : ℤ) (moves : List Move) : Shared :=
  (Shared.new maxHistory peekBytes).run x509 room (calls x509 (init maxHistory peekBytes) moves)

/-- The events `es` were read in one piece with no close event of the session at `a` among them. -/
structure Unclosed (s : State) (a : UInt64) (es : List Loader.Event) : Prop where
  piece : es <:+: (s.kernel.events.take s.read).map Bpf.Event.decoded
  one : ∀ e ∈ es, ¬Closes a e

/-- The sample of the chunks of the session at `a` among `es`. -/
def sampled (n : ℕ) (a : UInt64) (es : List Loader.Event) : Sample := sampleOf n (es.filterMap (dataOf a))

section Piece
variable {x509 : X509} {s₀ : State} {moves : List Move} {ops seg : List Op} {a : UInt64}

theorem Fed.unclosed (h : Fed x509 s₀ moves ops) (hpiece : Piece [] a ops seg) :
    Unclosed (run x509 s₀ moves) a (seg.filterMap eventOf) := by
  constructor
  · obtain ⟨before, after, hseg, -⟩ := hpiece.place
    rw [← h.events]
    exact List.IsInfix.filterMap eventOf ⟨before, after, hseg⟩
  · intro e he hclose
    obtain ⟨op, hop, heq⟩ := List.mem_filterMap.mp he
    exact hpiece.one op hop (evicts_of_closes heq hclose)

theorem madeOf_eq (n : ℕ) (a : UInt64) (seg : List Op) :
    madeOf n a seg = sampled n a (seg.filterMap eventOf) := by
  unfold madeOf sampled
  rw [List.filterMap_filterMap]
  exact congrArg (fun f => sampleOf n (seg.filterMap f)) (funext (dataFor_eq a))

end Piece

/-- **The plaintext of a row is from one session.** At every point of every run of the whole program
a live or retired connection shows no plaintext, or that of one SSL pointer in one unbroken piece of
what was read from the ring, with no close event of that pointer in it. Its heads are those of the
piece. Its tails, slices of arrays that `appendTail` goes on writing, read nothing but bytes of the
same pointer: as many as the tail of the piece has, from where the tail begins of that piece or of one
that goes on from it, again with no close event of the pointer in it. -/
theorem plaintext_of_one_session (x509 : X509) (room : ℕ → ℕ → ℕ) (maxHistory peekBytes : ℤ)
    (moves : List Move) :
    let s := run x509 (init maxHistory peekBytes) moves
    let t := slices x509 room maxHistory peekBytes moves
    t.store = s.store ∧ ∀ c, s.store.Holds c →
      c.plain = {} ∧ t.fields c.obj = {} ∨
      ∃ (a : UInt64) (es : List Loader.Event), Unclosed s a es ∧
        c.plain.headOut = (sampled peekBytes.toNat a es).headOut ∧
        c.plain.headIn = (sampled peekBytes.toNat a es).headIn ∧
        ∀ out, ∃ es', es <+: es' ∧ Unclosed s a es' ∧
          ((t.fields c.obj).side out).read t.heap =
            (Shared.sampleTail (sampled peekBytes.toNat a es') out).take
              (Shared.sampleTail (sampled peekBytes.toNat a es) out).length := by
  intro s t
  have hfed := fed_calls x509 maxHistory peekBytes moves
  have hstore : t.store = s.store := (Shared.run_store _).trans hfed.store.symm
  refine ⟨hstore, fun c hc => ?_⟩
  rcases Shared.from_one_run x509 room maxHistory peekBytes _ (hstore ▸ hc) with hnone | ⟨a, seg, hrow⟩
  · exact .inl hnone
  · obtain ⟨hpiece, hplain, hcut⟩ := hrow
    rw [madeOf_eq] at hplain
    refine .inr ⟨a, seg.filterMap eventOf, hfed.unclosed hpiece, by rw [hplain], by rw [hplain], ?_⟩
    intro out
    -- the tail may have been shifted by later chunks of the same session
    obtain ⟨mid, hmid, hpiece', hread⟩ := hcut out
    refine ⟨mid.filterMap eventOf, hmid.filterMap eventOf, hfed.unclosed hpiece', ?_⟩
    rw [madeOf_eq, madeOf_eq] at hread
    exact hread

/-- A connection that is listed, writes a chunk in a session that a poll joins to it, and then another
one, which pushes the first out of the array that its row shares. -/
def shifted : List Move :=
  [.hit (Bpf.Env.task 7) (.inetSockSetState 6 9 .synSent .established),
    .hit (Bpf.Env.task 7) (.tcpSendmsg 9 (.ubuf 1) 5),
    .takeFlows id List.Perm.refl, .applyFlows (View.blind 1),
    .hit { Bpf.Env.task 7 with user := fun _ => some 65 } (.sslWrite 5 1 3), .read (View.blind 2),
    .takeStats id List.Perm.refl, .applyStats fun _ => View.blind 2,
    .hit { Bpf.Env.task 7 with user := fun _ => some 66 } (.sslWrite 5 1 3), .read (View.blind 3)]

theorem plaintext_of_one_session_shifted : ∃ (a : UInt64) (es es' : List Loader.Event),
    es <+: es' ∧ Unclosed (run (fun _ => none) (init 500 4) shifted) a es' ∧
      (sampled 4 a es).headOut = [65, 65, 65] ∧
      (sampled 4 a es').tailOut.take (sampled 4 a es).tailOut.length = [65, 66, 66] := by
  let room : ℕ → ℕ → ℕ := fun _ n => n + 8
  have hrow : ((run (fun _ => none) (init 500 4) shifted).store.conns[(9 : UInt64)]?).map
      (fun c => (c.plain.headOut, c.obj)) = some ([65, 65, 65], 0) := by decide +kernel
  have htail : (((slices (fun _ => none) room 500 4 shifted).fields 0).side true).read
      (slices (fun _ => none) room 500 4 shifted).heap = [65, 66, 66] := by decide +kernel
  obtain ⟨c, hc, hval⟩ := Option.map_eq_some_iff.mp hrow
  obtain ⟨hhead, hobj⟩ := Prod.mk.inj hval
  rcases (plaintext_of_one_session (fun _ => none) room 500 4 shifted).2 c (Store.holds_of_live hc) with
    ⟨hnone, -⟩ | ⟨a, es, -, hout, -, htails⟩
  · rw [hnone] at hhead
    cases hhead
  · obtain ⟨es', hes, hunclosed, hread⟩ := htails true
    rw [hobj] at hread
    exact ⟨a, es, es', hes, hunclosed, hout.symm.trans hhead, hread.symm.trans htail⟩

end Tlstat.System
