import Tlstat.Loader.Types
import Tlstat.Tlsparse.Parse

/-! One tracked connection and the updates an event makes to it. -/

namespace Tlstat.Model
open Loader Tlsparse

/-- `netip.Addr`: the zero value is the invalid address. -/
inductive Addr
  | invalid
  | v4 (b : Bytes)
  | v6 (b : Bytes)
deriving DecidableEq, Repr

structure AddrPort where
  addr : Addr := .invalid
  port : UInt16 := 0
deriving DecidableEq, Repr

def putUint32 (w : UInt32) : Bytes :=
  [w.toUInt8, (w >>> 8).toUInt8, (w >>> 16).toUInt8, (w >>> 24).toUInt8]

def ipFrom (a : Words) (v6 : Bool) : Addr :=
  if v6 then .v6 (putUint32 a.w₀ ++ putUint32 a.w₁ ++ putUint32 a.w₂ ++ putUint32 a.w₃)
  else .v4 (putUint32 a.w₀)

/-- The endpoints `UpdateFlows` computes from a flow. -/
def localOf (f : Flow) : AddrPort := ⟨ipFrom f.saddr f.isIPv6, f.sport⟩
def remoteOf (f : Flow) : AddrPort := ⟨ipFrom f.daddr f.isIPv6, f.dport⟩

/-- A reading of the clock; 0 is the zero `time.Time`. -/
abbrev Time := ℕ

/-- The decrypted plaintext kept for one session. A nil slice is the empty list. -/
structure Sample where
  headOut : Bytes := []
  tailOut : Bytes := []
  headIn : Bytes := []
  tailIn : Bytes := []
deriving DecidableEq, Repr

structure Conn where
  /-- Which Go object this is: `*Conn` pointers are compared by it. -/
  obj : ℕ
  sock : UInt64
  pid : UInt32 := 0
  comm : Bytes := []
  localAddr : AddrPort := {}
  remote : AddrPort := {}
  direction : UInt8 := 0
  txBytes : UInt64 := 0
  rxBytes : UInt64 := 0
  ptxBytes : UInt64 := 0
  prxBytes : UInt64 := 0
  isTLS : Bool := false
  closed : Bool := false
  preexisting : Bool := false
  firstSeen : Time := 0
  lastActive : Time := 0
  closedAt : Time := 0
  info : Info := {}
  plain : Sample := {}
  plainFinal : Bool := false
  wireOut : Bytes := []
  wireIn : Bytes := []
deriving DecidableEq, Repr

def maxWireBuf : ℕ := 16 <<< 10

namespace Conn

/-- The body of the `UpdateFlows` loop. -/
def reconcile (f : Flow) (now : Time) (c : Conn) : Conn :=
  { c with
    pid := f.pid
    comm := f.comm
    localAddr := localOf f
    remote := remoteOf f
    direction := if f.direction ≠ 0 then f.direction else c.direction
    isTLS := f.isTLS || c.isTLS
    lastActive := if f.tx ≠ c.txBytes ∨ f.rx ≠ c.rxBytes then now else c.lastActive
    txBytes := f.tx
    rxBytes := f.rx
    closed := f.closed
    -- TLS traffic without a handshake was under way before the program started
    preexisting := (f.isTLS || c.isTLS) && !c.info.hasClientHello && !c.info.hasServerHello }

/-- `*buf = append(*buf, data...)` while the buffer is below its cap. -/
def grow (buf data : Bytes) : Bytes := if buf.length < maxWireBuf then buf ++ data else buf

/-- The body of `ApplyWire`: append to the buffer of the direction and parse all of it. -/
def applyWire (x509 : X509) (w : WireEvent) (c : Conn) : Conn :=
  let c := if w.dir = 2 then { c with wireIn := grow c.wireIn w.data }
    else { c with wireOut := grow c.wireOut w.data }
  -- the whole buffer is parsed again, into what earlier parses have left
  let info := parse x509 (if w.dir = 2 then c.wireIn else c.wireOut) c.info
  if info.hasClientHello || info.hasServerHello then
    { c with info := info, isTLS := true, preexisting := false }
  else { c with info := info }

def join (smp : Option Sample) (c : Conn) : Conn :=
  match smp with
  | none => c
  | some smp => { c with plain := smp }

def finalize (e : CloseEvent) (smp : Option Sample) (c : Conn) : Conn :=
  { join smp { c with ptxBytes := e.ptx, prxBytes := e.prx } with plainFinal := true }

def zeroPlain (c : Conn) : Conn :=
  if c.plainFinal then c else { c with ptxBytes := 0, prxBytes := 0 }

def accumulate (st : SSLStat) (smp : Option Sample) (c : Conn) : Conn :=
  join smp { c with ptxBytes := c.ptxBytes + st.ptx, prxBytes := c.prxBytes + st.prx }

def retired (now : Time) (c : Conn) : Conn :=
  { c with closedAt := if c.closedAt = 0 then now else c.closedAt, wireOut := [], wireIn := [] }

def hasEndpoint (c : Conn) : Bool := c.remote.addr ≠ .invalid && c.remote.port ≠ 0

end Conn

/-- `f` leaves the identity of a connection alone. -/
def Keeps (f : Conn → Conn) : Prop := ∀ c, (f c).obj = c.obj ∧ (f c).sock = c.sock

namespace Conn

theorem keeps_reconcile (f : Flow) (now : Time) : Keeps (reconcile f now) := fun _ => ⟨rfl, rfl⟩

/-- Wire data changes nothing but the buffers and what is parsed of them. -/
theorem applyWire_frame {P : Conn → Prop} {x509 : X509} {w : WireEvent} {c : Conn}
    (h : ∀ wireOut wireIn info isTLS preexisting,
      P { c with wireOut, wireIn, info, isTLS, preexisting }) : P (c.applyWire x509 w) := by
  unfold applyWire
  dsimp only
  split_ifs <;> exact h _ _ _ _ _

theorem keeps_applyWire (x509 : X509) (w : WireEvent) : Keeps (applyWire x509 w) := by
  intro c
  exact applyWire_frame (P := fun d => d.obj = c.obj ∧ d.sock = c.sock) fun _ _ _ _ _ => ⟨rfl, rfl⟩

theorem keeps_finalize (e : CloseEvent) (smp : Option Sample) : Keeps (finalize e smp) := by
  intro c
  cases smp <;> exact ⟨rfl, rfl⟩

theorem keeps_zeroPlain : Keeps zeroPlain := by
  intro c
  unfold zeroPlain
  split_ifs <;> exact ⟨rfl, rfl⟩

theorem keeps_accumulate (st : SSLStat) (smp : Option Sample) : Keeps (accumulate st smp) := by
  intro c
  cases smp <;> exact ⟨rfl, rfl⟩

end Conn

def appendTail (buf data : Bytes) (max : ℕ) : Bytes :=
  if max = 0 then []
  else
    let buf := buf ++ data
    if buf.length > max then buf.drop (buf.length - max) else buf

/-- `ApplyData` on the sample of the session. -/
def Sample.record (peekBytes : ℕ) (d : DataEvent) (smp : Sample) : Sample :=
  if d.dir = 1 then
    { smp with
      -- the head is the first chunk and stays
      headOut := if smp.headOut = [] then d.data else smp.headOut
      tailOut := appendTail smp.tailOut d.data peekBytes }
  else
    { smp with
      headIn := if smp.headIn = [] then d.data else smp.headIn
      tailIn := appendTail smp.tailIn d.data peekBytes }

end Tlstat.Model
