import Tlstat.Base.Table
import Tlstat.Loader.Types

/-! The structures shared by the probes and user space, and the state the probes work on. -/

namespace Tlstat.Bpf
open Base

def wireCap : ℕ := 1024
def dataCap : ℕ := 1024
def maxWireEvents : UInt8 := 16

inductive Dir
  | out
  | inward
deriving DecidableEq, Repr

def Dir.code : Dir → UInt8
  | .out => 1
  | .inward => 2

structure Flow where
  tx : UInt64 := 0
  rx : UInt64 := 0
  pid : UInt32 := 0
  saddr : Words := {}
  daddr : Words := {}
  sport : UInt16 := 0
  dport : UInt16 := 0
  isIpv6 : UInt8 := 0
  direction : UInt8 := 0
  isTls : UInt8 := 0
  closed : UInt8 := 0
  wireOut : UInt8 := 0
  wireIn : UInt8 := 0
  comm : Bytes := List.replicate 16 0
deriving DecidableEq, Repr

structure SslStat where
  ptx : UInt64 := 0
  prx : UInt64 := 0
  pid : UInt32 := 0
  fd : Int32 := 0
deriving DecidableEq, Repr

structure RecvCtx where
  sk : UInt64
  base : UInt64
deriving DecidableEq, Repr

structure SslCtx where
  ssl : UInt64
  buf : UInt64
deriving DecidableEq, Repr

/-- `struct wire_event`; `data` is the whole array, bytes past `len` included. -/
structure WireEvent where
  direction : UInt8
  len : UInt16
  sk : UInt64
  data : Bytes
  size : data.length = wireCap
deriving DecidableEq, Repr

structure DataEvent where
  direction : UInt8
  len : UInt16
  pid : UInt32
  tid : UInt32
  fd : Int32
  ssl : UInt64
  data : Bytes
  size : data.length = dataCap
deriving DecidableEq, Repr

structure CloseEvent where
  pad : UInt8 × UInt8 × UInt8
  pid : UInt32
  fd : Int32
  ssl : UInt64
  ptx : UInt64
  prx : UInt64
deriving DecidableEq, Repr

inductive Event
  | wire (e : WireEvent)
  | data (e : DataEvent)
  | close (e : CloseEvent)
deriving DecidableEq, Repr

/-- The maps, and everything submitted to the ring so far, oldest first. -/
structure Kernel where
  flows : Table Flow := ∅
  sslStats : Table SslStat := ∅
  sslFds : Table Int32 := ∅
  recvCtxs : Table RecvCtx := ∅
  sslCtxs : Table SslCtx := ∅
  events : List Event := []

/-- The fields of a `struct sock` that `read_tuple` reads, as they are stored. -/
structure Sock where
  family : UInt16
  num : UInt16
  dport : UInt16
  rcvSaddr : UInt32
  daddr : UInt32
  v6RcvSaddr : Words
  v6Daddr : Words
deriving DecidableEq, Repr

/-- `struct iov_iter`: one buffer, a list of segments (base and length), or another kind. -/
inductive IovIter
  | ubuf (base : UInt64)
  | iovec (first : UInt64 × UInt64) (rest : List (UInt64 × UInt64))
  | other
deriving DecidableEq, Repr

/-- What one run of a probe sees: the current task, user and kernel memory, and whether the
helpers that may fail succeed. `insert` is about keys that are not in the map yet. -/
structure Env where
  pidTgid : UInt64
  comm : Bytes := List.replicate 16 0
  user : UInt64 → Option UInt8 := fun _ => none
  sock : UInt64 → Sock
  ring : ℕ → UInt8 := fun _ => 0
  insert : Bool := true
  reserve : Bool := true

def tgid (id : UInt64) : UInt32 := (id >>> 32).toUInt32

/-- `bpf_get_current_pid_tgid() >> 32` -/
def Env.pid (env : Env) : UInt32 := tgid env.pidTgid

/-- `(__u32)bpf_get_current_pid_tgid()` -/
def Env.tid (env : Env) : UInt32 := env.pidTgid.toUInt32

/-- A thread on a machine where nothing fails but reads of user memory. -/
def Env.thread (id : UInt64) : Env where
  pidTgid := id
  sock := fun _ => ⟨2, 0, 0, 0, 0, {}, {}⟩

def Env.task (p : UInt32) : Env := Env.thread (p.toUInt64 <<< 32)

theorem Env.task_pid (p : UInt32) : (Env.task p).pid = p := by
  have hp := p.toNat_lt
  have h : ((p.toUInt64 <<< 32) >>> 32).toUInt32.toNat = p.toNat := by
    simp only [UInt64.toNat_toUInt32, UInt64.toNat_shiftRight, UInt64.toNat_shiftLeft,
      UInt32.toNat_toUInt64]
    simp [Nat.shiftLeft_eq, Nat.shiftRight_eq_div_pow]
    omega
  exact UInt32.toNat_inj.mp h

/-- `bpf_probe_read_user`: all of the bytes, or a fault. -/
def Env.readUser (env : Env) (ptr : UInt64) (n : ℕ) : Option Bytes :=
  (List.range n).mapM fun i => env.user (ptr + i.toUInt64)

/-- `bpf_map_update_elem(.., BPF_ANY)` -/
def Env.update {β : Type} (env : Env) (t : Table β) (k : UInt64) (v : β) : Table β :=
  if t[k]?.isSome || env.insert then t.insert k v else t

/-- The array of a reserved record after its first bytes were written: the rest is whatever
the ring memory held. -/
def Env.overlay (env : Env) (cap : ℕ) (bytes : Bytes) : Bytes :=
  (bytes ++ (List.range cap).map env.ring).take cap

theorem Env.length_overlay (env : Env) (cap : ℕ) (bytes : Bytes) :
    (env.overlay cap bytes).length = cap := by
  unfold overlay
  rw [List.length_take, List.length_append, List.length_map, List.length_range]
  omega

theorem Env.overlay_take (env : Env) {cap : ℕ} {bytes : Bytes} (h : bytes.length ≤ cap) :
    (env.overlay cap bytes).take bytes.length = bytes := by
  unfold overlay
  rw [List.take_take, Nat.min_eq_left h]
  exact List.take_left

/-- `cap = n; if (cap > CAP - 1) cap = CAP - 1; cap &= CAP - 1`, in 32 bits. -/
def clamp (n : UInt64) : UInt32 :=
  let cap := n.toUInt32
  let cap := if cap > 1023 then 1023 else cap
  cap &&& 1023

inductive TcpState
  | established
  | synSent
  | synRecv
  | finWait1
  | finWait2
  | timeWait
  | close
  | closeWait
  | lastAck
  | listen
  | closing
  | newSynRecv
deriving DecidableEq, Repr

def ipprotoTcp : UInt16 := 6
def afInet6 : UInt16 := 10

end Tlstat.Bpf
