import Tlstat.Bpf.Types

/-! The probes, each as the state change of one atomic run. -/

namespace Tlstat.Bpf
open Base

def iterBase : IovIter → UInt64
  | .ubuf base => base
  | .iovec first _ => first.1
  | .other => 0

def looksLikeTls : Bytes → Bool
  | ct :: major :: minor :: _ => !(ct < 20 || ct > 23) && major == 3 && !(minor > 4)
  | _ => false

def ntohs (x : UInt16) : UInt16 := x <<< 8 ||| x >>> 8

/-- For IPv4 only the first address words are written. -/
def readTuple (sk : Sock) (f : Flow) : Flow :=
  let f := { f with sport := sk.num, dport := ntohs sk.dport }
  if sk.family = afInet6 then
    { f with isIpv6 := 1, saddr := sk.v6RcvSaddr, daddr := sk.v6Daddr }
  else
    { f with
      isIpv6 := 0
      saddr := { f.saddr with w₀ := sk.rcvSaddr }
      daddr := { f.daddr with w₀ := sk.daddr } }

/-- The backfill of `flow_get`. -/
def identify (env : Env) (sk : UInt64) (f : Flow) : Flow :=
  if f.pid = 0 then readTuple (env.sock sk) { f with pid := env.pid, comm := env.comm } else f

namespace Kernel

/-- `flow_get`: the entry the probe goes on with, unless the map is full. -/
def flowGet (env : Env) (sk : UInt64) (k : Kernel) : Option Flow :=
  match k.flows[sk]? with
  | some f => some (identify env sk f)
  -- a new entry has pid 0 and is filled in at once
  | none => if env.insert then some (identify env sk {}) else none

/-- Writing back through the pointer `flow_get` returned. -/
def setFlow (sk : UInt64) (f : Flow) (k : Kernel) : Kernel :=
  { k with flows := k.flows.insert sk f }

/-- `bpf_ringbuf_submit`, for the probes that may have nothing to submit. -/
def submit (e : Option Event) (k : Kernel) : Kernel := { k with events := k.events ++ e.toList }

end Kernel

def wireCount (dir : Dir) (f : Flow) : UInt8 :=
  match dir with
  | .out => f.wireOut
  | .inward => f.wireIn

def bumpWire (dir : Dir) (f : Flow) : Flow :=
  match dir with
  | .out => { f with wireOut := f.wireOut + 1 }
  | .inward => { f with wireIn := f.wireIn + 1 }

/-- The gate of `capture_wire`: the entry, with `is_tls` set when the direction is armed, if the
call goes on to reserve an event. -/
def arm (env : Env) (f : Flow) (buf n : UInt64) (dir : Dir) : Option Flow :=
  if buf = 0 || n < 1 then none
  else if wireCount dir f ≥ maxWireEvents then none
  else if wireCount dir f = 0 then
    if n < 5 then none
    else
      match env.readUser buf 5 with
      | none => none
      | some hdr => if looksLikeTls hdr then some { f with isTls := 1 } else none
  else some f

/-- `capture_wire`: the entry it leaves, and the event it submits if it gets that far. -/
def captureWire (env : Env) (sk : UInt64) (f : Flow) (buf n : UInt64) (dir : Dir) :
    Flow × Option WireEvent :=
  match arm env f buf n dir with
  | none => (f, none)
  | some f =>
    -- without room in the ring `is_tls` stays set, and the counter where it was
    if !env.reserve then (f, none)
    else
      match env.readUser buf (clamp n).toNat with
      | none => (f, none)
      | some bytes =>
        (bumpWire dir f, some
          { direction := dir.code
            len := (clamp n).toUInt16
            sk := sk
            data := env.overlay wireCap bytes
            size := env.length_overlay wireCap bytes })

def addPlain (dir : Dir) (n : UInt64) (s : SslStat) : SslStat :=
  match dir with
  | .out => { s with ptx := s.ptx + n }
  | .inward => { s with prx := s.prx + n }

namespace Kernel

/-- What both transfer probes do: get the entry, count, capture. -/
def transfer (env : Env) (sk : UInt64) (count : Flow → Flow) (buf n : UInt64) (dir : Dir)
    (k : Kernel) : Kernel :=
  match k.flowGet env sk with
  | none => k
  | some f =>
    let r := captureWire env sk (count f) buf n dir
    (k.setFlow sk r.1).submit (r.2.map .wire)

-- what the call is given counts, whatever it returns
def kTcpSendmsg (env : Env) (sk : UInt64) (iter : IovIter) (size : UInt64) (k : Kernel) : Kernel :=
  k.transfer env sk (fun f => { f with tx := f.tx + size }) (iterBase iter) size .out

def kTcpRecvmsg (env : Env) (sk : UInt64) (iter : IovIter) (k : Kernel) : Kernel :=
  { k with recvCtxs := env.update k.recvCtxs env.pidTgid ⟨sk, iterBase iter⟩ }

/-- `__u64 n = ret` for a positive `int` -/
def widen (ret : Int32) : UInt64 := ret.toInt64.toUInt64

def krTcpRecvmsg (env : Env) (ret : Int32) (k : Kernel) : Kernel :=
  match k.recvCtxs[env.pidTgid]? with
  | none => k
  | some rc =>
    -- the slot is given up before anything is checked
    let k := { k with recvCtxs := k.recvCtxs.erase env.pidTgid }
    if ret ≤ 0 || rc.sk = 0 then k
    else k.transfer env rc.sk (fun f => { f with rx := f.rx + widen ret }) rc.base (widen ret) .inward

/-- `SYN_RECV` is a passive open, everything else an active one. -/
def openedBy (oldstate : TcpState) : Dir := if oldstate = .synRecv then .inward else .out

def tpInetSockSetState (env : Env) (protocol : UInt16) (sk : UInt64) (oldstate newstate : TcpState)
    (k : Kernel) : Kernel :=
  if protocol ≠ ipprotoTcp then k
  else if newstate = .established then
    match k.flows[sk]? with
    -- an entry that is there keeps all else, also that of an earlier connection
    | some f => k.setFlow sk { f with direction := (openedBy oldstate).code }
    | none => if env.insert then k.setFlow sk { direction := (openedBy oldstate).code } else k
  else if newstate = .close ∨ newstate = .closeWait then
    match k.flows[sk]? with
    -- only the poller takes the entry out
    | some f => k.setFlow sk { f with closed := 1 }
    | none => k
  else k

/-- `DeleteFlow`, from user space. -/
def deleteFlow (sk : UInt64) (k : Kernel) : Kernel := { k with flows := k.flows.erase sk }

/-! ### The OpenSSL probes -/

/-- `ssl_stat_get`: the entry, which a new session gets unless the map is full. -/
def sslStatGet (env : Env) (ssl : UInt64) (k : Kernel) : Option SslStat :=
  match k.sslStats[ssl]? with
  | some s => some s
  -- the fd is looked up here and never again
  | none => if env.insert then some { pid := env.pid, fd := k.sslFds[ssl]?.getD (-1) } else none

/-- The event part of `emit_plaintext`. -/
def captureData (env : Env) (ssl buf n : UInt64) (dir : Dir) (fd : Int32) : Option DataEvent :=
  if !env.reserve then none
  else
    match env.readUser buf (clamp n).toNat with
    | none => none
    | some bytes => some
      { direction := dir.code
        len := (clamp n).toUInt16
        pid := env.pid
        tid := env.tid
        fd := fd
        ssl := ssl
        data := env.overlay dataCap bytes
        size := env.length_overlay dataCap bytes }

def emitPlaintext (env : Env) (ssl buf n : UInt64) (dir : Dir) (k : Kernel) : Kernel :=
  if buf = 0 || n = 0 then k
  else
    match k.sslStatGet env ssl with
    | none => k
    | some s =>
      -- the bytes count whether or not the event gets through
      let s := addPlain dir n s
      { k with sslStats := k.sslStats.insert ssl s }.submit
        ((captureData env ssl buf n dir s.fd).map .data)

/-- The close event of `SSL_free`, when the session has an entry. -/
def closeEvent (env : Env) (ssl : UInt64) (s : SslStat) : Option CloseEvent :=
  if env.reserve then some
    { pad := (env.ring 1, env.ring 2, env.ring 3)
      pid := env.pid
      fd := s.fd
      ssl := ssl
      ptx := s.ptx
      prx := s.prx }
  else none

def uSslFree (env : Env) (ssl : UInt64) (k : Kernel) : Kernel :=
  let e := k.sslStats[ssl]?.bind (closeEvent env ssl)
  -- the entries go also where the ring had no room
  { k.submit (e.map .close) with
    sslStats := k.sslStats.erase ssl
    sslFds := k.sslFds.erase ssl }

def uSslSetFd (env : Env) (ssl : UInt64) (fd : Int32) (k : Kernel) : Kernel :=
  { k with sslFds := env.update k.sslFds ssl fd }

def uSslWrite (env : Env) (ssl buf : UInt64) (num : Int32) (k : Kernel) : Kernel :=
  if num > 0 then k.emitPlaintext env ssl buf (widen num) .out else k

def uSslRead (env : Env) (ssl buf : UInt64) (k : Kernel) : Kernel :=
  { k with sslCtxs := env.update k.sslCtxs env.pidTgid ⟨ssl, buf⟩ }

def urSslRead (env : Env) (ret : Int32) (k : Kernel) : Kernel :=
  match k.sslCtxs[env.pidTgid]? with
  | none => k
  | some c =>
    let k := { k with sslCtxs := k.sslCtxs.erase env.pidTgid }
    if ret > 0 then k.emitPlaintext env c.ssl c.buf (widen ret) .inward else k

end Kernel

/-- One hit of a probe, or the one call of user space that writes a map. -/
inductive Hit
  | tcpSendmsg (sk : UInt64) (iter : IovIter) (size : UInt64)
  | tcpRecvmsg (sk : UInt64) (iter : IovIter)
  | tcpRecvmsgRet (ret : Int32)
  | inetSockSetState (protocol : UInt16) (sk : UInt64) (oldstate newstate : TcpState)
  | sslFree (ssl : UInt64)
  | sslSetFd (ssl : UInt64) (fd : Int32)
  | sslWrite (ssl buf : UInt64) (num : Int32)
  | sslRead (ssl buf : UInt64)
  | sslReadRet (ret : Int32)
  | deleteFlow (sk : UInt64)
deriving DecidableEq, Repr

def Kernel.step (k : Kernel) (a : Env × Hit) : Kernel :=
  match a.2 with
  | .tcpSendmsg sk iter size => k.kTcpSendmsg a.1 sk iter size
  | .tcpRecvmsg sk iter => k.kTcpRecvmsg a.1 sk iter
  | .tcpRecvmsgRet ret => k.krTcpRecvmsg a.1 ret
  | .inetSockSetState protocol sk oldstate newstate =>
    k.tpInetSockSetState a.1 protocol sk oldstate newstate
  | .sslFree ssl => k.uSslFree a.1 ssl
  | .sslSetFd ssl fd => k.uSslSetFd a.1 ssl fd
  | .sslWrite ssl buf num => k.uSslWrite a.1 ssl buf num
  | .sslRead ssl buf => k.uSslRead a.1 ssl buf
  | .sslReadRet ret => k.urSslRead a.1 ret
  | .deleteFlow sk => k.deleteFlow sk

def Kernel.run (k : Kernel) (hits : List (Env × Hit)) : Kernel := hits.foldl Kernel.step k

end Tlstat.Bpf
