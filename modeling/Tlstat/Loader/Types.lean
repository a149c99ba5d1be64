import Tlstat.Tlsparse.Reader

/-! The plain records the loader hands to the store. -/

namespace Tlstat

/-- `[4]uint32` -/
structure Words where
  w₀ : UInt32 := 0
  w₁ : UInt32 := 0
  w₂ : UInt32 := 0
  w₃ : UInt32 := 0
deriving DecidableEq, Repr

namespace Loader

/-- A per-socket snapshot from the `flows` map. -/
structure Flow where
  sock : UInt64
  pid : UInt32 := 0
  saddr : Words := {}
  daddr : Words := {}
  sport : UInt16 := 0
  dport : UInt16 := 0
  isIPv6 : Bool := false
  direction : UInt8 := 0
  isTLS : Bool := false
  closed : Bool := false
  comm : Bytes := []
  tx : UInt64 := 0
  rx : UInt64 := 0
deriving DecidableEq, Repr

/-- A per-session snapshot from the `ssl_stats` map. -/
structure SSLStat where
  ssl : UInt64
  ptx : UInt64
  prx : UInt64
  pid : UInt32
  fd : Int32
deriving DecidableEq, Repr

structure WireEvent where
  dir : UInt8
  sock : UInt64
  data : Bytes
deriving DecidableEq, Repr

structure DataEvent where
  dir : UInt8
  pid : UInt32
  tid : UInt32
  fd : Int32
  ssl : UInt64
  data : Bytes
deriving DecidableEq, Repr

structure CloseEvent where
  pid : UInt32
  fd : Int32
  ssl : UInt64
  ptx : UInt64
  prx : UInt64
deriving DecidableEq, Repr

/-- What `ReadEvent` returns: at most one event. -/
inductive Event
  | wire (w : WireEvent)
  | data (d : DataEvent)
  | close (c : CloseEvent)
  | none
deriving DecidableEq, Repr

/-! ### Decoding a ring sample -/

def le16 (b : Bytes) (h : 2 ≤ b.length) : UInt16 := b[0].toUInt16 ||| b[1].toUInt16 <<< 8

def le32 (b : Bytes) (h : 4 ≤ b.length) : UInt32 :=
  b[0].toUInt32 ||| b[1].toUInt32 <<< 8 ||| b[2].toUInt32 <<< 16 ||| b[3].toUInt32 <<< 24

def le64 (b : Bytes) (h : 8 ≤ b.length) : UInt64 :=
  (le32 b (by omega)).toUInt64 |||
    (le32 (b.drop 4) (by rw [List.length_drop]; omega)).toUInt64 <<< 32

theorem le_length_drop {b : Bytes} {n i k : ℕ} (h : ¬b.length < n) (hi : i + k ≤ n) :
    k ≤ (b.drop i).length := by
  rw [List.length_drop]
  omega

/-- The switch of `ReadEvent` on the raw sample. A length field that runs past the
sample leaves the event without data. -/
def readEvent (b : Bytes) : Event :=
  if h₀ : b.length < 1 then .none
  else if b[0] = 1 then -- EVENT_WIRE
    if h : b.length < 12 then .none
    else
      let n := (le16 (b.drop 2) (le_length_drop h (by decide))).toNat
      .wire
        { dir := b[1]
          sock := le64 (b.drop 4) (le_length_drop h (by decide))
          data := if 12 + n ≤ b.length then slice b 12 (12 + n) else [] }
  else if b[0] = 2 then -- EVENT_DATA
    if h : b.length < 24 then .none
    else
      let n := (le16 (b.drop 2) (le_length_drop h (by decide))).toNat
      .data
        { dir := b[1]
          pid := le32 (b.drop 4) (le_length_drop h (by decide))
          tid := le32 (b.drop 8) (le_length_drop h (by decide))
          fd := (le32 (b.drop 12) (le_length_drop h (by decide))).toInt32
          ssl := le64 (b.drop 16) (le_length_drop h (by decide))
          data := if 24 + n ≤ b.length then slice b 24 (24 + n) else [] }
  else if b[0] = 3 then -- EVENT_CLOSE
    if h : b.length < 36 then .none
    else
      .close
        { pid := le32 (b.drop 4) (le_length_drop h (by decide))
          fd := (le32 (b.drop 8) (le_length_drop h (by decide))).toInt32
          ssl := le64 (b.drop 12) (le_length_drop h (by decide))
          ptx := le64 (b.drop 20) (le_length_drop h (by decide))
          prx := le64 (b.drop 28) (le_length_drop h (by decide)) }
  else .none

end Loader
end Tlstat
