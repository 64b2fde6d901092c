/-
Packets, as `include/pkts/pkts.h` lays them out.

An `IpPkt` is one IP packet or one fragment of one; a `HarqPkt` is the block a
grant carries, holding whole packets and fragments.  Every `float` of the source
is an exact rational here: sizes are bits, times are seconds.  Packet ids are the
source's `uint32_t`, so converting one to `int` and back is the machine's own
conversion and wraps where the machine wraps.

`ip_pkt` declares a copy constructor and no move constructor, so every
`std::move` of a packet copies all of its fields; a structure value passed along
says exactly that.
-/
import Mathlib

namespace NetworkEmulator

/-- `BIT_ROUND_MARGIN`: how many bits short a packet may be and still be complete. -/
def bitRoundMargin : ℚ := 99 / 100

/-- A C++ conversion from `float` to `int`: truncation towards zero. -/
def truncToInt (x : ℚ) : ℤ := if 0 ≤ x then ⌊x⌋ else ⌈x⌉

/-- What a random source, or a clock, will answer, one call after another. -/
abbrev Draws := ℕ → ℚ

/-- The answers that are left after one call. -/
def Draws.tail (d : Draws) : Draws := fun n => d (n + 1)

/-- `ecn_codepoint`: the two ECN bits of the IP header. -/
inductive Ecn where
  | notEct
  | ect1
  | ect0
  | ce
  deriving DecidableEq, Repr

/-- `ip_pkt`. -/
structure IpPkt where
  currentT : ℚ
  ipT : ℚ
  tOut : ℚ
  size : ℚ
  originalSize : ℚ
  uid : UInt32
  prevUid : UInt32
  isFragment : Bool
  fragsCreated : ℕ := 0
  fragsRecovered : ℕ := 0
  backhaulD : ℚ
  backhaulDVar : ℚ
  isHead : Bool := true
  erase : Bool := false
  ecn : Ecn := .notEct
  originalEcn : Ecn := .notEct
  ceMarked : Bool := false
  aqmDropped : Bool := false
  deriving DecidableEq, Repr

namespace IpPkt

/-- The constructor that names the predecessor. -/
def make (currentT size originalSize : ℚ) (prevUid uid : UInt32)
    (backhaulD backhaulDVar : ℚ) : IpPkt where
  currentT := currentT
  ipT := currentT
  tOut := currentT
  size := size
  originalSize := originalSize
  uid := uid
  prevUid := prevUid
  isFragment := decide (size ≠ originalSize)
  backhaulD := backhaulD
  backhaulDVar := backhaulDVar

/-- The constructor that takes the predecessor to be `uid - 1`. -/
def makeNext (currentT size originalSize : ℚ) (uid : UInt32)
    (backhaulD backhaulDVar : ℚ) : IpPkt :=
  make currentT size originalSize (uid - 1) uid backhaulD backhaulDVar

/-- `ip_pkt::is_ready`. -/
def isReady (p : IpPkt) : Bool := decide (|p.size - p.originalSize| ≤ bitRoundMargin)

/-- `dualpi2_queue::is_l4s`, which reads nothing but the packet. -/
def isL4s (p : IpPkt) : Bool := p.ecn == .ect1 || p.ecn == .ce

theorem isL4s_iff {p : IpPkt} : p.isL4s = true ↔ p.ecn = .ect1 ∨ p.ecn = .ce := by
  simp [isL4s]

theorem isReady_iff {p : IpPkt} :
    p.isReady = true ↔ |p.size - p.originalSize| ≤ bitRoundMargin := by
  simp [isReady]

end IpPkt

/-- `harq_pkt`: the block one grant carries. -/
structure HarqPkt where
  ipT : ℚ := 0
  currentT : ℚ := 0
  distance : ℚ := 0
  dropped : Bool := false
  nTx : ℕ := 0
  tOut : ℚ := 0
  mcsI : ℤ := -1
  bits : ℚ := 0
  backhaulD : ℚ := 0
  backhaulDVar : ℚ := 0
  id : ℤ := 0
  pkts : List IpPkt := []
  deriving DecidableEq, Repr

namespace HarqPkt

/-- The constructor with arguments.  `_distance` is an `int` there. -/
def make (id : ℤ) (ipT cT : ℚ) (mcs distance : ℤ) (bits backhaulD backhaulDVar : ℚ) :
    HarqPkt where
  id := id
  currentT := cT
  ipT := ipT
  tOut := cT
  distance := distance
  mcsI := mcs
  nTx := 0
  dropped := false
  bits := bits
  backhaulD := backhaulD
  backhaulDVar := backhaulDVar
  pkts := []

/-- `harq_pkt::set_delay`. -/
def setDelay (b : HarqPkt) (delay : ℚ) : HarqPkt := { b with tOut := b.currentT + delay }

@[simp] theorem make_pkts (id : ℤ) (ipT cT : ℚ) (mcs distance : ℤ) (bits bh bhv : ℚ) :
    (make id ipT cT mcs distance bits bh bhv).pkts = [] := rfl

@[simp] theorem make_ipT (id : ℤ) (ipT cT : ℚ) (mcs distance : ℤ) (bits bh bhv : ℚ) :
    (make id ipT cT mcs distance bits bh bhv).ipT = ipT := rfl

@[simp] theorem setDelay_pkts (b : HarqPkt) (d : ℚ) : (b.setDelay d).pkts = b.pkts := rfl

@[simp] theorem setDelay_ipT (b : HarqPkt) (d : ℚ) : (b.setDelay d).ipT = b.ipT := rfl

end HarqPkt

end NetworkEmulator
