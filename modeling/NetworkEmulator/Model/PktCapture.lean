/-
The capture side of `include/netfilter/pkt_capture.h`.

The netfilter callback stores each packet's payload and queues its description;
the packet handler takes descriptions off the queue and later calls `verdict`,
which tells netfilter what to do with the packet and forgets its payload.  Every
function of the source holds the mutex from its first line to its last, so each is
one step.

`captureLog`, `verdicts` and `nfReleased` are history variables: what was captured,
the calls of `verdict`, and what was handed to `netfilter_interface`.  Nothing in
the model reads them.
-/
import NetworkEmulator.Model.Pkts

namespace NetworkEmulator

/-- The value of `ecn_codepoint`. -/
def Ecn.code : Ecn → UInt8
  | .notEct => 0
  | .ect1 => 1
  | .ect0 => 2
  | .ce => 3

/-- `captured_packet_info`.  `bytes` is the length of an IP packet, at most 65535,
so neither its conversion to `int` nor the later `* 8` can overflow. -/
structure CapturedPacketInfo where
  bytes : ℕ
  pktId : UInt32
  ecn : Ecn
  deriving DecidableEq, Repr

/-- What `nfq_packet_metadata` tells about a packet. -/
structure NfqPacketMetadata where
  bytes : ℕ
  pktId : UInt32
  ecn : Ecn
  payload : List UInt8
  deriving DecidableEq, Repr

/-- `packet_capture_action`. -/
inductive PacketCaptureAction where
  | accept
  | acceptCe
  | drop
  deriving DecidableEq, Repr

/-- `stored_payload`. -/
structure StoredPayload where
  payload : List UInt8
  originalEcn : Ecn
  deriving DecidableEq, Repr

/-- A call of `netfilter_interface_release_pkt`, or of the variant that carries a
new payload. -/
structure NfRelease where
  pktId : UInt32
  accept : Bool
  payload : Option (List UInt8)
  deriving DecidableEq, Repr

/-! ### Rewriting the ECN bits of a payload -/

/-- The sum of the 16-bit words of `ipv4_checksum`, an odd last byte padded. -/
def wordSum : List UInt8 → UInt32 → UInt32
  | [], sum => sum
  | [a], sum => sum + (a.toUInt32 <<< 8)
  | a :: b :: rest, sum => wordSum rest (sum + ((a.toUInt32 <<< 8) ||| b.toUInt32))

/-- `while(sum >> 16) sum = (sum & 0xffff) + (sum >> 16);` -/
def foldCarry : ℕ → UInt32 → UInt32
  | 0, sum => sum
  | n + 1, sum =>
    if sum >>> 16 = 0 then sum else foldCarry n ((sum &&& (0xffff : UInt32)) + (sum >>> 16))

/-- `ipv4_checksum`.  Two rounds clear the upper half of any 32-bit sum. -/
def ipv4Checksum (data : List UInt8) : UInt16 := (~~~(foldCarry 3 (wordSum data 0))).toUInt16

/-- `apply_ipv4_ecn`. -/
def applyIpv4Ecn (payload : List UInt8) (ecn : UInt8) : List UInt8 :=
  if payload.length < 20 then payload
  else
    let ihl := (payload.getD 0 0 &&& (0x0f : UInt8)) * 4
    if ihl < 20 ∨ payload.length < ihl.toNat then payload
    else
      let payload := payload.set 1
        ((payload.getD 1 0 &&& (0xfc : UInt8)) ||| (ecn &&& (0x03 : UInt8)))
      let payload := (payload.set 10 0).set 11 0
      let csum := ipv4Checksum (payload.take ihl.toNat)
      (payload.set 10 (csum >>> 8).toUInt8).set 11 (csum &&& (0xff : UInt16)).toUInt8

/-! ### The capture -/

/-- `pkt_capture`. -/
structure PktCapture where
  payloads : UInt32 → Option StoredPayload := fun _ => none
  capturedPackets : List CapturedPacketInfo := []
  captureLog : List CapturedPacketInfo := []
  verdicts : List (UInt32 × PacketCaptureAction) := []
  nfReleased : List NfRelease := []

namespace PktCapture

/-- `enqueue_captured_packet`. -/
def enqueueCapturedPacket (c : PktCapture) (info : CapturedPacketInfo) (payload : List UInt8)
    (originalEcn : Ecn) : PktCapture :=
  { c with
    payloads := Function.update c.payloads info.pktId (some ⟨payload, originalEcn⟩)
    capturedPackets := c.capturedPackets ++ [info]
    captureLog := c.captureLog ++ [info] }

/-- `handle_capture`, the netfilter callback. -/
def handleCapture (c : PktCapture) (m : NfqPacketMetadata) : PktCapture :=
  c.enqueueCapturedPacket ⟨m.bytes, m.pktId, m.ecn⟩ m.payload m.ecn

/-- `pop_captured_packet`. -/
def popCapturedPacket (c : PktCapture) : Option (CapturedPacketInfo × PktCapture) :=
  match c.capturedPackets with
  | [] => none
  | info :: rest => some (info, { c with capturedPackets := rest })

/-- What `pop_captured_packet` takes stood first, and only the queue changes. -/
theorem popCapturedPacket_eq_some {c c' : PktCapture} {info : CapturedPacketInfo}
    (hpop : c.popCapturedPacket = some (info, c')) :
    ∃ rest, c.capturedPackets = info :: rest ∧ c' = { c with capturedPackets := rest } := by
  unfold popCapturedPacket at hpop
  split at hpop
  · cases hpop
  · rename_i x rest hq
    obtain ⟨rfl, rfl⟩ := Prod.mk.inj (Option.some.inj hpop)
    exact ⟨rest, hq, rfl⟩

/-- Handing a packet back to netfilter and forgetting its payload. -/
def releaseTo (c : PktCapture) (r : NfRelease) : PktCapture :=
  { c with
    payloads := Function.update c.payloads r.pktId none
    nfReleased := c.nfReleased ++ [r] }

/-- `verdict`.  An `ACCEPT_CE` whose payload is missing falls back to a drop. -/
def verdict (c : PktCapture) (pktId : UInt32) (action : PacketCaptureAction) : PktCapture :=
  let c := { c with verdicts := c.verdicts ++ [(pktId, action)] }
  match action with
  | .drop => c.releaseTo ⟨pktId, false, none⟩
  | .accept => c.releaseTo ⟨pktId, true, none⟩
  | .acceptCe =>
    match c.payloads pktId with
    | none => { c with nfReleased := c.nfReleased ++ [⟨pktId, false, none⟩] }
    | some stored =>
      c.releaseTo ⟨pktId, true, some (applyIpv4Ecn stored.payload Ecn.ce.code)⟩

@[simp] theorem verdict_verdicts (c : PktCapture) (u : UInt32) (a : PacketCaptureAction) :
    (c.verdict u a).verdicts = c.verdicts ++ [(u, a)] := by
  cases a <;> simp only [verdict, releaseTo]
  split <;> rfl

@[simp] theorem verdict_capturedPackets (c : PktCapture) (u : UInt32) (a : PacketCaptureAction) :
    (c.verdict u a).capturedPackets = c.capturedPackets := by
  cases a <;> simp only [verdict, releaseTo]
  split <;> rfl

@[simp] theorem verdict_captureLog (c : PktCapture) (u : UInt32) (a : PacketCaptureAction) :
    (c.verdict u a).captureLog = c.captureLog := by
  cases a <;> simp only [verdict, releaseTo]
  split <;> rfl

end PktCapture

end NetworkEmulator
