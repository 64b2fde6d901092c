/-
The plain IP buffer is a queue of bits.

`get_pkts` takes whole packets off the front while the grant lasts, cuts the one on
which it ends, and puts the remainder back with the function `add_pkt` uses for fresh
packets.  That the remainder goes to the head and the fresh packets to the back is
decided by a flag and a comparison of sizes.  `IpPkt.Fresh` and `IpPkt.Segmentable`, which
every cut keeps, are what makes it come out right.

A bit is known by the packet it belongs to: `IpPkt.origin` is what the fragments of a
packet have in common.  The loop is a `Segment` of the packets, so that in bits
`get_pkts` is `take` and `drop`, and a run of the buffer is one of a `Fifo`.
-/
import NetworkEmulator.Library.Segmentation
import NetworkEmulator.Model.PacketHandler
import NetworkEmulator.Proofs.Frame

namespace NetworkEmulator

open Segmentation

/-! ### Packets of whole bits -/

namespace IpPkt

/-- What the fragments of a packet have in common. -/
def origin (p : IpPkt) : IpPkt := { p with size := 0, isFragment := false, fragsCreated := 0 }

/-- `get_pkts` sends a packet whole, or in pieces. -/
def cutter : Cutter IpPkt IpPkt where
  size p := ⌊p.size⌋₊
  label := origin
  whole := IpPkt.whole
  piece p k := p.piece k
  size_whole _ := rfl
  label_whole _ := rfl
  size_piece _ k := Nat.floor_natCast k
  label_piece _ _ := rfl

/-- A packet or a fragment of one, of so many bits and no half ones. -/
structure Segmentable (p : IpPkt) : Prop where
  whole : (⌊p.size⌋₊ : ℚ) = p.size
  fits : p.size ≤ p.originalSize

/-- The rest of a packet. -/
theorem Segmentable.rest {p : IpPkt} (h : p.Segmentable) {k : ℕ} (hlt : k < ⌊p.size⌋₊) :
    p.piece ((⌊p.size⌋₊ - k : ℕ) : ℚ) = p.piece (p.size - k) := by
  rw [Nat.cast_sub hlt.le, h.whole]

theorem Segmentable.piece {p : IpPkt} (h : p.Segmentable) {k : ℕ} (hle : k ≤ ⌊p.size⌋₊) :
    (p.piece (k : ℚ)).Segmentable := by
  refine ⟨?_, ?_⟩
  · show ((⌊(k : ℚ)⌋₊ : ℕ) : ℚ) = k
    rw [Nat.floor_natCast]
  · show (k : ℚ) ≤ p.originalSize
    have hk : (k : ℚ) ≤ p.size := by
      rw [← h.whole]
      exact_mod_cast hle
    exact hk.trans h.fits

end IpPkt

/-- The bits of some packets, each known by the packet it belongs to. -/
def bitStream (pkts : List IpPkt) : List IpPkt := IpPkt.cutter.stream pkts

theorem length_bitStream {pkts : List IpPkt} (h : ∀ p ∈ pkts, p.Segmentable) :
    ((bitStream pkts).length : ℚ) = weight IpPkt.size pkts := by
  rw [bitStream, IpPkt.cutter.length_stream]
  induction pkts with
  | nil => simp
  | cons p rest ih =>
      rw [weight_cons, weight_cons, Nat.cast_add,
        ih fun x hx => h x (List.mem_cons_of_mem _ hx)]
      congr 1
      exact (h p (List.mem_cons_self ..)).whole

namespace IpBuffer

/-- The plain buffer, and all its packets of whole bits. -/
structure PlainBits (b : IpBuffer) : Prop where
  plain : b.l4sCfg.enabled = false
  whole : ∀ p ∈ b.pktList, p.Segmentable

/-! ### The loop -/

/-- What filling a block does to the buffer and to the block. -/
structure Sends (k : ℕ) (b b' : IpBuffer) (out out' : HarqPkt) (sent : List IpPkt) : Prop where
  segment : IpPkt.cutter.Segment k b.pktList sent b'.pktList
  block : out' = { out with bits := out.bits + weight IpPkt.size sent, pkts := out.pkts ++ sent }
  plain : b'.l4sCfg = b.l4sCfg

theorem Sends.stop {k : ℕ} {b : IpBuffer} (out : HarqPkt) (h : k = 0 ∨ b.pktList = []) :
    Sends k b b out out [] :=
  ⟨.stop h, by simp, rfl⟩

/-- One packet goes whole, and the rest of the grant is sent after it. -/
theorem Sends.whole {k : ℕ} {b b' : IpBuffer} {p : IpPkt} {rest sent : List IpPkt}
    {out out' : HarqPkt} (hlist : b.pktList = p :: rest)
    (hle : ⌊p.size⌋₊ ≤ k) (h : Sends (k - ⌊p.size⌋₊)
      { b with pktList := rest, oldestT := p.currentT } b'
      { out with bits := out.bits + p.size, pkts := out.pkts ++ [p.whole] } out' sent) :
    Sends k b b' out out' (p.whole :: sent) := by
  refine ⟨?_, ?_, h.plain⟩
  · rw [hlist]
    exact Cutter.Segment.whole (c := IpPkt.cutter) hle h.segment
  · rw [h.block, weight_cons]
    simp [IpPkt.whole, add_assoc]

/-- The grant ends inside a packet. -/
theorem Sends.cut {k : ℕ} {b : IpBuffer} {p : IpPkt} {rest : List IpPkt} (out : HarqPkt)
    (hplain : b.l4sCfg.enabled = false) (hlist : b.pktList = p :: rest) (hp : p.Segmentable)
    (hpos : 0 < k) (hlt : k < ⌊p.size⌋₊) :
    Sends k b ({ b with pktList := rest }.backendRequeueFront (p.piece (p.size - k))) out
      { out with bits := out.bits + k, pkts := out.pkts ++ [p.piece k] } [p.piece k] := by
  have hfront : (p.piece (p.size - k)).size ≤ (p.piece (p.size - k)).originalSize ∧
      (p.piece (p.size - k)).isFragment = true := by
    refine ⟨?_, rfl⟩
    show p.size - k ≤ p.originalSize
    have hk : (0 : ℚ) ≤ k := Nat.cast_nonneg k
    linarith [hp.fits]
  rw [backendRequeueFront_plain (b := { b with pktList := rest }) hplain hfront]
  refine ⟨?_, ?_, rfl⟩
  · rw [hlist, ← hp.rest hlt]
    exact Cutter.Segment.cut (c := IpPkt.cutter) rest hpos hlt
  · rw [weight_singleton]
    rfl

private theorem getPktsLoop_sends (n : ℕ) :
    ∀ (k : ℕ) (b : IpBuffer) (out : HarqPkt), b.PlainBits → b.pktList.length ≤ n →
      ∃ sent, Sends k b (getPktsLoop n k b out).1 out (getPktsLoop n k b out).2 sent := by
  induction n with
  | zero =>
      intro k b out _ hlen
      exact ⟨[], .stop out (Or.inr (List.length_eq_zero_iff.mp (by omega)))⟩
  | succ n ih =>
      intro k b out hb hlen
      cases hlist : b.pktList with
      | nil =>
          have hhas : b.backendHasPkts = false := by
            simp [backendHasPkts, hb.plain, hlist]
          rw [getPktsLoop, if_neg (by simp [hhas])]
          exact ⟨[], .stop out (Or.inr hlist)⟩
      | cons p rest =>
          have hhas : b.backendHasPkts = true := by
            simp [backendHasPkts, hb.plain, hlist]
          have hpop := backendPopNext_plain hb.plain hlist
          have hp : p.Segmentable := hb.whole p (by rw [hlist]; exact List.mem_cons_self ..)
          have hrest : PlainBits { b with pktList := rest, oldestT := p.currentT } :=
            ⟨hb.plain, fun x hx => hb.whole x (by rw [hlist]; exact List.mem_cons_of_mem _ hx)⟩
          have hlenRest : rest.length ≤ n := by
            rw [hlist, List.length_cons] at hlen
            omega
          by_cases hk : k = 0
          · rw [getPktsLoop, if_neg (by simp [hk])]
            exact ⟨[], .stop out (Or.inl hk)⟩
          · have hpos : 0 < k := by omega
            rw [getPktsLoop, if_pos ⟨by exact_mod_cast hpos, hhas⟩, hpop]
            simp only
            by_cases hle : ⌊p.size⌋₊ ≤ k
            · have hsize : p.size ≤ (k : ℚ) := by
                rw [← hp.whole]
                exact_mod_cast hle
              have hleft : (k : ℚ) - p.size = ((k - ⌊p.size⌋₊ : ℕ) : ℚ) := by
                rw [Nat.cast_sub hle, hp.whole]
              rw [if_pos hsize, hleft]
              split
              · -- less than a bit is left, so nothing is
                rename_i hmargin
                have hzero : k - ⌊p.size⌋₊ = 0 := by
                  have hone : ((k - ⌊p.size⌋₊ : ℕ) : ℚ) < 1 := by
                    refine lt_of_le_of_lt hmargin ?_
                    norm_num [bitRoundMargin]
                  exact_mod_cast Nat.lt_one_iff.mp (by exact_mod_cast hone)
                exact ⟨[p.whole], .whole hlist hle (.stop _ (Or.inl hzero))⟩
              · obtain ⟨sent, hsent⟩ := ih (k - ⌊p.size⌋₊) _
                  { out with bits := out.bits + p.size, pkts := out.pkts ++ [p.whole] } hrest
                  hlenRest
                exact ⟨p.whole :: sent, .whole hlist hle hsent⟩
            · have hlt : k < ⌊p.size⌋₊ := by omega
              have hsize : ¬ p.size ≤ (k : ℚ) := by
                rw [not_le, ← hp.whole]
                exact_mod_cast hlt
              rw [if_neg hsize]
              exact ⟨[p.piece k], .cut out hb.plain hlist hp hpos hlt⟩

/-- What `get_pkts` leaves can be cut again. -/
theorem Sends.plainBits {k : ℕ} {b b' : IpBuffer} {out out' : HarqPkt} {sent : List IpPkt}
    (h : Sends k b b' out out' sent) (hb : b.PlainBits) : b'.PlainBits := by
  refine ⟨by rw [h.plain]; exact hb.plain, ?_⟩
  refine h.segment.forall_left hb.whole fun p j hp _ hlt => ?_
  exact hp.piece (k := ⌊p.size⌋₊ - j) (Nat.sub_le _ _)

/-- The bits of a grant. -/
theorem floor_grant (grant : ℚ) (b : IpBuffer) (out : HarqPkt) :
    getPktsLoop b.backendSize ((⌊grant⌋ : ℤ) : ℚ) b out
      = getPktsLoop b.backendSize ((⌊grant⌋₊ : ℕ) : ℚ) b out := by
  by_cases hneg : ⌊grant⌋ < 0
  · have hzero : ⌊grant⌋₊ = 0 := by
      rw [Nat.floor_eq_zero]
      have hlt : grant < 0 := by
        have hfloor := Int.floor_lt.mp hneg
        exact_mod_cast hfloor
      linarith
    -- a negative grant, like none, ends the loop before its first pass
    have hstop : ∀ n, getPktsLoop n ((⌊grant⌋ : ℤ) : ℚ) b out = (b, out) := by
      intro n
      cases n with
      | zero => rfl
      | succ n =>
          have hno : ¬ (0 : ℚ) < ((⌊grant⌋ : ℤ) : ℚ) := by
            rw [not_lt]
            exact_mod_cast hneg.le
          rw [getPktsLoop, if_neg fun h => hno h.1]
    have hstop' : ∀ n, getPktsLoop n ((0 : ℕ) : ℚ) b out = (b, out) := by
      intro n
      cases n with
      | zero => rfl
      | succ n => rw [getPktsLoop, if_neg (by simp)]
    rw [hstop, hzero, hstop']
  · have hfloor : ((⌊grant⌋₊ : ℕ) : ℤ) = ⌊grant⌋ := by
      rw [← Int.floor_toNat]
      omega
    rw [← hfloor]
    norm_cast

theorem getPkts_sends {b : IpBuffer} (hb : b.PlainBits) (grant : ℚ) (out : HarqPkt) :
    ∃ sent, Sends ⌊grant⌋₊ b (b.getPkts grant out).1 { out with bits := 0 }
      (b.getPkts grant out).2 sent := by
  have hsize : b.backendSize = b.pktList.length := by
    simp [backendSize, hb.plain]
  obtain ⟨sent, hsent⟩ := getPktsLoop_sends b.backendSize ⌊grant⌋₊ b { out with bits := 0 } hb
    hsize.ge
  rw [← floor_grant] at hsent
  exact ⟨sent, hsent.segment, hsent.block, hsent.plain⟩

/-! ### One grant -/

/-- The bits a grant carries: the whole ones of it, as far as the queue has them. -/
def carried (b : IpBuffer) (grant : ℚ) : ℕ := min ⌊grant⌋₊ (bitStream b.pktList).length

/-- **What `get_pkts` makes of a queue of bits**, with the packets it puts in the block. -/
structure Segments (b : IpBuffer) (grant : ℚ) (b' : IpBuffer) (bits : ℚ) (sent : List IpPkt) :
    Prop where
  /-- The answer: the grant's whole bits, or all the bits there are. -/
  amount : bits = min (⌊grant⌋₊ : ℚ) (weight IpPkt.size b.pktList)
  /-- It is what the packets in the block have together. -/
  total : bits = weight IpPkt.size sent
  /-- They are the first bits of the queue. -/
  first : bitStream sent = (bitStream b.pktList).take (b.carried grant)
  /-- The other bits stay queued. -/
  rest : bitStream b'.pktList = (bitStream b.pktList).drop (b.carried grant)
  /-- Every packet goes whole, except possibly the last, whose remainder is at the head. -/
  whole : (∃ front, b.pktList = front ++ b'.pktList ∧ sent = front.map IpPkt.whole) ∨
    ∃ front p left j, b.pktList = front ++ p :: left ∧ 0 < j ∧ j < p.size ∧
      sent = front.map IpPkt.whole ++ [p.piece j] ∧ b'.pktList = p.piece (p.size - j) :: left

theorem take_carried (b : IpBuffer) (grant : ℚ) :
    (bitStream b.pktList).take (b.carried grant) = (bitStream b.pktList).take ⌊grant⌋₊ :=
  List.take_eq_take_min.symm

theorem drop_carried (b : IpBuffer) (grant : ℚ) :
    (bitStream b.pktList).drop (b.carried grant) = (bitStream b.pktList).drop ⌊grant⌋₊ :=
  List.drop_eq_drop_min.symm

theorem Sends.segments {b b' : IpBuffer} {out out' : HarqPkt} {sent : List IpPkt} {grant : ℚ}
    (h : Sends ⌊grant⌋₊ b b' { out with bits := 0 } out' sent) (hb : b.PlainBits) :
    Segments b grant b' out'.bits sent := by
  have hbits : out'.bits = weight IpPkt.size sent := by
    rw [h.block]
    simp
  have hsent : ∀ p ∈ sent, p.Segmentable := by
    rcases h.segment.shape with ⟨front, hl, rfl⟩ | ⟨front, p, rest, j, hl, -, hlt, rfl, -⟩
    · intro x hx
      obtain ⟨y, hy, rfl⟩ := List.mem_map.mp hx
      have hp := hb.whole y (by rw [hl]; exact List.mem_append_left _ hy)
      exact ⟨hp.whole, hp.fits⟩
    · intro x hx
      rcases List.mem_append.mp hx with hx | hx
      · obtain ⟨y, hy, rfl⟩ := List.mem_map.mp hx
        have hp := hb.whole y (by rw [hl]; exact List.mem_append_left _ hy)
        exact ⟨hp.whole, hp.fits⟩
      · rw [List.mem_singleton.mp hx]
        have hp := hb.whole p (by rw [hl]; simp)
        exact hp.piece (k := j) hlt.le
  refine ⟨?_, hbits, ?_, ?_, ?_⟩
  · rw [hbits, ← length_bitStream hsent, ← length_bitStream hb.whole, bitStream,
      h.segment.stream_sent, List.length_take, Nat.cast_min]
    rfl
  · rw [take_carried]
    exact h.segment.stream_sent
  · rw [drop_carried]
    exact h.segment.stream_left
  · rcases h.segment.shape with ⟨front, hl, hs⟩ | ⟨front, p, left, j, hl, hpos, hlt, hs, hleft⟩
    · exact Or.inl ⟨front, hl, hs⟩
    · have hp := hb.whole p (by rw [hl]; simp)
      refine Or.inr ⟨front, p, left, (j : ℚ), hl, by exact_mod_cast hpos, ?_, hs, ?_⟩
      · rw [← hp.whole]
        exact_mod_cast hlt
      · rw [← hp.rest hlt]
        exact hleft

/-! ### Runs -/

/-- A use of the buffer. -/
inductive BufferUse where
  | addPkt (p : IpPkt)
  | getPkts (grant : ℚ)

/-- A buffer, the packets it has admitted and the packets its blocks have got. -/
structure Carrying where
  buffer : IpBuffer
  added : List IpPkt := []
  sent : List IpPkt := []

/-- One use. -/
def Carrying.apply (s : Carrying) : BufferUse → Carrying
  | .addPkt p =>
    { s with
      buffer := (s.buffer.addPkt p).2
      added := if (s.buffer.addPkt p).1 then s.added ++ [p] else s.added }
  | .getPkts grant =>
    { s with
      buffer := (s.buffer.getPkts grant {}).1
      sent := s.sent ++ (s.buffer.getPkts grant {}).2.pkts }

/-- A fresh packet of whole bits comes in. -/
def BufferUse.Valid : BufferUse → Prop
  | .addPkt p => p.Fresh ∧ (⌊p.size⌋₊ : ℚ) = p.size
  | .getPkts _ => True

/-- The buffer as a queue of bits. -/
def Carrying.bits (s : Carrying) : Fifo IpPkt :=
  ⟨bitStream s.buffer.pktList, bitStream s.added, bitStream s.sent⟩

/-- The same use of the queue of bits. -/
def Carrying.useOf (s : Carrying) : BufferUse → Use IpPkt
  | .addPkt p => .put (if (s.buffer.addPkt p).1 then bitStream [p] else [])
  | .getPkts grant => .take ⌊grant⌋₊

/-- A fresh packet goes to the back, or the buffer refuses it. -/
theorem addPkt_plain {b : IpBuffer} {p : IpPkt} (hplain : b.l4sCfg.enabled = false)
    (hp : p.isFragment = false) : (b.addPkt p).2.l4sCfg = b.l4sCfg ∧
      (b.addPkt p).2.pktList = if (b.addPkt p).1 then b.pktList ++ [p] else b.pktList := by
  unfold addPkt
  split
  · exact ⟨rfl, rfl⟩
  · simp only [if_true]
    split <;> simp [backendRequeueFront, hplain, hp]

/-- **The buffer does to its packets what the queue of bits does to its bits.** -/
theorem Carrying.apply_bits {s : Carrying} (hs : s.buffer.PlainBits) {c : BufferUse}
    (hc : c.Valid) : (s.apply c).buffer.PlainBits ∧ (s.apply c).bits = s.bits.use (s.useOf c) := by
  cases c with
  | addPkt p =>
      obtain ⟨hfresh, hwhole⟩ := hc
      obtain ⟨hcfg, hlist⟩ := addPkt_plain hs.plain hfresh.notFragment
      refine ⟨⟨by rw [Carrying.apply, hcfg]; exact hs.plain, ?_⟩, ?_⟩
      · show ∀ x ∈ (s.buffer.addPkt p).2.pktList, x.Segmentable
        intro x hx
        rw [hlist] at hx
        split at hx
        · rcases List.mem_append.mp hx with hx | hx
          · exact hs.whole x hx
          · rw [List.mem_singleton.mp hx]
            exact ⟨hwhole, hfresh.whole.le⟩
        · exact hs.whole x hx
      · simp only [Carrying.bits, Carrying.apply, Carrying.useOf, Fifo.use, hlist]
        split <;> simp [bitStream]
  | getPkts grant =>
      obtain ⟨sent, hsent⟩ := getPkts_sends hs grant {}
      have hpkts : (s.buffer.getPkts grant {}).2.pkts = sent := by
        rw [hsent.block]
        rfl
      refine ⟨hsent.plainBits hs, ?_⟩
      simp only [Carrying.bits, Carrying.apply, Carrying.useOf, Fifo.use, hpkts, bitStream,
        IpPkt.cutter.stream_append, hsent.segment.stream_sent, hsent.segment.stream_left]

theorem Carrying.foldl_bits {start : List IpPkt} (calls : List BufferUse) :
    ∀ s : Carrying, s.buffer.PlainBits → s.bits.Kept start → (∀ c ∈ calls, c.Valid) →
      (calls.foldl Carrying.apply s).buffer.PlainBits ∧
        (calls.foldl Carrying.apply s).bits.Kept start := by
  induction calls with
  | nil => intro s hs hkept _; exact ⟨hs, hkept⟩
  | cons c rest ih =>
      intro s hs hkept hvalid
      obtain ⟨hplain, hbits⟩ := Carrying.apply_bits hs (hvalid c (List.mem_cons_self ..))
      refine ih (s.apply c) hplain ?_ fun c' hc' => hvalid c' (List.mem_cons_of_mem _ hc')
      rw [hbits]
      exact hkept.use _

/-- **`get_pkts` sends a prefix of the queued bits**, whatever is queued and whatever is
granted, and so after any uses what the blocks got, followed by what is still queued, is
what was queued at first, followed by what was admitted. -/
theorem segmentation_of_bits (b : IpBuffer) (hb : b.PlainBits) (calls : List BufferUse)
    (hcalls : ∀ c ∈ calls, c.Valid) :
    (∀ (grant : ℚ) (out : HarqPkt), ∃ sent, (b.getPkts grant out).2.pkts = out.pkts ++ sent ∧
      Segments b grant (b.getPkts grant out).1 (b.getPkts grant out).2.bits sent) ∧
    bitStream (calls.foldl Carrying.apply { buffer := b }).sent
        ++ bitStream (calls.foldl Carrying.apply { buffer := b }).buffer.pktList
      = bitStream b.pktList
        ++ bitStream (calls.foldl Carrying.apply { buffer := b }).added := by
  refine ⟨fun grant out => ?_, ?_⟩
  · obtain ⟨sent, hsent⟩ := getPkts_sends hb grant out
    refine ⟨sent, ?_, hsent.segments hb⟩
    rw [hsent.block]
  · have hstart : ({ buffer := b } : Carrying).bits.Kept (bitStream b.pktList) := by
      show [] ++ bitStream b.pktList = bitStream b.pktList ++ []
      simp
    exact (Carrying.foldl_bits calls { buffer := b } hb hstart hcalls).2

/-- Two packets and two grants, the first of which ends inside the second packet. -/
def cuttingCalls : List BufferUse :=
  [.addPkt (IpPkt.makeNext 0 1000 1000 1 0 0), .addPkt (IpPkt.makeNext 0 1000 1000 2 0 0),
    .getPkts (3001 / 2), .getPkts 2000]

theorem segmentation_of_bits_cut : ({} : IpBuffer).PlainBits ∧
    (∀ c ∈ cuttingCalls, c.Valid) ∧
    bitStream (cuttingCalls.foldl Carrying.apply { buffer := {} }).sent
        ++ bitStream (cuttingCalls.foldl Carrying.apply { buffer := {} }).buffer.pktList
      = bitStream (cuttingCalls.foldl Carrying.apply { buffer := {} }).added := by
  have hb : ({} : IpBuffer).PlainBits := by
    refine ⟨rfl, fun p hp => ?_⟩
    cases hp
  have hfresh (u : UInt32) : (IpPkt.makeNext 0 1000 1000 u 0 0).Fresh := by
    refine ⟨?_, rfl, ?_, rfl, rfl⟩
    · show (0 : ℚ) ≤ 1000
      norm_num
    · simp [IpPkt.makeNext, IpPkt.make]
  have hwhole (u : UInt32) : (⌊(IpPkt.makeNext 0 1000 1000 u 0 0).size⌋₊ : ℚ)
      = (IpPkt.makeNext 0 1000 1000 u 0 0).size := by
    show (⌊(1000 : ℚ)⌋₊ : ℚ) = 1000
    norm_num
  have hcalls : ∀ c ∈ cuttingCalls, c.Valid := by
    intro c hc
    simp only [cuttingCalls, List.mem_cons, List.not_mem_nil, or_false] at hc
    rcases hc with rfl | rfl | rfl | rfl
    · exact ⟨hfresh 1, hwhole 1⟩
    · exact ⟨hfresh 2, hwhole 2⟩
    · trivial
    · trivial
  exact ⟨hb, hcalls, (segmentation_of_bits {} hb cuttingCalls hcalls).2⟩

example : (cuttingCalls.foldl Carrying.apply { buffer := {} }).sent.map
    (fun p => (p.size, p.isFragment)) = [(1000, false), (500, true), (500, false)] := by
  decide +kernel

end IpBuffer

end NetworkEmulator
