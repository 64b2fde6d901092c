/-
`handle_pkt` returns.

Its loop goes on while blocks come out empty or expired, so the measure is what the IP
buffer holds: each waiting packet counts 1 and its size rounded up.  A grant of at
least one bit takes a packet, lets the AQM drop one, or cuts at least one bit off one,
so every pass lowers the measure.  A smaller grant is rounded down to nothing, and the
loop of the source does not end.
-/
import NetworkEmulator.Proofs.Custody

namespace NetworkEmulator

/-- What a waiting packet counts: 1 and its size rounded up. -/
def IpPkt.load (p : IpPkt) : ℕ := 1 + ⌈p.size⌉₊

/-- What all waiting packets count. -/
def Shelf.load (s : Shelf) : ℕ := weight IpPkt.load s.waiting

/-- A subgroup of 0 alone leaves no room for a cut. -/
private theorem respects_load :
    Respects Retag (Cut ⊥) Never (fun _ => True) Eq IpPkt.load where
  relabel _ hr := by cases hr <;> rfl
  cut _ hc := by
    obtain ⟨hpos, -, hmem⟩ := hc
    exact absurd (AddSubgroup.mem_bot.mp hmem) hpos.ne'
  join _ _ hj := hj.elim

/-- Packets handed out or dropped whole no longer count. -/
private theorem load_yields {s s' : Shelf} {out : List IpPkt} (h : Shelf.Yields ⊥ s s' out) :
    s'.load + weight IpPkt.load out ≤ s.load := by
  obtain ⟨ds, -, -, -, hr⟩ := h
  have hw := hr.weight_eq (.trivial ..) respects_load fun _ _ => trivial
  simp only [weight_append] at hw
  unfold Shelf.load
  omega

namespace DualPi2Queue

theorem hasPkts_popHead {q : DualPi2Queue} (h : q.hasPkts = true) :
    q.popHead.isSome = true := by
  cases hl : q.lQueue <;> cases hc : q.cQueue <;>
    cases hch : q.chooseL4s <;> simp_all [popHead, takeFrom, hasPkts]

/-- `pop_next` on a queue that holds something takes or drops at least one packet. -/
theorem popNext_load {q : DualPi2Queue} (h : q.hasPkts = true) :
    q.popNext.2.shelf.load < q.shelf.load := by
  have hsize : q.size = (q.size - 1) + 1 := by
    have hne : q.size ≠ 0 := by
      cases hl : q.lQueue <;> cases hc : q.cQueue <;> simp_all [size, hasPkts]
    omega
  rw [popNext, hsize, popNextLoop]
  obtain ⟨⟨p, q₁⟩, htake⟩ := Option.isSome_iff_exists.mp (hasPkts_popHead h)
  obtain ⟨hperm, -, -⟩ := popHead_spec htake
  have hone : q₁.shelf.load + p.load = q.shelf.load := by
    rw [Shelf.load, Shelf.load, weight_perm hperm, weight_cons, add_comm]
  have hp : 0 < p.load := by unfold IpPkt.load; omega
  rw [htake]
  rcases examine_spec q₁ p with ⟨p', q₂, hex, -, hsame⟩ | ⟨q₂, hex, -, hw, -, -⟩
  · simp only [hex, shelf_updateSnapshot, hsame]
    omega
  · have hrest := load_yields (popNextLoop_yields ⊥ (q.size - 1) q₂)
    have hsame : q₂.shelf.load = q₁.shelf.load := by rw [Shelf.load, hw, Shelf.load]
    simp only [hex]
    omega

end DualPi2Queue

namespace IpBuffer

theorem shelf_load (b : IpBuffer) :
    b.shelf.load = weight IpPkt.load b.pktList + b.l4sQueue.shelf.load := by
  simp [Shelf.load, shelf]

private theorem backendPopNext_load {b : IpBuffer} (h : b.backendHasPkts = true) :
    b.backendPopNext.2.shelf.load < b.shelf.load := by
  unfold backendHasPkts at h
  unfold backendPopNext
  split at h
  · have hq := DualPi2Queue.popNext_load h
    simp only [shelf_load]
    rw [if_pos ‹_›]
    exact Nat.add_lt_add_left hq _
  · rw [if_neg ‹_›]
    cases hl : b.pktList with
    | nil => simp [hl] at h
    | cons p rest =>
        have hp : 0 < p.load := by unfold IpPkt.load; omega
        simp only [popFront, hl, shelf_load, weight_cons]
        omega

theorem backendRequeueFront_load (b : IpBuffer) (p : IpPkt) :
    (b.backendRequeueFront p).shelf.load = p.load + b.shelf.load := by
  rw [Shelf.load, Shelf.load, weight_perm (backendRequeueFront_waiting b p), weight_cons]

/-- No pass of `get_pkts` adds to the load. -/
private theorem loopRules_load (most : ℕ) : LoopRules fun _ b _ => b.shelf.load ≤ most where
  nothing {bits b b' out} h hpop := by
    have hload := load_yields (backendPopNext_yields ⊥ b)
    rw [hpop] at hload
    exact ((Nat.le_add_right _ _).trans hload).trans h
  whole {bits b b' out p} h hpop _ := by
    have hload := load_yields (backendPopNext_yields ⊥ b)
    rw [hpop] at hload
    exact ((Nat.le_add_right _ _).trans hload).trans h
  piece {bits b b' out p} h hpos hpop _ := by
    have hload := load_yields (backendPopNext_yields ⊥ b)
    rw [hpop] at hload
    simp only [Option.toList_some, weight_singleton] at hload
    have hceil : ⌈p.size - bits⌉₊ ≤ ⌈p.size⌉₊ := Nat.ceil_mono (by linarith)
    rw [backendRequeueFront_load]
    simp only [IpPkt.load, IpPkt.piece] at hload ⊢
    omega

private theorem getPktsLoop_load (n : ℕ) (bits : ℚ) (b : IpBuffer) (out : HarqPkt) :
    (getPktsLoop n bits b out).1.shelf.load ≤ b.shelf.load := by
  obtain ⟨_, hload⟩ := getPktsLoop_rule (loopRules_load b.shelf.load) n bits b out le_rfl
  exact hload

theorem backendHasPkts_size {b : IpBuffer} (h : b.backendHasPkts = true) :
    b.backendSize = (b.backendSize - 1) + 1 := by
  have hne : b.backendSize ≠ 0 := by
    unfold backendHasPkts at h
    unfold backendSize
    split
    · rw [if_pos ‹_›] at h
      cases hl : b.l4sQueue.lQueue <;> cases hc : b.l4sQueue.cQueue <;>
        simp_all [DualPi2Queue.size, DualPi2Queue.hasPkts]
    · rw [if_neg ‹_›] at h
      cases hl : b.pktList <;> simp_all
  omega

/-- A grant of at least one bit lowers the load of a buffer that holds something. -/
theorem getPkts_load {b : IpBuffer} {grant : ℚ} (hgrant : 1 ≤ grant)
    (h : b.backendHasPkts = true) (out : HarqPkt) :
    (b.getPkts grant out).1.shelf.load < b.shelf.load := by
  have hbits : (1 : ℚ) ≤ ((⌊grant⌋ : ℤ) : ℚ) := by
    have hone : (1 : ℤ) ≤ ⌊grant⌋ := Int.le_floor.mpr (by simpa using hgrant)
    exact_mod_cast hone
  change (getPktsLoop b.backendSize ((⌊grant⌋ : ℤ) : ℚ) b { out with bits := 0 }).1.shelf.load < _
  generalize ((⌊grant⌋ : ℤ) : ℚ) = bits at hbits
  rw [backendHasPkts_size h, getPktsLoop, if_pos ⟨by linarith, h⟩]
  have hpop := load_yields (backendPopNext_yields ⊥ b)
  have hlt := backendPopNext_load h
  split
  · rename_i b₁ hb₁
    rw [hb₁] at hlt
    exact hlt
  · rename_i p b₁ hb₁
    rw [hb₁] at hlt hpop
    simp only [Option.toList_some, weight_singleton] at hpop
    simp only
    split
    · split
      · exact hlt
      · exact lt_of_le_of_lt (getPktsLoop_load _ _ _ _) hlt
    · rename_i hcut
      -- the cut takes a whole bit, so the remainder counts less than the packet did
      have hceil : ⌈p.size - bits⌉₊ + 1 ≤ ⌈p.size⌉₊ := by
        have hpos : 0 ≤ p.size - bits := by linarith
        rw [← Nat.ceil_add_one hpos]
        exact Nat.ceil_mono (by linarith)
      rw [backendRequeueFront_load]
      simp only [IpPkt.load, IpPkt.piece] at hpop ⊢
      omega

end IpBuffer

namespace PdcpLayer

variable {H Env In : Type} [PacketHandler H Env In]

private theorem drainAqmLoop_eq (n : ℕ) :
    ∀ s : PdcpLayer H, ∃ dropped size h, s.drainAqmLoop n = { s with
      ipBuffer := { s.ipBuffer with
        l4sQueue := { s.ipBuffer.l4sQueue with droppedQueue := dropped }, currentSize := size }
      packetH := h } := by
  induction n with
  | zero => intro s; exact ⟨_, _, _, rfl⟩
  | succ n ih =>
      intro s
      simp only [drainAqmLoop]
      split
      · exact ⟨_, _, _, rfl⟩
      · rename_i b dropped hpop
        obtain ⟨d, size, h, heq⟩ := ih { s with
          ipBuffer := b
          packetH := PacketHandler.drop (PacketHandler.recordError s.packetH dropped.bits) dropped }
        obtain ⟨p, rest, -, -, rfl, -⟩ := IpBuffer.popAqmDroppedPkt_eq_some hpop
        exact ⟨d, size, h, heq⟩

/-- Draining the AQM dropped queue changes nothing but that queue, the buffer's size
and the handler. -/
theorem drainAqm_eq (s : PdcpLayer H) : ∃ dropped size h, s.drainAqm = { s with
    ipBuffer := { s.ipBuffer with
      l4sQueue := { s.ipBuffer.l4sQueue with droppedQueue := dropped }, currentSize := size }
    packetH := h } := drainAqmLoop_eq _ s

/-- What `fetch` leaves: the buffer `get_pkts` left, up to what the drain changes. -/
theorem fetch_eq (s : PdcpLayer H) (bits : ℚ) (mcs distance : ℤ) :
    ∃ dropped size h, (s.fetch bits mcs distance).2 = { s with
      currentId := s.currentId + 1
      ipBuffer := { (s.ipBuffer.getPkts bits
            (s.newBlock s.ipBuffer.getOldestTimestamp mcs distance)).1 with
          l4sQueue := { (s.ipBuffer.getPkts bits
            (s.newBlock s.ipBuffer.getOldestTimestamp mcs distance)).1.l4sQueue with
              droppedQueue := dropped }
          currentSize := size }
      packetH := h } := drainAqm_eq _

private theorem fetch_load {s : PdcpLayer H} {bits : ℚ} (mcs distance : ℤ) (hbits : 1 ≤ bits)
    (h : s.ipBuffer.backendHasPkts = true) :
    (s.fetch bits mcs distance).2.ipBuffer.shelf.load < s.ipBuffer.shelf.load := by
  obtain ⟨d, size, hd, heq⟩ := fetch_eq s bits mcs distance
  rw [heq]
  exact IpBuffer.getPkts_load hbits h _

theorem fetch_harq (s : PdcpLayer H) (bits : ℚ) (mcs distance : ℤ) :
    (s.fetch bits mcs distance).2.harqBuffer = s.harqBuffer := by
  obtain ⟨d, size, hd, heq⟩ := fetch_eq s bits mcs distance
  rw [heq]

/-- The loop returns when its bound exceeds the load. -/
private theorem handleLoop_returns {bits : ℚ} (mcs : ℤ) (sinr distance : ℚ) (hbits : 1 ≤ bits)
    (n : ℕ) : ∀ s : PdcpLayer H, s.harqBuffer.isPktReady = false → s.ipBuffer.shelf.load < n →
      (handleLoop bits mcs sinr distance n s).isSome = true := by
  induction n with
  | zero => intro s _ h; omega
  | succ n ih =>
      intro s hharq hload
      simp only [handleLoop]
      split
      · rename_i hgo
        have hhas : s.ipBuffer.backendHasPkts = true := by
          simpa [hasPkts, hharq, IpBuffer.hasPkts] using hgo.2
        have hlt := fetch_load mcs (truncToInt distance) hbits hhas
        have hharq₁ := fetch_harq s bits mcs (truncToInt distance)
        generalize (s.fetch bits mcs (truncToInt distance)).1 = b
        generalize (s.fetch bits mcs (truncToInt distance)).2 = s₁ at hlt hharq₁
        have hready : s₁.harqBuffer.isPktReady = false := by rw [hharq₁]; exact hharq
        split
        · exact ih s₁ hready (by omega)
        · split
          · exact ih _ hready (lt_of_lt_of_le hlt (by omega))
          · split <;> rfl
      · rfl

private theorem handleLoop_mono (bits : ℚ) (mcs : ℤ) (sinr distance : ℚ) (n : ℕ) :
    ∀ {s : PdcpLayer H} {r : ℚ × PdcpLayer H}, handleLoop bits mcs sinr distance n s = some r →
      handleLoop bits mcs sinr distance (n + 1) s = some r := by
  induction n with
  | zero => intro s r h; simp [handleLoop] at h
  | succ n ih =>
      intro s r h
      rw [handleLoop] at h ⊢
      split
      · rename_i hgo
        rw [if_pos hgo] at h
        generalize (s.fetch bits mcs (truncToInt distance)) = x at h ⊢
        obtain ⟨b, s₁⟩ := x
        simp only at h ⊢
        split
        · rw [if_pos ‹_›] at h
          exact ih h
        · rw [if_neg ‹_›] at h
          split
          · rw [if_pos ‹_›] at h
            exact ih h
          · rw [if_neg ‹_›] at h
            exact h
      · rename_i hstop
        rwa [if_neg hstop] at h

/-- A grant in an event is at least one bit. -/
def Event.Grants : Event Env In → Prop
  | .handlePkt bits _ _ _ => 1 ≤ bits
  | _ => True

/-- **`handle_pkt` returns on a grant of at least one bit**, and a larger bound on its
loop changes nothing. -/
theorem handlePkt_returns (s : PdcpLayer H) {bits : ℚ} (hbits : 1 ≤ bits) (mcs : ℤ)
    (sinr distance : ℚ) : ∃ r, ∃ fuel₀, ∀ fuel ≥ fuel₀,
      s.handlePkt fuel bits mcs sinr distance = some r := by
  unfold handlePkt
  split
  · rename_i hready
    have hget : ∃ b hq, s.harqBuffer.getPkt = some (b, hq) := by
      unfold HarqHandler.getPkt
      rw [if_pos hready]
      cases hbuf : s.harqBuffer.harqBuffer with
      | nil => simp [HarqHandler.isPktReady, hbuf] at hready
      | cons b rest => cases rest <;> exact ⟨_, _, rfl⟩
    obtain ⟨b, hq, hget⟩ := hget
    simp only [hget]
    split
    · split <;> exact ⟨_, 0, fun _ _ => rfl⟩
    · exact ⟨_, 0, fun _ _ => rfl⟩
  · rename_i hharq
    split
    · have hsome := handleLoop_returns mcs sinr distance hbits (s.ipBuffer.shelf.load + 1) s
        (by simpa using hharq) (Nat.lt_succ_self _)
      obtain ⟨r, hr⟩ := Option.isSome_iff_exists.mp hsome
      refine ⟨r, s.ipBuffer.shelf.load + 1, fun fuel hfuel => ?_⟩
      induction fuel, hfuel using Nat.le_induction with
      | base => exact hr
      | succ n _ ih => exact handleLoop_mono bits mcs sinr distance n ih
    · exact ⟨_, 0, fun fuel _ => rfl⟩

/-- **A run whose grants are at least one bit completes.** -/
theorem exec_returns (es : List (Event Env In)) (hes : ∀ e ∈ es, Event.Grants e) :
    ∀ s : PdcpLayer H, ∃ s', ∃ fuel₀, ∀ fuel ≥ fuel₀, s.exec fuel es = some s' := by
  induction es with
  | nil => intro s; exact ⟨s, 0, fun _ _ => rfl⟩
  | cons e es ih =>
      intro s
      have hstep : ∃ s₁, ∃ fuel₀, ∀ fuel ≥ fuel₀, s.apply fuel e = some s₁ := by
        cases e with
        | env e => exact ⟨_, 0, fun _ _ => rfl⟩
        | step t i => exact ⟨_, 0, fun _ _ => rfl⟩
        | release => exact ⟨_, 0, fun _ _ => rfl⟩
        | handlePkt bits mcs sinr distance =>
            obtain ⟨r, fuel₀, hr⟩ := handlePkt_returns s
              (hes (.handlePkt bits mcs sinr distance) (List.mem_cons_self ..)) mcs sinr distance
            exact ⟨r.2, fuel₀, fun fuel hfuel => by simp only [apply, hr fuel hfuel]; rfl⟩
      obtain ⟨s₁, fuel₁, h₁⟩ := hstep
      obtain ⟨s', fuel₂, h₂⟩ := ih (fun e he => hes e (List.mem_cons_of_mem _ he)) s₁
      refine ⟨s', max fuel₁ fuel₂, fun fuel hfuel => ?_⟩
      exact Runs.runAll_cons.mpr ⟨s₁, h₁ fuel (le_of_max_le_left hfuel),
        h₂ fuel (le_of_max_le_right hfuel)⟩

end PdcpLayer

end NetworkEmulator
