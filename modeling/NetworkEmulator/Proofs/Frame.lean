/-
What the IP buffer leaves alone while it moves packets.

Taking packets out of the buffer and putting them back touches the packets of one backend
and the sizes and times noted for them.  `SameFrame` is the rest.  The loop of `get_pkts` is
unfolded here for all that its passes keep one by one: `LoopRules` lists what a pass does.
-/
import NetworkEmulator.Model.IpBuffer

namespace NetworkEmulator

namespace DualPi2Queue

/-- `step` moves no packet. -/
theorem step_queues (q : DualPi2Queue) (t : ℚ) :
    (q.step t).lQueue = q.lQueue ∧ (q.step t).cQueue = q.cQueue := by
  simp only [step, maybeUpdatePi]
  split <;> exact ⟨rfl, rfl⟩

/-- A classic packet goes to the back of the classic queue. -/
theorem enqueue_classic (q : DualPi2Queue) {p : IpPkt} (hp : p.isL4s = false) :
    (q.enqueue p).lQueue = q.lQueue ∧ (q.enqueue p).cQueue = q.cQueue ++ [p] := by
  unfold enqueue
  rw [if_neg (by simp [hp])]
  exact ⟨rfl, rfl⟩

end DualPi2Queue

namespace IpBuffer

/-- Two states of a buffer that differ in the packets of its backend only, and in the
sizes and times noted for them. -/
structure SameFrame (b b' : IpBuffer) : Prop where
  verbosity : b'.verbosity = b.verbosity
  maxSize : b'.maxSize = b.maxSize
  eMean : b'.eMean = b.eMean
  l4sCfg : b'.l4sCfg = b.l4sCfg
  plain : b.l4sCfg.enabled = true → b'.pktList = b.pktList
  dual : b.l4sCfg.enabled = false → b'.l4sQueue = b.l4sQueue

namespace SameFrame

variable {b b' b'' : IpBuffer}

theorem refl (b : IpBuffer) : SameFrame b b := ⟨rfl, rfl, rfl, rfl, fun _ => rfl, fun _ => rfl⟩

theorem trans (h : SameFrame b b') (h' : SameFrame b' b'') : SameFrame b b'' where
  verbosity := h'.verbosity.trans h.verbosity
  maxSize := h'.maxSize.trans h.maxSize
  eMean := h'.eMean.trans h.eMean
  l4sCfg := h'.l4sCfg.trans h.l4sCfg
  plain henabled := by
    have henabled' : b'.l4sCfg.enabled = true := by rw [h.l4sCfg, henabled]
    exact (h'.plain henabled').trans (h.plain henabled)
  dual henabled := by
    have henabled' : b'.l4sCfg.enabled = false := by rw [h.l4sCfg, henabled]
    exact (h'.dual henabled').trans (h.dual henabled)

/-- A change of the DualPI2 queue, which is in use. -/
theorem of_dual (henabled : b.l4sCfg.enabled = true) (q : DualPi2Queue) (size : ℚ) :
    SameFrame b { b with l4sQueue := q, currentSize := size } where
  verbosity := rfl
  maxSize := rfl
  eMean := rfl
  l4sCfg := rfl
  plain _ := rfl
  dual hplain := by
    rw [henabled] at hplain
    cases hplain

/-- A change of the deque, which is in use. -/
theorem of_plain (hplain : ¬b.l4sCfg.enabled = true) (l : List IpPkt) :
    SameFrame b { b with pktList := l } where
  verbosity := rfl
  maxSize := rfl
  eMean := rfl
  l4sCfg := rfl
  plain henabled := absurd henabled hplain
  dual _ := rfl

end SameFrame

/-! ### The backend -/

/-- The front of the deque comes next. -/
theorem backendPopNext_plain {b : IpBuffer} (hplain : b.l4sCfg.enabled = false) {p : IpPkt}
    {rest : List IpPkt} (hlist : b.pktList = p :: rest) :
    b.backendPopNext = (some p, { b with pktList := rest }) := by
  simp only [backendPopNext, hplain, Bool.false_eq_true, if_false, popFront, hlist]

theorem backendRequeueFront_dual {b : IpBuffer} (hdual : b.l4sCfg.enabled = true) (p : IpPkt) :
    b.backendRequeueFront p = { b with l4sQueue := b.l4sQueue.enqueue p } := by
  simp only [backendRequeueFront, hdual, if_true]

/-- The remainder of a packet goes in front of the others. -/
theorem backendRequeueFront_plain {b : IpBuffer} (hplain : b.l4sCfg.enabled = false) {p : IpPkt}
    (hp : p.size ≤ p.originalSize ∧ p.isFragment = true) :
    b.backendRequeueFront p = { b with pktList := p :: b.pktList } := by
  simp only [backendRequeueFront, hplain, Bool.false_eq_true, if_false, if_pos hp]

theorem popFront_frame {b : IpBuffer} (hplain : ¬b.l4sCfg.enabled = true) :
    SameFrame b b.popFront.2 := by
  unfold popFront
  split
  · exact .refl b
  · exact .of_plain hplain _

theorem backendPopNext_frame (b : IpBuffer) : SameFrame b b.backendPopNext.2 := by
  unfold backendPopNext
  split
  · rename_i henabled
    exact .of_dual henabled _ _
  · rename_i hplain
    exact popFront_frame hplain

theorem backendPopOldest_frame (b : IpBuffer) : SameFrame b b.backendPopOldest.2 := by
  unfold backendPopOldest
  split
  · rename_i henabled
    split
    · exact .refl b
    · exact .of_dual henabled _ _
  · rename_i hplain
    exact popFront_frame hplain

theorem backendRequeueFront_frame (b : IpBuffer) (p : IpPkt) :
    SameFrame b (b.backendRequeueFront p) := by
  unfold backendRequeueFront
  split
  · rename_i henabled
    exact .of_dual henabled _ _
  · rename_i hplain
    split
    · exact .of_plain hplain _
    · exact .of_plain hplain _

/-! ### The loop of `get_pkts` -/

/-- What is kept by the passes of the loop.  `I bits b out` is about a buffer `b` that may
still hand out `bits`, and the block `out` as far as it is filled. -/
structure LoopRules (I : ℚ → IpBuffer → HarqPkt → Prop) : Prop where
  /-- The backend gives nothing. -/
  nothing : ∀ {bits b b' out}, I bits b out → b.backendPopNext = (none, b') → I bits b' out
  /-- A packet that fits goes out whole. -/
  whole : ∀ {bits b b' out p}, I bits b out → b.backendPopNext = (some p, b') → p.size ≤ bits →
    I (bits - p.size) { b' with oldestT := p.currentT }
      { out with bits := out.bits + p.size, pkts := out.pkts ++ [p.whole] }
  /-- One that does not fit is cut, and what is left of it goes back. -/
  piece : ∀ {bits b b' out p}, I bits b out → 0 < bits → b.backendPopNext = (some p, b') →
    bits < p.size → I 0 (b'.backendRequeueFront (p.piece (p.size - bits)))
      { out with bits := out.bits + bits, pkts := out.pkts ++ [p.piece bits] }

variable {I : ℚ → IpBuffer → HarqPkt → Prop}

/-- **What the passes keep, the loop keeps.** -/
theorem getPktsLoop_rule (hI : LoopRules I) (n : ℕ) :
    ∀ (bits : ℚ) (b : IpBuffer) (out : HarqPkt), I bits b out →
      ∃ left, I left (getPktsLoop n bits b out).1 (getPktsLoop n bits b out).2 := by
  induction n with
  | zero => intro bits b out h; exact ⟨bits, h⟩
  | succ n ih =>
      intro bits b out h
      simp only [getPktsLoop]
      split
      · rename_i hgo
        split
        · rename_i b₁ hpop
          exact ⟨bits, hI.nothing h hpop⟩
        · rename_i p b₁ hpop
          split
          · rename_i hfits
            have hnext := hI.whole h hpop hfits
            split
            · exact ⟨_, hnext⟩
            · exact ih _ _ _ hnext
          · rename_i hcut
            exact ⟨0, hI.piece h hgo.1 hpop (not_le.mp hcut)⟩
      · exact ⟨bits, h⟩

/-- So does `get_pkts`, which takes the bits of the block off the size noted. -/
theorem getPkts_rule (hI : LoopRules I) (b : IpBuffer) (grant : ℚ) (out : HarqPkt)
    (h : I (⌊grant⌋ : ℤ) b { out with bits := 0 }) :
    ∃ left b', I left b' (b.getPkts grant out).2 ∧ (b.getPkts grant out).1
      = { b' with currentSize := subClamped b'.currentSize (b.getPkts grant out).2.bits } := by
  obtain ⟨left, hleft⟩ := getPktsLoop_rule hI b.backendSize _ _ _ h
  exact ⟨left, _, hleft, rfl⟩

/-! ### The buffer -/

theorem getPkts_frame (b : IpBuffer) (grant : ℚ) (out : HarqPkt) :
    SameFrame b (b.getPkts grant out).1 := by
  have hrules : LoopRules fun _ b' _ => SameFrame b b' := by
    refine ⟨fun {_ b₁ b₂ _} h hpop => ?_, fun {_ b₁ b₂ _ _} h hpop _ => ?_,
      fun {_ b₁ b₂ _ _} h _ hpop _ => ?_⟩
    all_goals
      have hnext := h.trans (backendPopNext_frame b₁)
      rw [hpop] at hnext
    · exact hnext
    · exact ⟨hnext.verbosity, hnext.maxSize, hnext.eMean, hnext.l4sCfg, hnext.plain, hnext.dual⟩
    · exact hnext.trans (backendRequeueFront_frame b₂ _)
  obtain ⟨_, b', h, heq⟩ := getPkts_rule hrules b grant out (.refl b)
  rw [heq]
  exact ⟨h.verbosity, h.maxSize, h.eMean, h.l4sCfg, h.plain, h.dual⟩

/-- What `pop_oldest_pkt` takes is the backend's oldest. -/
theorem popOldestPkt_eq_some {b b' : IpBuffer} {out out' : HarqPkt}
    (h : b.popOldestPkt out = some (b', out')) :
    ∃ p b₁, b.backendPopOldest = (some p, b₁) ∧
      b' = { b₁ with
        currentSize := subClamped b₁.currentSize p.size
        oldestT := if b₁.backendHasPkts then b₁.backendOldestTimestamp else b₁.currentT } ∧
      out' = { out with bits := p.size, pkts := [p] } := by
  unfold popOldestPkt at h
  split at h
  · split at h
    · cases h
    · rename_i p b₁ hb₁
      obtain ⟨rfl, rfl⟩ := Prod.mk.inj (Option.some.inj h)
      exact ⟨p, b₁, hb₁, rfl, rfl⟩
  · cases h

theorem popOldestPkt_frame {b b' : IpBuffer} {out out' : HarqPkt}
    (h : b.popOldestPkt out = some (b', out')) : SameFrame b b' := by
  have hpop := backendPopOldest_frame b
  obtain ⟨p, b₁, hb₁, rfl, -⟩ := popOldestPkt_eq_some h
  rw [hb₁] at hpop
  exact ⟨hpop.verbosity, hpop.maxSize, hpop.eMean, hpop.l4sCfg, hpop.plain, hpop.dual⟩

/-- What `pop_aqm_dropped_pkt` takes was dropped first. -/
theorem popAqmDroppedPkt_eq_some {b b' : IpBuffer} {out out' : HarqPkt}
    (h : b.popAqmDroppedPkt out = some (b', out')) :
    ∃ p rest, b.l4sCfg.enabled = true ∧ b.l4sQueue.droppedQueue = p :: rest ∧
      b' = { b with
        l4sQueue := { b.l4sQueue with droppedQueue := rest }
        currentSize := subClamped b.currentSize p.size } ∧
      out' = { out with
        bits := p.size
        ipT := p.ipT
        currentT := b.currentT
        tOut := b.currentT
        pkts := [p] } := by
  unfold popAqmDroppedPkt at h
  split at h
  · rename_i henabled
    cases hd : b.l4sQueue.droppedQueue with
    | nil => simp [DualPi2Queue.popDroppedPkt, hd] at h
    | cons p rest =>
        simp only [DualPi2Queue.popDroppedPkt, hd, Option.some.injEq, Prod.mk.injEq] at h
        exact ⟨p, rest, henabled, rfl, h.1.symm, h.2.symm⟩
  · cases h

theorem popAqmDroppedPkt_frame {b b' : IpBuffer} {out out' : HarqPkt}
    (h : b.popAqmDroppedPkt out = some (b', out')) : SameFrame b b' := by
  obtain ⟨p, rest, henabled, -, rfl, -⟩ := popAqmDroppedPkt_eq_some h
  exact .of_dual henabled _ _

/-- A packet is refused exactly when it does not fit, and then nothing else changes. -/
theorem addPkt_refused (b : IpBuffer) (p : IpPkt) :
    ((b.addPkt p).1 = false ↔ b.maxSize < b.currentSize + p.size) ∧
      ((b.addPkt p).1 = false →
        (b.addPkt p).2 = { b with eMean := b.eMean.addIf b.verbosity p.size }) := by
  unfold addPkt
  by_cases hfull : b.maxSize < b.currentSize + p.size
  · rw [if_pos hfull]
    exact ⟨⟨fun _ => hfull, fun _ => rfl⟩, fun _ => rfl⟩
  · rw [if_neg hfull]
    exact ⟨⟨fun hno => absurd hno (by simp), fun hno => absurd hno hfull⟩,
      fun hno => absurd hno (by simp)⟩

/-- A packet that is admitted goes to the backend. -/
theorem addPkt_frame {b : IpBuffer} {p : IpPkt} (hok : (b.addPkt p).1 = true) :
    SameFrame b (b.addPkt p).2 := by
  have hback (b' : IpBuffer) (h : SameFrame b b') : SameFrame b (b'.backendRequeueFront p) :=
    h.trans (backendRequeueFront_frame b' p)
  unfold addPkt at hok ⊢
  by_cases hfull : b.maxSize < b.currentSize + p.size
  · rw [if_pos hfull] at hok
    cases hok
  · rw [if_neg hfull]
    simp only
    split
    · exact hback _ ⟨rfl, rfl, rfl, rfl, fun _ => rfl, fun _ => rfl⟩
    · exact hback _ ⟨rfl, rfl, rfl, rfl, fun _ => rfl, fun _ => rfl⟩

end IpBuffer

end NetworkEmulator
