/-
What a DualPI2 queue keeps through any run of its operations.

Its fields repeat each other: the bits of a queue are the sizes of its packets, both
probabilities follow from `p_base`, and the running totals are the intervals that were
asked for and the one that runs.  `Represents` says so.  An operation touches one of
three groups of fields: the two queues, the probabilities, or the totals; the lemmas are
one for each group, and `Sound.apply` puts them together.

The run also keeps what `pop_next` took off the queues, which the guard time is about.
-/
import NetworkEmulator.Library.Recut
import NetworkEmulator.Model.DualPi2

namespace NetworkEmulator

namespace DualPi2Queue

/-- A packet that `pop_next` took, when, and whether the L4S queue had packets then. -/
structure Dequeue where
  time : ℚ
  classic : Bool
  l4sWaiting : Bool
  deriving DecidableEq, Repr

/-- What a pass of `pop_next` that takes `p` off the queue `q` leaves on record. -/
def noted (q : DualPi2Queue) (p : IpPkt) : Dequeue :=
  ⟨q.currentT, !p.isL4s, !q.lQueue.isEmpty⟩

/-- What the passes of `pop_next` take: those the AQM drops, and the one it answers. -/
def dequeuesLoop : ℕ → DualPi2Queue → List Dequeue
  | 0, _ => []
  | n + 1, q =>
    match q.popHead with
    | none => []
    | some (p, q₁) =>
      q.noted p ::
        match q₁.examine p with
        | (some _, _) => []
        | (none, q₂) => dequeuesLoop n q₂

/-- What a call of `pop_next` takes. -/
def dequeues (q : DualPi2Queue) : List Dequeue := dequeuesLoop q.size q

/-- An operation on the queue. -/
inductive Call where
  | configure (cfg : DualPi2Config)
  | step (t : ℚ)
  | enqueue (p : IpPkt)
  | popNext
  | popOldest
  | popDroppedPkt
  | getIntervalStats

/-- A queue, the interval statistics it has returned, and what `pop_next` has taken. -/
structure Served where
  queue : DualPi2Queue
  intervals : List DualPi2Stats := []
  taken : List Dequeue := []

/-- One operation. -/
def Served.apply (s : Served) : Call → Served
  | .configure cfg => { s with queue := s.queue.configure cfg }
  | .step t => { s with queue := s.queue.step t }
  | .enqueue p => { s with queue := s.queue.enqueue p }
  | .popNext => { s with queue := s.queue.popNext.2, taken := s.taken ++ s.queue.dequeues }
  | .popOldest =>
    match s.queue.popOldest with
    | none => s
    | some (_, q) => { s with queue := q }
  | .popDroppedPkt =>
    match s.queue.popDroppedPkt with
    | none => s
    | some (_, q) => { s with queue := q }
  | .getIntervalStats =>
    { s with
      queue := s.queue.getIntervalStats.2
      intervals := s.intervals ++ [s.queue.getIntervalStats.1] }

/-- A run of operations, from an empty queue. -/
def serve (cfg : DualPi2Config) (unitDist : Draws) (calls : List Call) : Served :=
  calls.foldl Served.apply { queue := { cfg := cfg, unitDist := unitDist } }

/-- No packet has a negative size. -/
def Call.Valid : Call → Prop
  | .enqueue p => 0 ≤ p.size
  | _ => True

/-- **The fields of the queue agree with each other.** -/
structure Represents (s : Served) : Prop where
  l4s : ∀ p ∈ s.queue.lQueue, p.ecn = .ect1 ∨ p.ecn = .ce
  classic : ∀ p ∈ s.queue.cQueue, p.ecn = .notEct ∨ p.ecn = .ect0
  lBits : s.queue.lBits = weight IpPkt.size s.queue.lQueue
  cBits : s.queue.cBits = weight IpPkt.size s.queue.cQueue
  pBase : 0 ≤ s.queue.pBase ∧ s.queue.pBase ≤ 1
  pC : 0 ≤ s.queue.pC ∧ s.queue.pC ≤ 1 ∧ s.queue.pC = s.queue.pBase ^ 2
  pCl : 0 ≤ s.queue.pCl ∧ s.queue.pCl ≤ 1 ∧
    s.queue.pCl = min 1 (max 0 (s.queue.cfg.k * s.queue.pBase))
  cePackets : s.queue.totalStats.cePackets
    = weight DualPi2Stats.cePackets s.intervals + s.queue.intervalStats.cePackets
  ceBits : s.queue.totalStats.ceBits
    = weight DualPi2Stats.ceBits s.intervals + s.queue.intervalStats.ceBits
  aqmDrops : s.queue.totalStats.aqmDrops
    = weight DualPi2Stats.aqmDrops s.intervals + s.queue.intervalStats.aqmDrops
  aqmDropBits : s.queue.totalStats.aqmDropBits
    = weight DualPi2Stats.aqmDropBits s.intervals + s.queue.intervalStats.aqmDropBits

/-! ### The two queues -/

/-- The counter of a queue has the bits of its packets. -/
structure Filled (q : DualPi2Queue) : Prop where
  l4s : ∀ p ∈ q.lQueue, 0 ≤ p.size
  classic : ∀ p ∈ q.cQueue, 0 ≤ p.size
  lBits : q.lBits = weight IpPkt.size q.lQueue
  cBits : q.cBits = weight IpPkt.size q.cQueue

/-- The counter of a queue without its head. -/
theorem subClamped_head {p : IpPkt} {rest : List IpPkt} (h : ∀ x ∈ rest, 0 ≤ x.size) :
    subClamped (weight IpPkt.size (p :: rest)) p.size = weight IpPkt.size rest := by
  have hnonneg : 0 ≤ weight IpPkt.size rest := weight_nonneg h
  rw [subClamped, weight_cons, add_sub_cancel_left, if_neg (not_lt.mpr hnonneg)]

theorem Filled.takeFrom {q q' : DualPi2Queue} {l4s : Bool} {p : IpPkt} (h : Filled q)
    (htake : q.takeFrom l4s = some (p, q')) : Filled q' := by
  obtain ⟨-, rest, hq, rfl⟩ | ⟨-, rest, hq, rfl⟩ := DualPi2Queue.takeFrom_eq_some htake
  · have hl : ∀ x ∈ rest, 0 ≤ x.size := fun x hx =>
      h.l4s x (by rw [hq]; exact List.mem_cons_of_mem _ hx)
    refine ⟨hl, h.classic, ?_, h.cBits⟩
    rw [h.lBits, hq]
    exact subClamped_head hl
  · have hc : ∀ x ∈ rest, 0 ≤ x.size := fun x hx =>
      h.classic x (by rw [hq]; exact List.mem_cons_of_mem _ hx)
    refine ⟨h.l4s, hc, h.lBits, ?_⟩
    rw [h.cBits, hq]
    exact subClamped_head hc

theorem Filled.popHead {q q' : DualPi2Queue} {p : IpPkt} (h : Filled q)
    (hpop : q.popHead = some (p, q')) : Filled q' := by
  obtain ⟨l4s, htake⟩ := DualPi2Queue.popHead_eq_some hpop
  exact h.takeFrom htake

theorem Filled.enqueue {q : DualPi2Queue} {p : IpPkt} (h : Filled q) (hp : 0 ≤ p.size) :
    Filled (q.enqueue p) := by
  unfold DualPi2Queue.enqueue
  split
  · refine ⟨?_, h.classic, ?_, h.cBits⟩
    · intro x hx
      rcases List.mem_append.mp hx with hx | hx
      · exact h.l4s x hx
      · rw [List.mem_singleton.mp hx]
        exact hp
    · show q.lBits + p.size = weight IpPkt.size (q.lQueue ++ [p])
      rw [weight_append, weight_singleton, h.lBits]
  · refine ⟨h.l4s, ?_, h.lBits, ?_⟩
    · intro x hx
      rcases List.mem_append.mp hx with hx | hx
      · exact h.classic x hx
      · rw [List.mem_singleton.mp hx]
        exact hp
    · show q.cBits + p.size = weight IpPkt.size (q.cQueue ++ [p])
      rw [weight_append, weight_singleton, h.cBits]

/-! ### What the AQM leaves alone -/

/-- The fields that examining a packet does not touch. -/
structure Unmoved (q q' : DualPi2Queue) : Prop where
  lQueue : q'.lQueue = q.lQueue
  cQueue : q'.cQueue = q.cQueue
  lBits : q'.lBits = q.lBits
  cBits : q'.cBits = q.cBits
  cfg : q'.cfg = q.cfg
  pBase : q'.pBase = q.pBase
  pC : q'.pC = q.pC
  pCl : q'.pCl = q.pCl
  currentT : q'.currentT = q.currentT

theorem Unmoved.refl (q : DualPi2Queue) : Unmoved q q :=
  ⟨rfl, rfl, rfl, rfl, rfl, rfl, rfl, rfl, rfl⟩

theorem Unmoved.trans {q q' q'' : DualPi2Queue} (h : Unmoved q q') (h' : Unmoved q' q'') :
    Unmoved q q'' :=
  ⟨h'.lQueue.trans h.lQueue, h'.cQueue.trans h.cQueue, h'.lBits.trans h.lBits,
    h'.cBits.trans h.cBits, h'.cfg.trans h.cfg, h'.pBase.trans h.pBase, h'.pC.trans h.pC,
    h'.pCl.trans h.pCl, h'.currentT.trans h.currentT⟩

theorem Filled.unmoved {q q' : DualPi2Queue} (h : Filled q) (hu : Unmoved q q') : Filled q' := by
  refine ⟨?_, ?_, ?_, ?_⟩
  · rw [hu.lQueue]
    exact h.l4s
  · rw [hu.cQueue]
    exact h.classic
  · rw [hu.lBits, hu.lQueue]
    exact h.lBits
  · rw [hu.cBits, hu.cQueue]
    exact h.cBits

theorem unmoved_markLikelihood (q : DualPi2Queue) (x : ℚ) : Unmoved q (q.markLikelihood x).2 := by
  unfold markLikelihood
  split
  · exact .refl q
  · split
    · exact .refl q
    · exact ⟨rfl, rfl, rfl, rfl, rfl, rfl, rfl, rfl, rfl⟩

theorem unmoved_markCe (q : DualPi2Queue) (p : IpPkt) : Unmoved q (q.markCe p).2 := by
  unfold markCe
  split
  · exact .refl q
  · exact ⟨rfl, rfl, rfl, rfl, rfl, rfl, rfl, rfl, rfl⟩

theorem unmoved_updateSnapshot (q : DualPi2Queue) : Unmoved q q.updateSnapshot :=
  ⟨rfl, rfl, rfl, rfl, rfl, rfl, rfl, rfl, rfl⟩

/-- A relation between queues that holds of the small steps holds of `examine`. -/
theorem examine_rule {r : DualPi2Queue → DualPi2Queue → Prop}
    (htrans : ∀ {q q' q''}, r q q' → r q' q'' → r q q'')
    (hfield : ∀ (q : DualPi2Queue) (pL last : ℚ) (drops log : List IpPkt), r q { q with
      pLLast := pL, lastClassicDequeueT := last, droppedQueue := drops, dropLog := log })
    (hlikely : ∀ q x, r q (markLikelihood q x).2) (hmark : ∀ q p, r q (markCe q p).2)
    (hrecord : ∀ q p, r q (recordDrop q p)) (hsnap : ∀ q, r q (updateSnapshot q))
    (q : DualPi2Queue) (p : IpPkt) : r q (q.examine p).2 := by
  have hdraw {q₁ q₂ : DualPi2Queue} {x : ℚ} {b : Bool} (h : q₁.markLikelihood x = (b, q₂)) :
      r q₁ q₂ := by
    have hq := hlikely q₁ x
    rwa [h] at hq
  unfold examine
  split
  · simp only
    split
    · rename_i q₂ hq₂
      exact htrans (htrans (hfield q _ q.lastClassicDequeueT q.droppedQueue q.dropLog) (hdraw hq₂))
        (hmark q₂ p)
    · rename_i q₂ hq₂
      exact htrans (hfield q _ q.lastClassicDequeueT q.droppedQueue q.dropLog) (hdraw hq₂)
  · simp only
    split
    · rename_i q₂ hq₂
      have hq := htrans (hfield q q.pLLast q.currentT q.droppedQueue q.dropLog) (hdraw hq₂)
      split
      · exact htrans hq (hmark q₂ p)
      · refine htrans hq (htrans (hrecord q₂ { p with aqmDropped := true }) (htrans ?_ (hsnap _)))
        exact hfield _ q₂.pLLast q₂.lastClassicDequeueT _ _
    · rename_i q₂ hq₂
      exact htrans (hfield q q.pLLast q.currentT q.droppedQueue q.dropLog) (hdraw hq₂)

/-- And if it holds of taking a head, it holds of `pop_next`. -/
theorem popNextLoop_rule {r : DualPi2Queue → DualPi2Queue → Prop}
    (htrans : ∀ {q q' q''}, r q q' → r q' q'' → r q q'')
    (htake : ∀ {q q' l4s p}, takeFrom q l4s = some (p, q') → r q q')
    (hexamine : ∀ q p, r q (examine q p).2) (hsnap : ∀ q, r q (updateSnapshot q)) (n : ℕ) :
    ∀ q : DualPi2Queue, r q (popNextLoop n q).2 := by
  have hpop {q q' : DualPi2Queue} {p : IpPkt} (h : q.popHead = some (p, q')) : r q q' := by
    obtain ⟨l4s, hhead⟩ := popHead_eq_some h
    exact htake hhead
  induction n with
  | zero => intro q; exact hsnap q
  | succ n ih =>
      intro q
      simp only [popNextLoop]
      split
      · exact hsnap q
      · rename_i p q₁ htaken
        have hrel := htrans (hpop htaken) (hexamine q₁ p)
        split
        · rename_i p' q₂ hex
          rw [hex] at hrel
          exact htrans hrel (hsnap q₂)
        · rename_i q₂ hex
          rw [hex] at hrel
          exact htrans hrel (ih q₂)

theorem unmoved_examine (q : DualPi2Queue) (p : IpPkt) : Unmoved q (q.examine p).2 :=
  examine_rule (r := Unmoved) Unmoved.trans
    (fun _ _ _ _ _ => ⟨rfl, rfl, rfl, rfl, rfl, rfl, rfl, rfl, rfl⟩)
    unmoved_markLikelihood unmoved_markCe
    (fun _ _ => ⟨rfl, rfl, rfl, rfl, rfl, rfl, rfl, rfl, rfl⟩) unmoved_updateSnapshot q p

theorem Filled.popNextLoop (n : ℕ) :
    ∀ {q : DualPi2Queue}, Filled q → Filled (popNextLoop n q).2 := by
  induction n with
  | zero => intro q h; exact h.unmoved (unmoved_updateSnapshot q)
  | succ n ih =>
      intro q h
      simp only [DualPi2Queue.popNextLoop]
      split
      · exact h.unmoved (unmoved_updateSnapshot q)
      · rename_i p q₁ hpop
        have hfilled := (h.popHead hpop).unmoved (unmoved_examine q₁ p)
        split
        · rename_i p' q₂ hex
          rw [hex] at hfilled
          exact hfilled.unmoved (unmoved_updateSnapshot q₂)
        · rename_i q₂ hex
          rw [hex] at hfilled
          exact ih hfilled

/-! ### The classes -/

/-- Each queue holds packets of its own class. -/
structure Classed (q : DualPi2Queue) : Prop where
  l4s : ∀ p ∈ q.lQueue, p.isL4s = true
  classic : ∀ p ∈ q.cQueue, p.isL4s = false

/-- Packets only leave. -/
structure Shrinks (q q' : DualPi2Queue) : Prop where
  l4s : q'.lQueue.Sublist q.lQueue
  classic : q'.cQueue.Sublist q.cQueue

theorem Shrinks.trans {q q' q'' : DualPi2Queue} (h : Shrinks q q') (h' : Shrinks q' q'') :
    Shrinks q q'' :=
  ⟨h'.l4s.trans h.l4s, h'.classic.trans h.classic⟩

theorem Unmoved.shrinks {q q' : DualPi2Queue} (h : Unmoved q q') : Shrinks q q' :=
  ⟨h.lQueue ▸ List.Sublist.refl _, h.cQueue ▸ List.Sublist.refl _⟩

theorem Classed.shrinks {q q' : DualPi2Queue} (h : Classed q) (hs : Shrinks q q') :
    Classed q' :=
  ⟨fun p hp => h.l4s p (hs.l4s.subset hp), fun p hp => h.classic p (hs.classic.subset hp)⟩

theorem shrinks_takeFrom {q q' : DualPi2Queue} {l4s : Bool} {p : IpPkt}
    (h : q.takeFrom l4s = some (p, q')) : Shrinks q q' := by
  obtain ⟨-, rest, hq, rfl⟩ | ⟨-, rest, hq, rfl⟩ := takeFrom_eq_some h
  · exact ⟨hq ▸ List.sublist_cons_self p rest, List.Sublist.refl _⟩
  · exact ⟨List.Sublist.refl _, hq ▸ List.sublist_cons_self p rest⟩

theorem shrinks_popNext (q : DualPi2Queue) : Shrinks q q.popNext.2 :=
  popNextLoop_rule (r := Shrinks) Shrinks.trans shrinks_takeFrom
    (fun q p => (unmoved_examine q p).shrinks) (fun q => (unmoved_updateSnapshot q).shrinks)
    q.size q

theorem Classed.enqueue {q : DualPi2Queue} (h : Classed q) (p : IpPkt) :
    Classed (q.enqueue p) := by
  unfold DualPi2Queue.enqueue
  split
  · rename_i hl4s
    refine ⟨?_, h.classic⟩
    intro x hx
    rcases List.mem_append.mp hx with hx | hx
    · exact h.l4s x hx
    · rw [List.mem_singleton.mp hx]
      exact hl4s
  · rename_i hl4s
    refine ⟨h.l4s, ?_⟩
    intro x hx
    rcases List.mem_append.mp hx with hx | hx
    · exact h.classic x hx
    · rw [List.mem_singleton.mp hx]
      exact Bool.eq_false_iff.mpr hl4s

/-- The controller moves no packet. -/
theorem maybeUpdatePi_queues (q : DualPi2Queue) :
    q.maybeUpdatePi.lQueue = q.lQueue ∧ q.maybeUpdatePi.cQueue = q.cQueue ∧
      q.maybeUpdatePi.lBits = q.lBits ∧ q.maybeUpdatePi.cBits = q.cBits := by
  unfold maybeUpdatePi
  simp only
  split <;> exact ⟨rfl, rfl, rfl, rfl⟩

theorem shrinks_step (q : DualPi2Queue) (t : ℚ) : Shrinks q (q.step t) := by
  obtain ⟨hl, hc, -, -⟩ := maybeUpdatePi_queues { q with currentT := t }
  refine ⟨?_, ?_⟩
  · show ({ q with currentT := t } : DualPi2Queue).maybeUpdatePi.lQueue.Sublist q.lQueue
    rw [hl]
  · show ({ q with currentT := t } : DualPi2Queue).maybeUpdatePi.cQueue.Sublist q.cQueue
    rw [hc]

theorem Classed.apply {s : Served} (h : Classed s.queue) (c : Call) :
    Classed (s.apply c).queue := by
  cases c with
  | configure cfg => exact ⟨h.l4s, h.classic⟩
  | step t => exact h.shrinks (shrinks_step s.queue t)
  | enqueue p => exact h.enqueue p
  | popNext => exact h.shrinks (shrinks_popNext s.queue)
  | popOldest =>
      simp only [Served.apply, popOldest]
      cases htake : s.queue.takeFrom s.queue.oldestIsL4s with
      | none => exact h
      | some taken =>
          exact (h.shrinks (shrinks_takeFrom htake)).shrinks (unmoved_updateSnapshot _).shrinks
  | popDroppedPkt =>
      simp only [Served.apply, popDroppedPkt]
      split
      · exact h
      · rename_i p q hpop
        split at hpop
        · cases hpop
        · obtain ⟨-, rfl⟩ := Prod.mk.inj (Option.some.inj hpop)
          exact ⟨h.l4s, h.classic⟩
  | getIntervalStats => exact ⟨h.l4s, h.classic⟩

/-! ### The probabilities -/

/-- The probabilities follow from `p_base`. -/
structure Chances (q : DualPi2Queue) : Prop where
  pBase : 0 ≤ q.pBase ∧ q.pBase ≤ 1
  pC : q.pC = q.pBase ^ 2
  pCl : q.pCl = min 1 (max 0 (q.cfg.k * q.pBase))

/-- The queues differ in nothing that the probabilities are. -/
structure SameChances (q q' : DualPi2Queue) : Prop where
  cfg : q'.cfg = q.cfg
  pBase : q'.pBase = q.pBase
  pC : q'.pC = q.pC
  pCl : q'.pCl = q.pCl

theorem Chances.same {q q' : DualPi2Queue} (h : Chances q) (hs : SameChances q q') :
    Chances q' := by
  refine ⟨?_, ?_, ?_⟩
  · rw [hs.pBase]
    exact h.pBase
  · rw [hs.pC, hs.pBase]
    exact h.pC
  · rw [hs.pCl, hs.cfg, hs.pBase]
    exact h.pCl

theorem SameChances.trans {q q' q'' : DualPi2Queue} (h : SameChances q q')
    (h' : SameChances q' q'') : SameChances q q'' :=
  ⟨h'.cfg.trans h.cfg, h'.pBase.trans h.pBase, h'.pC.trans h.pC, h'.pCl.trans h.pCl⟩

theorem sameChances_takeFrom {q q' : DualPi2Queue} {l4s : Bool} {p : IpPkt}
    (h : q.takeFrom l4s = some (p, q')) : SameChances q q' := by
  obtain ⟨-, rest, -, rfl⟩ | ⟨-, rest, -, rfl⟩ := takeFrom_eq_some h
  · exact ⟨rfl, rfl, rfl, rfl⟩
  · exact ⟨rfl, rfl, rfl, rfl⟩

theorem sameChances_popNext (q : DualPi2Queue) : SameChances q q.popNext.2 := by
  refine popNextLoop_rule (r := SameChances) SameChances.trans sameChances_takeFrom
    (fun q p => ?_) (fun _ => ⟨rfl, rfl, rfl, rfl⟩) q.size q
  have h := unmoved_examine q p
  exact ⟨h.cfg, h.pBase, h.pC, h.pCl⟩

/-- Clamping the square of a probability does nothing. -/
theorem clamp_square {x : ℚ} (h0 : 0 ≤ x) (h1 : x ≤ 1) : min (max (x * x) 0) 1 = x ^ 2 := by
  have hsquare : x * x ≤ 1 := mul_le_one₀ h1 h0 h1
  rw [max_eq_left (mul_nonneg h0 h0), min_eq_left hsquare, sq]

/-- The update of the PI controller, whatever it has come to. -/
theorem Chances.clamped (q : DualPi2Queue) (x prevQ next : ℚ) : Chances { q with
    pBase := min (max x 0) 1
    pCl := min (max (min (max x 0) 1 * q.cfg.k) 0) 1
    pC := min (max (min (max x 0) 1 * min (max x 0) 1) 0) 1
    prevQ := prevQ, nextUpdateT := next } := by
  have hpos : 0 ≤ min (max x 0) 1 := le_min (le_max_right _ _) zero_le_one
  have hone : min (max x 0) 1 ≤ 1 := min_le_right _ _
  refine ⟨⟨hpos, hone⟩, clamp_square hpos hone, ?_⟩
  show min (max (min (max x 0) 1 * q.cfg.k) 0) 1 = min 1 (max 0 (q.cfg.k * min (max x 0) 1))
  rw [mul_comm, max_comm _ (0 : ℚ), min_comm _ (1 : ℚ)]

theorem Chances.maybeUpdatePi {q : DualPi2Queue} (h : Chances q) : Chances q.maybeUpdatePi := by
  unfold DualPi2Queue.maybeUpdatePi
  simp only
  split
  · exact h
  · exact .clamped q _ _ _

/-! ### The totals -/

/-- The running totals are the intervals returned and the one that runs. -/
structure Tally (q : DualPi2Queue) (intervals : List DualPi2Stats) : Prop where
  cePackets : q.totalStats.cePackets
    = weight DualPi2Stats.cePackets intervals + q.intervalStats.cePackets
  ceBits : q.totalStats.ceBits
    = weight DualPi2Stats.ceBits intervals + q.intervalStats.ceBits
  aqmDrops : q.totalStats.aqmDrops
    = weight DualPi2Stats.aqmDrops intervals + q.intervalStats.aqmDrops
  aqmDropBits : q.totalStats.aqmDropBits
    = weight DualPi2Stats.aqmDropBits intervals + q.intervalStats.aqmDropBits

/-- What is counted is counted in the totals and in the interval. -/
structure CountsAlike (q q' : DualPi2Queue) : Prop where
  tally : ∀ intervals, Tally q intervals → Tally q' intervals

theorem CountsAlike.refl (q : DualPi2Queue) : CountsAlike q q := ⟨fun _ h => h⟩

theorem CountsAlike.trans {q q' q'' : DualPi2Queue} (h : CountsAlike q q')
    (h' : CountsAlike q' q'') : CountsAlike q q'' :=
  ⟨fun ints ht => h'.tally ints (h.tally ints ht)⟩

/-- An operation that counts nothing. -/
theorem CountsAlike.of_fields (q : DualPi2Queue) {q' : DualPi2Queue}
    (hi : q'.intervalStats = q.intervalStats)
    (h₁ : q'.totalStats.cePackets = q.totalStats.cePackets)
    (h₂ : q'.totalStats.ceBits = q.totalStats.ceBits)
    (h₃ : q'.totalStats.aqmDrops = q.totalStats.aqmDrops)
    (h₄ : q'.totalStats.aqmDropBits = q.totalStats.aqmDropBits) : CountsAlike q q' := by
  refine ⟨fun ints ht => ⟨?_, ?_, ?_, ?_⟩⟩
  · rw [hi, h₁]
    exact ht.cePackets
  · rw [hi, h₂]
    exact ht.ceBits
  · rw [hi, h₃]
    exact ht.aqmDrops
  · rw [hi, h₄]
    exact ht.aqmDropBits

theorem countsAlike_markLikelihood (q : DualPi2Queue) (x : ℚ) :
    CountsAlike q (q.markLikelihood x).2 := by
  unfold markLikelihood
  split
  · exact .refl q
  · split
    · exact .refl q
    · exact .of_fields q rfl rfl rfl rfl rfl

theorem countsAlike_markCe (q : DualPi2Queue) (p : IpPkt) : CountsAlike q (q.markCe p).2 := by
  unfold markCe
  split
  · exact .refl q
  · refine ⟨fun ints ht => ⟨?_, ?_, ht.aqmDrops, ht.aqmDropBits⟩⟩
    · simp only [ht.cePackets, Nat.add_assoc]
    · simp only [ht.ceBits, add_assoc]

theorem countsAlike_recordDrop (q : DualPi2Queue) (p : IpPkt) :
    CountsAlike q (q.recordDrop p) := by
  refine ⟨fun ints ht => ⟨ht.cePackets, ht.ceBits, ?_, ?_⟩⟩
  · simp only [recordDrop, ht.aqmDrops, Nat.add_assoc]
  · simp only [recordDrop, ht.aqmDropBits, add_assoc]

theorem countsAlike_takeFrom {q q' : DualPi2Queue} {l4s : Bool} {p : IpPkt}
    (h : q.takeFrom l4s = some (p, q')) : CountsAlike q q' := by
  obtain ⟨-, rest, -, rfl⟩ | ⟨-, rest, -, rfl⟩ := takeFrom_eq_some h
  · exact .of_fields q rfl rfl rfl rfl rfl
  · exact .of_fields q rfl rfl rfl rfl rfl

theorem countsAlike_popNext (q : DualPi2Queue) : CountsAlike q q.popNext.2 := by
  refine popNextLoop_rule (r := CountsAlike) CountsAlike.trans countsAlike_takeFrom
    (fun q p => ?_) (fun q => .of_fields q rfl rfl rfl rfl rfl) q.size q
  exact examine_rule (r := CountsAlike) CountsAlike.trans
    (fun q _ _ _ _ => .of_fields q rfl rfl rfl rfl rfl) countsAlike_markLikelihood
    countsAlike_markCe countsAlike_recordDrop (fun q => .of_fields q rfl rfl rfl rfl rfl) q p

/-! ### Runs -/

/-- What a run keeps. -/
structure Sound (s : Served) : Prop where
  classed : Classed s.queue
  filled : Filled s.queue
  chances : Chances s.queue
  tally : Tally s.queue s.intervals

theorem Filled.step {q : DualPi2Queue} (h : Filled q) (t : ℚ) : Filled (q.step t) := by
  obtain ⟨hl, hc, hlBits, hcBits⟩ := maybeUpdatePi_queues { q with currentT := t }
  have hq : Filled ({ q with currentT := t } : DualPi2Queue).maybeUpdatePi := by
    refine ⟨?_, ?_, ?_, ?_⟩
    · rw [hl]
      exact h.l4s
    · rw [hc]
      exact h.classic
    · rw [hlBits, hl]
      exact h.lBits
    · rw [hcBits, hc]
      exact h.cBits
  exact hq.unmoved (unmoved_updateSnapshot _)

theorem Chances.step {q : DualPi2Queue} (h : Chances q) (t : ℚ) : Chances (q.step t) := by
  have hq : Chances { q with currentT := t } := ⟨h.pBase, h.pC, h.pCl⟩
  exact ⟨hq.maybeUpdatePi.pBase, hq.maybeUpdatePi.pC, hq.maybeUpdatePi.pCl⟩

theorem countsAlike_step (q : DualPi2Queue) (t : ℚ) : CountsAlike q (q.step t) := by
  unfold DualPi2Queue.step maybeUpdatePi
  simp only
  split <;> exact .of_fields q rfl rfl rfl rfl rfl

theorem countsAlike_enqueue (q : DualPi2Queue) (p : IpPkt) : CountsAlike q (q.enqueue p) := by
  unfold DualPi2Queue.enqueue
  split <;> exact .of_fields q rfl rfl rfl rfl rfl

theorem Chances.enqueue {q : DualPi2Queue} (h : Chances q) (p : IpPkt) :
    Chances (q.enqueue p) := by
  unfold DualPi2Queue.enqueue
  split <;> exact ⟨h.pBase, h.pC, h.pCl⟩

/-- An interval that is returned stands in the sum from then on. -/
theorem Tally.getIntervalStats {q : DualPi2Queue} {intervals : List DualPi2Stats}
    (h : Tally q intervals) :
    Tally q.getIntervalStats.2 (intervals ++ [q.getIntervalStats.1]) := by
  refine ⟨?_, ?_, ?_, ?_⟩
  · simpa [DualPi2Queue.getIntervalStats, withQueues] using h.cePackets
  · simpa [DualPi2Queue.getIntervalStats, withQueues] using h.ceBits
  · simpa [DualPi2Queue.getIntervalStats, withQueues] using h.aqmDrops
  · simpa [DualPi2Queue.getIntervalStats, withQueues] using h.aqmDropBits

theorem sound_start (cfg : DualPi2Config) (unitDist : Draws) :
    Sound { queue := { cfg := cfg, unitDist := unitDist } } := by
  refine ⟨⟨?_, ?_⟩, ⟨?_, ?_, rfl, rfl⟩, ⟨?_, ?_, ?_⟩, ⟨rfl, ?_, rfl, ?_⟩⟩
  iterate 4
    · intro p hp
      cases hp
  · exact ⟨le_refl 0, zero_le_one⟩
  · show (0 : ℚ) = 0 ^ 2
    norm_num
  · show (0 : ℚ) = min 1 (max 0 (cfg.k * 0))
    norm_num
  · show (0 : ℚ) = 0 + 0
    norm_num
  · show (0 : ℚ) = 0 + 0
    norm_num

/-- **Every operation keeps the queue sound.** -/
theorem Sound.apply {s : Served} (h : Sound s) (c : Call) (hc : c.Valid) : Sound (s.apply c) := by
  have hclassed := h.classed.apply c
  cases c with
  | configure cfg =>
      refine ⟨hclassed, ⟨h.filled.l4s, h.filled.classic, h.filled.lBits, h.filled.cBits⟩,
        ⟨⟨le_refl 0, zero_le_one⟩, ?_, ?_⟩,
        ⟨h.tally.cePackets, h.tally.ceBits, h.tally.aqmDrops, h.tally.aqmDropBits⟩⟩
      · show (0 : ℚ) = 0 ^ 2
        norm_num
      · show (0 : ℚ) = min 1 (max 0 (cfg.k * 0))
        norm_num
  | step t =>
      exact ⟨hclassed, h.filled.step t, h.chances.step t,
        (countsAlike_step s.queue t).tally _ h.tally⟩
  | enqueue p =>
      exact ⟨hclassed, h.filled.enqueue hc, h.chances.enqueue p,
        (countsAlike_enqueue s.queue p).tally _ h.tally⟩
  | popNext =>
      exact ⟨hclassed, h.filled.popNextLoop _,
        h.chances.same (sameChances_popNext s.queue),
        (countsAlike_popNext s.queue).tally _ h.tally⟩
  | popOldest =>
      simp only [Served.apply, popOldest]
      cases htake : s.queue.takeFrom s.queue.oldestIsL4s with
      | none => exact h
      | some taken =>
          obtain ⟨p, q⟩ := taken
          have hfilled := h.filled.takeFrom htake
          have hchances := h.chances.same (sameChances_takeFrom htake)
          have htally := (countsAlike_takeFrom htake).tally _ h.tally
          exact ⟨(h.classed.shrinks (shrinks_takeFrom htake)).shrinks
              (unmoved_updateSnapshot q).shrinks, hfilled.unmoved (unmoved_updateSnapshot q),
            ⟨hchances.pBase, hchances.pC, hchances.pCl⟩,
            ⟨htally.cePackets, htally.ceBits, htally.aqmDrops, htally.aqmDropBits⟩⟩
  | popDroppedPkt =>
      simp only [Served.apply, popDroppedPkt]
      split
      · exact h
      · rename_i p q hpop
        split at hpop
        · cases hpop
        · obtain ⟨-, rfl⟩ := Prod.mk.inj (Option.some.inj hpop)
          exact ⟨⟨h.classed.l4s, h.classed.classic⟩,
            ⟨h.filled.l4s, h.filled.classic, h.filled.lBits, h.filled.cBits⟩,
            ⟨h.chances.pBase, h.chances.pC, h.chances.pCl⟩,
            ⟨h.tally.cePackets, h.tally.ceBits, h.tally.aqmDrops, h.tally.aqmDropBits⟩⟩
  | getIntervalStats =>
      exact ⟨hclassed,
        ⟨h.filled.l4s, h.filled.classic, h.filled.lBits, h.filled.cBits⟩,
        ⟨h.chances.pBase, h.chances.pC, h.chances.pCl⟩, h.tally.getIntervalStats⟩

theorem sound_foldl (calls : List Call) :
    ∀ s : Served, Sound s → (∀ c ∈ calls, c.Valid) → Sound (calls.foldl Served.apply s) := by
  induction calls with
  | nil => intro s h _; exact h
  | cons c rest ih =>
      intro s h hvalid
      exact ih (s.apply c) (h.apply c (hvalid c (List.mem_cons_self ..)))
        fun c' hc' => hvalid c' (List.mem_cons_of_mem _ hc')

theorem sound_serve (cfg : DualPi2Config) (unitDist : Draws) (calls : List Call)
    (hvalid : ∀ c ∈ calls, c.Valid) : Sound (serve cfg unitDist calls) :=
  sound_foldl calls _ (sound_start cfg unitDist) hvalid

theorem classic_ecn {p : IpPkt} (h : p.isL4s = false) : p.ecn = .notEct ∨ p.ecn = .ect0 := by
  cases hp : p.ecn <;> simp [IpPkt.isL4s, hp] at h ⊢

/-- A square of a probability is one. -/
theorem Sound.represents {s : Served} (h : Sound s) : Represents s := by
  obtain ⟨h0, h1⟩ := h.chances.pBase
  have hsquare : s.queue.pBase ^ 2 ≤ 1 := pow_le_one₀ h0 h1
  refine ⟨?_, ?_, h.filled.lBits, h.filled.cBits, ⟨h0, h1⟩, ⟨?_, ?_, h.chances.pC⟩,
    ⟨?_, ?_, h.chances.pCl⟩, h.tally.cePackets, h.tally.ceBits, h.tally.aqmDrops,
    h.tally.aqmDropBits⟩
  · intro p hp
    exact IpPkt.isL4s_iff.mp (h.classed.l4s p hp)
  · intro p hp
    exact classic_ecn (h.classed.classic p hp)
  · rw [h.chances.pC]
    exact sq_nonneg _
  · rw [h.chances.pC]
    exact hsquare
  · rw [h.chances.pCl]
    exact le_min zero_le_one (le_max_left _ _)
  · rw [h.chances.pCl]
    exact min_le_left _ _

/-- **After any operations, the fields of a DualPI2 queue agree with each other.** -/
theorem fields_agree (cfg : DualPi2Config) (unitDist : Draws) (calls : List Call)
    (hvalid : ∀ c ∈ calls, c.Valid) : Represents (serve cfg unitDist calls) :=
  (sound_serve cfg unitDist calls hvalid).represents

/-- A run that marks a packet, asks for its interval, and is configured anew. -/
def markingCalls : List Call :=
  [.enqueue { IpPkt.makeNext 0 100 100 1 0 0 with ecn := .ect1 },
    .enqueue (IpPkt.makeNext 0 60 60 2 0 0), .step (1 / 2), .popNext, .getIntervalStats,
    .configure { k := 3 }, .step 1, .popNext]

theorem fields_agree_marking : (∀ c ∈ markingCalls, c.Valid) ∧
    Represents (serve {} (fun _ => 1 / 2) markingCalls) := by
  have hvalid : ∀ c ∈ markingCalls, c.Valid := by
    simp [markingCalls, Call.Valid, IpPkt.makeNext, IpPkt.make]
  exact ⟨hvalid, fields_agree {} (fun _ => 1 / 2) markingCalls hvalid⟩

example : (serve {} (fun _ => 1 / 2) markingCalls).intervals.map DualPi2Stats.cePackets = [1] := by
  decide +kernel

end DualPi2Queue

end NetworkEmulator
