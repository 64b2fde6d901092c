/-
What `current_size` counts.

Five operations move the one running total: a packet admitted adds its size, a block
filled or popped takes its bits off, and a packet the AQM dropped stays counted until it
is popped from the dropped queue.  So the total is the size of everything on the shelf,
waiting or dropped, and admission is decided by what the buffer really holds.
-/
import NetworkEmulator.Proofs.Backends
import NetworkEmulator.Proofs.Frame
import NetworkEmulator.Proofs.Shelf

namespace NetworkEmulator

/-- Relabelling keeps a packet's size, and cutting shares it out. -/
private theorem respects_size :
    Respects Retag (Cut ⊤) Never (fun _ => True) Eq IpPkt.size where
  relabel _ hr := by cases hr <;> rfl
  cut {p _ _} _ hc := by
    cases hc
    exact sub_add_cancel _ _
  join _ _ hj := hj.elim

/-- What leaves the waiting packets is handed out or on the dropped queue. -/
theorem Shelf.Yields.size {s s' : Shelf} {out : List IpPkt} (h : Yields ⊤ s s' out) :
    weight IpPkt.size s.waiting + weight IpPkt.size s.dropped
      = weight IpPkt.size s'.waiting + weight IpPkt.size s'.dropped + weight IpPkt.size out := by
  obtain ⟨drops, hd, -, -, hr⟩ := h
  have hsum := hr.weight_eq (.trivial ..) respects_size fun _ _ => trivial
  rw [weight_append, weight_append] at hsum
  rw [hd, weight_append]
  linarith

/-- No packet on the shelf has a negative size. -/
def Shelf.Sized (s : Shelf) : Prop :=
  (∀ p ∈ s.waiting, 0 ≤ p.size) ∧ ∀ p ∈ s.dropped, 0 ≤ p.size

theorem Shelf.Yields.sized {s s' : Shelf} {out : List IpPkt} (h : Yields ⊤ s s' out)
    (hs : s.Sized) : s'.Sized ∧ ∀ p ∈ out, 0 ≤ p.size := by
  obtain ⟨hwait, hout⟩ := h.forall_mem (inherited_nonneg ⊤) hs.1
  obtain ⟨drops, hd, -, -, hr⟩ := h
  have hall := hr.forall_mem (inherited_nonneg ⊤) hs.1
  refine ⟨⟨hwait, fun p hp => ?_⟩, hout⟩
  rw [hd] at hp
  rcases List.mem_append.mp hp with hp | hp
  · exact hs.2 p hp
  · exact hall p (by simp [hp])

namespace IpBuffer

/-- The size of all that the buffer holds: in its backend and in the dropped queue. -/
def occupancy (b : IpBuffer) : ℚ :=
  weight IpPkt.size b.shelf.waiting + weight IpPkt.size b.shelf.dropped

/-- The running total is exact and within bounds. -/
structure Counted (b : IpBuffer) : Prop where
  exact : b.currentSize = b.occupancy
  bounded : b.currentSize ≤ b.maxSize
  sized : b.shelf.Sized

/-- Taking `x` off the total never meets the clamp when `x` is part of it. -/
private theorem subClamped_of_le {total x : ℚ} (h : x ≤ total) : subClamped total x = total - x :=
  if_neg (not_lt.mpr (sub_nonneg.mpr h))

/-- What is taken out of the buffer is taken off the total. -/
private theorem Counted.takes {b b' : IpBuffer} (h : b.Counted) {bits : ℚ}
    (hsize : b.occupancy = b'.occupancy + bits) (hsized : b'.shelf.Sized)
    (hcur : b'.currentSize = subClamped b.currentSize bits) (hmax : b'.maxSize = b.maxSize)
    (hbits : 0 ≤ bits) : b'.Counted ∧ b'.currentSize = b.currentSize - bits := by
  have hleft : 0 ≤ b'.occupancy := add_nonneg (weight_nonneg hsized.1) (weight_nonneg hsized.2)
  have hle : bits ≤ b.currentSize := by rw [h.exact, hsize]; linarith
  rw [subClamped_of_le hle] at hcur
  refine ⟨⟨?_, ?_, hsized⟩, hcur⟩
  · rw [hcur, h.exact, hsize]
    ring
  · rw [hcur, hmax]
    linarith [h.bounded]

/-! ### The five operations -/

private theorem backendRequeueFront_currentSize (b : IpBuffer) (p : IpPkt) :
    (b.backendRequeueFront p).currentSize = b.currentSize := by
  unfold backendRequeueFront
  split
  · rfl
  · split <;> rfl

private theorem popFront_currentSize (b : IpBuffer) :
    b.popFront.2.currentSize = b.currentSize := by
  unfold popFront
  split <;> rfl

private theorem backendPopNext_currentSize (b : IpBuffer) :
    b.backendPopNext.2.currentSize = b.currentSize := by
  unfold backendPopNext
  split
  · rfl
  · exact popFront_currentSize b

private theorem backendPopOldest_currentSize (b : IpBuffer) :
    b.backendPopOldest.2.currentSize = b.currentSize := by
  unfold backendPopOldest
  split
  · split <;> rfl
  · exact popFront_currentSize b

private theorem loopRules_currentSize (total : ℚ) :
    LoopRules fun _ b _ => b.currentSize = total where
  nothing {_ b _ _} h hpop := by
    have hsame := backendPopNext_currentSize b
    rw [hpop] at hsame
    exact hsame.trans h
  whole {_ b _ _ _} h hpop _ := by
    have hsame := backendPopNext_currentSize b
    rw [hpop] at hsame
    exact hsame.trans h
  piece {_ b b' _ _} h _ hpop _ := by
    have hsame := backendPopNext_currentSize b
    rw [hpop] at hsame
    exact (backendRequeueFront_currentSize b' _).trans (hsame.trans h)

theorem Counted.getPkts {b : IpBuffer} (h : b.Counted) (grant : ℚ) (out : HarqPkt) :
    (b.getPkts grant out).1.Counted ∧
      (b.getPkts grant out).1.currentSize = b.currentSize - (b.getPkts grant out).2.bits := by
  obtain ⟨new, hyields, hout⟩ := getPkts_filled (G := ⊤) (fun _ => trivial) b grant out
    fun _ _ => trivial
  obtain ⟨hsized, hnew⟩ := hyields.sized h.sized
  have hbits : (b.getPkts grant out).2.bits = weight IpPkt.size new := by rw [hout]
  obtain ⟨_, b', hcur, heq⟩ :=
    getPkts_rule (loopRules_currentSize b.currentSize) b grant out rfl
  refine h.takes ?_ hsized ?_ (getPkts_frame b grant out).maxSize ?_
  · rw [hbits]
    exact hyields.size
  · rw [heq, ← hcur]
  · rw [hbits]
    exact weight_nonneg hnew

theorem Counted.popOldestPkt {b b' : IpBuffer} (h : b.Counted) {out out' : HarqPkt}
    (hpop : b.popOldestPkt out = some (b', out')) :
    b'.Counted ∧ b'.currentSize = b.currentSize - out'.bits := by
  obtain ⟨p, hyields, hout⟩ := popOldestPkt_spec ⊤ hpop
  obtain ⟨hsized, hp⟩ := hyields.sized h.sized
  have hbits : out'.bits = p.size := by rw [hout]
  have hcur : b'.currentSize = subClamped b.currentSize out'.bits := by
    have hback := backendPopOldest_currentSize b
    obtain ⟨x, b₁, hb₁, rfl, rfl⟩ := popOldestPkt_eq_some hpop
    rw [hb₁] at hback
    rw [← hback]
  refine h.takes ?_ hsized hcur (popOldestPkt_frame hpop).maxSize ?_
  · have hsize := hyields.size
    rw [weight_singleton] at hsize
    rw [hbits]
    exact hsize
  · rw [hbits]
    exact hp p (List.mem_singleton_self p)

theorem Counted.popAqmDroppedPkt {b b' : IpBuffer} (h : b.Counted) {out out' : HarqPkt}
    (hpop : b.popAqmDroppedPkt out = some (b', out')) :
    b'.Counted ∧ b'.currentSize = b.currentSize - out'.bits := by
  obtain ⟨p, hd, hw, -, hbits, -⟩ := popAqmDroppedPkt_spec hpop
  have hp : p ∈ b.shelf.dropped := by rw [hd]; exact List.mem_cons_self ..
  have hcur : b'.currentSize = subClamped b.currentSize out'.bits := by
    obtain ⟨p, rest, -, -, rfl, rfl⟩ := popAqmDroppedPkt_eq_some hpop
    rfl
  refine h.takes ?_ ⟨?_, fun q hq => ?_⟩ hcur (popAqmDroppedPkt_frame hpop).maxSize ?_
  · rw [occupancy, occupancy, hd, hw, weight_cons, hbits]
    ring
  · rw [hw]
    exact h.sized.1
  · exact h.sized.2 q (by rw [hd]; exact List.mem_cons_of_mem _ hq)
  · rw [hbits]
    exact h.sized.2 p hp

/-- A packet that fits is admitted and counted. -/
theorem addPkt_fits {b : IpBuffer} {p : IpPkt} (hfits : b.currentSize + p.size ≤ b.maxSize) :
    (b.addPkt p).1 = true ∧ (b.addPkt p).2.currentSize = b.currentSize + p.size ∧
      (b.addPkt p).2.maxSize = b.maxSize := by
  have hok : (b.addPkt p).1 = true := by
    rw [← Bool.not_eq_false, (addPkt_refused b p).1]
    exact not_lt.mpr hfits
  refine ⟨hok, ?_, (addPkt_frame hok).maxSize⟩
  unfold addPkt
  rw [if_neg (not_lt.mpr hfits)]
  simp only
  split <;> exact backendRequeueFront_currentSize _ p

theorem Counted.addPkt {b : IpBuffer} (h : b.Counted) {p : IpPkt} (hp : 0 ≤ p.size) :
    (b.addPkt p).2.Counted := by
  have hkeep : (b.addPkt p).1 = false → (b.addPkt p).2.Counted := fun hno => by
    rw [(addPkt_refused b p).2 hno]
    exact ⟨h.exact, h.bounded, h.sized⟩
  rcases addPkt_shelf b p with ⟨hok, hw, hd, -⟩ | ⟨hno, -⟩
  · have hfits : b.currentSize + p.size ≤ b.maxSize := by
      by_contra hfull
      have hno := (addPkt_refused b p).1.mpr (not_le.mp hfull)
      rw [hok] at hno
      cases hno
    obtain ⟨-, hsame⟩ := addPkt_fits hfits
    refine ⟨?_, ?_, fun q hq => ?_, ?_⟩
    · rw [hsame.1, occupancy, hd, weight_perm hw, weight_cons, h.exact, occupancy]
      ring
    · rw [hsame.1, hsame.2]
      exact hfits
    · rcases List.mem_cons.mp (hw.mem_iff.mp hq) with rfl | hq
      · exact hp
      · exact h.sized.1 q hq
    · rw [hd]
      exact h.sized.2
  · exact hkeep hno

theorem Counted.step {b : IpBuffer} (h : b.Counted) (t : ℚ) : (b.step t).Counted := by
  refine ⟨?_, h.bounded, ?_⟩
  · rw [occupancy, shelf_step]
    exact h.exact
  · rw [shelf_step]
    exact h.sized

/-! ### Runs -/

/-- An operation on the buffer: a call, or `pop_aqm_dropped_pkt`. -/
inductive Op where
  | call (c : Call)
  | popAqmDroppedPkt (out : HarqPkt)

/-- The packet that is added, if any, has no negative size. -/
def Op.Sized : Op → Prop
  | .call (.addPkt p) => 0 ≤ p.size
  | _ => True

instance (op : Op) : Decidable op.Sized := by
  unfold Op.Sized
  split <;> infer_instance

/-- The buffer after an operation. -/
def act (b : IpBuffer) : Op → IpBuffer
  | .call c => (b.call c).2
  | .popAqmDroppedPkt out =>
    match b.popAqmDroppedPkt out with
    | none => b
    | some (b, _) => b

private theorem Counted.act {b : IpBuffer} (h : b.Counted) {op : Op} (hop : op.Sized) :
    (b.act op).Counted := by
  cases op with
  | call c =>
    cases c with
    | step t => exact h.step t
    | addPkt p => exact h.addPkt hop
    | getPkts grant out => exact (h.getPkts grant out).1
    | popOldestPkt out =>
      unfold IpBuffer.act IpBuffer.call
      simp only
      cases hpop : b.popOldestPkt out with
      | none => exact h
      | some r => exact (h.popOldestPkt hpop).1
  | popAqmDroppedPkt out =>
    unfold IpBuffer.act
    simp only
    cases hpop : b.popAqmDroppedPkt out with
    | none => exact h
    | some r => exact (h.popAqmDroppedPkt hpop).1

private theorem new_counted (cfg : DualPi2Config) (verbosity : ℤ) (unitDist : Draws)
    (enabled : Bool) : (new cfg verbosity unitDist enabled).Counted :=
  ⟨(zero_add 0).symm, by norm_num [new, configureL4s], by rintro p ⟨⟩, by rintro p ⟨⟩⟩

private theorem foldl_counted {ops : List Op} (hops : ∀ op ∈ ops, op.Sized) :
    ∀ {b : IpBuffer}, b.Counted → (ops.foldl act b).Counted := by
  induction ops with
  | nil => intro b h; exact h
  | cons op ops ih =>
      intro b h
      exact ih (fun o ho => hops o (List.mem_cons_of_mem _ ho))
        (h.act (hops op (List.mem_cons_self ..)))

/-- **The occupancy is exact and bounded.**  After every sequence of operations on a new
buffer, with either backend: the running total is the size of what the backend and the
dropped queue hold, it is at most `max_size`, what an operation takes out is subtracted
as it is, and a packet is refused exactly when it does not fit, with nothing but the error
statistic changed. -/
theorem occupancy_exact (cfg : DualPi2Config) (verbosity : ℤ) (unitDist : Draws)
    (enabled : Bool) (ops : List Op) (hops : ∀ op ∈ ops, op.Sized) :
    let b := ops.foldl act (new cfg verbosity unitDist enabled)
    b.currentSize = b.occupancy ∧ b.currentSize ≤ b.maxSize ∧
    (∀ grant out,
      (b.getPkts grant out).1.currentSize = b.currentSize - (b.getPkts grant out).2.bits) ∧
    (∀ out b' out', b.popOldestPkt out = some (b', out') →
      b'.currentSize = b.currentSize - out'.bits) ∧
    (∀ out b' out', b.popAqmDroppedPkt out = some (b', out') →
      b'.currentSize = b.currentSize - out'.bits) ∧
    ∀ p, ((b.addPkt p).1 = false ↔ b.maxSize < b.occupancy + p.size) ∧
      ((b.addPkt p).1 = false →
        (b.addPkt p).2 = { b with eMean := b.eMean.addIf b.verbosity p.size }) := by
  intro b
  have h : b.Counted := foldl_counted hops (new_counted cfg verbosity unitDist enabled)
  refine ⟨h.exact, h.bounded, fun grant out => (h.getPkts grant out).2,
    fun _ _ _ hpop => (h.popOldestPkt hpop).2, fun _ _ _ hpop => (h.popAqmDroppedPkt hpop).2,
    fun p => ⟨?_, (addPkt_refused b p).2⟩⟩
  rw [← h.exact]
  exact (addPkt_refused b p).1

/-- Two packets of 1000 bits, and a grant of 500. -/
theorem occupancy_exact_cut :
    let b := [.call (.addPkt (IpPkt.make 0 1000 1000 0 1 0 0)),
      .call (.addPkt (IpPkt.make 0 1000 1000 1 2 0 0)), .call (.getPkts 500 {})].foldl act
        (new {} 0 (fun _ => 0) true)
    b.currentSize = 1500 ∧ b.occupancy = 1500 := by
  intro b
  have hcur : b.currentSize = 1500 := by decide +kernel
  refine ⟨hcur, ?_⟩
  rw [← hcur]
  exact (occupancy_exact {} 0 (fun _ => 0) true _ (by decide +kernel)).1.symm

end IpBuffer

end NetworkEmulator
