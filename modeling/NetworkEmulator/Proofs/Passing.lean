/-
Which packets the AQM lets through.

An L4S packet always passes, and a classic one passes unless `p_c` is 1 or the coin falls
against it.  So what a grant hands out is as old as every packet that may pass, a block
without bits leaves nothing behind, and with coins that spare all that may pass a grant
larger than the buffer takes every such packet.
-/
import NetworkEmulator.Proofs.Lanes
import NetworkEmulator.Proofs.Progress

namespace NetworkEmulator

/-! ### The packets the AQM lets through -/

namespace DualPi2Queue

/-- Not a packet that the AQM is sure to drop. -/
def MayPass (q : DualPi2Queue) (p : IpPkt) : Prop := p.isL4s = true ∨ q.pC < 1

/-- No coin to come drops a packet that may pass. -/
def Lenient (q : DualPi2Queue) : Prop := q.pC < 1 → ∀ n, q.pC ≤ q.unitDist n

/-- The odds are the same, and only coins are gone. -/
structure Onward (q q' : DualPi2Queue) : Prop where
  pC : q'.pC = q.pC
  coins : ∃ k, ∀ n, q'.unitDist n = q.unitDist (n + k)

theorem Onward.of_same {q q' : DualPi2Queue} (hpc : q'.pC = q.pC)
    (hcoins : q'.unitDist = q.unitDist) : Onward q q' :=
  ⟨hpc, 0, fun n => by rw [hcoins]; rfl⟩

theorem Onward.refl (q : DualPi2Queue) : Onward q q := .of_same rfl rfl

theorem Onward.trans {q q' q'' : DualPi2Queue} (h : Onward q q') (h' : Onward q' q'') :
    Onward q q'' := by
  obtain ⟨k, hk⟩ := h.coins
  obtain ⟨k', hk'⟩ := h'.coins
  refine ⟨h'.pC.trans h.pC, k' + k, fun n => ?_⟩
  rw [hk', hk, Nat.add_assoc]

theorem Onward.mayPass_iff {q q' : DualPi2Queue} (h : Onward q q') (p : IpPkt) :
    q'.MayPass p ↔ q.MayPass p := by rw [MayPass, MayPass, h.pC]

theorem Lenient.onward {q q' : DualPi2Queue} (h : q.Lenient) (hon : Onward q q') :
    q'.Lenient := by
  obtain ⟨k, hk⟩ := hon.coins
  intro hpc n
  rw [hon.pC] at hpc ⊢
  rw [hk]
  exact h hpc (n + k)

theorem takeFrom_onward {q q' : DualPi2Queue} {l4s : Bool} {p : IpPkt}
    (h : q.takeFrom l4s = some (p, q')) : Onward q q' := by
  obtain ⟨-, rest, -, rfl⟩ | ⟨-, rest, -, rfl⟩ := takeFrom_eq_some h
  · exact .of_same rfl rfl
  · exact .of_same rfl rfl

theorem popHead_onward {q q' : DualPi2Queue} {p : IpPkt} (h : q.popHead = some (p, q')) :
    Onward q q' := by
  obtain ⟨l4s, htake⟩ := popHead_eq_some h
  exact takeFrom_onward htake

private theorem markLikelihood_onward {q q₁ : DualPi2Queue} {x : ℚ} {b : Bool}
    (h : q.markLikelihood x = (b, q₁)) : Onward q q₁ := by
  obtain rfl : (q.markLikelihood x).2 = q₁ := by rw [h]
  unfold markLikelihood
  split
  · exact .refl q
  · split
    · exact .refl q
    · exact ⟨rfl, 1, fun _ => rfl⟩

private theorem markCe_same (q : DualPi2Queue) (p : IpPkt) : Onward q (q.markCe p).2 ∧
    (q.markCe p).1.currentT = p.currentT ∧ (q.markCe p).1.size = p.size := by
  unfold markCe
  split
  · exact ⟨.refl q, rfl, rfl⟩
  · exact ⟨.of_same rfl rfl, rfl, rfl⟩

theorem examine_onward (q : DualPi2Queue) (p : IpPkt) : Onward q (q.examine p).2 := by
  unfold examine
  split
  · simp only
    split <;> rename_i q₁ hq₁
    · have hon := markLikelihood_onward hq₁
      exact .trans ⟨hon.pC, hon.coins⟩ (markCe_same q₁ p).1
    · have hon := markLikelihood_onward hq₁
      exact ⟨hon.pC, hon.coins⟩
  · simp only
    split <;> rename_i q₁ hq₁
    · have hon := markLikelihood_onward hq₁
      split
      · exact .trans ⟨hon.pC, hon.coins⟩ (markCe_same q₁ p).1
      · exact ⟨hon.pC, hon.coins⟩
    · have hon := markLikelihood_onward hq₁
      exact ⟨hon.pC, hon.coins⟩

/-- A classic packet is dropped for sure when `p_c` is 1, and what passes keeps its age. -/
theorem examine_mayPass {q : DualPi2Queue} {p p' : IpPkt} (h : (q.examine p).1 = some p') :
    q.MayPass p ∧ p'.currentT = p.currentT ∧ p'.size = p.size := by
  unfold examine at h
  split at h
  · rename_i hl4s
    refine ⟨Or.inl hl4s, ?_⟩
    simp only at h
    split at h <;> rename_i q₁ hq₁
    · obtain rfl := Option.some.inj h
      exact (markCe_same q₁ p).2
    · obtain rfl := Option.some.inj h
      exact ⟨rfl, rfl⟩
  · simp only at h
    split at h <;> rename_i q₁ hq₁
    · have hpc : q₁.pC = q.pC := (markLikelihood_onward hq₁).pC
      split at h
      · rename_i hmark
        obtain rfl := Option.some.inj h
        exact ⟨Or.inr (hpc ▸ hmark.2), (markCe_same q₁ p).2⟩
      · cases h
    · obtain rfl := Option.some.inj h
      refine ⟨Or.inr ?_, rfl, rfl⟩
      -- with `p_c` 1 the coin does not fall this way
      by_contra hsure
      rw [not_lt] at hsure
      have hfst := congrArg Prod.fst hq₁
      rw [markLikelihood, if_neg (by linarith), if_pos hsure] at hfst
      cases hfst

/-- A lenient coin lets every packet pass that may. -/
theorem examine_spares {q : DualPi2Queue} {p : IpPkt} (hlen : q.Lenient) (hmay : q.MayPass p) :
    ∃ p', (q.examine p).1 = some p' := by
  unfold examine
  split
  · simp only
    split <;> exact ⟨_, rfl⟩
  · rename_i hl4s
    have hpc : q.pC < 1 := hmay.resolve_left hl4s
    simp only
    split
    · rename_i q₁ hq₁
      exfalso
      have hfst := congrArg Prod.fst hq₁
      unfold markLikelihood at hfst
      split at hfst
      · cases hfst
      · rw [if_neg (not_le.mpr hpc)] at hfst
        exact absurd (of_decide_eq_true hfst) (not_lt.mpr (hlen hpc 0))
    · exact ⟨_, rfl⟩

/-- What one pass of `pop_next` did with the packet it took. -/
private theorem examine_cases (q : DualPi2Queue) (p : IpPkt) :
    (∃ p' q', q.examine p = (some p', q') ∧ q.MayPass p ∧ p'.currentT = p.currentT ∧
      p'.size = p.size ∧ q'.shelf.waiting = q.shelf.waiting ∧ Onward q q') ∨
    ∃ q', q.examine p = (none, q') ∧ (q.Lenient → ¬q.MayPass p) ∧
      q'.shelf.waiting = q.shelf.waiting ∧ Onward q q' := by
  have hon := examine_onward q p
  rcases examine_spec q p with ⟨p', q', hex, -, hsame⟩ | ⟨q', hex, -, hw, -, -⟩
  · have hfst : (q.examine p).1 = some p' := by rw [hex]
    obtain ⟨hmay, hage, hsize⟩ := examine_mayPass hfst
    rw [hex] at hon
    exact Or.inl ⟨p', q', hex, hmay, hage, hsize, by rw [hsame], hon⟩
  · rw [hex] at hon
    refine Or.inr ⟨q', hex, fun hlen hmay => ?_, hw, hon⟩
    obtain ⟨p', hfst⟩ := examine_spares hlen hmay
    rw [hex] at hfst
    cases hfst

/-- Every packet that may pass is older than the bound. -/
def Ripe (bound : ℚ) (q : DualPi2Queue) : Prop :=
  ∀ p ∈ q.shelf.waiting, q.MayPass p → p.currentT < bound

theorem Ripe.onward {bound : ℚ} {q q' : DualPi2Queue} (h : q.Ripe bound) (hon : Onward q q')
    (hwait : ∀ p ∈ q'.shelf.waiting, p ∈ q.shelf.waiting) : q'.Ripe bound :=
  fun p hp hmay => h p (hwait p hp) ((hon.mayPass_iff p).mp hmay)

private theorem popNextLoop_onward (n : ℕ) :
    ∀ q : DualPi2Queue, Onward q (popNextLoop n q).2 := by
  induction n with
  | zero => intro q; exact .of_same rfl rfl
  | succ n ih =>
      intro q
      simp only [popNextLoop]
      split
      · exact .of_same rfl rfl
      · rename_i p q₁ hpop
        have hon₁ := popHead_onward hpop
        rcases examine_cases q₁ p with ⟨p', q₂, hex, -, -, -, -, hon₂⟩ | ⟨q₂, hex, -, -, hon₂⟩
        · simp only [hex]
          exact (hon₁.trans hon₂).trans (.of_same rfl rfl)
        · simp only [hex]
          exact (hon₁.trans hon₂).trans (ih q₂)

/-- Then so is what `pop_next` hands out, and so is all that is left. -/
private theorem popNextLoop_ripe {bound : ℚ} (n : ℕ) : ∀ q : DualPi2Queue, q.Ripe bound →
    (popNextLoop n q).2.Ripe bound ∧ ∀ p ∈ (popNextLoop n q).1, p.currentT < bound := by
  induction n with
  | zero => intro q h; exact ⟨h, by rintro p ⟨⟩⟩
  | succ n ih =>
      intro q h
      simp only [popNextLoop]
      split
      · exact ⟨h, by rintro p ⟨⟩⟩
      · rename_i p q₁ hpop
        obtain ⟨hperm, -, -⟩ := popHead_spec hpop
        have hon₁ := popHead_onward hpop
        have hwait₁ : ∀ x ∈ q₁.shelf.waiting, x ∈ q.shelf.waiting := fun x hx =>
          hperm.mem_iff.mpr (List.mem_cons_of_mem _ hx)
        rcases examine_cases q₁ p with
          ⟨p', q₂, hex, hmay, hage, -, hw, hon₂⟩ | ⟨q₂, hex, -, hw, hon₂⟩
        · simp only [hex]
          have hripe := h.onward (hon₁.trans hon₂) fun x hx => hwait₁ x (hw ▸ hx)
          refine ⟨hripe, fun x hx => ?_⟩
          obtain rfl := Option.mem_some.mp hx
          rw [hage]
          exact h p (hperm.mem_iff.mpr (List.mem_cons_self ..)) ((hon₁.mayPass_iff p).mp hmay)
        · simp only [hex]
          exact ih q₂ (h.onward (hon₁.trans hon₂) fun x hx => hwait₁ x (hw ▸ hx))

/-- With lenient coins `pop_next` hands a packet out or leaves it, if it may pass. -/
private theorem popNextLoop_spares (n : ℕ) : ∀ q : DualPi2Queue, q.Lenient →
    ∀ x ∈ q.shelf.waiting, q.MayPass x → x ∈ (popNextLoop n q).2.shelf.waiting ∨
      ∃ p, (popNextLoop n q).1 = some p ∧ p.currentT = x.currentT ∧ p.size = x.size := by
  induction n with
  | zero => intro q _ x hx _; exact Or.inl hx
  | succ n ih =>
      intro q hlen x hx hmay
      simp only [popNextLoop]
      split
      · exact Or.inl hx
      · rename_i p q₁ hpop
        obtain ⟨hperm, -, -⟩ := popHead_spec hpop
        have hon₁ := popHead_onward hpop
        rcases examine_cases q₁ p with
          ⟨p', q₂, hex, -, hage, hsize, hw, -⟩ | ⟨q₂, hex, hdrop, hw, hon₂⟩
        · simp only [hex]
          rcases List.mem_cons.mp (hperm.mem_iff.mp hx) with rfl | hx
          · exact Or.inr ⟨p', rfl, hage, hsize⟩
          · exact Or.inl (hw.symm ▸ hx)
        · simp only [hex]
          have hmay₁ := (hon₁.mayPass_iff x).mpr hmay
          rcases List.mem_cons.mp (hperm.mem_iff.mp hx) with rfl | hx
          · exact absurd hmay₁ (hdrop (hlen.onward hon₁))
          · exact ih q₂ (hlen.onward (hon₁.trans hon₂)) x (hw.symm ▸ hx)
              ((hon₂.mayPass_iff x).mpr hmay₁)

theorem popNext_onward (q : DualPi2Queue) : Onward q q.popNext.2 := popNextLoop_onward q.size q

theorem popNext_ripe {bound : ℚ} {q : DualPi2Queue} (h : q.Ripe bound) :
    q.popNext.2.Ripe bound ∧ ∀ p ∈ q.popNext.1, p.currentT < bound := popNextLoop_ripe q.size q h

theorem popNext_spares {q : DualPi2Queue} (hlen : q.Lenient) {x : IpPkt}
    (hx : x ∈ q.shelf.waiting) (hmay : q.MayPass x) : x ∈ q.popNext.2.shelf.waiting ∨
      ∃ p, q.popNext.1 = some p ∧ p.currentT = x.currentT ∧ p.size = x.size :=
  popNextLoop_spares q.size q hlen x hx hmay

end DualPi2Queue

namespace IpBuffer

/-- Not a packet that the AQM is sure to drop; the plain deque has no AQM. -/
def MayPass (b : IpBuffer) (p : IpPkt) : Prop :=
  b.l4sCfg.enabled = true → b.l4sQueue.MayPass p

/-- No coin to come drops a packet that may pass. -/
def Lenient (b : IpBuffer) : Prop := b.l4sQueue.Lenient

/-- Every packet the buffer may hand out is older than the bound. -/
def Ripe (bound : ℚ) (b : IpBuffer) : Prop :=
  ∀ p ∈ b.shelf.waiting, b.MayPass p → p.currentT < bound

/-- What decides whether a packet may pass is the same, and only coins are gone. -/
structure Onward (b b' : IpBuffer) : Prop where
  l4sCfg : b'.l4sCfg = b.l4sCfg
  queue : b.l4sQueue.Onward b'.l4sQueue

theorem Onward.of_same {b b' : IpBuffer} (hcfg : b'.l4sCfg = b.l4sCfg)
    (hpc : b'.l4sQueue.pC = b.l4sQueue.pC)
    (hcoins : b'.l4sQueue.unitDist = b.l4sQueue.unitDist) : Onward b b' :=
  ⟨hcfg, .of_same hpc hcoins⟩

theorem Onward.mayPass_iff {b b' : IpBuffer} (h : Onward b b') (p : IpPkt) :
    b'.MayPass p ↔ b.MayPass p := by
  rw [MayPass, MayPass, h.l4sCfg, h.queue.mayPass_iff]

theorem Ripe.onward {bound : ℚ} {b b' : IpBuffer} (h : b.Ripe bound) (hon : Onward b b')
    (hwait : ∀ p ∈ b'.shelf.waiting, p ∈ b.shelf.waiting ∨ p.currentT < bound) :
    b'.Ripe bound := by
  intro p hp hmay
  exact (hwait p hp).elim (fun hp => h p hp ((hon.mayPass_iff p).mp hmay)) id

private theorem backendPopNext_onward (b : IpBuffer) : Onward b b.backendPopNext.2 := by
  unfold backendPopNext popFront
  split
  · exact ⟨rfl, DualPi2Queue.popNext_onward b.l4sQueue⟩
  · split <;> exact .of_same rfl rfl rfl

private theorem backendRequeueFront_onward (b : IpBuffer) (p : IpPkt) :
    Onward b (b.backendRequeueFront p) := by
  unfold backendRequeueFront DualPi2Queue.enqueue
  split
  · split <;> exact .of_same rfl rfl rfl
  · split <;> exact .of_same rfl rfl rfl

private theorem backendPopNext_ripe {bound : ℚ} {b : IpBuffer} (h : b.Ripe bound) :
    b.backendPopNext.2.Ripe bound ∧ ∀ p ∈ b.backendPopNext.1, p.currentT < bound := by
  have hon := backendPopNext_onward b
  unfold backendPopNext at hon ⊢
  by_cases he : b.l4sCfg.enabled = true
  · rw [if_pos he] at hon ⊢
    have hq : b.l4sQueue.Ripe bound := fun p hp hmay =>
      h p (List.mem_append_right _ hp) fun _ => hmay
    obtain ⟨hripe, hout⟩ := DualPi2Queue.popNext_ripe hq
    refine ⟨fun p hp hmay => ?_, hout⟩
    rcases List.mem_append.mp hp with hp | hp
    · exact h p (List.mem_append_left _ hp) ((hon.mayPass_iff p).mp hmay)
    · exact hripe p hp (hmay he)
  · rw [if_neg he, popFront] at hon ⊢
    cases hlist : b.pktList with
    | nil => exact ⟨h, by rintro p ⟨⟩⟩
    | cons x rest =>
        have hx : ∀ p ∈ b.pktList, p ∈ b.shelf.waiting := fun p hp => List.mem_append_left _ hp
        rw [hlist] at hx hon
        refine ⟨h.onward hon fun p hp => Or.inl ?_, fun p hp => ?_⟩
        · rcases List.mem_append.mp hp with hp | hp
          · exact hx p (List.mem_cons_of_mem _ hp)
          · exact List.mem_append_right _ hp
        · obtain rfl := Option.mem_some.mp hp
          exact h x (hx x (List.mem_cons_self ..)) fun hen => absurd hen he

private theorem loopRules_ripe (bound : ℚ) :
    LoopRules fun _ b out => b.Ripe bound ∧ ∀ p ∈ out.pkts, p.currentT < bound := by
  have hmore {out : HarqPkt} {p p' : IpPkt} (hout : ∀ p ∈ out.pkts, p.currentT < bound)
      (hage : p'.currentT = p.currentT) (hp : p.currentT < bound) :
      ∀ x ∈ out.pkts ++ [p'], x.currentT < bound := by
    intro x hx
    rcases List.mem_append.mp hx with hx | hx
    · exact hout x hx
    · rw [List.mem_singleton.mp hx, hage]
      exact hp
  refine ⟨fun {_ b _ _} h hpop => ?_, fun {_ b _ _ p} h hpop _ => ?_,
    fun {bits b b' _ p} h _ hpop _ => ?_⟩
  all_goals
    obtain ⟨hripe, hout⟩ := h
    obtain ⟨hripe', hpopped⟩ := backendPopNext_ripe hripe
    rw [hpop] at hripe' hpopped
  · exact ⟨hripe', hout⟩
  · exact ⟨hripe'.onward (.of_same rfl rfl rfl) fun x hx => Or.inl hx,
      hmore hout rfl (hpopped p rfl)⟩
  · refine ⟨hripe'.onward (backendRequeueFront_onward b' _) fun x hx => ?_,
      hmore hout rfl (hpopped p rfl)⟩
    rcases List.mem_cons.mp ((backendRequeueFront_waiting b' _).mem_iff.mp hx) with rfl | hx
    · exact Or.inr (hpopped p rfl)
    · exact Or.inl hx

theorem getPkts_ripe {bound : ℚ} {b : IpBuffer} (h : b.Ripe bound) (grant : ℚ) {out : HarqPkt}
    (hout : out.pkts = []) : (b.getPkts grant out).1.Ripe bound ∧
      ∀ p ∈ (b.getPkts grant out).2.pkts, p.currentT < bound := by
  obtain ⟨_, b', ⟨hripe, hpkts⟩, heq⟩ := getPkts_rule (loopRules_ripe bound) b grant out
    ⟨h, by rw [hout]; rintro p ⟨⟩⟩
  rw [heq]
  exact ⟨hripe.onward (.of_same rfl rfl rfl) fun x hx => Or.inl hx, hpkts⟩

end IpBuffer

/-! ### A block without bits -/

namespace DualPi2Queue

private theorem size_eq (q : DualPi2Queue) : q.size = q.shelf.waiting.length :=
  List.length_append.symm

/-- `pop_next` takes a packet, or nothing is left. -/
theorem popNextLoop_size (n : ℕ) : ∀ q : DualPi2Queue, q.size ≤ n →
    ((popNextLoop n q).1 = none → (popNextLoop n q).2.size = 0) ∧
      ∀ p, (popNextLoop n q).1 = some p → (popNextLoop n q).2.size < q.size := by
  induction n with
  | zero =>
      intro q hsize
      refine ⟨fun _ => ?_, fun p hp => by cases hp⟩
      show q.size = 0
      omega
  | succ n ih =>
      intro q hsize
      simp only [popNextLoop]
      split
      · rename_i hnone
        refine ⟨fun _ => ?_, fun p hp => by cases hp⟩
        show q.size = 0
        by_contra hne
        have hhas : q.hasPkts = true := by
          cases hl : q.lQueue <;> cases hc : q.cQueue <;> simp_all [size, hasPkts]
        have hsome := hasPkts_popHead hhas
        rw [hnone] at hsome
        cases hsome
      · rename_i p q₁ hpop
        obtain ⟨hperm, -, -⟩ := popHead_spec hpop
        have hlen : q.size = q₁.size + 1 := by
          rw [size_eq, size_eq, hperm.length_eq, List.length_cons]
        rcases examine_spec q₁ p with ⟨p', q₂, hex, -, hsame⟩ | ⟨q₂, hex, -, hw, -, -⟩
        · have hsize₂ : q₂.updateSnapshot.size = q₁.size := by
            rw [size_eq, size_eq, shelf_updateSnapshot, hsame]
          simp only [hex, reduceCtorEq, false_implies, true_and]
          intro _ _
          omega
        · have hsize₂ : q₂.size = q₁.size := by rw [size_eq, size_eq, hw]
          simp only [hex]
          obtain ⟨hnone, hsome⟩ := ih q₂ (by omega)
          refine ⟨hnone, fun x hx => ?_⟩
          have hlt := hsome x hx
          omega

end DualPi2Queue

namespace IpBuffer

private theorem backendPopNext_size (b : IpBuffer) :
    (b.backendPopNext.1 = none → b.backendPopNext.2.backendSize = 0) ∧
      ∀ p, b.backendPopNext.1 = some p → b.backendPopNext.2.backendSize < b.backendSize := by
  unfold backendPopNext backendSize
  by_cases he : b.l4sCfg.enabled = true
  · simp only [if_pos he]
    exact DualPi2Queue.popNextLoop_size b.l4sQueue.size b.l4sQueue le_rfl
  · simp only [if_neg he, popFront]
    cases hlist : b.pktList with
    | nil =>
        refine ⟨fun _ => ?_, fun p hp => by cases hp⟩
        simp only [if_neg he, hlist, List.length_nil]
    | cons x rest =>
        refine ⟨fun h => (by cases h), fun p _ => ?_⟩
        simp only [if_neg he, List.length_cons]
        omega

private theorem backendHasPkts_of_size {b : IpBuffer} (h : b.backendSize = 0) :
    b.backendHasPkts = false := by
  by_contra hhas
  have hpos := backendHasPkts_size (by simpa using hhas : b.backendHasPkts = true)
  omega

/-- A block never loses bits, and one that gains none leaves nothing behind. -/
private theorem getPktsLoop_noBits (n : ℕ) :
    ∀ (bits : ℚ) (b : IpBuffer) (out : HarqPkt), (∀ p ∈ b.shelf.waiting, 0 ≤ p.size) →
      out.bits ≤ (getPktsLoop n bits b out).2.bits ∧
      (b.backendSize ≤ n → bitRoundMargin < bits → (getPktsLoop n bits b out).2.bits ≤ out.bits →
        (getPktsLoop n bits b out).1.backendHasPkts = false) := by
  induction n with
  | zero =>
      intro bits b out _
      refine ⟨le_rfl, fun hsize _ _ => ?_⟩
      have hzero : b.backendSize = 0 := by omega
      exact backendHasPkts_of_size hzero
  | succ n ih =>
      intro bits b out hsz
      simp only [getPktsLoop]
      split
      · rename_i hgo
        obtain ⟨hnone, hsome⟩ := backendPopNext_size b
        have hyields := backendPopNext_yields ⊤ b
        split
        · rename_i b₁ hb₁
          rw [hb₁] at hnone
          exact ⟨le_rfl, fun _ _ _ => backendHasPkts_of_size (hnone rfl)⟩
        · rename_i p b₁ hb₁
          rw [hb₁] at hsome hyields
          have hshrink : b₁.backendSize < b.backendSize := hsome p rfl
          obtain ⟨hsz₁, hout⟩ := hyields.forall_mem (inherited_nonneg ⊤) hsz
          have hp : 0 ≤ p.size := hout p (by simp)
          split
          · split
            · rename_i hlast
              refine ⟨le_add_of_nonneg_right hp, fun _ hbits hle => ?_⟩
              exact absurd hlast (by simp only [add_le_iff_nonpos_right] at hle; linarith)
            · rename_i hmore
              obtain ⟨hgrow, hrest⟩ := ih (bits - p.size) { b₁ with oldestT := p.currentT }
                { out with bits := out.bits + p.size, pkts := out.pkts ++ [p.whole] } hsz₁
              simp only at hgrow hrest
              refine ⟨by linarith, fun hsize _ hle => hrest ?_ (not_le.mp hmore) (by linarith)⟩
              show b₁.backendSize ≤ n
              omega
          · refine ⟨by simp only; linarith [hgo.1], fun _ _ hle => ?_⟩
            simp only at hle
            linarith [hgo.1]
      · rename_i hstop
        refine ⟨le_rfl, fun _ hbits _ => ?_⟩
        have hpos : 0 < bits := lt_trans (by norm_num [bitRoundMargin]) hbits
        simpa using fun hhas => hstop ⟨hpos, hhas⟩

/-- A grant rounded down to nothing takes nothing. -/
theorem getPkts_tiny {grant : ℚ} (hgrant : (⌊grant⌋ : ℤ) ≤ 0) (b : IpBuffer) (out : HarqPkt) :
    b.getPkts grant out
      = ({ b with currentSize := subClamped b.currentSize 0 }, { out with bits := 0 }) := by
  have hneg : ¬(0 : ℚ) < ((⌊grant⌋ : ℤ) : ℚ) := by exact_mod_cast not_lt.mpr hgrant
  have hloop : ∀ n, getPktsLoop n (⌊grant⌋ : ℤ) b { out with bits := 0 }
      = (b, { out with bits := 0 }) := by
    intro n
    cases n with
    | zero => rfl
    | succ n => rw [getPktsLoop, if_neg fun h => hneg h.1]
  rw [getPkts, hloop]

/-- **A block without bits**: the grant was rounded down to nothing and the buffer is as
it was, or nothing is left in the buffer. -/
theorem getPkts_noBits {b : IpBuffer} {grant : ℚ} {out : HarqPkt}
    (hsz : ∀ p ∈ b.shelf.waiting, 0 ≤ p.size) (hbits : (b.getPkts grant out).2.bits ≤ 0) :
    (∃ size, (b.getPkts grant out).1 = { b with currentSize := size }) ∨
      (b.getPkts grant out).1.backendHasPkts = false := by
  by_cases hgrant : (⌊grant⌋ : ℤ) ≤ 0
  · left
    exact ⟨subClamped b.currentSize 0, by rw [getPkts_tiny hgrant]⟩
  · right
    have hone : (1 : ℚ) ≤ ((⌊grant⌋ : ℤ) : ℚ) := by exact_mod_cast not_le.mp hgrant
    refine (getPktsLoop_noBits b.backendSize (⌊grant⌋ : ℤ) b { out with bits := 0 } hsz).2 le_rfl
      ?_ hbits
    exact lt_of_lt_of_le (by norm_num [bitRoundMargin]) hone

end IpBuffer

/-! ### A grant larger than the buffer -/

namespace IpBuffer

/-- An empty backend is all the buffer has. -/
private theorem waiting_nil {b : IpBuffer} (hidle : b.idle = []) (hhas : b.backendHasPkts = false)
    (p : IpPkt) : p ∉ b.shelf.waiting := by
  rw [mem_waiting hidle]
  unfold backendHasPkts DualPi2Queue.hasPkts at hhas
  unfold lanes
  by_cases he : b.l4sCfg.enabled = true
  · simp only [if_pos he, Bool.or_eq_false_iff, Bool.not_eq_false', List.isEmpty_iff] at hhas
    simp only [if_pos he, hhas, List.not_mem_nil, or_self, not_false_eq_true]
  · simp only [if_neg he, Bool.not_eq_false', List.isEmpty_iff] at hhas
    simp only [if_neg he, hhas, List.not_mem_nil, or_self, not_false_eq_true]

/-- Cutting leaves no piece of a larger size. -/
private theorem inherited_atMost (most : ℚ) :
    Inherited Retag (Cut ⊤) Never fun p => 0 ≤ p.size ∧ p.size ≤ most where
  relabel h hr := by cases hr <;> exact h
  cut h hc := by
    obtain ⟨hpos, hlt, -⟩ := hc
    exact ⟨⟨sub_nonneg.mpr hlt.le, (sub_le_self _ hpos.le).trans h.2⟩, hpos.le,
      hlt.le.trans h.2⟩
  join _ _ hj := hj.elim

/-- With lenient coins the buffer hands a packet out or keeps it, if it may pass. -/
private theorem backendPopNext_spares {b : IpBuffer} (hlen : b.Lenient) {x : IpPkt}
    (hx : x ∈ b.shelf.waiting) (hmay : b.MayPass x) : x ∈ b.backendPopNext.2.shelf.waiting ∨
      ∃ p, b.backendPopNext.1 = some p ∧ p.currentT = x.currentT ∧ p.size = x.size := by
  unfold backendPopNext
  by_cases he : b.l4sCfg.enabled = true
  · simp only [if_pos he]
    rcases List.mem_append.mp hx with hx | hx
    · exact Or.inl (List.mem_append_left _ hx)
    · exact (DualPi2Queue.popNext_spares hlen hx (hmay he)).imp_left (List.mem_append_right _)
  · simp only [if_neg he, popFront]
    cases hlist : b.pktList with
    | nil => exact Or.inl hx
    | cons y rest =>
        have hx' : x ∈ (y :: rest) ++ b.l4sQueue.shelf.waiting := hlist ▸ hx
        rcases List.mem_cons.mp hx' with rfl | hx'
        · exact Or.inr ⟨x, rfl, rfl, rfl⟩
        · exact Or.inl hx'

/-- The loop empties the buffer and hands out every packet that may pass. -/
private theorem getPktsLoop_takes {most : ℚ} (hmost : 0 ≤ most) (n : ℕ) :
    ∀ (bits : ℚ) (b : IpBuffer) (out : HarqPkt), b.backendSize ≤ n → b.idle = [] → b.Lenient →
      (∀ p ∈ b.shelf.waiting, 0 ≤ p.size ∧ p.size ≤ most) → n * most + bitRoundMargin < bits →
      (getPktsLoop n bits b out).1.backendHasPkts = false ∧
      (∀ p ∈ out.pkts, p ∈ (getPktsLoop n bits b out).2.pkts) ∧
      ∀ x ∈ b.shelf.waiting, b.MayPass x → ∃ p ∈ (getPktsLoop n bits b out).2.pkts,
        p.currentT = x.currentT ∧ p.size = x.size := by
  induction n with
  | zero =>
      intro bits b out hsize hidle _ _ _
      have hnone := backendHasPkts_of_size (Nat.le_zero.mp hsize)
      exact ⟨hnone, fun p hp => hp, fun x hx => absurd hx (waiting_nil hidle hnone x)⟩
  | succ n ih =>
      intro bits b out hsize hidle hlen hsz hbits
      have hmargin : 0 < bitRoundMargin := by norm_num [bitRoundMargin]
      have hbits' : n * most + bitRoundMargin < bits - most := by
        push_cast at hbits
        linarith
      have hpos : 0 < bits := by
        have hn : 0 ≤ (n : ℚ) * most := by positivity
        linarith
      simp only [getPktsLoop]
      split
      · obtain ⟨hnone, hsome⟩ := backendPopNext_size b
        have hon := backendPopNext_onward b
        have hback := (backendPopNext_frame b).sameBackend
        have hspare := fun x hx => backendPopNext_spares (x := x) hlen hx
        have hyields := backendPopNext_yields ⊤ b
        split
        · rename_i b₁ hb₁
          rw [hb₁] at hnone hback hspare
          have hempty := backendHasPkts_of_size (hnone rfl)
          refine ⟨hempty, fun p hp => hp, fun x hx hmay => ?_⟩
          rcases hspare x hx hmay with hx | ⟨p, hp, -⟩
          · exact absurd hx (waiting_nil (hback.idle.trans hidle) hempty x)
          · cases hp
        · rename_i p b₁ hb₁
          rw [hb₁] at hsome hyields hon hback hspare
          have hshrink : b₁.backendSize < b.backendSize := hsome p rfl
          obtain ⟨hsz₁, hout⟩ := hyields.forall_mem (inherited_atMost most) hsz
          have hp : p.size ≤ most := (hout p (by simp)).2
          have hmore : ¬bits - p.size ≤ bitRoundMargin := by
            have hn : 0 ≤ (n : ℚ) * most := by positivity
            rw [not_le]
            linarith
          rw [if_pos (by linarith), if_neg hmore]
          obtain ⟨hempty, hkeep, htake⟩ := ih (bits - p.size) { b₁ with oldestT := p.currentT }
            { out with bits := out.bits + p.size, pkts := out.pkts ++ [p.whole] }
            (show b₁.backendSize ≤ n by omega) (hback.idle.trans hidle) (hlen.onward hon.queue)
            hsz₁ (by linarith)
          refine ⟨hempty, fun q hq => hkeep q (List.mem_append_left _ hq), fun x hx hmay => ?_⟩
          rcases hspare x hx hmay with hx | ⟨p', hp', hage, hsize'⟩
          · exact htake x hx ((hon.mayPass_iff x).mpr hmay)
          · obtain rfl := Option.some.inj hp'
            exact ⟨p.whole, hkeep _ (by simp), hage, hsize'⟩
      · rename_i hstop
        have hnone : b.backendHasPkts = false := by simpa using fun hhas => hstop ⟨hpos, hhas⟩
        exact ⟨hnone, fun p hp => hp, fun x hx => absurd hx (waiting_nil hidle hnone x)⟩

/-- **A large grant takes all**: some grant empties the buffer and hands out every packet
that may pass, when the coins are lenient. -/
theorem getPkts_takes {b : IpBuffer} (hidle : b.idle = []) (hlen : b.Lenient)
    (hsz : ∀ p ∈ b.shelf.waiting, 0 ≤ p.size) : ∃ grant : ℚ, 0 < grant ∧ ∀ out : HarqPkt,
      (b.getPkts grant out).1.backendHasPkts = false ∧
      ∀ x ∈ b.shelf.waiting, b.MayPass x → ∃ p ∈ (b.getPkts grant out).2.pkts,
        p.currentT = x.currentT ∧ p.size = x.size := by
  have hmost : 0 ≤ weight IpPkt.size b.shelf.waiting := weight_nonneg hsz
  refine ⟨(⌈b.backendSize * weight IpPkt.size b.shelf.waiting⌉ + 1 : ℤ), ?_, fun out => ?_⟩
  · have hceil : 0 ≤ ⌈b.backendSize * weight IpPkt.size b.shelf.waiting⌉ :=
      Int.ceil_nonneg (by positivity)
    exact_mod_cast Int.lt_add_one_of_le hceil
  · have hloop := getPktsLoop_takes hmost b.backendSize
      (⌈b.backendSize * weight IpPkt.size b.shelf.waiting⌉ + 1 : ℤ) b { out with bits := 0 } le_rfl
      hidle hlen (fun p hp => ⟨hsz p hp, le_weight hsz hp⟩) ?_
    · unfold getPkts
      rw [Int.floor_intCast]
      exact ⟨hloop.1, hloop.2.2⟩
    · have hceil := Int.le_ceil (b.backendSize * weight IpPkt.size b.shelf.waiting)
      have hmargin : bitRoundMargin < 1 := by norm_num [bitRoundMargin]
      push_cast
      linarith

end IpBuffer

end NetworkEmulator
