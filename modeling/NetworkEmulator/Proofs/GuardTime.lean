/-
The guard time by which a DualPI2 queue shares the link.

While the L4S queue has packets, `choose_l4s` lets a classic packet go only when
`classic_guard_s` has passed since the last one.  One `pop_next` may take many packets,
for the AQM drops what it likes of them, so the guard is about the packets taken and not
about the calls: `Paced` is what a single pass of the loop keeps, and the operations
between the calls keep it as long as the clock does not go back.

Before the first `step` the clock and the last classic dequeue both read 0, so nothing
can have waited for the guard yet; `clock` says that.
-/
import NetworkEmulator.Proofs.DualQueue
import NetworkEmulator.Proofs.Passing

namespace NetworkEmulator

namespace DualPi2Queue

/-- A classic packet went while the L4S queue had packets. -/
def Dequeue.overtakes (d : Dequeue) : Bool := d.classic && d.l4sWaiting

/-- The time of the last classic packet among those taken, or 0. -/
def lastClassic (taken : List Dequeue) : ℚ :=
  (((taken.filter Dequeue.classic).getLast?).map Dequeue.time).getD 0

/-- The times a run of operations steps to. -/
def stepTimes (calls : List Call) : List ℚ :=
  calls.filterMap fun
    | .step t => some t
    | _ => none

/-- The operations but `configure`. -/
def Call.KeepsConfig : Call → Prop
  | .configure _ => False
  | _ => True

/-- **What the guard time promises of a queue and of what was taken from it.** -/
structure SharesLink (guard : ℚ) (s : Served) : Prop where
  /-- Classic packets that overtake are a guard time apart. -/
  apart : (s.taken.filter Dequeue.overtakes).Pairwise fun a b => a.time + guard ≤ b.time
  /-- A guard time after the last classic packet, the next one goes first. -/
  turn : s.queue.cQueue ≠ [] → lastClassic s.taken + guard ≤ s.queue.currentT →
    ∃ d rest, s.queue.dequeues = d :: rest ∧ d.classic = true
  /-- `pop_next` fails only when it leaves both queues empty. -/
  emptied : s.queue.popNext.1 = none → s.queue.popNext.2.hasPkts = false

/-! ### The queue that is chosen has a packet -/

theorem takeFrom_chooseL4s {q : DualPi2Queue} (h : q.hasPkts = true) :
    ∃ p q', q.takeFrom q.chooseL4s = some (p, q') ∧ q.popHead = some (p, q') := by
  have hsome : (q.takeFrom q.chooseL4s).isSome = true := by
    cases hl : q.lQueue with
    | nil =>
        cases hc : q.cQueue with
        | nil => simp [hasPkts, hl, hc] at h
        | cons c rest => simp [chooseL4s, takeFrom, hl, hc]
    | cons l rest =>
        cases hc : q.cQueue with
        | nil => simp [chooseL4s, takeFrom, hl, hc]
        | cons c rest' => cases hch : q.chooseL4s <;> simp [takeFrom, hl, hc]
  obtain ⟨⟨p, q'⟩, htake⟩ := Option.isSome_iff_exists.mp hsome
  exact ⟨p, q', htake, by rw [popHead, htake]⟩

theorem popHead_takeFrom {q q' : DualPi2Queue} {p : IpPkt} (h : q.popHead = some (p, q')) :
    q.takeFrom q.chooseL4s = some (p, q') := by
  by_cases hhas : q.hasPkts = true
  · obtain ⟨p₁, q₁, htake, hpop⟩ := takeFrom_chooseL4s hhas
    rw [htake, ← hpop, h]
  · have hl : q.lQueue = [] := by
      cases hl : q.lQueue <;> simp_all [hasPkts]
    have hc : q.cQueue = [] := by
      cases hc : q.cQueue <;> simp_all [hasPkts]
    cases hch : q.chooseL4s <;> simp [popHead, takeFrom, hl, hc, hch] at h

/-- What is taken is of the class of the queue it is taken from. -/
theorem Classed.takeFrom {q q' : DualPi2Queue} {l4s : Bool} {p : IpPkt} (h : Classed q)
    (htake : q.takeFrom l4s = some (p, q')) : p.isL4s = l4s := by
  obtain ⟨rfl, rest, hq, -⟩ | ⟨rfl, rest, hq, -⟩ := DualPi2Queue.takeFrom_eq_some htake
  · exact h.l4s p (by rw [hq]; exact List.mem_cons_self ..)
  · exact h.classic p (by rw [hq]; exact List.mem_cons_self ..)

/-- A classic packet that overtakes has waited for the guard. -/
theorem waited_of_not_chooseL4s {q : DualPi2Queue} (hguard : 0 < q.cfg.classicGuardS)
    (hl : q.lQueue ≠ []) (h : q.chooseL4s = false) :
    q.lastClassicDequeueT + q.cfg.classicGuardS ≤ q.currentT := by
  have hl' : q.lQueue.isEmpty = false := by
    rw [List.isEmpty_eq_false_iff]
    exact hl
  cases hc : q.cQueue with
  | nil => simp [chooseL4s, hl', hc] at h
  | cons c rest =>
      simp only [chooseL4s, hl', hc, List.isEmpty_cons, Bool.false_eq_true, if_false,
        if_neg (not_le.mpr hguard), decide_eq_false_iff_not, not_lt] at h
      linarith

theorem not_chooseL4s_of_waited {q : DualPi2Queue} (hguard : 0 < q.cfg.classicGuardS)
    (hc : q.cQueue ≠ []) (h : q.lastClassicDequeueT + q.cfg.classicGuardS ≤ q.currentT) :
    q.chooseL4s = false := by
  have hc' : q.cQueue.isEmpty = false := by
    rw [List.isEmpty_eq_false_iff]
    exact hc
  unfold chooseL4s
  split
  · rfl
  · rw [if_neg (by simp [hc']), if_neg (not_le.mpr hguard), decide_eq_false_iff_not]
    linarith

/-! ### One pass of the loop -/

/-- What a run keeps of the pace of the classic packets; `steps` are the times so far. -/
structure Paced (guard : ℚ) (steps : List ℚ) (q : DualPi2Queue) (taken : List Dequeue) :
    Prop where
  classed : Classed q
  config : q.cfg.classicGuardS = guard
  clock : q.currentT ∈ steps ∨ q.currentT = 0 ∧ q.lastClassicDequeueT = 0
  last : q.lastClassicDequeueT = lastClassic taken
  apart : (taken.filter Dequeue.overtakes).Pairwise fun a b => a.time + guard ≤ b.time
  past : ∀ d ∈ taken.filter Dequeue.overtakes,
    d.time ∈ steps ∧ d.time ≤ q.lastClassicDequeueT ∧ d.time ≤ q.currentT

/-- The fields that only `examine` and `step` write. -/
structure SameClock (q q' : DualPi2Queue) : Prop where
  cfg : q'.cfg = q.cfg
  currentT : q'.currentT = q.currentT
  last : q'.lastClassicDequeueT = q.lastClassicDequeueT

theorem sameClock_takeFrom {q q' : DualPi2Queue} {l4s : Bool} {p : IpPkt}
    (h : q.takeFrom l4s = some (p, q')) : SameClock q q' := by
  obtain ⟨-, rest, -, rfl⟩ | ⟨-, rest, -, rfl⟩ := takeFrom_eq_some h
  · exact ⟨rfl, rfl, rfl⟩
  · exact ⟨rfl, rfl, rfl⟩

/-- An operation that takes packets away, or none, and leaves the clock alone. -/
theorem Paced.same {guard : ℚ} {steps : List ℚ} {q q' : DualPi2Queue} {taken : List Dequeue}
    (h : Paced guard steps q taken) (hc : Classed q') (hs : SameClock q q') :
    Paced guard steps q' taken := by
  refine ⟨hc, ?_, ?_, ?_, h.apart, ?_⟩
  · rw [hs.cfg]
    exact h.config
  · rw [hs.currentT, hs.last]
    exact h.clock
  · rw [hs.last]
    exact h.last
  · rw [hs.currentT, hs.last]
    exact h.past

theorem markLikelihood_last (q : DualPi2Queue) (x : ℚ) :
    (q.markLikelihood x).2.lastClassicDequeueT = q.lastClassicDequeueT := by
  unfold markLikelihood
  split
  · rfl
  · split <;> rfl

theorem markCe_last (q : DualPi2Queue) (p : IpPkt) :
    (q.markCe p).2.lastClassicDequeueT = q.lastClassicDequeueT := by
  unfold markCe
  split <;> rfl

/-- Examining a classic packet, whatever comes of it, notes the time. -/
theorem examine_last (q : DualPi2Queue) (p : IpPkt) : (q.examine p).2.lastClassicDequeueT
    = if p.isL4s then q.lastClassicDequeueT else q.currentT := by
  have hdraw {q₁ q₂ : DualPi2Queue} {x : ℚ} {b : Bool} (h : q₁.markLikelihood x = (b, q₂)) :
      q₂.lastClassicDequeueT = q₁.lastClassicDequeueT := by
    have hq := markLikelihood_last q₁ x
    rwa [h] at hq
  unfold examine
  split
  · simp only
    split
    · rename_i q₂ hq₂
      have hq := hdraw hq₂
      exact (markCe_last q₂ p).trans hq
    · rename_i q₂ hq₂
      have hq := hdraw hq₂
      exact hq
  · simp only
    split
    · rename_i q₂ hq₂
      have hq := hdraw hq₂
      split
      · exact (markCe_last q₂ p).trans hq
      · exact hq
    · rename_i q₂ hq₂
      have hq := hdraw hq₂
      exact hq

theorem lastClassic_append_classic {taken : List Dequeue} {d : Dequeue} (h : d.classic = true) :
    lastClassic (taken ++ [d]) = d.time := by
  simp [lastClassic, h]

theorem lastClassic_append_l4s {taken : List Dequeue} {d : Dequeue} (h : d.classic = false) :
    lastClassic (taken ++ [d]) = lastClassic taken := by
  simp [lastClassic, h]

section Pass

variable {guard : ℚ} {steps : List ℚ} {q q' : DualPi2Queue} {taken : List Dequeue} {p : IpPkt}

/-- An L4S packet changes neither the clock nor the pace. -/
private theorem Paced.passL4s (h : Paced guard steps q taken) (hclassed : Classed q')
    (hsame : SameClock q q') (hl4s : p.isL4s = true) :
    Paced guard steps q' (taken ++ [q.noted p]) := by
  have hfilter : (taken ++ [q.noted p]).filter Dequeue.overtakes
      = taken.filter Dequeue.overtakes := by
    simp [Dequeue.overtakes, noted, hl4s]
  have hkept := h.same hclassed hsame
  refine ⟨hclassed, hkept.config, hkept.clock, ?_, ?_, ?_⟩
  · rw [lastClassic_append_l4s (by simp [noted, hl4s])]
    exact hkept.last
  · rw [hfilter]
    exact hkept.apart
  · rw [hfilter]
    exact hkept.past

/-- A classic packet that overtakes comes the guard after the one before it, so after a step. -/
private theorem Paced.waited (hguard : 0 < guard) (h : Paced guard steps q taken)
    (hwait : q.lQueue ≠ []) (hchosen : q.chooseL4s = false) :
    q.lastClassicDequeueT + guard ≤ q.currentT ∧ q.currentT ∈ steps := by
  have hg : 0 < q.cfg.classicGuardS := by
    rw [h.config]
    exact hguard
  have hwaited := waited_of_not_chooseL4s hg hwait hchosen
  rw [h.config] at hwaited
  refine ⟨hwaited, ?_⟩
  rcases h.clock with hin | ⟨hzero, hzeroLast⟩
  · exact hin
  · rw [hzero, hzeroLast] at hwaited
    linarith

/-- A classic packet is noted, and keeps the pace if it waited. -/
private theorem Paced.passClassic (h : Paced guard steps q taken) (hclassed : Classed q')
    (hcfg : q'.cfg = q.cfg) (hnow : q'.currentT = q.currentT)
    (hlast : q'.lastClassicDequeueT = q.currentT) (hl4s : p.isL4s = false)
    (hwaited : q.lQueue ≠ [] →
      q.lastClassicDequeueT + guard ≤ q.currentT ∧ q.currentT ∈ steps) :
    Paced guard steps q' (taken ++ [q.noted p]) := by
  have hclock : q'.currentT ∈ steps ∨ q'.currentT = 0 ∧ q'.lastClassicDequeueT = 0 := by
    rw [hnow, hlast]
    rcases h.clock with hin | ⟨hzero, -⟩
    · exact Or.inl hin
    · exact Or.inr ⟨hzero, hzero⟩
  have hlastTaken : q'.lastClassicDequeueT = lastClassic (taken ++ [q.noted p]) := by
    rw [hlast, lastClassic_append_classic (by simp [noted, hl4s])]
    rfl
  have hpast : ∀ d ∈ taken.filter Dequeue.overtakes,
      d.time ∈ steps ∧ d.time ≤ q.currentT ∧ d.time ≤ q.currentT := by
    intro d hd
    obtain ⟨hin, -, hle⟩ := h.past d hd
    exact ⟨hin, hle, hle⟩
  by_cases hwait : q.lQueue = []
  · -- nothing is overtaken
    have hfilter : (taken ++ [q.noted p]).filter Dequeue.overtakes
        = taken.filter Dequeue.overtakes := by
      simp [Dequeue.overtakes, noted, hwait]
    refine ⟨hclassed, hcfg ▸ h.config, hclock, hlastTaken, ?_, ?_⟩
    · rw [hfilter]
      exact h.apart
    · rw [hfilter, hnow, hlast]
      exact hpast
  · obtain ⟨hguarded, hstepped⟩ := hwaited hwait
    have hfilter : (taken ++ [q.noted p]).filter Dequeue.overtakes
        = taken.filter Dequeue.overtakes ++ [q.noted p] := by
      simp [Dequeue.overtakes, noted, hl4s, hwait]
    refine ⟨hclassed, hcfg ▸ h.config, hclock, hlastTaken, ?_, ?_⟩
    · rw [hfilter, List.pairwise_append]
      refine ⟨h.apart, List.pairwise_singleton _ _, ?_⟩
      intro a ha b hb
      rw [List.mem_singleton.mp hb]
      obtain ⟨-, hle, -⟩ := h.past a ha
      show a.time + guard ≤ q.currentT
      linarith
    · rw [hfilter, hnow, hlast]
      refine List.forall_mem_append.mpr ⟨hpast, fun d hd => ?_⟩
      rw [List.mem_singleton.mp hd]
      exact ⟨hstepped, le_refl _, le_refl _⟩

end Pass

/-- **A pass takes a head and examines it, and the pace is kept.** -/
theorem Paced.pass {guard : ℚ} {steps : List ℚ} {q q₁ : DualPi2Queue} {taken : List Dequeue}
    {p : IpPkt} (hguard : 0 < guard) (h : Paced guard steps q taken)
    (hpop : q.popHead = some (p, q₁)) :
    Paced guard steps (q₁.examine p).2 (taken ++ [q.noted p]) := by
  have htake := popHead_takeFrom hpop
  have hclass := h.classed.takeFrom htake
  have hsame := sameClock_takeFrom htake
  have hun := unmoved_examine q₁ p
  have hlast := examine_last q₁ p
  have hclassed := (h.classed.shrinks (shrinks_takeFrom htake)).shrinks hun.shrinks
  have hcfg : (q₁.examine p).2.cfg = q.cfg := hun.cfg.trans hsame.cfg
  have hnow : (q₁.examine p).2.currentT = q.currentT := hun.currentT.trans hsame.currentT
  cases hl4s : p.isL4s with
  | true =>
      rw [hl4s, if_pos rfl] at hlast
      exact h.passL4s hclassed ⟨hcfg, hnow, hlast.trans hsame.last⟩ hl4s
  | false =>
      rw [hl4s] at hclass hlast
      exact h.passClassic hclassed hcfg hnow (hlast.trans hsame.currentT) hl4s
        fun hwait => h.waited hguard hwait hclass.symm

theorem Paced.popNextLoop {guard : ℚ} (hguard : 0 < guard) {steps : List ℚ} (n : ℕ) :
    ∀ {q : DualPi2Queue} {taken : List Dequeue}, Paced guard steps q taken →
      Paced guard steps (popNextLoop n q).2 (taken ++ dequeuesLoop n q) := by
  induction n with
  | zero =>
      intro q taken h
      rw [dequeuesLoop, List.append_nil]
      exact h.same (h.classed.shrinks (unmoved_updateSnapshot q).shrinks) ⟨rfl, rfl, rfl⟩
  | succ n ih =>
      intro q taken h
      simp only [DualPi2Queue.popNextLoop, dequeuesLoop]
      cases hpop : q.popHead with
      | none =>
          simp only [List.append_nil]
          exact h.same (h.classed.shrinks (unmoved_updateSnapshot q).shrinks) ⟨rfl, rfl, rfl⟩
      | some head =>
          obtain ⟨p, q₁⟩ := head
          have hpass := h.pass hguard hpop
          simp only
          cases hex : q₁.examine p with
          | mk answer q₂ =>
              rw [hex] at hpass
              cases answer with
              | some p' =>
                  exact hpass.same (hpass.classed.shrinks (unmoved_updateSnapshot q₂).shrinks)
                    ⟨rfl, rfl, rfl⟩
              | none =>
                  have hrest := ih hpass
                  rwa [List.append_assoc, List.singleton_append] at hrest

/-! ### Runs -/

theorem maybeUpdatePi_clock (q : DualPi2Queue) : SameClock q q.maybeUpdatePi := by
  unfold maybeUpdatePi
  simp only
  split <;> exact ⟨rfl, rfl, rfl⟩

/-- The clock may go on to any time that none of the times before passes. -/
theorem Paced.step {guard : ℚ} {steps : List ℚ} {q : DualPi2Queue} {taken : List Dequeue}
    (h : Paced guard steps q taken) {t : ℚ} (ht : ∀ u ∈ steps, u ≤ t) :
    Paced guard (steps ++ [t]) (q.step t) taken := by
  have hclock := maybeUpdatePi_clock { q with currentT := t }
  have hnow : (q.step t).currentT = t := hclock.currentT
  have hlast : (q.step t).lastClassicDequeueT = q.lastClassicDequeueT := hclock.last
  have hcfg : (q.step t).cfg = q.cfg := hclock.cfg
  refine ⟨h.classed.shrinks (shrinks_step q t), ?_, Or.inl ?_, ?_, h.apart, ?_⟩
  · rw [hcfg]
    exact h.config
  · rw [hnow]
    simp
  · rw [hlast]
    exact h.last
  · intro d hd
    obtain ⟨hin, hle, -⟩ := h.past d hd
    rw [hnow, hlast]
    exact ⟨List.mem_append_left _ hin, hle, ht _ hin⟩

theorem Paced.apply {guard : ℚ} (hguard : 0 < guard) {steps : List ℚ} {s : Served}
    (h : Paced guard steps s.queue s.taken) (c : Call) (hc : c.KeepsConfig)
    (hsteps : (steps ++ stepTimes [c]).Pairwise (· ≤ ·)) :
    Paced guard (steps ++ stepTimes [c]) (s.apply c).queue (s.apply c).taken := by
  have hclassed := h.classed.apply c
  cases c with
  | configure cfg => exact hc.elim
  | step t =>
      refine h.step fun u hu => ?_
      exact (List.pairwise_append.mp hsteps).2.2 u hu t (List.mem_singleton.mpr rfl)
  | enqueue p =>
      have hsame : SameClock s.queue (s.queue.enqueue p) := by
        unfold DualPi2Queue.enqueue
        split <;> exact ⟨rfl, rfl, rfl⟩
      rw [show steps ++ stepTimes [_] = steps from List.append_nil _]
      exact h.same hclassed hsame
  | popNext =>
      rw [show steps ++ stepTimes [_] = steps from List.append_nil _]
      exact h.popNextLoop hguard s.queue.size
  | popOldest =>
      have hsame : SameClock s.queue (s.apply .popOldest).queue := by
        simp only [Served.apply, popOldest]
        cases htake : s.queue.takeFrom s.queue.oldestIsL4s with
        | none => exact ⟨rfl, rfl, rfl⟩
        | some taken =>
            have hs := sameClock_takeFrom htake
            exact ⟨hs.cfg, hs.currentT, hs.last⟩
      have htaken : (s.apply .popOldest).taken = s.taken := by
        simp only [Served.apply]
        split <;> rfl
      rw [htaken, show steps ++ stepTimes [_] = steps from List.append_nil _]
      exact h.same hclassed hsame
  | popDroppedPkt =>
      have hsame : SameClock s.queue (s.apply .popDroppedPkt).queue := by
        simp only [Served.apply, popDroppedPkt]
        cases s.queue.droppedQueue <;> exact ⟨rfl, rfl, rfl⟩
      have htaken : (s.apply .popDroppedPkt).taken = s.taken := by
        simp only [Served.apply]
        split <;> rfl
      rw [htaken, show steps ++ stepTimes [_] = steps from List.append_nil _]
      exact h.same hclassed hsame
  | getIntervalStats =>
      rw [show steps ++ stepTimes [_] = steps from List.append_nil _]
      exact h.same hclassed ⟨rfl, rfl, rfl⟩

theorem paced_foldl {guard : ℚ} (hguard : 0 < guard) (calls : List Call) :
    ∀ (steps : List ℚ) (s : Served), Paced guard steps s.queue s.taken →
      (∀ c ∈ calls, c.KeepsConfig) → (steps ++ stepTimes calls).Pairwise (· ≤ ·) →
        Paced guard (steps ++ stepTimes calls) (calls.foldl Served.apply s).queue
          (calls.foldl Served.apply s).taken := by
  induction calls with
  | nil =>
      intro steps s h _ _
      simpa [stepTimes] using h
  | cons c rest ih =>
      intro steps s h hcalls hsteps
      have hsplit : stepTimes (c :: rest) = stepTimes [c] ++ stepTimes rest := by
        rw [stepTimes, ← List.singleton_append, List.filterMap_append]
        rfl
      rw [hsplit, ← List.append_assoc] at hsteps ⊢
      exact ih _ (s.apply c)
        (h.apply hguard c (hcalls c (List.mem_cons_self ..)) (List.pairwise_append.mp hsteps).1)
        (fun c' hc' => hcalls c' (List.mem_cons_of_mem _ hc')) hsteps

theorem paced_serve {cfg : DualPi2Config} (hguard : 0 < cfg.classicGuardS) (unitDist : Draws)
    {calls : List Call} (hcalls : ∀ c ∈ calls, c.KeepsConfig)
    (hsteps : (stepTimes calls).Pairwise (· ≤ ·)) :
    Paced cfg.classicGuardS (stepTimes calls) (serve cfg unitDist calls).queue
      (serve cfg unitDist calls).taken := by
  have hstart : Paced cfg.classicGuardS [] ({ cfg := cfg, unitDist := unitDist } : DualPi2Queue)
      [] := by
    refine ⟨⟨?_, ?_⟩, rfl, Or.inr ⟨rfl, rfl⟩, rfl, List.Pairwise.nil, ?_⟩
    iterate 3
      · intro x hx
        cases hx
  exact paced_foldl hguard calls [] { queue := { cfg := cfg, unitDist := unitDist } } hstart hcalls
    hsteps

/-- The first packet of a call is the head of the chosen queue. -/
theorem dequeues_chosen {q : DualPi2Queue} (hc : Classed q) (h : q.hasPkts = true) :
    ∃ d rest, q.dequeues = d :: rest ∧ d.classic = !q.chooseL4s := by
  obtain ⟨p, q₁, htake, hpop⟩ := takeFrom_chooseL4s h
  have hclass := hc.takeFrom htake
  have hsize : q.size = (q.size - 1) + 1 := by
    have hne : q.size ≠ 0 := by
      cases hl : q.lQueue <;> cases hcq : q.cQueue <;> simp_all [size, hasPkts]
    omega
  rw [dequeues, hsize, dequeuesLoop, hpop]
  exact ⟨_, _, rfl, by rw [noted, hclass]⟩

theorem Paced.sharesLink {guard : ℚ} {steps : List ℚ} {s : Served} (hguard : 0 < guard)
    (h : Paced guard steps s.queue s.taken) : SharesLink guard s := by
  refine ⟨h.apart, ?_, ?_⟩
  · intro hne hwaited
    have hhas : s.queue.hasPkts = true := by
      cases hcq : s.queue.cQueue <;> simp_all [hasPkts]
    have hnot : s.queue.chooseL4s = false := by
      refine not_chooseL4s_of_waited ?_ hne ?_
      · rw [h.config]
        exact hguard
      · rw [h.config, h.last]
        exact hwaited
    obtain ⟨d, rest, hd, hclassic⟩ := dequeues_chosen h.classed hhas
    exact ⟨d, rest, hd, by rw [hclassic, hnot]; rfl⟩
  · intro hnone
    have hsize : s.queue.popNext.2.size = 0 :=
      (popNextLoop_size s.queue.size s.queue le_rfl).1 hnone
    obtain ⟨hl, hcq⟩ := Nat.add_eq_zero_iff.mp hsize
    rw [hasPkts, List.length_eq_zero_iff.mp hl, List.length_eq_zero_iff.mp hcq]
    rfl

/-- **A DualPI2 queue shares the link as its guard time promises**, and while `pop_next`
has packets to choose from, the queue it chooses is not empty. -/
theorem guard_time_kept (cfg : DualPi2Config) (unitDist : Draws) (calls : List Call)
    (hguard : 0 < cfg.classicGuardS) (hcalls : ∀ c ∈ calls, c.KeepsConfig)
    (hsteps : (stepTimes calls).Pairwise (· ≤ ·)) :
    SharesLink cfg.classicGuardS (serve cfg unitDist calls) ∧
      ∀ q : DualPi2Queue, q.hasPkts = true → (q.takeFrom q.chooseL4s).isSome = true := by
  refine ⟨(paced_serve hguard unitDist hcalls hsteps).sharesLink hguard, ?_⟩
  intro q h
  obtain ⟨p, q', htake, -⟩ := takeFrom_chooseL4s h
  rw [htake]
  rfl

/-- Two classic packets wait with an L4S packet: the first goes at once, then the L4S
packet, and the second only after the guard time, when the AQM drops it. -/
def guardedCalls : List Call :=
  [.step 1, .enqueue { IpPkt.makeNext 1 100 100 1 0 0 with ecn := .ect1 },
    .enqueue (IpPkt.makeNext 1 60 60 2 0 0), .enqueue (IpPkt.makeNext 1 60 60 3 0 0),
    .popNext, .popNext, .enqueue { IpPkt.makeNext 1 100 100 4 0 0 with ecn := .ect1 },
    .step 2, .popNext, .popOldest]

theorem guard_time_kept_twice : 0 < ({} : DualPi2Config).classicGuardS ∧
    (∀ c ∈ guardedCalls, c.KeepsConfig) ∧ (stepTimes guardedCalls).Pairwise (· ≤ ·) ∧
    SharesLink ({} : DualPi2Config).classicGuardS (serve {} (fun _ => 1 / 2) guardedCalls) := by
  have hguard : 0 < ({} : DualPi2Config).classicGuardS := by
    show (0 : ℚ) < 1 / 1000
    norm_num
  have hcalls : ∀ c ∈ guardedCalls, c.KeepsConfig := by
    simp [guardedCalls, Call.KeepsConfig]
  have hsteps : (stepTimes guardedCalls).Pairwise (· ≤ ·) := by
    simp [stepTimes, guardedCalls]
  exact ⟨hguard, hcalls, hsteps,
    (guard_time_kept {} (fun _ => 1 / 2) guardedCalls hguard hcalls hsteps).1⟩

example : (serve {} (fun _ => 1 / 2) guardedCalls).taken.map
    (fun d => (d.time, d.classic)) = [(1, true), (1, false), (2, true), (2, false)] := by
  decide +kernel

end DualPi2Queue

end NetworkEmulator
