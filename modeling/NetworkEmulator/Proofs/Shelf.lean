/-
What the IP buffer does to the packets it holds.

The order inside the queues does not matter here, only which packets there are.  A
`Shelf` is that much of a buffer: the packets waiting, the packets the AQM dropped,
and the log of the latter.  Every operation relates the shelves before and after it,
and that is all later files use of the buffer's code when they count bits or follow a
flag.

A packet on its way may be relabelled (`Retag`) and cut (`Cut`).  `Cut` says of the
sizes that they stay in a subgroup `G`: all of `ℚ`, or the integers when every packet
has a whole number of bits.
-/
import NetworkEmulator.Library.Recut
import NetworkEmulator.Proofs.Frame

namespace NetworkEmulator

/-- What may happen to a packet that keeps its size: the flags and counters change,
or the AQM marks it, which it does to ECT packets only. -/
inductive Retag : IpPkt → IpPkt → Prop
  | flags (p : IpPkt) (frag dropped : Bool) (n : ℕ) :
      Retag p { p with isFragment := frag, fragsCreated := n, aqmDropped := dropped }
  | mark {p : IpPkt} (h : p.ecn = .ect0 ∨ p.ecn = .ect1) : Retag p p.markCe

/-- Cutting `bits` off a packet that is larger. -/
inductive Cut (G : AddSubgroup ℚ) : IpPkt → IpPkt → IpPkt → Prop
  | mk {p : IpPkt} {bits : ℚ} (hpos : 0 < bits) (hlt : bits < p.size) (hmem : bits ∈ G) :
      Cut G p (p.piece (p.size - bits)) (p.piece bits)

/-- The packets a buffer holds. -/
structure Shelf where
  waiting : List IpPkt
  dropped : List IpPkt
  dropLog : List IpPkt

/-- A shelf that handed out `out`, dropping some classic packets on the way. -/
def Shelf.Yields (G : AddSubgroup ℚ) (s s' : Shelf) (out : List IpPkt) : Prop :=
  ∃ drops : List IpPkt, s'.dropped = s.dropped ++ drops ∧ s'.dropLog = s.dropLog ++ drops ∧
    (∀ p ∈ drops, p.isL4s = false) ∧
    Recut Retag (Cut G) Never s.waiting (s'.waiting ++ drops ++ out)

namespace Shelf.Yields

variable {G : AddSubgroup ℚ} {s s' s'' : Shelf} {out out' : List IpPkt}

theorem nil (hw : s.waiting.Perm s'.waiting) (hd : s'.dropped = s.dropped)
    (hl : s'.dropLog = s.dropLog) : Yields G s s' [] :=
  ⟨[], by simp [hd], by simp [hl], by simp, by simpa using Recut.perm hw⟩

theorem trans (h : Yields G s s' out) (h' : Yields G s' s'' out') :
    Yields G s s'' (out ++ out') := by
  obtain ⟨ds, hd, hl, hc, hr⟩ := h
  obtain ⟨ds', hd', hl', hc', hr'⟩ := h'
  refine ⟨ds ++ ds', by rw [hd', hd, List.append_assoc], by rw [hl', hl, List.append_assoc],
    ?_, ?_⟩
  · intro p hp
    exact (List.mem_append.mp hp).elim (hc p) (hc' p)
  · have hrest := (hr'.append_right (ds ++ out))
    have hback : (s'.waiting ++ ds ++ out).Perm (s'.waiting ++ (ds ++ out)) := by
      rw [List.append_assoc]
    refine hr.trans ((Recut.perm hback).trans
      (hrest.trans (Recut.perm (Multiset.coe_eq_coe.mp ?_))))
    simp only [← Multiset.coe_add]
    abel

/-- Every packet handed out, dropped or left inherits what the waiting ones had. -/
theorem forall_mem {P : IpPkt → Prop} (hP : Inherited Retag (Cut G) Never P) (h : Yields G s s' out)
    (hw : ∀ p ∈ s.waiting, P p) : (∀ p ∈ s'.waiting, P p) ∧ ∀ p ∈ out, P p := by
  obtain ⟨ds, -, -, -, hr⟩ := h
  have hall := hr.forall_mem hP hw
  exact ⟨fun p hp => hall p (by simp [hp]), fun p hp => hall p (by simp [hp])⟩

/-- So does every packet in the drop log. -/
theorem forall_dropLog {P : IpPkt → Prop} (hP : Inherited Retag (Cut G) Never P)
    (h : Yields G s s' out) (hw : ∀ p ∈ s.waiting, P p) (hlog : ∀ p ∈ s.dropLog, P p) :
    ∀ p ∈ s'.dropLog, P p := by
  obtain ⟨ds, -, hl, -, hr⟩ := h
  have hall := hr.forall_mem hP hw
  intro p hp
  rw [hl] at hp
  rcases List.mem_append.mp hp with hp | hp
  · exact hlog p hp
  · exact hall p (by simp [hp])

end Shelf.Yields

/-- Sizes that lie in `G` keep doing so. -/
theorem inherited_size (G : AddSubgroup ℚ) : Inherited Retag (Cut G) Never fun p => p.size ∈ G where
  relabel h hr := by cases hr <;> exact h
  cut h hc := by
    obtain ⟨-, -, hmem⟩ := hc
    exact ⟨G.sub_mem h hmem, hmem⟩
  join _ _ hj := hj.elim

/-- Cutting leaves no piece of a negative size. -/
theorem inherited_nonneg (G : AddSubgroup ℚ) :
    Inherited Retag (Cut G) Never fun p => 0 ≤ p.size where
  relabel h hr := by cases hr <;> exact h
  cut h hc := by
    obtain ⟨hpos, hlt, -⟩ := hc
    exact ⟨sub_nonneg.mpr hlt.le, hpos.le⟩
  join _ _ hj := hj.elim

/-! ### The DualPI2 queue -/

namespace DualPi2Queue

/-- The shelf of a DualPI2 queue. -/
def shelf (q : DualPi2Queue) : Shelf := ⟨q.lQueue ++ q.cQueue, q.droppedQueue, q.dropLog⟩

@[simp] theorem shelf_updateSnapshot (q : DualPi2Queue) : q.updateSnapshot.shelf = q.shelf := rfl

theorem shelf_markLikelihood (q : DualPi2Queue) (x : ℚ) :
    (q.markLikelihood x).2.shelf = q.shelf := by
  unfold markLikelihood
  split
  · rfl
  · split <;> rfl

theorem shelf_markCe (q : DualPi2Queue) (p : IpPkt) : (q.markCe p).2.shelf = q.shelf := by
  unfold markCe
  split <;> rfl

theorem enqueue_waiting (q : DualPi2Queue) (p : IpPkt) :
    (q.enqueue p).shelf.waiting.Perm (p :: q.shelf.waiting) := by
  unfold enqueue
  split
  · change (q.lQueue ++ [p] ++ q.cQueue).Perm (p :: (q.lQueue ++ q.cQueue))
    rw [List.append_assoc]
    exact List.perm_middle
  · change (q.lQueue ++ (q.cQueue ++ [p])).Perm (p :: (q.lQueue ++ q.cQueue))
    rw [← List.append_assoc]
    exact List.perm_append_singleton _ _

theorem enqueue_dropped (q : DualPi2Queue) (p : IpPkt) :
    (q.enqueue p).shelf.dropped = q.shelf.dropped ∧
      (q.enqueue p).shelf.dropLog = q.shelf.dropLog := by
  unfold enqueue
  split <;> exact ⟨rfl, rfl⟩

/-- The head of one queue is gone, and the rest is as before. -/
theorem takeFrom_spec {q q' : DualPi2Queue} {l4s : Bool} {p : IpPkt}
    (h : q.takeFrom l4s = some (p, q')) :
    q.shelf.waiting.Perm (p :: q'.shelf.waiting) ∧ q'.shelf.dropped = q.shelf.dropped ∧
      q'.shelf.dropLog = q.shelf.dropLog := by
  obtain ⟨-, rest, hq, rfl⟩ | ⟨-, rest, hq, rfl⟩ := takeFrom_eq_some h
  · exact ⟨by simp [shelf, hq], rfl, rfl⟩
  · exact ⟨by simp [shelf, hq], rfl, rfl⟩

theorem popHead_spec {q q' : DualPi2Queue} {p : IpPkt} (h : q.popHead = some (p, q')) :
    q.shelf.waiting.Perm (p :: q'.shelf.waiting) ∧ q'.shelf.dropped = q.shelf.dropped ∧
      q'.shelf.dropLog = q.shelf.dropLog := by
  obtain ⟨l4s, htake⟩ := popHead_eq_some h
  exact takeFrom_spec htake

/-- Marking touches the packet at most by making an ECT packet CE. -/
theorem markCe_retag (q : DualPi2Queue) {p : IpPkt} (h : p.ecn ≠ .notEct) :
    (q.markCe p).1 = p ∨ Retag p (q.markCe p).1 := by
  unfold markCe
  split
  · exact Or.inl rfl
  · rename_i hce
    refine Or.inr (.mark ?_)
    cases hecn : p.ecn with
    | notEct => exact absurd hecn h
    | ce => exact absurd hecn hce
    | ect0 => exact Or.inl rfl
    | ect1 => exact Or.inr rfl

/-- The AQM passes the packet, marks it when it is ECT, or drops it when it is not
L4S. -/
theorem examine_spec (q : DualPi2Queue) (p : IpPkt) :
    (∃ p' q', q.examine p = (some p', q') ∧ (p' = p ∨ Retag p p') ∧ q'.shelf = q.shelf) ∨
    (∃ q', q.examine p = (none, q') ∧ p.isL4s = false ∧
      q'.shelf.waiting = q.shelf.waiting ∧
      q'.shelf.dropped = q.shelf.dropped ++ [{ p with aqmDropped := true }] ∧
      q'.shelf.dropLog = q.shelf.dropLog ++ [{ p with aqmDropped := true }]) := by
  unfold examine
  split
  · rename_i hl4s
    left
    have hecn : p.ecn ≠ .notEct := by
      rcases IpPkt.isL4s_iff.mp hl4s with h | h <;> simp [h]
    simp only
    split
    · rename_i q₁ hq₁
      refine ⟨_, _, rfl, markCe_retag q₁ hecn, ?_⟩
      rw [shelf_markCe, ← congrArg (fun r => r.2.shelf) hq₁, shelf_markLikelihood]; rfl
    · rename_i q₁ hq₁
      refine ⟨_, _, rfl, Or.inl rfl, ?_⟩
      rw [← congrArg (fun r => r.2.shelf) hq₁, shelf_markLikelihood]; rfl
  · rename_i hl4s
    simp only
    split
    · rename_i q₁ hq₁
      have hsame : q₁.shelf = q.shelf := by
        rw [← congrArg (fun r => r.2.shelf) hq₁, shelf_markLikelihood]; rfl
      split
      · rename_i hmark
        exact Or.inl ⟨_, _, rfl, markCe_retag q₁ (by simp [hmark.1]),
          by rw [shelf_markCe, hsame]⟩
      · exact Or.inr ⟨_, rfl, by simpa using hl4s, by rw [← hsame]; rfl, by rw [← hsame]; rfl,
          by rw [← hsame]; rfl⟩
    · rename_i q₁ hq₁
      refine Or.inl ⟨_, _, rfl, Or.inl rfl, ?_⟩
      rw [← congrArg (fun r => r.2.shelf) hq₁, shelf_markLikelihood]; rfl

/-- One pass of `pop_next` that drops its packet. -/
private theorem yields_drop {G : AddSubgroup ℚ} {q q₁ q₂ : DualPi2Queue} {p : IpPkt}
    (htake : q.popHead = some (p, q₁)) (hl4s : p.isL4s = false)
    (hw : q₂.shelf.waiting = q₁.shelf.waiting)
    (hd : q₂.shelf.dropped = q₁.shelf.dropped ++ [{ p with aqmDropped := true }])
    (hl : q₂.shelf.dropLog = q₁.shelf.dropLog ++ [{ p with aqmDropped := true }]) :
    Shelf.Yields G q.shelf q₂.shelf [] := by
  obtain ⟨hperm, hd₁, hl₁⟩ := popHead_spec htake
  refine ⟨[{ p with aqmDropped := true }], by rw [hd, hd₁], by rw [hl, hl₁], ?_, ?_⟩
  · intro x hx
    obtain rfl := List.mem_singleton.mp hx
    exact hl4s
  · rw [hw]
    refine (Recut.perm hperm).trans ((Recut.relabel _
      (Retag.flags p p.isFragment true p.fragsCreated)).trans (Recut.perm ?_))
    simpa using (List.perm_append_singleton _ _).symm

/-- One pass of `pop_next` that keeps its packet. -/
private theorem yields_take {G : AddSubgroup ℚ} {q q₁ q₂ : DualPi2Queue} {p p' : IpPkt}
    (htake : q.popHead = some (p, q₁)) (htag : p' = p ∨ Retag p p')
    (hsame : q₂.shelf = q₁.shelf) : Shelf.Yields G q.shelf q₂.shelf [p'] := by
  obtain ⟨hperm, hd₁, hl₁⟩ := popHead_spec htake
  refine ⟨[], by rw [hsame, hd₁, List.append_nil], by rw [hsame, hl₁, List.append_nil],
    by simp, ?_⟩
  rw [hsame, List.append_nil]
  have hback : (p' :: q₁.shelf.waiting).Perm (q₁.shelf.waiting ++ [p']) :=
    (List.perm_append_singleton _ _).symm
  rcases htag with rfl | htag
  · exact Recut.perm (hperm.trans hback)
  · exact (Recut.perm hperm).trans ((Recut.relabel _ htag).trans (Recut.perm hback))

theorem popNextLoop_yields (G : AddSubgroup ℚ) (n : ℕ) :
    ∀ q : DualPi2Queue,
      Shelf.Yields G q.shelf (popNextLoop n q).2.shelf (popNextLoop n q).1.toList := by
  induction n with
  | zero => intro q; exact .nil (.refl _) rfl rfl
  | succ n ih =>
      intro q
      simp only [popNextLoop]
      split
      · exact .nil (.refl _) rfl rfl
      · rename_i p q₁ htake
        rcases examine_spec q₁ p with ⟨p', q₂, hex, htag, hsame⟩ | ⟨q₂, hex, hl4s, hw, hd, hl⟩
        · simp only [hex, Option.toList_some, shelf_updateSnapshot]
          exact yields_take htake htag hsame
        · simp only [hex]
          have hrest := (yields_drop (G := G) htake hl4s hw hd hl).trans (ih q₂)
          rwa [List.nil_append] at hrest

/-- **`pop_next` hands out what it answers, and drops classic packets only.** -/
theorem popNext_yields (G : AddSubgroup ℚ) (q : DualPi2Queue) :
    Shelf.Yields G q.shelf q.popNext.2.shelf q.popNext.1.toList :=
  popNextLoop_yields G q.size q

theorem shelf_step (q : DualPi2Queue) (t : ℚ) : (q.step t).shelf = q.shelf := by
  simp only [step, shelf_updateSnapshot, maybeUpdatePi]
  split <;> rfl

end DualPi2Queue

/-! ### The buffer -/

namespace IpBuffer

/-- The shelf of a buffer.  Only one of its two backends ever holds packets. -/
def shelf (b : IpBuffer) : Shelf :=
  ⟨b.pktList ++ b.l4sQueue.shelf.waiting, b.l4sQueue.droppedQueue, b.l4sQueue.dropLog⟩

/-- A change of the DualPI2 queue is one of the whole buffer. -/
private theorem yields_of_queue {G : AddSubgroup ℚ} {b : IpBuffer} {q : DualPi2Queue}
    {out : List IpPkt} (h : Shelf.Yields G b.l4sQueue.shelf q.shelf out) :
    Shelf.Yields G b.shelf { b with l4sQueue := q }.shelf out := by
  obtain ⟨ds, hd, hl, hc, hr⟩ := h
  refine ⟨ds, hd, hl, hc, ?_⟩
  simpa only [shelf, List.append_assoc] using hr.append_left b.pktList

private theorem yields_popFront (G : AddSubgroup ℚ) (b : IpBuffer) :
    Shelf.Yields G b.shelf b.popFront.2.shelf b.popFront.1.toList := by
  cases hl : b.pktList with
  | nil => simp only [popFront, hl]; exact .nil (.refl _) rfl rfl
  | cons p rest =>
      simp only [popFront, hl, Option.toList_some]
      refine ⟨[], by simp [shelf], by simp [shelf], by simp, ?_⟩
      rw [List.append_nil]
      refine Recut.perm ?_
      simp only [shelf, hl, List.cons_append]
      exact (List.perm_append_singleton _ _).symm

theorem backendPopNext_yields (G : AddSubgroup ℚ) (b : IpBuffer) :
    Shelf.Yields G b.shelf b.backendPopNext.2.shelf b.backendPopNext.1.toList := by
  unfold backendPopNext
  split
  · exact yields_of_queue (DualPi2Queue.popNext_yields G b.l4sQueue)
  · exact yields_popFront G b

theorem backendPopOldest_yields (G : AddSubgroup ℚ) (b : IpBuffer) :
    Shelf.Yields G b.shelf b.backendPopOldest.2.shelf b.backendPopOldest.1.toList := by
  unfold backendPopOldest
  split
  · cases h : b.l4sQueue.takeFrom b.l4sQueue.oldestIsL4s with
    | none =>
        simp only [DualPi2Queue.popOldest, h, Option.map_none]
        exact .nil (.refl _) rfl rfl
    | some r =>
        obtain ⟨p, q⟩ := r
        obtain ⟨hperm, hd, hl⟩ := DualPi2Queue.takeFrom_spec h
        simp only [DualPi2Queue.popOldest, h, Option.map_some, Option.toList_some]
        refine yields_of_queue ⟨[], by simpa using hd, by simpa using hl, by simp, ?_⟩
        rw [List.append_nil]
        exact Recut.perm (hperm.trans (List.perm_append_singleton _ _).symm)
  · exact yields_popFront G b

theorem backendRequeueFront_waiting (b : IpBuffer) (p : IpPkt) :
    (b.backendRequeueFront p).shelf.waiting.Perm (p :: b.shelf.waiting) := by
  unfold backendRequeueFront
  split
  · have h := (DualPi2Queue.enqueue_waiting b.l4sQueue p).append_left b.pktList
    exact h.trans List.perm_middle
  · split
    · simp [shelf]
    · simp [shelf]

theorem backendRequeueFront_dropped (b : IpBuffer) (p : IpPkt) :
    (b.backendRequeueFront p).shelf.dropped = b.shelf.dropped ∧
      (b.backendRequeueFront p).shelf.dropLog = b.shelf.dropLog := by
  unfold backendRequeueFront
  split
  · exact DualPi2Queue.enqueue_dropped b.l4sQueue p
  · split <;> exact ⟨rfl, rfl⟩

/-- What `add_pkt` does to the shelf: the packet is on it, or nothing changed. -/
theorem addPkt_shelf (b : IpBuffer) (p : IpPkt) :
    ((b.addPkt p).1 = true ∧ (b.addPkt p).2.shelf.waiting.Perm (p :: b.shelf.waiting) ∧
      (b.addPkt p).2.shelf.dropped = b.shelf.dropped ∧
      (b.addPkt p).2.shelf.dropLog = b.shelf.dropLog) ∨
    ((b.addPkt p).1 = false ∧ (b.addPkt p).2.shelf = b.shelf) := by
  unfold addPkt
  split
  · exact Or.inr ⟨rfl, rfl⟩
  · left
    refine ⟨rfl, ?_⟩
    simp only
    split
    · exact ⟨backendRequeueFront_waiting _ p, backendRequeueFront_dropped _ p⟩
    · exact ⟨backendRequeueFront_waiting _ p, backendRequeueFront_dropped _ p⟩

theorem shelf_step (b : IpBuffer) (t : ℚ) : (b.step t).shelf = b.shelf := by
  have hq : (if b.l4sCfg.enabled = true then b.l4sQueue.step t else b.l4sQueue).shelf
      = b.l4sQueue.shelf := by
    split
    · exact DualPi2Queue.shelf_step _ t
    · rfl
  simp only [shelf, step]
  rw [hq]
  exact congrArg (fun s : Shelf => (⟨_, s.dropped, s.dropLog⟩ : Shelf)) hq

/-- What the loop of `get_pkts` adds to the block, and where it takes it from. -/
structure Filled (G : AddSubgroup ℚ) (b b' : IpBuffer) (out out' : HarqPkt)
    (new : List IpPkt) : Prop where
  yields : Shelf.Yields G b.shelf b'.shelf new
  block : out' = { out with bits := out.bits + weight IpPkt.size new, pkts := out.pkts ++ new }

/-- A block that got nothing. -/
private theorem Filled.none {G : AddSubgroup ℚ} {b b' : IpBuffer} {out : HarqPkt}
    (h : Shelf.Yields G b.shelf b'.shelf []) : Filled G b b' out out [] :=
  ⟨h, by simp⟩

private theorem Filled.trans {G : AddSubgroup ℚ} {b b' b'' : IpBuffer} {out out' out'' : HarqPkt}
    {new new' : List IpPkt} (h : Filled G b b' out out' new)
    (h' : Filled G b' b'' out' out'' new') : Filled G b b'' out out'' (new ++ new') :=
  ⟨h.yields.trans h'.yields, by
    rw [h'.block, h.block]; simp [add_assoc]⟩

private theorem Filled.whole {G : AddSubgroup ℚ} {b b' : IpBuffer} {p : IpPkt} (out : HarqPkt)
    (h : Shelf.Yields G b.shelf b'.shelf [p]) :
    Filled G b { b' with oldestT := p.currentT } out
      { out with bits := out.bits + p.size, pkts := out.pkts ++ [p.whole] } [p.whole] := by
  refine ⟨?_, by rw [weight_singleton]; rfl⟩
  obtain ⟨ds, hd, hl, hc, hr⟩ := h
  refine ⟨ds, hd, hl, hc, hr.trans ?_⟩
  have htag : Retag p p.whole := .flags p false p.aqmDropped (p.fragsCreated + 1)
  exact Recut.append_left (Recut.relabel [] htag) _

private theorem Filled.cut {G : AddSubgroup ℚ} {b b' : IpBuffer} {p : IpPkt} {bits : ℚ}
    (out : HarqPkt) (h : Shelf.Yields G b.shelf b'.shelf [p]) (hpos : 0 < bits)
    (hlt : bits < p.size) (hmem : bits ∈ G) :
    Filled G b (b'.backendRequeueFront (p.piece (p.size - bits))) out
      { out with bits := out.bits + bits, pkts := out.pkts ++ [p.piece bits] }
      [p.piece bits] := by
  refine ⟨?_, by rw [weight_singleton]; rfl⟩
  obtain ⟨ds, hd, hl, hc, hr⟩ := h
  obtain ⟨hd', hl'⟩ := backendRequeueFront_dropped b' (p.piece (p.size - bits))
  refine ⟨ds, hd'.trans hd, hl'.trans hl, hc, hr.trans ?_⟩
  have hcut : Recut Retag (Cut G) Never [p] [p.piece (p.size - bits), p.piece bits] :=
    Recut.cut [] (.mk hpos hlt hmem)
  refine (hcut.append_left _).trans (Recut.perm ?_)
  have hq := (backendRequeueFront_waiting b' (p.piece (p.size - bits))).symm
  refine List.Perm.trans ?_ ((hq.append_right ds).append_right [p.piece bits])
  refine Multiset.coe_eq_coe.mp ?_
  simp only [← Multiset.coe_add, ← Multiset.cons_coe, ← Multiset.singleton_add, Multiset.coe_nil,
    add_zero]
  abel

/-- The passes of `get_pkts` fill the block, and sizes in `G` stay in `G`. -/
private theorem loopRules_filled (G : AddSubgroup ℚ) (b₀ : IpBuffer) (out₀ : HarqPkt) :
    LoopRules fun bits b out => bits ∈ G ∧ (∀ p ∈ b.shelf.waiting, p.size ∈ G) ∧
      ∃ new, Filled G b₀ b out₀ out new where
  nothing {bits b b' out} h hpop := by
    obtain ⟨hbits, hsz, new, hnew⟩ := h
    have hyields := backendPopNext_yields G b
    rw [hpop] at hyields
    exact ⟨hbits, (hyields.forall_mem (inherited_size G) hsz).1, new ++ [],
      hnew.trans (.none hyields)⟩
  whole {bits b b' out p} h hpop _ := by
    obtain ⟨hbits, hsz, new, hnew⟩ := h
    have hyields := backendPopNext_yields G b
    rw [hpop] at hyields
    obtain ⟨hsz', hp⟩ := hyields.forall_mem (inherited_size G) hsz
    exact ⟨G.sub_mem hbits (hp p (by simp)), hsz', new ++ [p.whole],
      hnew.trans (.whole out hyields)⟩
  piece {bits b b' out p} h hpos hpop hlt := by
    obtain ⟨hbits, hsz, new, hnew⟩ := h
    have hyields := backendPopNext_yields G b
    rw [hpop] at hyields
    have hcut := Filled.cut out hyields hpos hlt hbits
    exact ⟨G.zero_mem, (hcut.yields.forall_mem (inherited_size G) hsz).1, new ++ [p.piece bits],
      hnew.trans hcut⟩

/-- **`get_pkts` moves packets from the buffer to the block, cutting at most.**  The
block's `bits` are the sum of what it holds. -/
theorem getPkts_filled {G : AddSubgroup ℚ} (hint : ∀ n : ℤ, (n : ℚ) ∈ G) (b : IpBuffer)
    (grant : ℚ) (out : HarqPkt) (hsz : ∀ p ∈ b.shelf.waiting, p.size ∈ G) :
    ∃ new, Shelf.Yields G b.shelf (b.getPkts grant out).1.shelf new ∧
      (b.getPkts grant out).2 =
        { out with bits := weight IpPkt.size new, pkts := out.pkts ++ new } := by
  obtain ⟨_, b', ⟨-, -, new, hyields, hblock⟩, heq⟩ :=
    getPkts_rule (loopRules_filled G b { out with bits := 0 }) b grant out
      ⟨hint _, hsz, [], .none (.nil (.refl _) rfl rfl)⟩
  refine ⟨new, heq ▸ hyields, ?_⟩
  rw [zero_add] at hblock
  exact hblock

/-- `pop_oldest_pkt` moves one packet to the block. -/
theorem popOldestPkt_spec (G : AddSubgroup ℚ) {b b' : IpBuffer} {out out' : HarqPkt}
    (h : b.popOldestPkt out = some (b', out')) :
    ∃ p, Shelf.Yields G b.shelf b'.shelf [p] ∧ out' = { out with bits := p.size, pkts := [p] } := by
  have hpop := backendPopOldest_yields G b
  obtain ⟨p, b₁, hb₁, rfl, rfl⟩ := popOldestPkt_eq_some h
  rw [hb₁] at hpop
  exact ⟨p, hpop, rfl⟩

/-- The AQM has no say in it. -/
theorem popOldestPkt_dropped {b b' : IpBuffer} {out out' : HarqPkt}
    (h : b.popOldestPkt out = some (b', out')) : b'.shelf.dropped = b.shelf.dropped := by
  have hpop : b.backendPopOldest.2.shelf.dropped = b.shelf.dropped := by
    unfold backendPopOldest popFront
    split
    · cases htake : b.l4sQueue.takeFrom b.l4sQueue.oldestIsL4s with
      | none => simp only [DualPi2Queue.popOldest, htake, Option.map_none]
      | some r =>
          simp only [DualPi2Queue.popOldest, htake, Option.map_some]
          exact (DualPi2Queue.takeFrom_spec htake).2.1
    · split
      · rfl
      · rfl
  obtain ⟨p, b₁, hb₁, rfl, -⟩ := popOldestPkt_eq_some h
  rw [hb₁] at hpop
  exact hpop

/-- `pop_aqm_dropped_pkt` moves the first dropped packet to the block. -/
theorem popAqmDroppedPkt_spec {b b' : IpBuffer} {out out' : HarqPkt}
    (h : b.popAqmDroppedPkt out = some (b', out')) :
    ∃ p, b.shelf.dropped = p :: b'.shelf.dropped ∧ b'.shelf.waiting = b.shelf.waiting ∧
      b'.shelf.dropLog = b.shelf.dropLog ∧ out'.bits = p.size ∧ out'.pkts = [p] := by
  obtain ⟨p, rest, -, hd, rfl, rfl⟩ := popAqmDroppedPkt_eq_some h
  exact ⟨p, hd, rfl, rfl, rfl, rfl⟩

end IpBuffer

end NetworkEmulator
