/-
The two backends of the IP buffer.

A DualPI2 queue that holds classic packets only, and whose AQM never fires, is one
FIFO, and so is the plain deque.  What differs is where a remainder goes: to the front
of the deque, to the back of the classic queue.  So both backends give the same answers
for as long as a packet is put back only into an empty buffer, and from the first time
it is not they differ at the next packet taken out.
-/
import NetworkEmulator.Library.Lockstep
import NetworkEmulator.Proofs.Frame

namespace NetworkEmulator

namespace IpBuffer

/-! ### Calls and answers -/

/-- A call of the buffer. -/
inductive Call where
  | step (t : ℚ)
  | addPkt (p : IpPkt)
  | getPkts (grant : ℚ) (out : HarqPkt)
  | popOldestPkt (out : HarqPkt)

/-- What a call returns; `popped none` is the answer `false`. -/
inductive Answer where
  | stepped
  | admitted (ok : Bool)
  | filled (b : HarqPkt)
  | popped (b : Option HarqPkt)
  deriving DecidableEq

def call (b : IpBuffer) : Call → Answer × IpBuffer
  | .step t => (.stepped, b.step t)
  | .addPkt p => ((.admitted (b.addPkt p).1), (b.addPkt p).2)
  | .getPkts grant out => (.filled (b.getPkts grant out).2, (b.getPkts grant out).1)
  | .popOldestPkt out =>
    match b.popOldestPkt out with
    | none => (.popped none, b)
    | some (b, out) => (.popped (some out), b)

/-- The answer to a call, with the oldest timestamp the buffer reports after it. -/
def respond (b : IpBuffer) (c : Call) : (Answer × ℚ) × IpBuffer :=
  (((b.call c).1, (b.call c).2.getOldestTimestamp), (b.call c).2)

/-- Nothing for the DualPI2 queue to do: no packet is ECT, and the coin of the AQM
never falls on a drop. -/
def NothingToDo (b : IpBuffer) : Call → Prop
  | .addPkt p => p.ecn = .notEct
  | .getPkts _ _ => b.l4sQueue.pC = 0
  | _ => True

/-- Whether `bits` bits taken from the front end inside a packet that others wait
behind. -/
def endsInside (bits : ℚ) : List IpPkt → Bool
  | [] => false
  | p :: rest =>
    decide (0 < bits) &&
      if p.size ≤ bits then
        decide (bitRoundMargin < bits - p.size) && endsInside (bits - p.size) rest
      else decide (p.size - bits ≤ p.originalSize) && !rest.isEmpty

/-- The call puts no fragment back into a buffer that holds others. -/
def KeepsOrder (b : IpBuffer) : Call → Prop
  | .addPkt p => p.isFragment = true → p.size ≤ p.originalSize →
      b.currentSize + p.size ≤ b.maxSize → b.backendHasPkts = false
  | .getPkts grant _ => endsInside (⌊grant⌋ : ℤ) b.l4sQueue.cQueue = false
  | _ => True

instance (b : IpBuffer) (c : Call) : Decidable (NothingToDo b c) := by
  cases c <;> unfold NothingToDo <;> infer_instance

instance (b : IpBuffer) (c : Call) : Decidable (KeepsOrder b c) := by
  cases c <;> unfold KeepsOrder <;> infer_instance

/-! ### The simulation -/

/-- A plain and a DualPI2 buffer that hold the same packets in the same order. -/
structure Alike (b₀ b₁ : IpBuffer) : Prop where
  plain : b₀.l4sCfg.enabled = false
  dual : b₁.l4sCfg.enabled = true
  lQueue : b₁.l4sQueue.lQueue = []
  cQueue : b₁.l4sQueue.cQueue = b₀.pktList
  notEct : ∀ p ∈ b₀.pktList, p.ecn = .notEct
  currentT : b₁.currentT = b₀.currentT
  currentSize : b₁.currentSize = b₀.currentSize
  maxSize : b₁.maxSize = b₀.maxSize

variable {b₀ b₁ : IpBuffer}

theorem Alike.hasPkts (h : Alike b₀ b₁) : b₁.backendHasPkts = b₀.backendHasPkts := by
  simp only [backendHasPkts, h.plain, h.dual, DualPi2Queue.hasPkts, h.lQueue, h.cQueue, if_true,
    Bool.false_eq_true, if_false, List.isEmpty_nil, Bool.not_true, Bool.false_or]

theorem Alike.size (h : Alike b₀ b₁) : b₁.backendSize = b₀.backendSize := by
  simp only [backendSize, h.plain, h.dual, DualPi2Queue.size, h.lQueue, h.cQueue, if_true,
    Bool.false_eq_true, if_false, List.length_nil, Nat.zero_add]

theorem Alike.oldestTimestamp (h : Alike b₀ b₁) :
    b₁.backendOldestTimestamp = b₀.backendOldestTimestamp := by
  simp only [backendOldestTimestamp, h.plain, h.dual, DualPi2Queue.oldestTimestamp,
    DualPi2Queue.peekOldest, h.lQueue, h.cQueue, if_true, Bool.false_eq_true, if_false]
  rcases b₀.pktList with _ | ⟨p, rest⟩
  · exact h.currentT
  · rfl

theorem Alike.getOldestTimestamp (h : Alike b₀ b₁) :
    b₁.getOldestTimestamp = b₀.getOldestTimestamp := by
  unfold IpBuffer.getOldestTimestamp
  rw [h.hasPkts, h.oldestTimestamp, h.currentT]

/-- A classic packet at the head of the only queue comes out untouched. -/
private theorem popNext_classic {q : DualPi2Queue} {p : IpPkt} {rest : List IpPkt}
    (hl : q.lQueue = []) (hc : q.cQueue = p :: rest) (hecn : p.ecn = .notEct) (hpc : q.pC = 0) :
    ∃ q', q.popNext = (some p, q') ∧ q'.lQueue = [] ∧ q'.cQueue = rest ∧ q'.pC = 0 := by
  have hsize : q.size = rest.length + 1 := by simp [DualPi2Queue.size, hl, hc]
  have hclassic : p.isL4s = false := by simp [IpPkt.isL4s, hecn]
  have hhead : q.popHead
      = some (p, { q with cQueue := rest, cBits := subClamped q.cBits p.size }) := by
    simp [DualPi2Queue.popHead, DualPi2Queue.takeFrom, DualPi2Queue.chooseL4s, hl, hc]
  rw [DualPi2Queue.popNext, hsize, DualPi2Queue.popNextLoop, hhead]
  simp only [DualPi2Queue.examine, hclassic, Bool.false_eq_true, if_false,
    DualPi2Queue.markLikelihood, hpc, le_refl, if_true]
  exact ⟨_, rfl, hl, rfl, rfl⟩

/-- Both backends give the same packet, and are alike afterwards. -/
private theorem Alike.popNext {p : IpPkt} {rest : List IpPkt} (h : Alike b₀ b₁)
    (hlist : b₀.pktList = p :: rest) (hpc : b₁.l4sQueue.pC = 0) :
    b₀.backendPopNext = (some p, { b₀ with pktList := rest }) ∧
      ∃ b₁', b₁.backendPopNext = (some p, b₁') ∧ Alike { b₀ with pktList := rest } b₁' ∧
        b₁'.l4sQueue.pC = 0 := by
  have hecn : p.ecn = .notEct := h.notEct p (by rw [hlist]; exact List.mem_cons_self ..)
  obtain ⟨q', hq', hl, hc, hpc'⟩ :=
    popNext_classic h.lQueue (h.cQueue.trans hlist) hecn hpc
  refine ⟨backendPopNext_plain h.plain hlist, { b₁ with l4sQueue := q' }, ?_, ?_, hpc'⟩
  · simp only [backendPopNext, h.dual, if_true, hq']
  · exact ⟨h.plain, h.dual, hl, hc,
      fun x hx => h.notEct x (by rw [hlist]; exact List.mem_cons_of_mem _ hx),
      h.currentT, h.currentSize, h.maxSize⟩

/-- A packet that does not go in front of others goes to the same place in both. -/
private theorem Alike.requeue {p : IpPkt} (h : Alike b₀ b₁) (hecn : p.ecn = .notEct)
    (hback : p.size ≤ p.originalSize ∧ p.isFragment = true → b₀.pktList = []) :
    Alike (b₀.backendRequeueFront p) (b₁.backendRequeueFront p) := by
  have hclassic : p.isL4s = false := by simp [IpPkt.isL4s, hecn]
  have hplain : b₀.backendRequeueFront p = { b₀ with pktList := b₀.pktList ++ [p] } := by
    simp only [backendRequeueFront, h.plain, Bool.false_eq_true, if_false]
    split
    · rename_i hfront
      rw [hback hfront]
      rfl
    · rfl
  have henq := b₁.l4sQueue.enqueue_classic hclassic
  rw [hplain, backendRequeueFront_dual h.dual]
  refine ⟨h.plain, h.dual, henq.1.trans h.lQueue, ?_, ?_, h.currentT, h.currentSize, h.maxSize⟩
  · exact henq.2.trans (by rw [h.cQueue])
  · intro x hx
    rcases List.mem_append.mp hx with hx | hx
    · exact h.notEct x hx
    · rw [List.mem_singleton.mp hx]
      exact hecn

/-- The loop of `get_pkts` fills the same block from both. -/
private theorem Alike.getPktsLoop (n : ℕ) :
    ∀ (bits : ℚ) {b₀ b₁ : IpBuffer} (out : HarqPkt), Alike b₀ b₁ → b₁.l4sQueue.pC = 0 →
      endsInside bits b₀.pktList = false →
      (getPktsLoop n bits b₀ out).2 = (getPktsLoop n bits b₁ out).2 ∧
        Alike (getPktsLoop n bits b₀ out).1 (getPktsLoop n bits b₁ out).1 := by
  induction n with
  | zero => intro bits b₀ b₁ out h _ _; exact ⟨rfl, h⟩
  | succ n ih =>
      intro bits b₀ b₁ out h hpc hends
      simp only [IpBuffer.getPktsLoop, h.hasPkts]
      split
      · rename_i hgo
        cases hlist : b₀.pktList with
        | nil => simp [backendHasPkts, h.plain, hlist] at hgo
        | cons p rest =>
            obtain ⟨hpop₀, b₁', hpop₁, h', hpc'⟩ := h.popNext hlist hpc
            rw [hlist, endsInside, decide_eq_true hgo.1, Bool.true_and] at hends
            simp only [hpop₀, hpop₁]
            by_cases hfit : p.size ≤ bits
            · simp only [if_pos hfit]
              by_cases hmargin : bits - p.size ≤ bitRoundMargin
              · simp only [if_pos hmargin]
                exact ⟨trivial, { h' with }⟩
              · simp only [if_neg hmargin]
                rw [if_pos hfit, decide_eq_true (not_le.mp hmargin), Bool.true_and] at hends
                exact ih (bits - p.size) _ { h' with } hpc' hends
            · simp only [if_neg hfit]
              refine ⟨trivial, h'.requeue (h.notEct p (by rw [hlist]; exact List.mem_cons_self ..))
                fun hfront => ?_⟩
              -- the remainder would go in front, so nothing may wait behind it
              have hle : p.size - bits ≤ p.originalSize := hfront.1
              rw [if_neg hfit, decide_eq_true hle, Bool.true_and] at hends
              simpa using hends
      · exact ⟨rfl, h⟩

/-- The plain deque gives its front when asked for the oldest packet. -/
private theorem popOldestPkt_plain {b : IpBuffer} (he : b.l4sCfg.enabled = false) {p : IpPkt}
    {rest : List IpPkt} (hlist : b.pktList = p :: rest) (out : HarqPkt) :
    ∃ o, b.popOldestPkt out = some ({ b with
      pktList := rest, currentSize := subClamped b.currentSize p.size, oldestT := o },
      { out with bits := p.size, pkts := [p] }) := by
  have hhas : b.backendHasPkts = true := by simp [backendHasPkts, he, hlist]
  simp only [popOldestPkt, if_pos hhas, backendPopOldest, he, Bool.false_eq_true, if_false,
    popFront, hlist]
  exact ⟨_, rfl⟩

/-- So does a DualPI2 queue without L4S packets. -/
private theorem popOldestPkt_dual {b : IpBuffer} (he : b.l4sCfg.enabled = true) {p : IpPkt}
    {rest : List IpPkt} (hl : b.l4sQueue.lQueue = []) (hc : b.l4sQueue.cQueue = p :: rest)
    (out : HarqPkt) : ∃ o q, b.popOldestPkt out = some ({ b with
      l4sQueue := q, currentSize := subClamped b.currentSize p.size, oldestT := o },
      { out with bits := p.size, pkts := [p] }) ∧ q.lQueue = [] ∧ q.cQueue = rest := by
  have hhas : b.backendHasPkts = true := by simp [backendHasPkts, he, DualPi2Queue.hasPkts, hl, hc]
  have hq : ∃ q, b.l4sQueue.popOldest = some (p, q) ∧ q.lQueue = [] ∧ q.cQueue = rest := by
    simp only [DualPi2Queue.popOldest, DualPi2Queue.oldestIsL4s, DualPi2Queue.takeFrom, hl, hc]
    exact ⟨_, rfl, rfl, rfl⟩
  obtain ⟨q, hq, hql, hqc⟩ := hq
  simp only [popOldestPkt, if_pos hhas, backendPopOldest, if_pos he, hq]
  exact ⟨_, _, rfl, hql, hqc⟩

/-- What `add_pkt` does: nothing to the packets when the buffer is full. -/
private theorem addPkt_eq (b : IpBuffer) (p : IpPkt) :
    (b.maxSize < b.currentSize + p.size ∧ ∃ e, b.addPkt p = (false, { b with eMean := e })) ∨
    (b.currentSize + p.size ≤ b.maxSize ∧ ∃ g i n o, b.addPkt p = (true, ({ b with
      currentSize := b.currentSize + p.size, gMean := g, generatedPktsInterval := i
      generatedPktsTotal := n, oldestT := o } : IpBuffer).backendRequeueFront p)) := by
  unfold addPkt
  by_cases hfull : b.maxSize < b.currentSize + p.size
  · exact Or.inl ⟨hfull, _, by rw [if_pos hfull]⟩
  · refine Or.inr ⟨not_lt.mp hfull, ?_⟩
    rw [if_neg hfull]
    simp only
    split <;> exact ⟨_, _, _, _, rfl⟩

/-- The answer to a call is the same, and the buffers stay alike. -/
private theorem Alike.respond {c : Call} (h : Alike b₀ b₁) (hidle : NothingToDo b₁ c)
    (horder : KeepsOrder b₁ c) :
    (b₀.respond c).1 = (b₁.respond c).1 ∧ Alike (b₀.respond c).2 (b₁.respond c).2 := by
  suffices hcall : (b₀.call c).1 = (b₁.call c).1 ∧ Alike (b₀.call c).2 (b₁.call c).2 by
    refine ⟨?_, hcall.2⟩
    simp only [IpBuffer.respond, hcall.1, hcall.2.getOldestTimestamp]
  cases c with
  | step t =>
      refine ⟨rfl, h.plain, h.dual, ?_, ?_, h.notEct, rfl, h.currentSize, h.maxSize⟩
      · simp only [call, step, h.dual, if_true, DualPi2Queue.step_queues, h.lQueue]
      · simp only [call, step, h.dual, if_true, DualPi2Queue.step_queues, h.cQueue]
  | addPkt p =>
      rcases addPkt_eq b₀ p with ⟨hfull, e₀, h₀⟩ | ⟨hfits, g₀, i₀, n₀, o₀, h₀⟩ <;>
        rcases addPkt_eq b₁ p with ⟨hfull', e₁, h₁⟩ | ⟨hfits', g₁, i₁, n₁, o₁, h₁⟩ <;>
        simp only [call, h₀, h₁]
      · exact ⟨trivial, { h with }⟩
      · rw [h.currentSize, h.maxSize] at hfits'
        exact absurd hfull (not_lt.mpr hfits')
      · rw [h.currentSize, h.maxSize] at hfull'
        exact absurd hfull' (not_lt.mpr hfits)
      · refine ⟨trivial, Alike.requeue { h with currentSize := by rw [h.currentSize] } hidle
          fun hfront => ?_⟩
        have hno := horder hfront.2 hfront.1 hfits'
        rw [h.hasPkts] at hno
        simpa [backendHasPkts, h.plain] using hno
  | getPkts grant out =>
      have hends : endsInside (⌊grant⌋ : ℤ) b₀.pktList = false := by
        rw [← h.cQueue]
        exact horder
      obtain ⟨hblock, hleft⟩ := Alike.getPktsLoop b₀.backendSize (⌊grant⌋ : ℤ)
        { out with bits := 0 } h hidle hends
      simp only [call, getPkts, h.size]
      exact ⟨by rw [hblock], { hleft with currentSize := by simp only [hleft.currentSize, hblock] }⟩
  | popOldestPkt out =>
      cases hlist : b₀.pktList with
      | nil =>
          have hno : b₀.backendHasPkts = false := by simp [backendHasPkts, h.plain, hlist]
          simp only [call, popOldestPkt, h.hasPkts, hno, Bool.false_eq_true, if_false]
          exact ⟨trivial, h⟩
      | cons p rest =>
          obtain ⟨o₀, hpop₀⟩ := popOldestPkt_plain h.plain hlist out
          obtain ⟨o₁, q, hpop₁, hl, hc⟩ :=
            popOldestPkt_dual h.dual h.lQueue (h.cQueue.trans hlist) out
          simp only [call, hpop₀, hpop₁]
          exact ⟨trivial, h.plain, h.dual, hl, hc,
            fun x hx => h.notEct x (by rw [hlist]; exact List.mem_cons_of_mem _ hx), h.currentT,
            by rw [h.currentSize], h.maxSize⟩

/-! ### Where they part -/

/-- A plain buffer with a fragment in front that the DualPI2 buffer has at the back. -/
structure Apart (b₀ b₁ : IpBuffer) : Prop where
  plain : b₀.l4sCfg.enabled = false
  dual : b₁.l4sCfg.enabled = true
  lQueue : b₁.l4sQueue.lQueue = []
  order : ∃ frag next rest, b₀.pktList = frag :: next :: rest ∧
    b₁.l4sQueue.cQueue = next :: rest ++ [frag] ∧ frag ≠ next

/-- The oldest packet of one is not that of the other. -/
private theorem Apart.popOldest (h : Apart b₀ b₁) (out : HarqPkt) :
    (b₀.call (.popOldestPkt out)).1 ≠ (b₁.call (.popOldestPkt out)).1 := by
  obtain ⟨frag, next, rest, hlist, hqueue, hne⟩ := h.order
  obtain ⟨o₀, hpop₀⟩ := popOldestPkt_plain h.plain hlist out
  obtain ⟨o₁, q, hpop₁, -, -⟩ := popOldestPkt_dual h.dual h.lQueue hqueue out
  simp only [call, hpop₀, hpop₁, ne_eq, Answer.popped.injEq, Option.some.injEq]
  intro hsame
  have hpkts := congrArg HarqPkt.pkts hsame
  exact hne (List.cons.inj hpkts).1

/-- A fragment that goes in front of others in the deque and behind them in the queue. -/
private theorem Alike.apart {p x : IpPkt} {rest : List IpPkt} (h : Alike b₀ b₁)
    (hlist : b₀.pktList = x :: rest) (hecn : p.ecn = .notEct)
    (hfront : p.size ≤ p.originalSize ∧ p.isFragment = true) (huid : p.uid ≠ x.uid) :
    Apart (b₀.backendRequeueFront p) (b₁.backendRequeueFront p) := by
  have hclassic : p.isL4s = false := by simp [IpPkt.isL4s, hecn]
  have henq := b₁.l4sQueue.enqueue_classic hclassic
  rw [backendRequeueFront_plain h.plain hfront, backendRequeueFront_dual h.dual]
  refine ⟨h.plain, h.dual, henq.1.trans h.lQueue, p, x, rest, ?_, ?_, fun hpx => huid ?_⟩
  · simp only [hlist]
  · exact henq.2.trans (by rw [h.cQueue, hlist])
  · rw [hpx]

/-- A grant that ends inside a packet with others behind it parts the two. -/
private theorem Alike.getPktsLoop_apart (n : ℕ) :
    ∀ (bits : ℚ) {b₀ b₁ : IpBuffer} (out : HarqPkt), Alike b₀ b₁ → b₁.l4sQueue.pC = 0 →
      b₀.pktList.length ≤ n → endsInside bits b₀.pktList = true →
      (b₀.pktList.map IpPkt.uid).Nodup →
      Apart (IpBuffer.getPktsLoop n bits b₀ out).1 (IpBuffer.getPktsLoop n bits b₁ out).1 := by
  induction n with
  | zero =>
      intro bits b₀ b₁ out _ _ hlen hends _
      have hnil : b₀.pktList = [] := List.length_eq_zero_iff.mp (by omega)
      rw [hnil] at hends
      cases hends
  | succ n ih =>
      intro bits b₀ b₁ out h hpc hlen hends hnd
      cases hlist : b₀.pktList with
      | nil =>
          rw [hlist] at hends
          cases hends
      | cons p rest =>
          obtain ⟨hpop₀, b₁', hpop₁, h', hpc'⟩ := h.popNext hlist hpc
          rw [hlist, endsInside, Bool.and_eq_true, decide_eq_true_iff] at hends
          obtain ⟨hpos, hends⟩ := hends
          rw [hlist, List.map_cons, List.nodup_cons] at hnd
          rw [hlist, List.length_cons] at hlen
          have hhas : b₀.backendHasPkts = true := by simp [backendHasPkts, h.plain, hlist]
          simp only [IpBuffer.getPktsLoop, h.hasPkts, if_pos (And.intro hpos hhas), hpop₀, hpop₁]
          by_cases hfit : p.size ≤ bits
          · rw [if_pos hfit, Bool.and_eq_true, decide_eq_true_iff] at hends
            simp only [if_pos hfit, if_neg (not_le.mpr hends.1)]
            exact ih (bits - p.size) _ { h' with } hpc' (by simpa using hlen) hends.2 hnd.2
          · rw [if_neg hfit, Bool.and_eq_true, decide_eq_true_iff] at hends
            simp only [if_neg hfit]
            cases hrest : rest with
            | nil => simp [hrest] at hends
            | cons x rest' =>
                rw [hrest] at hnd h'
                refine h'.apart rfl (h.notEct p (by rw [hlist]; exact List.mem_cons_self ..))
                  ⟨hends.1, rfl⟩ fun huid => hnd.1 ?_
                rw [List.map_cons]
                exact List.mem_cons.mpr (Or.inl huid)

/-- No two of the packets waiting, and the one that comes, have one uid. -/
def DistinctUids (b : IpBuffer) : Call → Prop
  | .addPkt p => ((p :: b.l4sQueue.cQueue).map IpPkt.uid).Nodup
  | _ => (b.l4sQueue.cQueue.map IpPkt.uid).Nodup

instance (b : IpBuffer) (c : Call) : Decidable (DistinctUids b c) := by
  cases c <;> unfold DistinctUids <;> infer_instance

/-- A call that does not keep the order parts the two. -/
private theorem Alike.parts {c : Call} (h : Alike b₀ b₁) (hidle : NothingToDo b₁ c)
    (huids : DistinctUids b₁ c) (horder : ¬KeepsOrder b₁ c) :
    Apart (b₀.respond c).2 (b₁.respond c).2 := by
  cases c with
  | step t => exact absurd trivial horder
  | popOldestPkt out => exact absurd trivial horder
  | addPkt p =>
      simp only [KeepsOrder, Classical.not_imp] at horder
      obtain ⟨hfrag, hsize, hfits', hhas⟩ := horder
      rw [h.hasPkts] at hhas
      have hfits := hfits'
      rw [h.currentSize, h.maxSize] at hfits
      obtain ⟨g₀, i₀, n₀, o₀, h₀⟩ :=
        ((addPkt_eq b₀ p).resolve_left fun hf => absurd hf.1 (not_lt.mpr hfits)).2
      obtain ⟨g₁, i₁, n₁, o₁, h₁⟩ :=
        ((addPkt_eq b₁ p).resolve_left fun hf => absurd hf.1 (not_lt.mpr hfits')).2
      obtain ⟨x, rest, hlist⟩ : ∃ x rest, b₀.pktList = x :: rest :=
        List.exists_cons_of_ne_nil fun hnil => hhas (by simp [backendHasPkts, h.plain, hnil])
      have hnd : ((p :: x :: rest).map IpPkt.uid).Nodup := by
        rw [← hlist, ← h.cQueue]
        exact huids
      rw [List.map_cons, List.nodup_cons, List.map_cons] at hnd
      simp only [IpBuffer.respond, call, h₀, h₁]
      have halike : Alike { b₀ with
            currentSize := b₀.currentSize + p.size, gMean := g₀, generatedPktsInterval := i₀
            generatedPktsTotal := n₀, oldestT := o₀ }
          { b₁ with
            currentSize := b₁.currentSize + p.size, gMean := g₁, generatedPktsInterval := i₁
            generatedPktsTotal := n₁, oldestT := o₁ } :=
        { h with currentSize := by rw [h.currentSize] }
      exact halike.apart hlist hidle ⟨hsize, hfrag⟩ fun huid =>
        hnd.1 (List.mem_cons.mpr (Or.inl huid))
  | getPkts grant out =>
      have hends : endsInside (⌊grant⌋ : ℤ) b₀.pktList = true := by
        rw [← h.cQueue]
        simpa [KeepsOrder] using horder
      have hnd : (b₀.pktList.map IpPkt.uid).Nodup := by
        rw [← h.cQueue]
        exact huids
      have hlen : b₀.pktList.length ≤ b₀.backendSize := by
        simp only [backendSize, h.plain, Bool.false_eq_true, if_false]
        exact le_rfl
      have hapart := h.getPktsLoop_apart b₀.backendSize (⌊grant⌋ : ℤ) { out with bits := 0 }
        hidle hlen hends hnd
      simp only [IpBuffer.respond, call, getPkts, h.size]
      exact ⟨hapart.plain, hapart.dual, hapart.lQueue, hapart.order⟩

/-! ### The theorem -/

open Lockstep (answers after Meets)

/-- A new buffer, with the backend that `enabled` chooses. -/
def new (cfg : DualPi2Config) (verbosity : ℤ) (unitDist : Draws) (enabled : Bool) : IpBuffer :=
  { verbosity := verbosity, l4sQueue := { unitDist := unitDist } : IpBuffer }.configureL4s
    { cfg with enabled := enabled }

private theorem new_alike (cfg : DualPi2Config) (verbosity : ℤ) (unitDist : Draws) :
    Alike (new cfg verbosity unitDist false) (new cfg verbosity unitDist true) :=
  ⟨rfl, rfl, rfl, rfl, by rintro p ⟨⟩, rfl, rfl, rfl⟩

/-- **When the two backends agree.**  In every sequence of calls that leaves the DualPI2
queue nothing to do and puts no fragment back into a buffer that holds others, the two
backends give the same answers and report the same oldest timestamps.  After the first
call that does put one back so, among packets with distinct uids, they give different
answers to `pop_oldest_pkt`. -/
theorem backends_agree (cfg : DualPi2Config) (verbosity : ℤ) (unitDist : Draws)
    (es : List Call) (hidle : Meets respond NothingToDo (new cfg verbosity unitDist true) es)
    (horder : Meets respond KeepsOrder (new cfg verbosity unitDist true) es) :
    answers respond (new cfg verbosity unitDist false) es
      = answers respond (new cfg verbosity unitDist true) es ∧
    ∀ c, NothingToDo (after respond (new cfg verbosity unitDist true) es) c →
      DistinctUids (after respond (new cfg verbosity unitDist true) es) c →
      ¬KeepsOrder (after respond (new cfg verbosity unitDist true) es) c →
      answers respond (new cfg verbosity unitDist false) (es ++ [c, .popOldestPkt {}])
        ≠ answers respond (new cfg verbosity unitDist true) (es ++ [c, .popOldestPkt {}]) := by
  have hboth : Meets respond (fun b c => NothingToDo b c ∧ KeepsOrder b c)
      (new cfg verbosity unitDist true) es := hidle.and horder
  have hstep : ∀ b₀ b₁ c, Alike b₀ b₁ → NothingToDo b₁ c ∧ KeepsOrder b₁ c →
      (b₀.respond c).1 = (b₁.respond c).1 ∧ Alike (b₀.respond c).2 (b₁.respond c).2 :=
    fun _ _ _ h hc => h.respond hc.1 hc.2
  obtain ⟨hsame, halike⟩ :=
    Lockstep.answers_eq hstep es (new_alike cfg verbosity unitDist) hboth
  refine ⟨hsame, fun c hc huids hno heq => ?_⟩
  rw [Lockstep.answers_append, Lockstep.answers_append, hsame, List.append_cancel_left_eq] at heq
  simp only [answers, List.cons.injEq, and_true] at heq
  have hpopped := congrArg Prod.fst heq.2
  exact (halike.parts hc huids hno).popOldest {} hpopped

/-- A remainder that waits alone, and then one that would have to wait behind another. -/
theorem backends_agree_alone :
    ∃ es : List Call, es.length = 6 ∧
      answers respond (new {} 0 (fun _ => 0) false) es
        = answers respond (new {} 0 (fun _ => 0) true) es ∧
      answers respond (new {} 0 (fun _ => 0) false) (es ++ [.getPkts 400 {}, .popOldestPkt {}])
        ≠ answers respond (new {} 0 (fun _ => 0) true)
          (es ++ [.getPkts 400 {}, .popOldestPkt {}]) := by
  refine ⟨[.step (1 / 1000), .addPkt (IpPkt.make (1 / 1000) 1000 1000 0 1 0 0), .getPkts 400 {},
    .addPkt (IpPkt.make (1 / 1000) 1000 1000 1 2 0 0), .getPkts 600 {},
    .addPkt (IpPkt.make (1 / 1000) 1000 1000 2 3 0 0)], rfl, ?_⟩
  have hagree := backends_agree {} 0 (fun _ => 0) [.step (1 / 1000),
    .addPkt (IpPkt.make (1 / 1000) 1000 1000 0 1 0 0), .getPkts 400 {},
    .addPkt (IpPkt.make (1 / 1000) 1000 1000 1 2 0 0), .getPkts 600 {},
    .addPkt (IpPkt.make (1 / 1000) 1000 1000 2 3 0 0)] (by decide +kernel) (by decide +kernel)
  exact ⟨hagree.1, hagree.2 (.getPkts 400 {}) (by decide +kernel) (by decide +kernel)
    (by decide +kernel)⟩

/-- Two packets, and a grant that ends inside the first: the next grant tells. -/
theorem backends_disagree :
    let es := [.addPkt (IpPkt.make 0 1000 1000 0 1 0 0), .addPkt (IpPkt.make 0 1000 1000 1 2 0 0),
      .getPkts 500 {}, .getPkts 1000 {}]
    Meets respond NothingToDo (new {} 0 (fun _ => 0) true) es ∧
    answers respond (new {} 0 (fun _ => 0) false) es
      ≠ answers respond (new {} 0 (fun _ => 0) true) es := by
  decide +kernel

end IpBuffer

end NetworkEmulator
