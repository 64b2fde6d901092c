/-
The times the HARQ buffer caches.

`is_pkt_ready` and `get_oldest_t` read the times of one block that are cached beside the
buffer, and `get_pkt` takes the block at the front.  A block that enters leaves its own
times in the cache, also when it is not the one at the front; so the cache tells of the
front exactly as long as each block that enters meets an empty buffer or a front with its
own times.  That no block is lost or leaves twice does not depend on it.
-/
import NetworkEmulator.Library.Runs
import NetworkEmulator.Proofs.Custody

namespace NetworkEmulator

namespace HarqHandler

/-- A call of the buffer from outside. -/
inductive Call where
  | step (t : ℚ)
  | addPkts (b : HarqPkt)
  | queue (b : HarqPkt) (distance : ℚ)
  | getPkt
  | popPktOlderThan (bound : ℚ)

/-- A buffer, and the blocks that have entered and left it. -/
structure Traced where
  handler : HarqHandler
  entered : List HarqPkt := []
  left : List HarqPkt := []

/-- The block that a call puts in the buffer. -/
def entering (h : HarqHandler) : Call → Option HarqPkt
  | .addPkts b => some (b.setDelay (h.emulateAckDelay b.distance).1)
  | .queue b distance => some ({ b with nTx := b.nTx + 1 }.setDelay (h.emulateAckDelay distance).1)
  | .step _ | .getPkt | .popPktOlderThan _ => none

/-- A call; `get_pkt` fails its assertion when no block is ready. -/
def Traced.apply (s : Traced) (c : Call) : Option Traced :=
  let s := { s with entered := s.entered ++ (s.handler.entering c).toList }
  match c with
  | .step t => some { s with handler := s.handler.step t }
  | .addPkts b => some { s with handler := s.handler.addPkts b }
  | .queue b distance => some { s with handler := s.handler.queue b distance }
  | .getPkt => s.handler.getPkt.map fun (b, h) => { s with handler := h, left := s.left ++ [b] }
  | .popPktOlderThan bound =>
    match s.handler.popPktOlderThan bound with
    | none => some s
    | some (b, h) => some { s with handler := h, left := s.left ++ [b] }

/-- The cache tells of the block at the front, and no block is taken before its time. -/
structure Honest (h : HarqHandler) : Prop where
  cached : ∀ b ∈ h.harqBuffer.head?, h.tOut = b.tOut ∧ h.oldestT = b.currentT
  ready : ∀ b ∈ h.harqBuffer.head?, h.isPktReady = true ↔ b.tOut ≤ h.currentT
  due : ∀ b h', h.getPkt = some (b, h') → b.tOut ≤ h.currentT

/-- A block that enters meets an empty buffer, or a front with its own times. -/
def Agrees (h : HarqHandler) (c : Call) : Prop :=
  ∀ b ∈ h.entering c, ∀ front ∈ h.harqBuffer.head?,
    b.tOut = front.tOut ∧ b.currentT = front.currentT

instance (h : HarqHandler) (c : Call) : Decidable (h.Agrees c) :=
  inferInstanceAs (Decidable (∀ b ∈ h.entering c, ∀ front ∈ h.harqBuffer.head?, _ ∧ _))

/-! ### What the calls do to the buffer -/

/-- The rest of honesty follows from the cache. -/
theorem honest_iff {h : HarqHandler} :
    Honest h ↔ ∀ b ∈ h.harqBuffer.head?, h.tOut = b.tOut ∧ h.oldestT = b.currentT := by
  refine ⟨fun hh => hh.cached, fun hc => ?_⟩
  have hready : ∀ b ∈ h.harqBuffer.head?, h.isPktReady = true ↔ b.tOut ≤ h.currentT := by
    intro b hb
    obtain ⟨rest, hrest⟩ := List.head?_eq_some_iff.mp hb
    rw [isPktReady, (hc b hb).1, hrest]
    simp
  refine ⟨hc, hready, fun b h' hget => ?_⟩
  have hfront : b ∈ h.harqBuffer.head? := by
    rw [getPkt_spec hget]
    rfl
  refine (hready b hfront).mp ?_
  by_contra hnot
  simp [getPkt, hnot] at hget

theorem addPkts_enters (h : HarqHandler) (b : HarqPkt) :
    ∃ h', h.addPkts b = pushBack h' (b.setDelay (h.emulateAckDelay b.distance).1) ∧
      h'.harqBuffer = h.harqBuffer :=
  ⟨_, rfl, emulateAckDelay_buffer h b.distance⟩

theorem queue_enters (h : HarqHandler) (b : HarqPkt) (distance : ℚ) :
    ∃ h', h.queue b distance
        = pushBack h' ({ b with nTx := b.nTx + 1 }.setDelay (h.emulateAckDelay distance).1) ∧
      h'.harqBuffer = h.harqBuffer := by
  obtain ⟨h₁, hh₁⟩ : ∃ h₁, h₁ = { h with rtxMbit := truncToInt (h.rtxMbit + b.bits * bit2Mbit) } :=
    ⟨_, rfl⟩
  -- the count of the bits to transmit again has no part in the delay
  have hdelay : (h₁.emulateAckDelay distance).1 = (h.emulateAckDelay distance).1 := by
    rw [hh₁]
    unfold emulateAckDelay
    cases hair : h.stchstcAir <;> cases hvar : h.stchstcDelay <;> simp [hair, hvar]
  refine ⟨(h₁.emulateAckDelay distance).2, ?_, ?_⟩
  · rw [← hdelay, queue, hh₁]
  · rw [emulateAckDelay_buffer, hh₁]

/-- A block that has entered is in the cache; that is honest if it is like the front. -/
theorem pushBack_honest_iff {h : HarqHandler} {b : HarqPkt} : Honest (h.pushBack b) ↔
    ∀ front ∈ h.harqBuffer.head?, b.tOut = front.tOut ∧ b.currentT = front.currentT := by
  rw [honest_iff]
  cases hbuf : h.harqBuffer with
  | nil => simp [pushBack, hbuf]
  | cons front rest => simp [pushBack, hbuf]

theorem getPkt_honest {h h' : HarqHandler} {b : HarqPkt} (hget : h.getPkt = some (b, h')) :
    Honest h' := by
  rw [honest_iff]
  unfold getPkt at hget
  split at hget
  · split at hget
    · cases hget
    all_goals
      simp only [Option.some.injEq, Prod.mk.injEq] at hget
      obtain ⟨-, rfl⟩ := hget
      simp
  · cases hget

theorem popPktOlderThan_honest {h h' : HarqHandler} {b : HarqPkt} {bound : ℚ}
    (hpop : h.popPktOlderThan bound = some (b, h')) : Honest h' := by
  rw [honest_iff]
  unfold popPktOlderThan at hpop
  split at hpop
  · cases hpop
  · simp only at hpop
    split at hpop <;> (simp only [Option.some.injEq, Prod.mk.injEq] at hpop
                       obtain ⟨-, rfl⟩ := hpop
                       simp)

/-! ### Runs -/

/-- **A call keeps the cache honest exactly when the block it adds, if any, agrees.** -/
theorem honest_apply_iff {s s' : Traced} {c : Call} (h : Honest s.handler)
    (happ : s.apply c = some s') : Honest s'.handler ↔ s.handler.Agrees c := by
  cases c with
  | step t =>
      obtain rfl := Option.some.inj happ
      refine iff_of_true (honest_iff.mpr h.cached) ?_
      intro b hb
      cases hb
  | addPkts b =>
      obtain rfl := Option.some.inj happ
      obtain ⟨h', heq, hbuf⟩ := addPkts_enters s.handler b
      rw [heq, pushBack_honest_iff, hbuf]
      simp [Agrees, entering]
  | queue b distance =>
      obtain rfl := Option.some.inj happ
      obtain ⟨h', heq, hbuf⟩ := queue_enters s.handler b distance
      rw [heq, pushBack_honest_iff, hbuf]
      simp [Agrees, entering]
  | getPkt =>
      obtain ⟨⟨b, h'⟩, hget, rfl⟩ := Option.map_eq_some_iff.mp happ
      refine iff_of_true (getPkt_honest hget) ?_
      intro b hb
      cases hb
  | popPktOlderThan bound =>
      have hagrees : s.handler.Agrees (.popPktOlderThan bound) := by
        intro b hb
        cases hb
      refine iff_of_true ?_ hagrees
      simp only [Traced.apply] at happ
      split at happ
      · obtain rfl := Option.some.inj happ
        exact h
      · rename_i hpop
        obtain rfl := Option.some.inj happ
        exact popPktOlderThan_honest hpop

/-- Nothing is lost, and nothing leaves twice. -/
def Balanced (s : Traced) : Prop := s.entered.Perm (s.left ++ s.handler.harqBuffer)

theorem balanced_apply {s s' : Traced} {c : Call} (h : Balanced s)
    (happ : s.apply c = some s') : Balanced s' := by
  have hleave {b : HarqPkt} {rest : List HarqPkt} (hperm : s.handler.harqBuffer.Perm (b :: rest)) :
      (s.entered ++ []).Perm (s.left ++ [b] ++ rest) := by
    rw [List.append_nil, List.append_assoc]
    exact h.trans (hperm.append_left s.left)
  cases c with
  | step t =>
      obtain rfl := Option.some.inj happ
      rw [Balanced, show s.handler.entering (.step t) = none from rfl, Option.toList_none,
        List.append_nil]
      exact h
  | addPkts b =>
      obtain rfl := Option.some.inj happ
      obtain ⟨h', heq, hbuf⟩ := addPkts_enters s.handler b
      rw [Balanced, heq, pushBack, hbuf, ← List.append_assoc]
      exact h.append_right _
  | queue b distance =>
      obtain rfl := Option.some.inj happ
      obtain ⟨h', heq, hbuf⟩ := queue_enters s.handler b distance
      rw [Balanced, heq, pushBack, hbuf, ← List.append_assoc]
      exact h.append_right _
  | getPkt =>
      obtain ⟨⟨b, h'⟩, hget, rfl⟩ := Option.map_eq_some_iff.mp happ
      exact hleave (by rw [getPkt_spec hget])
  | popPktOlderThan bound =>
      simp only [Traced.apply] at happ
      split at happ
      · obtain rfl := Option.some.inj happ
        rw [Balanced, show s.handler.entering (.popPktOlderThan bound) = none from rfl,
          Option.toList_none, List.append_nil]
        exact h
      · rename_i b h' hpop
        obtain rfl := Option.some.inj happ
        exact hleave (takeOlder_perm (popPktOlderThan_spec hpop))

/-- A new buffer. -/
def Traced.make (airDelay rtxPeriod rtxPeriodVar rtxPDelay rtxPDelayVar : ℚ)
    (generator : Draws) : Traced :=
  ⟨HarqHandler.make airDelay rtxPeriod rtxPeriodVar rtxPDelay rtxPDelayVar generator, [], []⟩

/-- **When the HARQ buffer hands out no block early.**  In a run of calls, with any delays,
the cache is honest in every state exactly when each block that enters meets an empty buffer
or a front with its own times.  Whether or not it is, each block that entered has left once
or is still there. -/
theorem harq_honest_iff (airDelay rtxPeriod rtxPeriodVar rtxPDelay rtxPDelayVar : ℚ)
    (generator : Draws) (cs : List Call) (s : Traced)
    (hrun : Runs.runAll Traced.apply
      (.make airDelay rtxPeriod rtxPeriodVar rtxPDelay rtxPDelayVar generator) cs = some s) :
    ((∀ cs' s', cs' <+: cs → Runs.runAll Traced.apply
        (.make airDelay rtxPeriod rtxPeriodVar rtxPDelay rtxPDelayVar generator) cs' = some s' →
        Honest s'.handler) ↔
      Runs.Along Traced.apply (fun s c => s.handler.Agrees c)
        (.make airDelay rtxPeriod rtxPeriodVar rtxPDelay rtxPDelayVar generator) cs) ∧
    s.entered.Perm (s.left ++ s.handler.harqBuffer) := by
  constructor
  · refine Runs.forall_reached_iff (fun s c s' h happ => honest_apply_iff h happ) ?_ hrun
    refine honest_iff.mpr fun b hb => ?_
    cases hb
  · have hstart : Balanced
        (.make airDelay rtxPeriod rtxPeriodVar rtxPDelay rtxPDelayVar generator) := .refl []
    exact Runs.runAll_inv' (I := Balanced) (fun s c s' h happ => balanced_apply h happ) hstart hrun

/-- Two blocks with the same times: the cache is honest all the way. -/
theorem harq_honest_twins : ∃ s, Runs.runAll Traced.apply (.make 0 1 0 1 0 fun _ => 0)
      [.addPkts { id := 1 }, .addPkts { id := 2 }, .step 2, .getPkt] = some s ∧
    Honest s.handler ∧ s.entered.Perm (s.left ++ s.handler.harqBuffer) := by
  refine Runs.exists_of_view (fun _ => ()) (x := ()) (by decide +kernel) fun s hs _ => ?_
  obtain ⟨hiff, hperm⟩ := harq_honest_iff 0 1 0 1 0 (fun _ => 0) _ s hs
  exact ⟨hiff.mpr (by decide +kernel) _ s List.prefix_rfl hs, hperm⟩

/-- The second block is closer by, and its time in the cache lets the first one go two seconds
early. -/
theorem harq_hands_out_early : ∃ s, Runs.runAll Traced.apply (.make 0 0 0 0 0 fun _ => 0)
      [.addPkts { id := 1, distance := 300000000 }, .addPkts { id := 2 }, .step 0] = some s ∧
    (∃ b h', s.handler.getPkt = some (b, h') ∧ s.handler.currentT = 0 ∧ b.tOut = 2) ∧
    ¬Honest s.handler := by
  refine Runs.exists_of_view (fun s => (s.handler.getPkt.map fun r => r.1.tOut, s.handler.currentT))
    (x := (some 2, 0)) (by decide +kernel) fun s hs hview => ?_
  obtain ⟨hget, ht⟩ := Prod.mk.inj hview
  obtain ⟨⟨b, h'⟩, hget, hout⟩ := Option.map_eq_some_iff.mp hget
  refine ⟨⟨b, h', hget, ht, hout⟩, fun h => ?_⟩
  have hdue := h.due b h' hget
  rw [ht, show b.tOut = 2 from hout] at hdue
  norm_num at hdue

end HarqHandler

end NetworkEmulator
