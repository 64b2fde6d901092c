/-
What the reports of the queues add up to.

`packet_handler::step` starts the interval of the counters, and a UE reports them later in the
same step: so a report has what its layer has given and generated since (`Interval`), which is
all that the UE's own step does.  The grids call the layers in between, after one report and
before the next interval starts.  They generate nothing, but what is dropped there is in no
report (`GoesOn`), be it that the AQM drops it or that it has expired.  Only simulated packets
have their verdict there: a handler of captured packets gives all verdicts in `release`, and
its reports miss nothing.
-/
import NetworkEmulator.Model.QueueReports
import NetworkEmulator.Proofs.DirectionRuns

namespace NetworkEmulator

open Emulation (Verdict AnyHandler)

/-! ### Verdicts that are given -/

/-- How many of the verdicts are `v`. -/
def countOf (v : FinalPacketVerdict) (vs : List Verdict) : ℕ := vs.countP fun x => x.2 = v

@[simp] theorem countOf_nil (v : FinalPacketVerdict) : countOf v [] = 0 := rfl

@[simp] theorem countOf_append (v : FinalPacketVerdict) (vs ws : List Verdict) :
    countOf v (vs ++ ws) = countOf v vs + countOf v ws := List.countP_append

theorem countOf_eq_zero {v : FinalPacketVerdict} {vs : List Verdict} (h : ∀ x ∈ vs, x.2 ≠ v) :
    countOf v vs = 0 := by
  rw [countOf, List.countP_eq_zero]
  intro x hx
  simpa using h x hx

namespace PacketHandlerBase

/-- The counter of a verdict. -/
def interval (b : PacketHandlerBase) : FinalPacketVerdict → ℕ
  | .accept => b.finalAcceptPacketsInterval
  | .acceptCe => b.finalAcceptCePacketsInterval
  | .drop => b.finalDropPacketsInterval

/-- Verdicts with `P` are given, and counted. -/
def Gives (P : FinalPacketVerdict → Prop) (b b' : PacketHandlerBase) : Prop :=
  ∃ vs : List Verdict, b'.verdictLog = b.verdictLog ++ vs ∧ (∀ x ∈ vs, P x.2) ∧
    ∀ v, b'.interval v = b.interval v + countOf v vs

variable {P Q : FinalPacketVerdict → Prop} {b b' b'' : PacketHandlerBase}

/-- None are given where neither the log nor the counters change. -/
theorem Gives.none (hlog : b'.verdictLog = b.verdictLog) (hinterval : b'.interval = b.interval) :
    Gives P b b' :=
  ⟨[], by rw [hlog, List.append_nil], fun _ hx => absurd hx List.not_mem_nil,
    fun v => by rw [hinterval]; rfl⟩

theorem Gives.refl (b : PacketHandlerBase) : Gives P b b := .none rfl rfl

theorem Gives.trans (h : Gives P b b') (h' : Gives P b' b'') : Gives P b b'' := by
  obtain ⟨vs, hlog, hvs, hinterval⟩ := h
  obtain ⟨ws, hlog', hws, hinterval'⟩ := h'
  refine ⟨vs ++ ws, ?_, ?_, fun v => ?_⟩
  · rw [hlog', hlog, List.append_assoc]
  · intro x hx
    exact (List.mem_append.mp hx).elim (hvs x) (hws x)
  · rw [hinterval', hinterval, countOf_append, Nat.add_assoc]

theorem Gives.mono (h : Gives P b b') (hPQ : ∀ v, P v → Q v) : Gives Q b b' := by
  obtain ⟨vs, hlog, hvs, hinterval⟩ := h
  exact ⟨vs, hlog, fun x hx => hPQ _ (hvs x hx), hinterval⟩

/-- `verdict` gives one. -/
theorem gives_verdict (p : IpPkt) {v : FinalPacketVerdict} (hv : P v) :
    Gives P b (b.verdict p v) := by
  refine ⟨[(p.uid, v)], rfl, ?_, fun w => ?_⟩
  · intro x hx
    obtain rfl := List.mem_singleton.mp hx
    exact hv
  · cases v <;> cases w <;> rfl

end PacketHandlerBase

open PacketHandlerBase (Gives gives_verdict)

/-! ### The handlers -/

namespace CapturedPacketHandler

variable {P : FinalPacketVerdict → Prop}

theorem gives_ingest (h : CapturedPacketHandler) (clock : Draws) :
    Gives P h.toPacketHandlerBase (h.ingest clock).1.toPacketHandlerBase := by
  refine ingest_rule (P := fun g => Gives P h.toPacketHandlerBase g.toPacketHandlerBase)
    (fun reading _ hg => hg.trans (.none rfl rfl)) (.refl _) clock

theorem gives_release (h : CapturedPacketHandler) :
    Gives (fun _ => True) h.toPacketHandlerBase h.release.1.toPacketHandlerBase := by
  have hloop : Gives (fun _ => True) h.toPacketHandlerBase
      (releaseLoop h.outPkts h {}).1.toPacketHandlerBase := by
    refine releaseLoop_rule
      (P := fun g => Gives (fun _ => True) h.toPacketHandlerBase g.toPacketHandlerBase)
      (fun {g g' p r r'} hone hg => ?_) h.outPkts {} (.refl _)
    obtain ⟨v, hbase, -⟩ := releaseOne_verdict hone
    rw [hbase]
    exact (hg.trans (gives_verdict p trivial)).trans (.none rfl rfl)
  exact hloop.trans (.none rfl rfl)

end CapturedPacketHandler

namespace SimulatedPacketHandler

variable {P : FinalPacketVerdict → Prop}

theorem gives_ingest (h : SimulatedPacketHandler) (t bits : ℚ) :
    Gives P h.toPacketHandlerBase (h.ingest t bits).1.toPacketHandlerBase :=
  ingest_rule (P := fun g => Gives P h.toPacketHandlerBase g.toPacketHandlerBase)
    (fun _ _ _ hg => hg.trans (.none rfl rfl)) (.refl _) t bits

/-- A fragment that was dropped completes its packet as a dropped one. -/
private theorem gives_update (h : SimulatedPacketHandler) (p : IpPkt) (d : Bool) :
    Gives (fun v => d = true → v = .drop) h.toPacketHandlerBase
      (h.updatePendingPacket p d).toPacketHandlerBase := by
  have hsettle : Gives (fun v => d = true → v = .drop) h.toPacketHandlerBase
      (h.toPacketHandlerBase.settle p d) := .none rfl rfl
  simp only [updatePendingPacket]
  split
  · refine hsettle.trans (gives_verdict p fun hd => ?_)
    subst hd
    simp [PendingPacketResult.finalVerdict, pendingAfter]
  · exact hsettle

theorem gives_updateAll (d : Bool) (ps : List IpPkt) (h : SimulatedPacketHandler) :
    Gives (fun v => d = true → v = .drop) h.toPacketHandlerBase
      (h.updateAll d ps).toPacketHandlerBase := by
  induction ps generalizing h with
  | nil => exact .refl _
  | cons p ps ih => exact (gives_update h p d).trans (ih _)

theorem gives_release (h : SimulatedPacketHandler) :
    Gives (fun _ => True) h.toPacketHandlerBase h.release.1.toPacketHandlerBase := by
  have hloop : Gives (fun _ => True) h.toPacketHandlerBase
      (releaseLoop h.pktList h {}).1.toPacketHandlerBase :=
    releaseLoop_rule
      (P := fun g => Gives (fun _ => True) h.toPacketHandlerBase g.toPacketHandlerBase)
      (fun p d hg => hg.trans ((gives_update _ p d).mono fun _ _ => trivial)) h.pktList {}
      (.refl _)
  exact hloop.trans (.none rfl rfl)

end SimulatedPacketHandler

namespace Emulation.AnyHandler

open PacketHandler (base)

/-- Any verdict of any handler. -/
def anyVerdict (_simulated : Bool) (_v : FinalPacketVerdict) : Prop := True

/-- A simulated packet is dropped. -/
def simulatedDrop (simulated : Bool) (v : FinalPacketVerdict) : Prop :=
  simulated = true ∧ v = .drop

/-- A handler of the same kind, that has given verdicts with `P` and counted them. -/
structure Gives (P : Bool → FinalPacketVerdict → Prop) (h h' : AnyHandler) : Prop where
  kind : h'.isLeft = h.isLeft
  given : PacketHandlerBase.Gives (P h.isLeft) (base h) (base h')

variable {P : Bool → FinalPacketVerdict → Prop} {h h' h'' : AnyHandler}

theorem Gives.refl (h : AnyHandler) : Gives P h h := ⟨rfl, .refl _⟩

theorem Gives.trans (hh : Gives P h h') (hh' : Gives P h' h'') : Gives P h h'' :=
  ⟨hh'.kind.trans hh.kind, hh.given.trans (hh.kind ▸ hh'.given)⟩

theorem Gives.any (hh : Gives P h h') : Gives anyVerdict h h' :=
  ⟨hh.kind, hh.given.mono fun _ _ => trivial⟩

theorem gives_ingest (h : AnyHandler) (t : ℚ) (i : ℚ × Draws) :
    Gives P h (PacketHandler.ingest h t i).1 := by
  cases h with
  | inl h => exact ⟨rfl, h.gives_ingest t i.1⟩
  | inr h => exact ⟨rfl, h.gives_ingest i.2⟩

theorem gives_receive (h : AnyHandler) (e : Empty ⊕ NfqPacketMetadata) :
    Gives P h (PacketHandler.receive h e) := by
  rcases h with h | h <;> rcases e with e | e
  · cases e
  all_goals exact ⟨rfl, .none rfl rfl⟩

theorem gives_receiveAll (es : List (Empty ⊕ NfqPacketMetadata)) (h : AnyHandler) :
    Gives P h (es.foldl PacketHandler.receive h) := by
  induction es generalizing h with
  | nil => exact .refl h
  | cons e es ih => exact (gives_receive h e).trans (ih _)

theorem gives_dropIngressPkt (h : AnyHandler) (p : IpPkt) :
    Gives P h (PacketHandler.dropIngressPkt h p) := by
  cases h <;> exact ⟨rfl, .none rfl rfl⟩

theorem gives_pop {p : IpPkt} (hpop : PacketHandler.popIngressPkt h = some (p, h')) :
    Gives P h h' := by
  obtain ⟨rest, -, rfl⟩ := PacketHandler.popIngressPkt_eq_some hpop
  cases h <;> exact ⟨rfl, .none rfl rfl⟩

theorem gives_push (h : AnyHandler) (b : HarqPkt) : Gives P h (PacketHandler.push h b) := by
  cases h <;> exact ⟨rfl, .none rfl rfl⟩

/-- A block that is given up: the packets of a captured one wait for `release`. -/
theorem gives_drop (h : AnyHandler) (x : ℚ) (b : HarqPkt) :
    Gives simulatedDrop h (PacketHandler.drop (PacketHandler.recordError h x) b) := by
  cases h with
  | inl h =>
      have herror : PacketHandlerBase.Gives (simulatedDrop true) h.toPacketHandlerBase
          (h.toPacketHandlerBase.recordError x) := .none rfl rfl
      exact ⟨rfl, herror.trans ((SimulatedPacketHandler.gives_updateAll true b.pkts _).mono
        fun v hv => ⟨rfl, hv rfl⟩)⟩
  | inr h => exact ⟨rfl, .none rfl rfl⟩

theorem gives_release (h : AnyHandler) : Gives anyVerdict h (PacketHandler.release h).1 := by
  cases h with
  | inl h => exact ⟨rfl, h.gives_release⟩
  | inr h => exact ⟨rfl, h.gives_release⟩

/-! ### An interval -/

/-- What was given since, the counters have, and nothing else. -/
structure Since (h h' : AnyHandler) : Prop where
  kind : h'.isLeft = h.isLeft
  counted : ∃ vs : List Verdict, (base h').verdictLog = (base h).verdictLog ++ vs ∧
    ∀ v, (base h').interval v = countOf v vs

/-- `packet_handler::step` starts it. -/
theorem since_step (h : AnyHandler) (t : ℚ) : Since h (PacketHandler.step h t) := by
  refine ⟨?_, [], ?_, fun v => ?_⟩
  · cases h <;> rfl
  · rw [PacketHandler.base_step, List.append_nil]
    rfl
  · rw [PacketHandler.base_step]
    cases v <;> rfl

theorem Since.gives (hh : Since h h') (hh' : Gives P h' h'') : Since h h'' := by
  obtain ⟨vs, hlog, hinterval⟩ := hh.counted
  obtain ⟨ws, hlog', -, hinterval'⟩ := hh'.given
  refine ⟨hh'.kind.trans hh.kind, vs ++ ws, ?_, fun v => ?_⟩
  · rw [hlog', hlog, List.append_assoc]
  · rw [hinterval', hinterval, countOf_append]

/-- What comes in before it starts is not of it. -/
theorem Since.of_receive (es : List (Empty ⊕ NfqPacketMetadata))
    (hh : Since (es.foldl PacketHandler.receive h) h') : Since h h' := by
  obtain ⟨hkind, vs, hlog, hnone, -⟩ := gives_receiveAll (P := fun _ _ => False) es h
  obtain rfl : vs = [] := List.eq_nil_iff_forall_not_mem.mpr hnone
  rw [List.append_nil] at hlog
  obtain ⟨ws, hlog', hinterval⟩ := hh.counted
  exact ⟨hh.kind.trans hkind, ws, hlog'.trans (by rw [hlog]), hinterval⟩

end Emulation.AnyHandler

/-! ### The layers -/

namespace PdcpLayer

open PacketHandler (base)
open Emulation
open Emulation.AnyHandler (Gives Since anyVerdict simulatedDrop)

variable {q q' : PdcpLayer AnyHandler} {h₀ : AnyHandler} {fuel : ℕ}

private theorem drop_gives {h : AnyHandler} (x : ℚ) (b : HarqPkt) (hh : Gives anyVerdict h₀ h) :
    Gives anyVerdict h₀ (PacketHandler.drop (PacketHandler.recordError h x) b) :=
  hh.trans (AnyHandler.gives_drop h x b).any

private theorem step_rules (h₀ : AnyHandler) :
    StepRules fun _ (s : PdcpLayer AnyHandler) => Gives anyVerdict h₀ s.packetH where
  toCleanupRules := .of_packetH fun _ x b hh => drop_gives x b hh
  offer {s p h} hs hpop := by
    have hh := hs.trans (AnyHandler.gives_pop hpop)
    rcases offer_cases { s with packetH := h } p with ⟨-, hoffer⟩ | ⟨-, hoffer⟩
    · rw [hoffer]
      exact hh
    · rw [hoffer]
      exact hh.trans (AnyHandler.gives_dropIngressPkt h p)

/-- **`step` starts the interval.** -/
theorem step_since (q : PdcpLayer AnyHandler) (t : ℚ) (i : ℚ × Draws) :
    Since q.packetH (q.step t i).packetH :=
  (AnyHandler.since_step q.packetH t).gives
    (step_rule (step_rules _) (AnyHandler.gives_ingest (PacketHandler.step q.packetH t) t i))

/-- **A grant gives only drops**, and of simulated packets. -/
theorem grant_gives {e : Event (Empty ⊕ NfqPacketMetadata) (ℚ × Draws)} (he : IsGrant e)
    (h : q.apply fuel e = some q') : Gives simulatedDrop q.packetH q'.packetH := by
  cases e with
  | env e => exact absurd he id
  | step t i => exact absurd he id
  | release => exact absurd he id
  | handlePkt bits mcs sinr distance =>
      obtain ⟨⟨sent, q₁⟩, hq, rfl⟩ := Option.map_eq_some_iff.mp h
      have hrules : HandleRules bits fun _ (s : PdcpLayer AnyHandler) =>
          Gives simulatedDrop q.packetH s.packetH :=
        .of_packetH (fun h x b hh => hh.trans (AnyHandler.gives_drop h x b)) bits
      rcases handlePkt_rule hrules (.refl _) hq with ⟨-, hnone⟩ | ⟨b, s₁, hsome, -, hends⟩
      · exact hnone
      · cases hends with
        | send => exact hsome.trans (AnyHandler.gives_push s₁.packetH b)
        | store | requeue => exact hsome

end PdcpLayer

/-! ### Packets that are generated -/

namespace IpBuffer

/-- How many packets were generated since the interval began, and since the start. -/
def generated (b : IpBuffer) : ℕ × ℕ := (b.getGeneratedPackets true, b.getGeneratedPackets false)

private theorem generated_popFront (b : IpBuffer) : b.popFront.2.generated = b.generated := by
  unfold popFront
  split <;> rfl

private theorem generated_popNext (b : IpBuffer) :
    b.backendPopNext.2.generated = b.generated := by
  unfold backendPopNext
  split
  · rfl
  · exact generated_popFront b

private theorem generated_requeue (b : IpBuffer) (p : IpPkt) :
    (b.backendRequeueFront p).generated = b.generated := by
  unfold backendRequeueFront
  split
  · rfl
  · split <;> rfl

private theorem generated_popOldest {b b' : IpBuffer} {out out' : HarqPkt}
    (h : b.popOldestPkt out = some (b', out')) : b'.generated = b.generated := by
  obtain ⟨p, b₁, hpop, rfl, -⟩ := popOldestPkt_eq_some h
  have hsame : b.backendPopOldest.2.generated = b.generated := by
    unfold backendPopOldest
    split
    · split <;> rfl
    · exact generated_popFront b
  rw [hpop] at hsame
  exact hsame

private theorem generated_popAqmDropped {b b' : IpBuffer} {out out' : HarqPkt}
    (h : b.popAqmDroppedPkt out = some (b', out')) : b'.generated = b.generated := by
  obtain ⟨p, rest, -, -, rfl, -⟩ := popAqmDroppedPkt_eq_some h
  rfl

/-- No packet that is cut for a grant counts as one more. -/
private theorem generated_getPkts (b : IpBuffer) (grant : ℚ) (out : HarqPkt) :
    (b.getPkts grant out).1.generated = b.generated := by
  have hrules : LoopRules fun _ b' _ => b'.generated = b.generated := by
    refine ⟨fun {_ b₁ b₂ _} h hpop => ?_, fun {_ b₁ b₂ _ _} h hpop _ => ?_,
      fun {_ b₁ b₂ _ _} h _ hpop _ => ?_⟩
    all_goals
      have hnext := (generated_popNext b₁).trans h
      rw [hpop] at hnext
    · exact hnext
    · exact hnext
    · exact (generated_requeue b₂ _).trans hnext
  obtain ⟨_, b', h, heq⟩ := getPkts_rule hrules b grant out rfl
  rw [heq]
  exact h

/-- A packet that is admitted is one more for both. -/
private theorem generated_addPkt (b : IpBuffer) (p : IpPkt) :
    (b.addPkt p).2.generated = b.generated ∨
      (b.addPkt p).2.generated = (b.generated.1 + 1, b.generated.2 + 1) := by
  unfold addPkt
  split
  · exact Or.inl rfl
  · refine Or.inr ((generated_requeue _ p).trans ?_)
    split <;> rfl

end IpBuffer

namespace PdcpLayer

variable {H Env In : Type} [PacketHandler H Env In] {q q' : PdcpLayer H} {fuel : ℕ}

private theorem cleanup_generated (I : ℕ × ℕ → Prop) :
    CleanupRules fun _ (s : PdcpLayer H) => I s.ipBuffer.generated where
  drain {_ s buffer dropped} h hpop := by
    show I buffer.generated
    rwa [IpBuffer.generated_popAqmDropped hpop]
  drop h := h
  count h := h
  expire {s buffer b} h _ hpop := by
    show I buffer.generated
    rwa [IpBuffer.generated_popOldest hpop]
  unstore h _ := h

private theorem handle_generated (I : ℕ × ℕ → Prop) (grant : ℚ) :
    HandleRules grant fun _ (s : PdcpLayer H) => I s.ipBuffer.generated where
  toDropRules := (cleanup_generated I).toDropRules
  fetch {s} mcs distance h _ _ := by
    refine (cleanup_generated I).toDropRules.fetch ?_
    show I (s.ipBuffer.getPkts grant _).1.generated
    rwa [IpBuffer.generated_getPkts]
  forget h _ := h
  expired h _ _ := h
  ready h _ := h

/-- A grant generates none. -/
theorem grant_generated {e : Event Env In} (he : Emulation.IsGrant e)
    (h : q.apply fuel e = some q') : q'.ipBuffer.generated = q.ipBuffer.generated := by
  cases e with
  | env e => exact absurd he id
  | step t i => exact absurd he id
  | release => exact absurd he id
  | handlePkt bits mcs sinr distance =>
      obtain ⟨⟨sent, q₁⟩, hq, rfl⟩ := Option.map_eq_some_iff.mp h
      rcases handlePkt_rule (handle_generated (· = q.ipBuffer.generated) bits) rfl hq with
        ⟨-, hnone⟩ | ⟨b, s₁, hsome, -, hends⟩
      · exact hnone
      · cases hends <;> exact hsome

/-- **All that are generated in a step are of its interval.** -/
theorem step_generated (q : PdcpLayer H) (t : ℚ) (i : In) :
    (q.step t i).ipBuffer.generated.2 =
      q.ipBuffer.generated.2 + (q.step t i).ipBuffer.generated.1 := by
  have hrules : StepRules fun _ (s : PdcpLayer H) =>
      s.ipBuffer.generated.2 = q.ipBuffer.generated.2 + s.ipBuffer.generated.1 :=
    { toCleanupRules := cleanup_generated fun g => g.2 = q.ipBuffer.generated.2 + g.1
      offer := fun {s p h} hs _ => by
        have hoffer : ({ s with packetH := h }.offer p).ipBuffer = (s.ipBuffer.addPkt p).2 := by
          rcases offer_cases { s with packetH := h } p with ⟨-, hoffer⟩ | ⟨-, hoffer⟩ <;>
            rw [hoffer]
        rw [hoffer]
        rcases s.ipBuffer.generated_addPkt p with hsame | hmore
        · rw [hsame]
          exact hs
        · rw [hmore, hs, Nat.add_assoc] }
  exact step_rule hrules rfl

end PdcpLayer

/-! ### The layers, with both -/

namespace PdcpLayer

open Emulation
open Emulation.AnyHandler (Gives Since anyVerdict simulatedDrop)

variable {P : Bool → FinalPacketVerdict → Prop} {q q' q'' : PdcpLayer AnyHandler} {fuel : ℕ}

/-- Verdicts with `P` are given and counted, and nothing is generated. -/
structure GoesOn (P : Bool → FinalPacketVerdict → Prop) (q q' : PdcpLayer AnyHandler) : Prop where
  verdicts : Gives P q.packetH q'.packetH
  generated : q'.ipBuffer.generated = q.ipBuffer.generated

/-- What was given and what was generated since, the counters have, and nothing else. -/
structure Interval (q q' : PdcpLayer AnyHandler) : Prop where
  verdicts : Since q.packetH q'.packetH
  generated : q'.ipBuffer.generated.2 = q.ipBuffer.generated.2 + q'.ipBuffer.generated.1

theorem GoesOn.refl (q : PdcpLayer AnyHandler) : GoesOn P q q := ⟨.refl _, rfl⟩

theorem GoesOn.trans (h : GoesOn P q q') (h' : GoesOn P q' q'') : GoesOn P q q'' :=
  ⟨h.verdicts.trans h'.verdicts, h'.generated.trans h.generated⟩

theorem Interval.goesOn (h : Interval q q') (h' : GoesOn P q' q'') : Interval q q'' := by
  refine ⟨h.verdicts.gives h'.verdicts, ?_⟩
  rw [h'.generated, h.generated]

/-- Packets that come in, and then `release`. -/
theorem goesOn_release (q : PdcpLayer AnyHandler) (es : List (Empty ⊕ NfqPacketMetadata)) :
    GoesOn anyVerdict q
      ({ q with packetH := es.foldl PacketHandler.receive q.packetH } : PdcpLayer
        AnyHandler).release.1 :=
  ⟨(AnyHandler.gives_receiveAll es q.packetH).trans (AnyHandler.gives_release _), rfl⟩

/-- Packets that come in, and then `step`. -/
theorem interval_step (q : PdcpLayer AnyHandler) (es : List (Empty ⊕ NfqPacketMetadata)) (t : ℚ)
    (i : ℚ × Draws) :
    Interval q
      (({ q with packetH := es.foldl PacketHandler.receive q.packetH } : PdcpLayer
        AnyHandler).step t i) :=
  ⟨.of_receive es (step_since { q with packetH := es.foldl PacketHandler.receive q.packetH } t i),
    step_generated _ t i⟩

/-- A run of grants. -/
theorem goesOn_grants (h : Layered fuel IsGrant q q') : GoesOn simulatedDrop q q' :=
  h.inv (I := GoesOn simulatedDrop q)
    (fun _ _ _ he hq happly => hq.trans ⟨grant_gives he happly, grant_generated he happly⟩)
    (.refl q)

end PdcpLayer

namespace Emulation

open Runs PdcpLayer
open AnyHandler (anyVerdict simulatedDrop)
open Emulator (mixedCell mixedUe)

/-! ### The UEs -/

namespace Ue

variable {K : Type} {M : LogMath} {fuel : ℕ} {tx : Direction}
  {u u' : Ue K AnyHandler (Empty ⊕ NfqPacketMetadata) (ℚ × Draws)}

/-- A call of another part of the UE, or of the layer after its `step`. -/
private theorem call_goesOn {a : UeCall} (ha : a ≠ .pdcpStep tx)
    (h : u.call M fuel a = some u') : GoesOn anyVerdict (u.pdcp tx) (u'.pdcp tx) := by
  cases a with
  | pdcpStep tx' =>
      obtain rfl := Option.some.inj h
      cases tx <;> cases tx' <;> first | exact absurd rfl ha | exact .refl _
  | pdcpRelease tx' =>
      obtain rfl := Option.some.inj h
      have hlate := (u.pdcp tx').goesOn_release ((u.world u.steps).late tx')
      cases tx <;> cases tx' <;> first | exact hlate | exact .refl _
  | updatePos =>
      obtain rfl := Option.some.inj h
      cases tx <;> exact .refl _
  | initPhyUpdateRates =>
      rw [call, initPhyUpdateRates] at h
      split at h
      · cases h
      · obtain rfl := Option.some.inj h
        cases tx <;> exact .refl _
  | estimateChannelState tx' =>
      obtain ⟨p, -, rfl⟩ := Option.map_eq_some_iff.mp h
      rw [pdcp_setPhy]
      exact .refl _
  | nextStep =>
      obtain rfl := Option.some.inj h
      cases tx <;> exact .refl _

private theorem calls_goesOn {as : List UeCall} (has : UeCall.pdcpStep tx ∉ as)
    (h : runAll (call M fuel) u as = some u') :
    GoesOn anyVerdict (u.pdcp tx) (u'.pdcp tx) := by
  induction as generalizing u with
  | nil =>
      obtain rfl := Option.some.inj h
      exact .refl _
  | cons a as ih =>
      obtain ⟨u₁, hcall, hrun⟩ := runAll_cons.mp h
      obtain ⟨hne, hrest⟩ := not_or.mp fun hmem => has (List.mem_cons.mpr hmem)
      exact (call_goesOn (Ne.symm hne) hcall).trans (ih hrest hrun)

private theorem call_interval (h : u.call M fuel (.pdcpStep tx) = some u') :
    Interval (u.pdcp tx) (u'.pdcp tx) := by
  obtain rfl := Option.some.inj h
  have hstep := (u.pdcp tx).interval_step ((u.world u.steps).arrivals tx) u.currentT
    ((u.world u.steps).input tx)
  cases tx <;> exact hstep

/-- **A step of a UE** is an interval of each of its layers. -/
theorem step_interval (h : u.step M fuel = some u') (tx : Direction) :
    Interval (u.pdcp tx) (u'.pdcp tx) := by
  cases tx with
  | dl =>
      obtain ⟨u₁, hstep, hrest⟩ := runAll_cons.mp h
      exact (call_interval hstep).goesOn (calls_goesOn (by decide) hrest)
  | ul =>
      obtain ⟨u₁, hother, h⟩ := runAll_cons.mp h
      obtain ⟨u₂, hstep, hrest⟩ := runAll_cons.mp h
      have hsame : u₁.pdcp .ul = u.pdcp .ul := by
        obtain rfl := Option.some.inj hother
        rfl
      rw [← hsame]
      exact (call_interval hstep).goesOn (calls_goesOn (by decide) hrest)

end Ue

/-! ### The cell -/

namespace Cell

variable {K : Type} [Neg K] [One K] {M : LogMath} {fuel : ℕ}
  {s s' : Cell K AnyHandler (Empty ⊕ NfqPacketMetadata) (ℚ × Draws)} {i : ℕ}
  {u u' : Ue K AnyHandler (Empty ⊕ NfqPacketMetadata) (ℚ × Draws)}

private theorem uesStep_interval {t : ℚ} (h : (s.addCurrentT t).uesStep M fuel = some s')
    (hu : s.ueList[i]? = some u) (hu' : s'.ueList[i]? = some u') (tx : Direction) :
    Interval (u.pdcp tx) (u'.pdcp tx) := by
  have hclock : (s.addCurrentT t).ueList[i]? = some { u with currentT := t } := by
    rw [addCurrentT, List.getElem?_map, hu]
    rfl
  obtain ⟨hi, hclock⟩ := List.getElem?_eq_some_iff.mp hclock
  obtain ⟨hi', rfl⟩ := List.getElem?_eq_some_iff.mp hu'
  have hstep := (uesStep_forall h).get (i := i) hi hi'
  rw [List.get_eq_getElem, List.get_eq_getElem, hclock] at hstep
  have hinterval := Ue.step_interval hstep tx
  cases tx <;> exact hinterval

variable [LinearOrder K] [Zero K]

private theorem macStep_goesOn (h : s.macStep fuel = some s')
    (hu : s.ueList[i]? = some u) (hu' : s'.ueList[i]? = some u') (tx : Direction) :
    GoesOn simulatedDrop (u.pdcp tx) (u'.pdcp tx) := by
  obtain ⟨s₁, hdl, hul⟩ := Option.bind_eq_some_iff.mp h
  have hi : i < s₁.ueList.length := by
    rw [(gridCalls_rest hdl).1]
    exact (List.getElem?_eq_some_iff.mp hu).1
  have hu₁ := List.getElem?_eq_getElem hi
  exact (goesOn_grants ((serves_gridCall .dl).layered hdl hu hu₁ tx)).trans
    (goesOn_grants ((serves_gridCall .ul).layered hul hu₁ hu' tx))

end Cell

/-! ### The reports -/

private theorem fillQueueStatus_final (h : PacketHandlerBase) (status : PdcpQueueStatus) (t : ℚ) :
    (h.fillQueueStatus status t).final = h.interval := by
  funext v
  unfold PacketHandlerBase.fillQueueStatus
  dsimp only
  split <;> cases v <;> rfl

private theorem fillCaptureStatus_final (c : PktCapture) (stats : PacketCaptureStats)
    (status : PdcpQueueStatus) :
    (CapturedPacketHandler.fillCaptureStatus c stats status).final = status.final := by
  funext v
  unfold CapturedPacketHandler.fillCaptureStatus
  dsimp only
  split <;> cases v <;> rfl

private theorem captured_final (h : CapturedPacketHandler) (stats : PacketCaptureStats)
    (status : PdcpQueueStatus) (t : ℚ) :
    (h.fillQueueStatus stats status t).final = h.interval := by
  have hcapture := (fillCaptureStatus_final h.pktCptr stats _).trans
    (fillQueueStatus_final h.toPacketHandlerBase status t)
  rw [← hcapture]
  funext v
  unfold CapturedPacketHandler.fillQueueStatus
  dsimp only
  split <;> cases v <;> rfl

/-- **A report has what the counters of the interval have**, for both kinds of handler. -/
theorem queueReport_final (q : PdcpLayer AnyHandler) (stats : PacketCaptureStats) :
    (queueReport q stats).status.final = (PacketHandler.base q.packetH).interval := by
  rw [queueReport, getQueueStatus]
  cases q.packetH with
  | inl h => exact fillQueueStatus_final _ _ _
  | inr h => exact captured_final _ _ _ _

namespace Reporting

variable {K W V : Type} [Neg K] [One K]

/-- What the reports of UE `i` say together, in one of their numbers. -/
def reported (s : Reporting K W V) (i : ℕ) (tx : Direction) (number : QueueReport → ℕ) : ℕ :=
  (s.reports.map fun rs => rs[i]?.elim 0 fun r => number (r tx)).sum

/-- How many verdicts `v` UE `i` gave in the grants. -/
def unreported (s : Reporting K W V) (i : ℕ) (tx : Direction) (v : FinalPacketVerdict) : ℕ :=
  (s.grantVerdicts.map fun ws => ws[i]?.elim 0 fun w => countOf v (w tx)).sum

/-- What a layer has done since the start, in what its UE has reported. -/
structure Accounted (s : Reporting K W V) (i : ℕ) (tx : Direction)
    (q q' : PdcpLayer AnyHandler) : Prop where
  kind : q'.packetH.isLeft = q.packetH.isLeft
  verdicts : ∀ v, countOf v (verdictsOf q') =
    countOf v (verdictsOf q) + s.reported i tx (·.status.final v) + s.unreported i tx v
  drops : ∀ v, s.unreported i tx v ≠ 0 → simulatedDrop q.packetH.isLeft v
  generated : q'.ipBuffer.generated.2 =
    q.ipBuffer.generated.2 + s.reported i tx (·.generatedPackets)

variable [LinearOrder K] [Zero K] [DecidableEq W] [DecidableEq V] [Fintype W] [Fintype V]
  {M : LogMath} {fuel : ℕ} {cell : Cell K AnyHandler (Empty ⊕ NfqPacketMetadata) (ℚ × Draws)}
  {s s' : Reporting K W V} {x : ReportingInput W V}

/-- Every layer of the cell is accounted for. -/
structure Accounts (cell : Cell K AnyHandler (Empty ⊕ NfqPacketMetadata) (ℚ × Draws))
    (s : Reporting K W V) : Prop where
  ready : s.emulator.Ready
  ues : s.emulator.cell.ueList.length = cell.ueList.length
  layers : ∀ i u u', cell.ueList[i]? = some u → s.emulator.cell.ueList[i]? = some u' →
    ∀ tx, s.Accounted i tx (u.pdcp tx) (u'.pdcp tx)

omit [LinearOrder K] [Zero K] [DecidableEq W] [DecidableEq V] [Fintype W] [Fintype V] in
/-- A step that reports the interval of a layer, after the grants to it. -/
private theorem Accounted.step {i : ℕ} {tx : Direction} {q q₁ q₂ q₃ : PdcpLayer AnyHandler}
    (h : s.Accounted i tx q q₁) (hgrants : GoesOn simulatedDrop q₁ q₂) (hinterval : Interval q₂ q₃)
    (stats : PacketCaptureStats)
    (hreported : ∀ number : QueueReport → ℕ, s'.reported i tx number =
      s.reported i tx number + number (queueReport q₃ stats))
    (hunreported : ∀ v, s'.unreported i tx v = s.unreported i tx v +
      countOf v ((verdictsOf q₂).drop (verdictsOf q₁).length)) :
    s'.Accounted i tx q q₃ := by
  obtain ⟨hkind, vs, hlog, hdrops, -⟩ := hgrants.verdicts
  obtain ⟨hkind', ws, hlog', hcounted⟩ := hinterval.verdicts
  have hlog : verdictsOf q₂ = verdictsOf q₁ ++ vs := hlog
  have hlog' : verdictsOf q₃ = verdictsOf q₂ ++ ws := hlog'
  rw [hlog, List.drop_left] at hunreported
  refine ⟨hkind'.trans (hkind.trans h.kind), fun v => ?_, fun v hv => ?_, ?_⟩
  · have hfinal : (queueReport q₃ stats).status.final v = countOf v ws := by
      rw [queueReport_final, hcounted]
    rw [hlog', hlog, countOf_append, countOf_append, h.verdicts, hreported, hunreported, hfinal]
    omega
  · rw [hunreported] at hv
    by_cases hnone : countOf v vs = 0
    · exact h.drops v fun hzero => hv (by rw [hzero, hnone])
    · by_contra hno
      refine hnone (countOf_eq_zero fun x hx heq => hno ?_)
      have hdrop := hdrops x hx
      rwa [h.kind, heq] at hdrop
  · rw [hinterval.generated, hgrants.generated, h.generated, hreported, Nat.add_assoc]
    rfl

/-- **A step of the simulator accounts for itself.** -/
theorem Accounts.step (h : Accounts cell s) (hstep : s.step M fuel x = some s') :
    Accounts cell s' := by
  obtain ⟨e, hmac, hrest⟩ := Option.bind_eq_some_iff.mp hstep
  obtain ⟨e', hues, rfl⟩ := Option.map_eq_some_iff.mp hrest
  obtain ⟨hcell, hready⟩ := h.ready.macStep hmac
  obtain ⟨hcell', hready'⟩ := hready.uesStep hues
  have hlength := Cell.macStep_length hcell
  have hlength' : e'.cell.ueList.length = e.cell.ueList.length := by
    rw [(Cell.uesStep_rest hcell').1, Cell.addCurrentT, List.length_map]
  refine ⟨hready', hlength'.trans (hlength.trans h.ues), fun i u u₃ hu hu₃ tx => ?_⟩
  have hi : i < e.cell.ueList.length := hlength' ▸ (List.getElem?_eq_some_iff.mp hu₃).1
  obtain ⟨u₂, hu₂⟩ : ∃ u₂, e.cell.ueList[i]? = some u₂ := ⟨_, List.getElem?_eq_getElem hi⟩
  obtain ⟨u₁, hu₁⟩ : ∃ u₁, s.emulator.cell.ueList[i]? = some u₁ :=
    ⟨_, List.getElem?_eq_getElem (hlength ▸ hi)⟩
  refine (h.layers i u u₁ hu hu₁ tx).step (Cell.macStep_goesOn hcell hu₁ hu₂ tx)
    (Cell.uesStep_interval hcell' hu₂ hu₃ tx) (x.stats i tx) (fun number => ?_) fun v => ?_
  · have hlast : (queueReports e'.cell x.stats)[i]? =
        some fun tx => queueReport (u₃.pdcp tx) (x.stats i tx) := by
      rw [queueReports, List.getElem?_mapIdx, hu₃]
      rfl
    simp [reported, hlast]
  · have hlast : (newVerdicts s.emulator.cell e.cell)[i]? = some fun tx =>
        (verdictsOf (u₂.pdcp tx)).drop (verdictsOf (u₁.pdcp tx)).length := by
      rw [newVerdicts, List.getElem?_zipWith, hu₁, hu₂]
    simp [unreported, hlast]

/-- **What the reports of the queues add up to.**  In every run of the simulator over UEs of both
kinds, with threads or without and however they are scheduled, what a layer has generated is
what its UE has reported, and the verdicts it has given are those its UE has reported and those
of the grants.  These are drops of simulated packets: no report has them. -/
theorem reports_account_for_packets (M : LogMath) (fuel : ℕ)
    (cell : Cell K AnyHandler (Empty ⊕ NfqPacketMetadata) (ℚ × Draws))
    (threading multithreading : Bool) (macIndex ueIndex : ℤ) (xs : List (ReportingInput W V))
    (s : Reporting K W V)
    (hrun : exec M fuel { emulator := .make cell threading multithreading macIndex ueIndex } xs =
      some s) :
    ∀ i u u', cell.ueList[i]? = some u → s.emulator.cell.ueList[i]? = some u' → ∀ tx,
      (u'.pdcp tx).ipBuffer.getGeneratedPackets false =
          (u.pdcp tx).ipBuffer.getGeneratedPackets false +
            s.reported i tx (·.generatedPackets) ∧
        (∀ v, countOf v (verdictsOf (u'.pdcp tx)) =
          countOf v (verdictsOf (u.pdcp tx)) + s.reported i tx (·.status.final v) +
            s.unreported i tx v) ∧
        ∀ v, s.unreported i tx v ≠ 0 → (u.pdcp tx).packetH.isLeft = true ∧ v = .drop := by
  have hstart : Accounts cell
      ({ emulator := .make cell threading multithreading macIndex ueIndex } : Reporting K W V) :=
    { ready := Emulator.ready_make cell threading multithreading macIndex ueIndex
      ues := rfl
      layers := fun i u u' hu hu' tx => by
        obtain rfl := Option.some.inj (hu.symm.trans hu')
        exact ⟨rfl, fun _ => rfl, fun _ hzero => absurd rfl hzero, rfl⟩ }
  have haccounts : Accounts cell s :=
    runAll_inv' (fun _ _ _ h hstep => h.step hstep) hstart hrun
  intro i u u' hu hu' tx
  have h := haccounts.layers i u u' hu hu' tx
  exact ⟨h.generated, h.verdicts, h.drops⟩

/-- The mixed cell, with a DualPI2 queue for the `SIM_UE` that drops all classic packets as soon
as one has waited. -/
def droppingCell : Cell ℚ AnyHandler (Empty ⊕ NfqPacketMetadata) (ℚ × Draws) :=
  let l4sC : DualPi2Config := { enabled := true, targetS := 1 / 1000, rttMaxS := 1 / 1000 }
  { mixedCell id with
    ueList :=
      [mixedUe 0 (makePdcpLayer simUe { pktSize := 300, l4sC := l4sC } 0 {} (35 / 100)),
        mixedUe 1 (makePdcpLayer 0 { pktSize := 300 } 0 {} (35 / 100))] }

/-- Three steps. -/
def reportingRun : List (ReportingInput (Fin 2) (Fin 2)) :=
  [1, 2, 3].map fun k =>
    { t := k / 1000, schedule := ⟨turns 11, turns 12⟩, stats := fun _ _ => {} }

/-- The two packets that waited are dropped in a grant of the third step, and no report has
them. -/
theorem reports_account_for_packets_dropped : ∃ s,
    exec roughMath 5 { emulator := .make droppingCell true true 0 0 } reportingRun = some s ∧
      s.reported 0 .dl (·.generatedPackets) = 3 ∧ s.unreported 0 .dl .drop = 2 ∧
      s.reported 0 .dl (·.status.final .drop) = 0 ∧
      s.reported 1 .dl (·.status.final .accept) = 1 ∧
      ∀ i u u', droppingCell.ueList[i]? = some u → s.emulator.cell.ueList[i]? = some u' → ∀ tx,
        (u'.pdcp tx).ipBuffer.getGeneratedPackets false =
            (u.pdcp tx).ipBuffer.getGeneratedPackets false +
              s.reported i tx (·.generatedPackets) ∧
          (∀ v, countOf v (verdictsOf (u'.pdcp tx)) =
            countOf v (verdictsOf (u.pdcp tx)) + s.reported i tx (·.status.final v) +
              s.unreported i tx v) ∧
          ∀ v, s.unreported i tx v ≠ 0 → (u.pdcp tx).packetH.isLeft = true ∧ v = .drop := by
  refine Runs.exists_of_view (fun s => (s.reported 0 .dl (·.generatedPackets),
    s.unreported 0 .dl .drop, s.reported 0 .dl (·.status.final .drop),
    s.reported 1 .dl (·.status.final .accept))) (x := (3, 2, 0, 1)) (by decide +kernel)
    fun s hs hview => ?_
  simp only [Prod.mk.injEq] at hview
  obtain ⟨hgenerated, hmissing, hdropped, haccepted⟩ := hview
  exact ⟨hgenerated, hmissing, hdropped, haccepted,
    reports_account_for_packets roughMath 5 droppingCell true true 0 0 reportingRun s hs⟩

end Reporting

end Emulation

end NetworkEmulator
