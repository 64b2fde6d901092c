/-
One verdict per captured packet.

Completion is only ever noticed by adding up sizes, so the argument is one of weight.
A fragment weighs as many tokens as it has bits; a packet without bits weighs one, so
that it weighs something.  The packets of one id never weigh more together than the
packet came with, wherever they are.  An entry with a verdict was complete, and all
sizes are whole numbers, so it alone weighs that much: nothing is left for a second
verdict, or for a fragment that is still on its way.
-/
import NetworkEmulator.Proofs.Capture

namespace NetworkEmulator

/-- The whole numbers among the rationals. -/
def wholeNumbers : AddSubgroup ℚ := (Int.castAddHom ℚ).range

theorem mem_wholeNumbers {x : ℚ} : x ∈ wholeNumbers ↔ ∃ n : ℤ, (n : ℚ) = x := Iff.rfl

/-- The tokens of a fragment. -/
def IpPkt.tokens (p : IpPkt) : ℚ := if p.originalSize = 0 then 1 else p.size

/-- The tokens the packet came with. -/
def IpPkt.allTokens (p : IpPkt) : ℚ := if p.originalSize = 0 then 1 else p.originalSize

/-- A fragment of a packet with a whole number of bits. -/
structure IpPkt.WholeBits (p : IpPkt) : Prop where
  size : p.size ∈ wholeNumbers
  originalSize : p.originalSize ∈ wholeNumbers
  nothing : p.originalSize = 0 → p.size = 0
  something : p.originalSize ≠ 0 → 0 < p.size

theorem IpPkt.WholeBits.tokens_pos {p : IpPkt} (h : p.WholeBits) : 0 < p.tokens := by
  unfold IpPkt.tokens
  by_cases hzero : p.originalSize = 0
  · rw [if_pos hzero]; exact one_pos
  · rw [if_neg hzero]; exact h.something hzero

/-- A complete entry has all bits of its packet: whole numbers less than one apart are
equal. -/
theorem IpPkt.WholeBits.full {p : IpPkt} (h : p.WholeBits) (hready : p.isReady = true) :
    p.tokens = p.allTokens := by
  obtain ⟨m, hm⟩ := mem_wholeNumbers.mp h.size
  obtain ⟨n, hn⟩ := mem_wholeNumbers.mp h.originalSize
  have hnear : |((m - n : ℤ) : ℚ)| < 1 := by
    have hle := IpPkt.isReady_iff.mp hready
    push_cast
    rw [hm, hn]
    exact lt_of_le_of_lt hle (by norm_num [bitRoundMargin])
  have hzero : m - n = 0 := by
    rw [← Int.cast_abs] at hnear
    have hlt : |m - n| < 1 := by exact_mod_cast hnear
    exact Int.abs_lt_one_iff.mp hlt
  have heq : p.size = p.originalSize := by
    rw [← hm, ← hn, show m = n by omega]
  rw [IpPkt.tokens, IpPkt.allTokens, heq]

/-- Fragments with one id stem from one packet, when no two packets have one id. -/
private theorem originalSize_of_uid {l : List IpPkt} (hnd : (l.map IpPkt.uid).Nodup)
    {p q : IpPkt} (hp : p.StemsFrom l) (hq : q.StemsFrom l) (hu : p.uid = q.uid) :
    p.originalSize = q.originalSize := by
  obtain ⟨x, hx, hxu, -, hxs, -⟩ := hp
  obtain ⟨y, hy, hyu, -, hys, -⟩ := hq
  have hxy : x = y := List.inj_on_of_nodup_map hnd hx hy (by rw [hxu, hyu, hu])
  rw [← hxs, ← hys, hxy]

theorem inherited_wholeBits {l : List IpPkt} (hnd : (l.map IpPkt.uid).Nodup) :
    Inherited Relabel (Cut wholeNumbers) Join fun p => p.WholeBits ∧ p.StemsFrom l where
  relabel h hr := by
    refine ⟨?_, (inherited_stemsFrom wholeNumbers l).relabel h.2 hr⟩
    rcases hr with hr | hr <;> cases hr <;> exact ⟨h.1.1, h.1.2, h.1.3, h.1.4⟩
  cut {p _ _} h hc := by
    have hstems := (inherited_stemsFrom wholeNumbers l).cut h.2 hc
    obtain ⟨hpos, hlt, hmem⟩ := hc
    have hne : p.originalSize ≠ 0 := by
      intro h0
      rw [h.1.nothing h0] at hlt
      linarith
    refine ⟨⟨⟨wholeNumbers.sub_mem h.1.size hmem, h.1.originalSize, fun h0 => absurd h0 hne, ?_⟩,
      hstems.1⟩, ⟨⟨hmem, h.1.originalSize, fun h0 => absurd h0 hne, fun _ => hpos⟩, hstems.2⟩⟩
    intro _
    show 0 < p.size - _
    linarith
  join {p q _} h h' hj := by
    have hstems := (inherited_stemsFrom wholeNumbers l).join h.2 h'.2 hj
    cases hj with
    | mk hu erase recovered created =>
        have horig := originalSize_of_uid hnd h.2 h'.2 hu
        refine ⟨⟨wholeNumbers.add_mem h.1.size h'.1.size, h.1.originalSize, ?_, ?_⟩, hstems⟩
        · intro h0
          show p.size + q.size = 0
          rw [h.1.nothing h0, h'.1.nothing (horig ▸ h0), add_zero]
        · intro h0
          show 0 < p.size + q.size
          exact add_pos (h.1.something h0) (h'.1.something (horig ▸ h0))

/-! ### Tokens -/

/-- The tokens a fragment has of packet `u`. -/
def IpPkt.tokensOf (u : UInt32) (p : IpPkt) : ℚ := if p.uid = u then p.tokens else 0

/-- The tokens packet `u` came with, if this is packet `u`. -/
def IpPkt.allTokensOf (u : UInt32) (p : IpPkt) : ℚ := if p.uid = u then p.allTokens else 0

theorem IpPkt.WholeBits.tokensOf_nonneg {p : IpPkt} (h : p.WholeBits) (u : UInt32) :
    0 ≤ p.tokensOf u := by
  unfold IpPkt.tokensOf
  by_cases hu : p.uid = u
  · rw [if_pos hu]; exact h.tokens_pos.le
  · rw [if_neg hu]

/-- Tokens are never made: a cut splits them and a join adds at most theirs. -/
theorem respects_tokensOf {l : List IpPkt} (hnd : (l.map IpPkt.uid).Nodup) (u : UInt32) :
    Respects Relabel (Cut wholeNumbers) Join (fun p => p.WholeBits ∧ p.StemsFrom l) (· ≤ ·)
      (IpPkt.tokensOf u) where
  relabel _ hr := by
    rcases hr with hr | hr <;> cases hr <;> exact le_rfl
  cut {p _ _} h hc := by
    obtain ⟨hpos, hlt, -⟩ := hc
    have hne : p.originalSize ≠ 0 := by
      intro h0
      rw [h.1.nothing h0] at hlt
      linarith
    by_cases hu : p.uid = u <;> simp [IpPkt.tokensOf, IpPkt.tokens, IpPkt.piece, hu, hne]
  join {p q _} h h' hj := by
    cases hj with
    | mk hu erase recovered created =>
        have horig := originalSize_of_uid hnd h.2 h'.2 hu
        by_cases hpu : p.uid = u
        · have hqu : q.uid = u := hu ▸ hpu
          by_cases h0 : p.originalSize = 0
          · simp [IpPkt.tokensOf, IpPkt.tokens, hpu, hqu, h0, horig ▸ h0]
          · simp [IpPkt.tokensOf, IpPkt.tokens, hpu, hqu, h0, horig ▸ h0]
        · have hqu : q.uid ≠ u := fun hc => hpu (hu.trans hc)
          simp [IpPkt.tokensOf, hpu, hqu]

/-! ### The invariant -/

section Invariant

variable {H Env In : Type} [PacketHandler H Env In] [Keeper H]

/-- All packets are whole, and no packet has more tokens anywhere than it came with. -/
structure TokensOk (c : Custody H) : Prop where
  whole : ∀ p ∈ c.all, p.WholeBits
  stems : ∀ p ∈ c.all, p.StemsFrom c.ingested
  tokens : ∀ u, weight (IpPkt.tokensOf u) c.all ≤ weight (IpPkt.allTokensOf u) c.ingested

private theorem tokensOf_fresh (u : UInt32) {l : List IpPkt} (h : ∀ p ∈ l, p.Fresh) :
    weight (IpPkt.tokensOf u) l = weight (IpPkt.allTokensOf u) l := by
  rw [weight, weight]
  refine congrArg List.sum (List.map_congr_left fun p hp => ?_)
  simp only [IpPkt.tokensOf, IpPkt.allTokensOf, IpPkt.tokens, IpPkt.allTokens, (h p hp).whole]

/-- A fresh packet of a whole number of bits. -/
private theorem wholeBits_fresh {p : IpPkt} (h : p.Fresh) (hw : p.originalSize ∈ wholeNumbers) :
    p.WholeBits := by
  refine ⟨h.whole ▸ hw, hw, fun h0 => h.whole.trans h0, fun h0 => ?_⟩
  exact lt_of_le_of_ne h.nonneg fun hc => h0 (h.whole ▸ hc.symm)

theorem TokensOk.move {k : MoveKind} {c c' : Custody H} (hm : Move c k c')
    (hnd : (c'.ingested.map IpPkt.uid).Nodup)
    (hw : ∀ p ∈ c'.ingested, p.originalSize ∈ wholeNumbers) (h : TokensOk c) : TokensOk c' := by
  obtain ⟨new, lost, hf⟩ := hm.carries (G := wholeNumbers) (fun n => ⟨n, rfl⟩)
    fun p hp => (h.whole p hp).size
  have hbefore : ∀ p ∈ c.all ++ new, p.WholeBits ∧ p.StemsFrom c'.ingested := by
    intro p hp
    rcases List.mem_append.mp hp with hp | hp
    · exact ⟨h.whole p hp, (h.stems p hp).mono hm.ingested_subset⟩
    · have hin : p ∈ c'.ingested := by
        rw [hf.ingested]
        exact List.mem_append_right _ hp
      exact ⟨wholeBits_fresh (hf.fresh p hp) (hw p hin), p, hin, rfl, rfl, rfl, rfl, rfl⟩
  have hafter := hf.rework.forall_mem (inherited_wholeBits hnd) hbefore
  refine ⟨fun p hp => (hafter p (List.mem_append_left _ hp)).1,
    fun p hp => (hafter p (List.mem_append_left _ hp)).2, fun u => ?_⟩
  have hlost : 0 ≤ weight (IpPkt.tokensOf u) lost :=
    weight_nonneg fun p hp => (hafter p (List.mem_append_right _ hp)).1.tokensOf_nonneg u
  have hsum := hf.rework.weight_le (inherited_wholeBits hnd) (respects_tokensOf hnd u) hbefore
  rw [weight_append, weight_append, tokensOf_fresh u hf.fresh] at hsum
  have hold := h.tokens u
  rw [hf.ingested, weight_append]
  linarith

omit [Keeper H] in
/-- The tokens that came with the packet of a fragment. -/
private theorem allTokens_of_stems {c : Custody H} (hnd : (c.ingested.map IpPkt.uid).Nodup)
    {p : IpPkt} (hp : p.StemsFrom c.ingested) :
    weight (IpPkt.allTokensOf p.uid) c.ingested = p.allTokens := by
  obtain ⟨q, hq, hu, -, hs, -⟩ := hp
  have hkey := weight_key IpPkt.uid IpPkt.allTokens hnd hq
  rw [hu] at hkey
  rw [show IpPkt.allTokensOf p.uid = fun b => if b.uid = p.uid then b.allTokens else 0 from rfl,
    hkey, IpPkt.allTokens, IpPkt.allTokens, hs]

/-- Entries of one packet that are each complete weigh a full packet each. -/
private theorem count_tokens {l : List IpPkt} (hw : ∀ p ∈ l, p.WholeBits) {u : UInt32} {x : ℚ}
    (hfull : ∀ p ∈ l, p.uid = u → p.tokens = x) :
    ((l.map IpPkt.uid).count u : ℚ) * x = weight (IpPkt.tokensOf u) l := by
  induction l with
  | nil => simp
  | cons p l ih =>
      have hrest := ih (fun q hq => hw q (List.mem_cons_of_mem _ hq))
        fun q hq => hfull q (List.mem_cons_of_mem _ hq)
      rw [weight_cons, ← hrest, List.map_cons, List.count_cons, IpPkt.tokensOf]
      by_cases hu : p.uid = u
      · rw [if_pos hu, if_pos (by simpa using hu), hfull p (List.mem_cons_self ..) hu]
        push_cast
        ring
      · rw [if_neg hu, if_neg (by simpa using hu)]
        push_cast
        ring

/-- **A complete entry leaves nothing.**  When the entries the handler is done with were
all complete, no two are of one packet, and no other fragment of theirs is anywhere. -/
theorem TokensOk.done_nodup {c : Custody H} (h : TokensOk c)
    (hnd : (c.ingested.map IpPkt.uid).Nodup)
    (hready : ∀ p ∈ (PacketHandler.base c.packetH).done, p.isReady = true) :
    ((PacketHandler.base c.packetH).done.map IpPkt.uid).Nodup ∧
      ∀ p ∈ (PacketHandler.base c.packetH).done,
        ∀ q ∈ c.upstream ++ Keeper.held c.packetH, q.uid ≠ p.uid := by
  have hall : c.all =
      (c.upstream ++ Keeper.held c.packetH) ++ (PacketHandler.base c.packetH).done :=
    (List.append_assoc _ _ _).symm
  have hdone : ∀ p ∈ (PacketHandler.base c.packetH).done, p ∈ c.all := fun p hp => by
    rw [hall]
    exact List.mem_append_right _ hp
  have hrest : ∀ p ∈ c.upstream ++ Keeper.held c.packetH, p.WholeBits := fun p hp =>
    h.whole p (by rw [hall]; exact List.mem_append_left _ hp)
  -- the tokens of the packet of `p`, split by where they are
  have hsplit : ∀ u, weight (IpPkt.tokensOf u) (c.upstream ++ Keeper.held c.packetH)
      + weight (IpPkt.tokensOf u) (PacketHandler.base c.packetH).done
        ≤ weight (IpPkt.allTokensOf u) c.ingested := by
    intro u
    rw [← weight_append, ← hall]
    exact h.tokens u
  have hcount : ∀ p ∈ (PacketHandler.base c.packetH).done,
      (((PacketHandler.base c.packetH).done.map IpPkt.uid).count p.uid : ℚ) * p.allTokens
        = weight (IpPkt.tokensOf p.uid) (PacketHandler.base c.packetH).done := by
    intro p hp
    refine count_tokens (fun q hq => h.whole q (hdone q hq)) fun q hq hu => ?_
    rw [(h.whole q (hdone q hq)).full (hready q hq), IpPkt.allTokens, IpPkt.allTokens,
      originalSize_of_uid hnd (h.stems q (hdone q hq)) (h.stems p (hdone p hp)) hu]
  have hpos : ∀ p ∈ (PacketHandler.base c.packetH).done, 0 < p.allTokens := by
    intro p hp
    rw [← (h.whole p (hdone p hp)).full (hready p hp)]
    exact (h.whole p (hdone p hp)).tokens_pos
  refine ⟨List.nodup_iff_count_le_one.mpr fun u => ?_, fun p hp q hq hu => ?_⟩
  · by_cases hu : u ∈ (PacketHandler.base c.packetH).done.map IpPkt.uid
    · obtain ⟨p, hp, rfl⟩ := List.mem_map.mp hu
      have hle := hsplit p.uid
      have hup : 0 ≤ weight (IpPkt.tokensOf p.uid) (c.upstream ++ Keeper.held c.packetH) :=
        weight_nonneg fun q hq => (hrest q hq).tokensOf_nonneg _
      rw [← hcount p hp, allTokens_of_stems hnd (h.stems p (hdone p hp))] at hle
      by_contra hmany
      have htwo : (2 : ℚ) ≤ ((PacketHandler.base c.packetH).done.map IpPkt.uid).count p.uid := by
        exact_mod_cast (by omega : 2 ≤ _)
      nlinarith [hpos p hp]
    · rw [List.count_eq_zero_of_not_mem hu]
      exact Nat.zero_le 1
  · have hle := hsplit p.uid
    have hone : (1 : ℚ) ≤ ((PacketHandler.base c.packetH).done.map IpPkt.uid).count p.uid := by
      exact_mod_cast List.count_pos_iff.mpr (List.mem_map_of_mem hp)
    rw [← hcount p hp, allTokens_of_stems hnd (h.stems p (hdone p hp))] at hle
    have hq' : q.tokensOf p.uid
        ≤ weight (IpPkt.tokensOf p.uid) (c.upstream ++ Keeper.held c.packetH) :=
      le_weight (fun x hx => (hrest x hx).tokensOf_nonneg _) hq
    have hqpos : 0 < q.tokensOf p.uid := by
      rw [IpPkt.tokensOf, if_pos hu]
      exact (hrest q hq).tokens_pos
    nlinarith [hpos p hp]

end Invariant

/-! ### The theorem -/

open CapturedPacketHandler (Chronicle)

/-- Captured packets have a whole number of bytes. -/
theorem CapturedPacketHandler.Chronicle.whole {h : CapturedPacketHandler} (hc : Chronicle h) :
    ∀ p ∈ h.ingested, p.originalSize ∈ wholeNumbers := by
  intro p hp
  obtain ⟨a, info, b, -, -, -, hs, -⟩ := hc.captured ⟨p, hp, rfl, rfl, rfl, rfl, rfl⟩
  exact mem_wholeNumbers.mpr ⟨info.bytes * 8, by rw [hs]; push_cast; rfl⟩

/-- The packets taken in have the ids of the captured packets popped so far. -/
theorem CapturedPacketHandler.Chronicle.ingested_uids {h : CapturedPacketHandler}
    (hc : Chronicle h) :
    h.ingested.map IpPkt.uid <+: h.pktCptr.captureLog.map CapturedPacketInfo.pktId := by
  obtain ⟨popped, hlog, hing, -⟩ := hc.intake
  have huids : h.ingested.map IpPkt.uid = popped.map CapturedPacketInfo.pktId := by
    rw [← map_uid_tickets popped firstPrevUid, ← hing, List.map_map]
    rfl
  rw [huids, hlog, List.map_append]
  exact List.prefix_append _ _

/-- What the captured handler's runs keep: the chronicle, and the tokens as long as no
two packets have one id. -/
structure CapturedInv (c : Custody CapturedPacketHandler) : Prop where
  chronicle : c.packetH.Chronicle
  tokens : (c.ingested.map IpPkt.uid).Nodup → TokensOk c

theorem CapturedInv.move {k : MoveKind} {c c' : Custody CapturedPacketHandler} (hm : Move c k c')
    (h : CapturedInv c) : CapturedInv c' := by
  have hchron := hm.chronicle h.chronicle
  refine ⟨hchron, fun hnd => ?_⟩
  obtain ⟨new, lost, hf⟩ := hm.carries (G := ⊤) (fun _ => trivial) (fun _ _ => trivial)
  have hold : (c.ingested.map IpPkt.uid).Nodup := by
    rw [hf.ingested, List.map_append] at hnd
    exact hnd.of_append_left
  exact (h.tokens hold).move hm hnd hchron.whole

namespace PdcpLayer

/-- The ids of the packets captured so far. -/
def capturedIds (s : PdcpLayer CapturedPacketHandler) : List UInt32 :=
  s.packetH.pktCptr.captureLog.map CapturedPacketInfo.pktId

/-- The ids `pkt_capture::verdict` was called with. -/
def verdictIds (s : PdcpLayer CapturedPacketHandler) : List UInt32 :=
  s.packetH.pktCptr.verdicts.map Prod.fst

theorem captured_capturedInv (cfg : PacketHandlerConfig) (verbosity : ℤ) (seeds : Seeds)
    (budgetS : ℚ) : CapturedInv ((captured cfg verbosity seeds budgetS).custody none) :=
  ⟨chronicle_make _ _ _ _, fun _ => ⟨by rintro p ⟨⟩, by rintro p ⟨⟩, fun u => le_rfl⟩⟩

/-- Everything captured traffic needs to know of its runs. -/
theorem exec_capturedInv {cfg : PacketHandlerConfig} {verbosity : ℤ} {seeds : Seeds}
    {budgetS : ℚ} {fuel : ℕ} {es : List (Event NfqPacketMetadata Draws)}
    {s : PdcpLayer CapturedPacketHandler}
    (hrun : (captured cfg verbosity seeds budgetS).exec fuel es = some s) :
    CapturedInv (s.custody none) :=
  exec_inv CapturedInv.move (captured_capturedInv cfg verbosity seeds budgetS) hrun

/-- The ids answered are those of the entries the handler is done with. -/
theorem verdictIds_eq {s : PdcpLayer CapturedPacketHandler} (hc : s.packetH.Chronicle) :
    s.verdictIds = s.packetH.done.map IpPkt.uid := by
  rw [verdictIds, hc.answers, PacketHandlerBase.done, List.map_map, List.map_map]
  rfl

private theorem done_ready {s : PdcpLayer CapturedPacketHandler} (hc : s.packetH.Chronicle) :
    ∀ p ∈ s.packetH.done, p.isReady = true := by
  intro p hp
  obtain ⟨e, he, rfl⟩ := List.mem_map.mp hp
  exact hc.ready e he

section Distinct

variable {s : PdcpLayer CapturedPacketHandler} (hinv : CapturedInv (s.custody none))
  (hids : s.capturedIds.Nodup)

include hinv hids

theorem ingested_nodup : (s.packetH.ingested.map IpPkt.uid).Nodup :=
  hids.sublist hinv.chronicle.ingested_uids.sublist

theorem stems_of_distinct : ∀ p ∈ (s.custody none).all, p.StemsFrom s.packetH.ingested :=
  (hinv.tokens (ingested_nodup hinv hids)).stems

/-- Every packet there is was captured. -/
theorem uid_captured : ∀ p ∈ (s.custody none).all, p.uid ∈ s.capturedIds := by
  intro p hp
  obtain ⟨q, hq, hqu, -⟩ := stems_of_distinct hinv hids p hp
  exact hinv.chronicle.ingested_uids.subset (hqu ▸ List.mem_map_of_mem hq)

theorem done_nodup : (s.packetH.done.map IpPkt.uid).Nodup ∧
    ∀ p ∈ s.packetH.done, ∀ q ∈ (s.custody none).upstream ++ s.packetH.outPkts, q.uid ≠ p.uid :=
  (hinv.tokens (ingested_nodup hinv hids)).done_nodup (ingested_nodup hinv hids)
    (done_ready hinv.chronicle)

/-- The ids answered are distinct captured ones, and nothing of theirs is upstream. -/
theorem verdictIds_once : s.verdictIds.Nodup ∧ s.verdictIds ⊆ s.capturedIds ∧
    ∀ u ∈ s.verdictIds, ∀ p ∈ (s.custody none).upstream, p.uid ≠ u := by
  obtain ⟨hnodup, hgone⟩ := done_nodup hinv hids
  rw [verdictIds_eq hinv.chronicle]
  refine ⟨hnodup, fun u hu => ?_, fun u hu p hp => ?_⟩
  · obtain ⟨p, hp, rfl⟩ := List.mem_map.mp hu
    exact uid_captured hinv hids p (List.mem_append_right _ (List.mem_append_right _ hp))
  · obtain ⟨q, hq, rfl⟩ := List.mem_map.mp hu
    exact hgone q hq p (List.mem_append_left _ hp)

end Distinct

/-- **One verdict per captured packet.**  In every state of every run whose captured
packets have pairwise distinct ids, no id was answered twice, every id answered was
captured, and no fragment of a packet answered is in the ingress queue, the IP buffer,
the AQM dropped queue or the HARQ buffer. -/
theorem captured_one_verdict (cfg : PacketHandlerConfig) (verbosity : ℤ) (seeds : Seeds)
    (budgetS : ℚ) (fuel : ℕ) (es : List (Event NfqPacketMetadata Draws))
    (s : PdcpLayer CapturedPacketHandler)
    (hrun : (captured cfg verbosity seeds budgetS).exec fuel es = some s)
    (hids : s.capturedIds.Nodup) :
    s.verdictIds.Nodup ∧ s.verdictIds ⊆ s.capturedIds ∧
      ∀ u ∈ s.verdictIds, ∀ p ∈ (s.custody none).upstream, p.uid ≠ u :=
  verdictIds_once (exec_capturedInv hrun) hids

/-- Two packets, the first cut by the first grant: one verdict for each. -/
theorem captured_one_verdict_cut :
    ∃ s : PdcpLayer CapturedPacketHandler, (captured {} 0 {} (35 / 100)).exec 5
        [.env ⟨1000, 7, .ect0, []⟩, .env ⟨500, 8, .notEct, []⟩,
          .step (1 / 1000) fun _ => 1 / 1000, .handlePkt 3000 5 0 0, .release,
          .handlePkt 9000 5 0 0, .release] = some s ∧
      s.verdictIds = [7, 8] ∧ s.verdictIds.Nodup ∧ s.verdictIds ⊆ s.capturedIds ∧
      ∀ u ∈ s.verdictIds, ∀ p ∈ (s.custody none).upstream, p.uid ≠ u := by
  refine Runs.exists_of_view (fun s => (s.verdictIds, s.capturedIds)) (x := ([7, 8], [7, 8]))
    (by decide +kernel) fun s hs hview => ?_
  have hids : s.capturedIds = [7, 8] := congrArg Prod.snd hview
  exact ⟨congrArg Prod.fst hview,
    captured_one_verdict {} 0 {} (35 / 100) 5 _ s hs (by rw [hids]; decide)⟩

end PdcpLayer

end NetworkEmulator
