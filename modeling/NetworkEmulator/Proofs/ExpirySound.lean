/-
What `handle_pkt` throws out as expired.

A block gets the age of the oldest head before `get_pkts` fills it, so whether its
fragments are that old is another matter.  They are as long as the head speaks for all:
when it has expired, so has every packet the buffer may hand out.  The plain deque is
in the order of arrival and holds nothing overdue after `step`, so there it always does.
-/
import NetworkEmulator.Proofs.Expiry
import NetworkEmulator.Proofs.Passing

namespace NetworkEmulator

/-! ### The loop of `handle_pkt` -/

namespace PdcpLayer

variable {H Env In : Type} [PacketHandler H Env In]

/-- The oldest head speaks for all: when it has expired, so has every packet that the
buffer may hand out. -/
def HeadSpeaks (s : PdcpLayer H) : Prop :=
  s.ipBuffer.hasPkts = true → s.isExpired s.ipBuffer.getOldestTimestamp = true →
    s.ipBuffer.Ripe s.oldestAllowedIpT

instance (s : PdcpLayer H) : Decidable s.HeadSpeaks := by
  unfold HeadSpeaks IpBuffer.Ripe IpBuffer.MayPass DualPi2Queue.MayPass
  infer_instance

/-- Every fragment of every block dropped as expired was itself older than allowed. -/
def DroppedOverdue (s : PdcpLayer H) : Prop :=
  ∀ e ∈ s.expiredLog, ∀ p ∈ e.2.pkts, p.currentT < e.1

/-- No packet waits that is older than those that waited before. -/
structure NoOlder (s s' : PdcpLayer H) : Prop where
  bound : s'.oldestAllowedIpT = s.oldestAllowedIpT
  ages : ∀ t, (∀ p ∈ s.ipBuffer.shelf.waiting, t ≤ p.currentT) →
    ∀ p ∈ s'.ipBuffer.shelf.waiting, t ≤ p.currentT

theorem NoOlder.refl (s : PdcpLayer H) : NoOlder s s := ⟨rfl, fun _ h => h⟩

theorem NoOlder.trans {s s' s'' : PdcpLayer H} (h : NoOlder s s') (h' : NoOlder s' s'') :
    NoOlder s s'' := ⟨h'.bound.trans h.bound, fun t ht => h'.ages t (h.ages t ht)⟩

/-- What one pass makes of a state. -/
structure Passed (s s' : PdcpLayer H) (b : HarqPkt) : Prop where
  ipT : b.ipT = s.ipBuffer.getOldestTimestamp
  noOlder : NoOlder s s'
  expiredLog : s'.expiredLog = s.expiredLog
  harq : s'.harqBuffer = s.harqBuffer
  ripe : s.ipBuffer.Ripe s.oldestAllowedIpT → s'.ipBuffer.Ripe s.oldestAllowedIpT ∧
    ∀ p ∈ b.pkts, p.currentT < s.oldestAllowedIpT
  noBits : b.bits ≤ 0 → s.HeadSpeaks → s'.HeadSpeaks

private theorem fetch_passed {s : PdcpLayer H} (hsz : ∀ p ∈ s.ipBuffer.shelf.waiting, 0 ≤ p.size)
    (bits : ℚ) (mcs distance : ℤ) :
    Passed s (s.fetch bits mcs distance).2 (s.fetch bits mcs distance).1 := by
  have hblock : (s.fetch bits mcs distance).1 = (s.ipBuffer.getPkts bits
      (s.newBlock s.ipBuffer.getOldestTimestamp mcs distance)).2 := rfl
  obtain ⟨dropped, size, h, heq⟩ := fetch_eq s bits mcs distance
  obtain ⟨new, hyields, hout⟩ := IpBuffer.getPkts_filled (G := ⊤) (fun _ => trivial) s.ipBuffer bits
    (s.newBlock s.ipBuffer.getOldestTimestamp mcs distance) fun _ _ => trivial
  rw [heq, hblock]
  have hages : ∀ t, Inherited Retag (Cut ⊤) Never fun p : IpPkt => t ≤ p.currentT := by
    refine fun t => ⟨fun h hr => ?_, fun h hc => ?_, fun _ _ hj => hj.elim⟩
    · cases hr <;> exact h
    · cases hc
      exact ⟨h, h⟩
  refine ⟨by rw [hout]; rfl, ⟨rfl, fun t ht => (hyields.forall_mem (hages t) ht).1⟩, rfl, rfl,
    fun hripe => ?_, fun hbits hspeaks => ?_⟩
  · obtain ⟨hleft, hpkts⟩ := IpBuffer.getPkts_ripe hripe bits
      (HarqPkt.make_pkts s.currentId s.ipBuffer.getOldestTimestamp s.currentT mcs distance 0 s.bhD
        s.bhDVar)
    exact ⟨hleft.onward (.of_same rfl rfl rfl) fun x hx => Or.inl hx, hpkts⟩
  · rcases IpBuffer.getPkts_noBits hsz hbits with ⟨size', hsame⟩ | hempty
    · -- nothing moved, so the head and all others are as they were
      rw [hsame]
      exact fun hhas hexp => (hspeaks hhas hexp).onward (.of_same rfl rfl rfl) fun x hx => Or.inl hx
    · intro hhas
      have hno : (s.ipBuffer.getPkts bits
        (s.newBlock s.ipBuffer.getOldestTimestamp mcs distance)).1.backendHasPkts = true := hhas
      rw [hempty] at hno
      cases hno

private theorem handleLoop_sound {cfg : DualPi2Config} (bits : ℚ) (mcs : ℤ) (sinr distance : ℚ)
    (n : ℕ) : ∀ {s s' : PdcpLayer H} {sent : ℚ}, Queued cfg s.feed →
      s.harqBuffer.isPktReady = false → s.HeadSpeaks → s.DroppedOverdue →
      handleLoop bits mcs sinr distance n s = some (sent, s') →
      s'.DroppedOverdue ∧ NoOlder s s' := by
  induction n with
  | zero => intro s s' sent _ _ _ _ h; simp [handleLoop] at h
  | succ n ih =>
      intro s s' sent hq hharq hspeaks hdrop h
      simp only [handleLoop] at h
      split at h
      · rename_i hgo
        have hhas : s.ipBuffer.hasPkts = true := by simpa [hasPkts, hharq] using hgo.2
        have hpass := fetch_passed (fun p hp => (hq.fits p hp).1) bits mcs (truncToInt distance)
        have hq₁ := hq.serves (fetch_serves s bits mcs (truncToInt distance))
        generalize (s.fetch bits mcs (truncToInt distance)).1 = b at h hpass
        generalize (s.fetch bits mcs (truncToInt distance)).2 = s₁ at h hpass hq₁
        have hdrop₁ : s₁.DroppedOverdue := by rw [DroppedOverdue, hpass.expiredLog]; exact hdrop
        have hharq₁ : s₁.harqBuffer.isPktReady = false := by rw [hpass.harq]; exact hharq
        split at h
        · rename_i hbits
          obtain ⟨hlog, hage⟩ := ih hq₁ hharq₁ (hpass.noBits hbits hspeaks) hdrop₁ h
          exact ⟨hlog, hpass.noOlder.trans hage⟩
        · split at h
          · -- the head had expired, so it spoke for all of the block
            rename_i hexp
            have hhead : s.isExpired s.ipBuffer.getOldestTimestamp = true := by
              rw [hpass.ipT, isExpired, hpass.noOlder.bound] at hexp
              exact hexp
            obtain ⟨hripe, hpkts⟩ := hpass.ripe (hspeaks hhas hhead)
            have hq₂ : Queued cfg ({ s₁.dropHarqPkt b with
                expiredLog := s₁.expiredLog ++ [(s₁.oldestAllowedIpT, b)] } : PdcpLayer H).feed :=
              hq₁.serves (dropHarqPkt_serves s₁ b)
            have hstep := ih hq₂ hharq₁ (fun _ _ => ?_) ?_ h
            · obtain ⟨hlog, hage⟩ := hstep
              exact ⟨hlog, hpass.noOlder.trans ⟨hage.bound, hage.ages⟩⟩
            · have hripe' : s₁.ipBuffer.Ripe s₁.oldestAllowedIpT := by
                rw [hpass.noOlder.bound]
                exact hripe
              exact hripe'.onward (.of_same rfl rfl rfl) fun x hx => Or.inl hx
            · intro e he
              rcases List.mem_append.mp he with he | he
              · exact hdrop₁ e he
              · rw [List.mem_singleton.mp he, hpass.noOlder.bound]
                exact hpkts
          · split at h <;> (simp only [Option.some.injEq, Prod.mk.injEq] at h
                            obtain ⟨-, rfl⟩ := h)
            · exact ⟨hdrop₁, hpass.noOlder.trans ⟨rfl, fun _ ht => ht⟩⟩
            · exact ⟨hdrop₁, hpass.noOlder.trans ⟨rfl, fun _ ht => ht⟩⟩
      · simp only [Option.some.injEq, Prod.mk.injEq] at h
        obtain ⟨-, rfl⟩ := h
        exact ⟨hdrop, .refl _⟩

/-- **A grant drops only what is overdue** when the head speaks for all. -/
theorem handlePkt_sound {cfg : DualPi2Config} {fuel : ℕ} {s s' : PdcpLayer H} {bits : ℚ} {mcs : ℤ}
    {sinr distance sent : ℚ} (hq : Queued cfg s.feed)
    (hspeaks : s.harqBuffer.isPktReady = false → s.HeadSpeaks) (hdrop : s.DroppedOverdue)
    (h : s.handlePkt fuel bits mcs sinr distance = some (sent, s')) :
    s'.DroppedOverdue ∧ NoOlder s s' := by
  unfold handlePkt at h
  split at h
  · split at h
    · cases h
    · simp only at h
      split at h
      · split at h <;> (simp only [Option.some.injEq, Prod.mk.injEq] at h
                        obtain ⟨-, rfl⟩ := h
                        exact ⟨hdrop, rfl, fun _ ht => ht⟩)
      · simp only [Option.some.injEq, Prod.mk.injEq] at h
        obtain ⟨-, rfl⟩ := h
        exact ⟨hdrop, rfl, fun _ ht => ht⟩
  · rename_i hready
    split at h
    · have hharq : s.harqBuffer.isPktReady = false := by simpa using hready
      exact handleLoop_sound bits mcs sinr distance fuel hq hharq (hspeaks hharq) hdrop h
    · simp only [Option.some.injEq, Prod.mk.injEq] at h
      obtain ⟨-, rfl⟩ := h
      exact ⟨hdrop, .refl _⟩

/-! ### A head that does not speak for all -/

/-- The same layer with other coins to come. -/
def withCoins (s : PdcpLayer H) (coins : Draws) : PdcpLayer H :=
  { s with ipBuffer := { s.ipBuffer with
      l4sQueue := { s.ipBuffer.l4sQueue with unitDist := coins } } }

/-- Some grant, when the coins fall so, drops a packet that is not overdue. -/
def MayMisjudge (s : PdcpLayer H) : Prop :=
  ∃ (coins : Draws) (bits : ℚ), (∀ n, 0 ≤ coins n ∧ coins n < 1) ∧
    ∀ (fuel : ℕ) (mcs : ℤ) (sinr distance : ℚ), ∃ sent s',
      (s.withCoins coins).handlePkt (fuel + 2) bits mcs sinr distance = some (sent, s') ∧
      ¬s'.DroppedOverdue

private theorem lenient_coins (s : PdcpLayer H) : ∃ coins : Draws,
    (∀ n, 0 ≤ coins n ∧ coins n < 1) ∧ (s.withCoins coins).ipBuffer.Lenient := by
  by_cases hpc : s.ipBuffer.l4sQueue.pC < 1
  · exact ⟨fun _ => max s.ipBuffer.l4sQueue.pC 0,
      fun _ => ⟨le_max_right _ _, max_lt hpc one_pos⟩, fun _ _ => le_max_left _ _⟩
  · exact ⟨fun _ => 0, fun _ => ⟨le_rfl, one_pos⟩, fun h => absurd h hpc⟩

/-- A grant that empties the buffer logs what it took, when the head has expired. -/
private theorem handlePkt_logs {s : PdcpLayer H} {bits : ℚ}
    (hharq : s.harqBuffer.isPktReady = false) (hhas : s.ipBuffer.hasPkts = true)
    (hexp : s.isExpired s.ipBuffer.getOldestTimestamp = true) (hpos : 0 < bits)
    (hsz : ∀ p ∈ s.ipBuffer.shelf.waiting, 0 ≤ p.size)
    (hempty : ∀ out, (s.ipBuffer.getPkts bits out).1.backendHasPkts = false)
    (hbits : ∀ out : HarqPkt, out.pkts = [] → 0 < (s.ipBuffer.getPkts bits out).2.bits)
    (fuel : ℕ) (mcs : ℤ) (sinr distance : ℚ) : ∃ sent s' out,
      s.handlePkt (fuel + 2) bits mcs sinr distance = some (sent, s') ∧
      (s.oldestAllowedIpT, (s.ipBuffer.getPkts bits out).2) ∈ s'.expiredLog := by
  have hpass := fetch_passed hsz bits mcs (truncToInt distance)
  have hleft : (s.fetch bits mcs (truncToInt distance)).2.ipBuffer.hasPkts = false := by
    obtain ⟨dropped, size, h, heq⟩ := fetch_eq s bits mcs (truncToInt distance)
    rw [heq]
    exact hempty (s.newBlock s.ipBuffer.getOldestTimestamp mcs (truncToInt distance))
  have hblock : (s.fetch bits mcs (truncToInt distance)).1 = (s.ipBuffer.getPkts bits
      (s.newBlock s.ipBuffer.getOldestTimestamp mcs (truncToInt distance))).2 := rfl
  have hmore := hbits (s.newBlock s.ipBuffer.getOldestTimestamp mcs (truncToInt distance))
    (HarqPkt.make_pkts ..)
  rw [← hblock] at hmore
  have hexp₁ : (s.fetch bits mcs (truncToInt distance)).2.isExpired
      (s.fetch bits mcs (truncToInt distance)).1.ipT = true := by
    rw [hpass.ipT, isExpired, hpass.noOlder.bound]
    exact hexp
  have hlayer : s.hasPkts = true := by rw [hasPkts, hhas, Bool.true_or]
  unfold handlePkt
  rw [if_neg (by simp [hharq]), if_pos hlayer]
  simp only [handleLoop]
  rw [if_pos ⟨hpos, hlayer⟩, if_neg (not_le.mpr hmore), if_pos hexp₁]
  -- the buffer is empty and no block is due, so the second pass ends the loop
  have hdone : ∀ b log, ¬(0 < bits ∧
      ({ (s.fetch bits mcs (truncToInt distance)).2.dropHarqPkt b with
        expiredLog := log } : PdcpLayer H).hasPkts = true) := by
    rintro b log ⟨-, hready⟩
    have hstop : (s.fetch bits mcs (truncToInt distance)).2.ipBuffer.hasPkts = true ∨
        (s.fetch bits mcs (truncToInt distance)).2.harqBuffer.isPktReady = true := by
      rw [← Bool.or_eq_true]
      exact hready
    rw [hleft, hpass.harq, hharq] at hstop
    exact hstop.elim (fun h => by cases h) fun h => by cases h
  rw [if_neg (hdone _ _)]
  refine ⟨0, _, s.newBlock s.ipBuffer.getOldestTimestamp mcs (truncToInt distance), rfl, ?_⟩
  rw [hpass.noOlder.bound, hblock]
  exact List.mem_append_right _ (List.mem_singleton_self _)

/-- **The head must speak**: in a state where it does not, some grant drops a packet that is
not overdue, and only there. -/
theorem mayMisjudge_iff {cfg : DualPi2Config} {s : PdcpLayer H} (hq : Queued cfg s.feed)
    (hharq : s.harqBuffer.isPktReady = false) (hsz : ∀ p ∈ s.ipBuffer.shelf.waiting, 0 < p.size)
    (hdrop : s.DroppedOverdue) : s.MayMisjudge ↔ ¬s.HeadSpeaks := by
  constructor
  · rintro ⟨coins, bits, -, hall⟩ hspeaks
    obtain ⟨sent, s', hs, hbad⟩ := hall 0 0 0 0
    have hq' : Queued cfg (s.withCoins coins).feed :=
      ⟨hq.l4sCfg, hq.idle, hq.fits, hq.fresh, hq.times⟩
    exact hbad (handlePkt_sound hq' (fun _ => hspeaks) hdrop hs).1
  · intro hmute
    simp only [HeadSpeaks, IpBuffer.Ripe, not_forall, exists_prop] at hmute
    obtain ⟨hhas, hexp, x, hx, hmay, hage⟩ := hmute
    obtain ⟨coins, hcoins, hlen⟩ := lenient_coins s
    have hnonneg : ∀ p ∈ (s.withCoins coins).ipBuffer.shelf.waiting, 0 ≤ p.size :=
      fun p hp => (hsz p hp).le
    obtain ⟨bits, hpos, hgrant⟩ := IpBuffer.getPkts_takes (b := (s.withCoins coins).ipBuffer)
      hq.idle hlen hnonneg
    refine ⟨coins, bits, hcoins, fun fuel mcs sinr distance => ?_⟩
    have htake := fun out => (hgrant out).2 x hx hmay
    have hbits : ∀ out : HarqPkt, out.pkts = [] →
        0 < ((s.withCoins coins).ipBuffer.getPkts bits out).2.bits := by
      intro out hout
      obtain ⟨p, hp, -, hpsize⟩ := htake out
      obtain ⟨new, hyields, heq⟩ := IpBuffer.getPkts_filled (G := ⊤) (fun _ => trivial)
        (s.withCoins coins).ipBuffer bits out fun _ _ => trivial
      rw [heq, hout, List.nil_append] at hp
      rw [heq]
      have hnew := (hyields.forall_mem (inherited_nonneg ⊤) hnonneg).2
      have hle := le_weight hnew hp
      have hx' := hsz x hx
      show 0 < weight IpPkt.size new
      linarith
    obtain ⟨sent, s', out, hs, hlog⟩ := handlePkt_logs (s := s.withCoins coins) hharq hhas hexp
      hpos hnonneg
      (fun out => (hgrant out).1) hbits fuel mcs sinr distance
    refine ⟨sent, s', hs, fun hsound => ?_⟩
    obtain ⟨p, hp, hpage, -⟩ := htake out
    have hlt := hsound _ hlog p hp
    rw [hpage] at hlt
    exact hage hlt

/-! ### Runs -/

/-- The oldest packet of the plain deque is one of those waiting. -/
private theorem headSpeaks_of_fresh {s : PdcpLayer H} (he : s.ipBuffer.l4sCfg.enabled = false)
    (hfresh : ∀ p ∈ s.ipBuffer.shelf.waiting, s.oldestAllowedIpT ≤ p.currentT) :
    s.HeadSpeaks := by
  intro hhas hexp
  exfalso
  cases hlist : s.ipBuffer.pktList with
  | nil => simp [IpBuffer.hasPkts, IpBuffer.backendHasPkts, he, hlist] at hhas
  | cons x rest =>
      have hx : x ∈ s.ipBuffer.shelf.waiting := by simp [IpBuffer.shelf, hlist]
      have hhead : s.ipBuffer.getOldestTimestamp = x.currentT := by
        simp [IpBuffer.getOldestTimestamp, IpBuffer.backendOldestTimestamp,
          IpBuffer.backendHasPkts, he, hlist]
      rw [hhead, isExpired, decide_eq_true_iff] at hexp
      exact absurd hexp (not_lt.mpr (hfresh x hx))

/-- What a run keeps: the log is sound, and the plain deque holds nothing overdue. -/
structure SoundInv (cfg : DualPi2Config) (s : PdcpLayer H) : Prop where
  queued : Queued cfg s.feed
  plain : s.ArrivesInOrder → cfg.enabled = false →
    ∀ p ∈ s.ipBuffer.shelf.waiting, s.oldestAllowedIpT ≤ p.currentT
  dropped : s.ArrivesInOrder → s.DroppedOverdue

/-- With DualPI2, a new block is built only when the oldest head speaks for all. -/
def ServesSpoken (cfg : DualPi2Config) (s : PdcpLayer H) : Event Env In → Prop
  | .handlePkt _ _ _ _ =>
    cfg.enabled = true → s.harqBuffer.isPktReady = false → s.HeadSpeaks
  | _ => True

instance (cfg : DualPi2Config) (s : PdcpLayer H) (e : Event Env In) :
    Decidable (ServesSpoken cfg s e) := by
  cases e <;> unfold ServesSpoken <;> infer_instance

private theorem SoundInv.apply {cfg : DualPi2Config} {fuel : ℕ} {s s' : PdcpLayer H}
    {e : Event Env In} (h : SoundInv cfg s) (hspoken : ServesSpoken cfg s e)
    (he : s.apply fuel e = some s') : SoundInv cfg s' := by
  have hserves := apply_serves he
  have hq := h.queued.serves hserves
  have hback : s'.ArrivesInOrder → s.ArrivesInOrder := fun hord =>
    hord.sublist (hserves.ingested_grows.map IpPkt.currentT).sublist
  cases e with
  | env e =>
      obtain rfl := Option.some.inj he
      exact ⟨hq, fun hord => h.plain (hback hord), fun hord => h.dropped (hback hord)⟩
  | release =>
      obtain rfl := Option.some.inj he
      exact ⟨hq, fun hord => h.plain (hback hord), fun hord => h.dropped (hback hord)⟩
  | step t input =>
      obtain rfl := Option.some.inj he
      refine ⟨hq, fun hord hoff => ?_, fun hord => ?_⟩
      · exact ((nothingOverdue_step_iff h.queued hord).mpr fun hon => by simp [hoff] at hon).buffer
      · rw [DroppedOverdue, step_expiredLog h.queued]
        exact h.dropped (hback hord)
  | handlePkt bits mcs sinr distance =>
      obtain ⟨⟨sent, s₁⟩, hs, rfl⟩ := Option.map_eq_some_iff.mp he
      have hboth : s₁.ArrivesInOrder → s₁.DroppedOverdue ∧ NoOlder s s₁ := by
        intro hord
        have hspeaks : s.harqBuffer.isPktReady = false → s.HeadSpeaks := by
          intro hharq
          by_cases hon : cfg.enabled = true
          · exact hspoken hon hharq
          · have hoff : cfg.enabled = false := by simpa using hon
            have hcfg : s.ipBuffer.l4sCfg = cfg := h.queued.l4sCfg
            exact headSpeaks_of_fresh (hcfg ▸ hoff) (h.plain (hback hord) hoff)
        exact handlePkt_sound h.queued hspeaks (h.dropped (hback hord)) hs
      refine ⟨hq, fun hord hoff => ?_, fun hord => (hboth hord).1⟩
      obtain ⟨-, hage⟩ := hboth hord
      show ∀ p ∈ s₁.ipBuffer.shelf.waiting, s₁.oldestAllowedIpT ≤ p.currentT
      rw [hage.bound]
      exact hage.ages _ (h.plain (hback hord) hoff)

/-- A run from a layer that has just been made keeps its log sound. -/
private theorem exec_sound {cfg : PacketHandlerConfig} {verbosity : ℤ} {seeds : Seeds} {packetH : H}
    {budgetS : ℚ} (hin : (PacketHandler.base packetH).ingressPkts = [])
    (hing : (PacketHandler.base packetH).ingested = []) {fuel : ℕ} {es : List (Event Env In)}
    {s : PdcpLayer H}
    (hrun : ((make cfg verbosity seeds packetH).setPktDelayBudget budgetS).exec fuel es = some s)
    (hspoken : Runs.Along (apply fuel) (ServesSpoken cfg.l4sC)
      ((make cfg verbosity seeds packetH).setPktDelayBudget budgetS) es)
    (hord : s.ArrivesInOrder) : s.DroppedOverdue := by
  have hinit : SoundInv cfg.l4sC
      ((make cfg verbosity seeds packetH).setPktDelayBudget budgetS) :=
    ⟨new_queued cfg verbosity seeds budgetS hin hing,
      fun _ _ => by rintro p ⟨⟩, fun _ => by rintro e ⟨⟩⟩
  exact (Runs.runAll_inv (fun s e s' => SoundInv.apply) hinit hspoken hrun).dropped hord

/-- What such a run comes to, and what a head that does not speak for all can do there. -/
private theorem exec_sound_exact {cfg : PacketHandlerConfig} {verbosity : ℤ} {seeds : Seeds}
    {packetH : H} {budgetS : ℚ} (hin : (PacketHandler.base packetH).ingressPkts = [])
    (hing : (PacketHandler.base packetH).ingested = []) {fuel : ℕ} {es : List (Event Env In)}
    {s : PdcpLayer H}
    (hrun : ((make cfg verbosity seeds packetH).setPktDelayBudget budgetS).exec fuel es = some s) :
    (Runs.Along (apply fuel) (ServesSpoken cfg.l4sC)
        ((make cfg verbosity seeds packetH).setPktDelayBudget budgetS) es →
      s.ArrivesInOrder → s.DroppedOverdue) ∧
    (s.harqBuffer.isPktReady = false → (∀ p ∈ s.ipBuffer.shelf.waiting, 0 < p.size) →
      s.DroppedOverdue → (s.MayMisjudge ↔ ¬s.HeadSpeaks)) :=
  ⟨fun hspoken hord => exec_sound hin hing hrun hspoken hord, fun hharq hsz hdrop =>
    mayMisjudge_iff (exec_queued hin hing hrun) hharq hsz hdrop⟩

/-- **Expiry is sound.**  In every run whose packets come in with timestamps that never
decrease, for both handlers: every fragment of every block that `handle_pkt` drops as
expired is itself older than allowed, provided that with DualPI2 each new block is built
when the oldest head speaks for all.  In a state where the head does not, some grant drops
a packet that is not overdue. -/
theorem expiry_sound (cfg : PacketHandlerConfig) (verbosity : ℤ) (seeds : Seeds) (budgetS : ℚ)
    (fuel : ℕ) :
    (∀ (es : List (Event Empty ℚ)) (s : PdcpLayer SimulatedPacketHandler),
      (simulated cfg verbosity seeds budgetS).exec fuel es = some s →
      (Runs.Along (apply fuel) (ServesSpoken cfg.l4sC) (simulated cfg verbosity seeds budgetS) es →
        s.ArrivesInOrder → s.DroppedOverdue) ∧
      (s.harqBuffer.isPktReady = false → (∀ p ∈ s.ipBuffer.shelf.waiting, 0 < p.size) →
        s.DroppedOverdue → (s.MayMisjudge ↔ ¬s.HeadSpeaks))) ∧
    ∀ (es : List (Event NfqPacketMetadata Draws)) (s : PdcpLayer CapturedPacketHandler),
      (captured cfg verbosity seeds budgetS).exec fuel es = some s →
      (Runs.Along (apply fuel) (ServesSpoken cfg.l4sC) (captured cfg verbosity seeds budgetS) es →
        s.ArrivesInOrder → s.DroppedOverdue) ∧
      (s.harqBuffer.isPktReady = false → (∀ p ∈ s.ipBuffer.shelf.waiting, 0 < p.size) →
        s.DroppedOverdue → (s.MayMisjudge ↔ ¬s.HeadSpeaks)) :=
  ⟨fun _ _ hrun => exec_sound_exact rfl rfl hrun, fun _ _ hrun => exec_sound_exact rfl rfl hrun⟩

/-- A grant drops the remainder of a packet when nothing else is left in its queue, and
with a younger packet behind it some grant drops that one too. -/
theorem expiry_sound_remainder :
    (∃ s : PdcpLayer SimulatedPacketHandler,
      (simulated { l4sC := { enabled := true } } 0 { unitDist := fun _ => 1 / 2 } (1 / 100)).exec 5
        [.step 0 12000, .step (1 / 1000) 12000, .handlePkt 1000 5 0 0, .step (105 / 10000) 0,
          .handlePkt 12000 5 0 0, .handlePkt 12000 5 0 0] = some s ∧
      s.expiredLog.map (fun e => (e.1, e.2.pkts.map IpPkt.currentT)) = [(1 / 2000, [0])] ∧
      s.DroppedOverdue) ∧
    ∃ s : PdcpLayer SimulatedPacketHandler,
      (simulated { l4sC := { enabled := true } } 0 { unitDist := fun _ => 1 / 2 } (1 / 100)).exec 5
        [.step 0 12000, .step (1 / 1000) 12000, .handlePkt 1000 5 0 0, .step (2 / 1000) 12000,
          .step (105 / 10000) 0, .handlePkt 12000 5 0 0] = some s ∧ s.MayMisjudge := by
  constructor
  · refine Runs.exists_of_view (fun s => (s.packetH.ingested.map IpPkt.currentT,
      s.expiredLog.map fun e => (e.1, e.2.pkts.map IpPkt.currentT)))
      (x := ([0, 1 / 1000], [(1 / 2000, [0])])) (by decide +kernel) fun s hs hview => ?_
    simp only [Prod.mk.injEq] at hview
    refine ⟨hview.2, ((expiry_sound _ _ _ _ _).1 _ s hs).1 (by decide +kernel) ?_⟩
    show List.Pairwise _ (s.packetH.ingested.map IpPkt.currentT)
    rw [hview.1]
    norm_num
  · refine Runs.exists_of_view (fun s => (s.harqBuffer.isPktReady,
      s.ipBuffer.shelf.waiting.map IpPkt.size, s.expiredLog.length, decide s.HeadSpeaks))
      (x := (false, [11000, 12000], 0, false)) (by decide +kernel) fun s hs hview => ?_
    simp only [Prod.mk.injEq, List.length_eq_zero_iff, decide_eq_false_iff_not] at hview
    obtain ⟨hharq, hsizes, hlog, hmute⟩ := hview
    refine (((expiry_sound _ _ _ _ _).1 _ s hs).2 hharq (fun p hp => ?_) ?_).mpr hmute
    · have hmem : p.size ∈ s.ipBuffer.shelf.waiting.map IpPkt.size := List.mem_map_of_mem hp
      rw [hsizes] at hmem
      rcases List.mem_pair.mp hmem with h | h <;> rw [h] <;> norm_num
    · rw [DroppedOverdue, hlog]
      rintro e ⟨⟩

/-- With a younger packet behind the remainder, a grant that holds both drops both. -/
theorem expiry_unsound :
    ∃ s : PdcpLayer SimulatedPacketHandler,
      (simulated { l4sC := { enabled := true } } 0 { unitDist := fun _ => 1 / 2 } (1 / 100)).exec 5
        [.step 0 12000, .step (1 / 1000) 12000, .handlePkt 1000 5 0 0, .step (2 / 1000) 12000,
          .step (105 / 10000) 0, .handlePkt 12000 5 0 0, .handlePkt 24000 5 0 0] = some s ∧
      s.ArrivesInOrder ∧ ¬s.DroppedOverdue := by
  refine Runs.exists_of_view (fun s => (s.packetH.ingested.map IpPkt.currentT,
    s.expiredLog.map fun e => (e.1, e.2.pkts.map IpPkt.currentT)))
    (x := ([0, 1 / 1000, 2 / 1000], [(1 / 2000, [0, 2 / 1000])])) (by decide +kernel)
    fun s hs hview => ?_
  simp only [Prod.mk.injEq] at hview
  refine ⟨?_, fun hdrop => ?_⟩
  · show List.Pairwise _ (s.packetH.ingested.map IpPkt.currentT)
    rw [hview.1]
    norm_num
  · have hall : ∀ e ∈ s.expiredLog.map (fun e => (e.1, e.2.pkts.map IpPkt.currentT)),
        ∀ t ∈ e.2, t < e.1 := by
      intro e he t ht
      obtain ⟨e₀, he₀, rfl⟩ := List.mem_map.mp he
      obtain ⟨p, hp, rfl⟩ := List.mem_map.mp ht
      exact hdrop e₀ he₀ p hp
    rw [hview.2] at hall
    have hlt := hall _ (List.mem_cons_self ..) (2 / 1000) (by simp)
    norm_num at hlt

end PdcpLayer

end NetworkEmulator
