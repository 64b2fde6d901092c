/-
Whose turn it is under the round-robin metric.

Every UE has its own pointer, and moves it when it is asked about another frequency than the
last time.  All UEs are asked at each block with symbols, and with two blocks in frequency or
more no two in a row are of one frequency, so the pointers stay together and every block has
one turn.  The UE whose turn it is has the metric 1 and gets the block when it has data.  When
it has none, the metrics are all 0 and the block goes to the last UE of the list with data:
the turns of idle UEs are not shared.

`Turned` is what holds between two blocks, and says of each block so far where it went.
-/
import NetworkEmulator.Proofs.Scheduling

namespace NetworkEmulator

open scoped Numerals

/-- A UE had data at the block. -/
def Decision.Has (d : Decision) (i : ℕ) : Prop := d.withData[i]? = some true

instance (d : Decision) (i : ℕ) : Decidable (d.Has i) :=
  inferInstanceAs (Decidable (_ = _))

/-- Where a block goes: to the UE whose turn it is, or else to the last one with data. -/
def Decision.FollowsTurn (d : Decision) (turn : ℕ) : Prop :=
  ∀ b : ℕ, d.ueIndex = some (b : ℤ) ↔
    d.Has b ∧ (b = turn ∨ ¬d.Has turn ∧ ∀ c, d.Has c → c ≤ b)

namespace RbGrid

/-! ### The pointers stay together -/

/-- What holds between two blocks: `n` UEs with the round-robin metric, whose pointers are all
at the number of the blocks so far, and whose last frequency is `p`. -/
structure Turned (n m : ℕ) (p : ℤ) (g : RbGrid ℚ ℚ) : Prop where
  size : g.ueList.length = n
  freqs : g.nFreqRbg = m
  ids : ∀ (i : ℕ) (u : PhyMetrics ℚ ℚ), g.ueList[i]? = some u → u.id = i ∧ u.metricH.metricT = .rr
  pointers : ∀ (i : ℕ) (u : PhyMetrics ℚ ℚ), g.ueList[i]? = some u →
    u.metricH.rrIndex = (g.history.length % n : ℕ) ∧ u.metricH.prevF = p
  rest : g.AtRest
  followed : ∀ (j : ℕ) (d : Decision), g.history[j]? = some d → d.FollowsTurn ((j + 1) % n)

variable {n m : ℕ} {p : ℤ} {g : RbGrid ℚ ℚ} {t f syms : ℕ} {hasPkts : ℕ → Bool}
variable {handlePkt : ℤ → ℚ → ℚ}

private theorem next_turn (hn : 0 < n) (k : ℕ) :
    (if (n : ℤ) ≤ (k % n : ℕ) + 1 then 0 else ((k % n : ℕ) : ℤ) + 1) =
      ((k + 1) % n : ℕ) := by
  have hlt := Nat.mod_lt k hn
  have hadd : (k + 1) % n = (k % n + 1) % n := (Nat.mod_add_mod k n 1).symm
  by_cases hwrap : n ≤ k % n + 1
  · have heq : k % n + 1 = n := by omega
    rw [if_pos (by exact_mod_cast hwrap), hadd, heq, Nat.mod_self]
    rfl
  · have hkeep : (k % n + 1) % n = k % n + 1 := Nat.mod_eq_of_lt (by omega)
    rw [if_neg (by exact_mod_cast hwrap), hadd, hkeep]
    rfl

/-- **At a block of another frequency the UE whose turn is next has the metric 1.** -/
theorem Turned.candidate (hn : 0 < n) (h : Turned n m p g) (hp : p ≠ f) {i : ℕ}
    {u : PhyMetrics ℚ ℚ} (hu : g.ueList[i]? = some u) (pkts : Bool) :
    u.getScheduleCandidate f n i pkts =
      ({ ueIndex := i, ueId := i, bitsPerSymbol := u.tpV f
         metric := if (g.history.length + 1) % n = i then 1 else 0
         hasData := pkts && 0 < u.tpV f },
       { u with metricH :=
          { u.metricH with rrIndex := ((g.history.length + 1) % n : ℕ), prevF := f } }) := by
  obtain ⟨hid, hrr⟩ := h.ids i u hu
  obtain ⟨hindex, hprev⟩ := h.pointers i u hu
  have hmoves : u.metricH.prevF ≠ f := by rwa [hprev]
  have hisRr : u.metricH.isRr = true := decide_eq_true hrr
  have hturn := next_turn hn g.history.length
  simp only [PhyMetrics.getScheduleCandidate, PhyMetrics.getMetric, hisRr, if_true,
    MetricHandler.getRrMetric, if_pos hmoves, hindex, hturn, hid, PhyMetrics.getTp,
    Int.natCast_inj]

/-- What the candidates of a block are. -/
private theorem Turned.getElem?_candidates (hn : 0 < n) (h : Turned n m p g) (hp : p ≠ f)
    (i : ℕ) : (Rb.candidates f g.ueList hasPkts)[i]? = g.ueList[i]?.map fun u =>
      ({ ueIndex := i, ueId := i, bitsPerSymbol := u.tpV f
         metric := if (g.history.length + 1) % n = i then 1 else 0
         hasData := hasPkts i && 0 < u.tpV f },
       { u with metricH :=
          { u.metricH with rrIndex := ((g.history.length + 1) % n : ℕ), prevF := f } }) := by
  rw [Rb.candidates, List.getElem?_mapIdx]
  cases hu : g.ueList[i]? with
  | none => rfl
  | some u => rw [Option.map_some, Option.map_some, h.size, h.candidate hn hp hu]

private theorem Turned.mem_candidates (hn : 0 < n) (h : Turned n m p g) (hp : p ≠ f)
    {c : ScheduleCandidate ℚ ℚ} {i : ℕ} :
    (g.candidatesOf f hasPkts)[i]? = some c → c.ueIndex = i ∧
      c.metric = if (g.history.length + 1) % n = i then 1 else 0 := by
  intro hc
  rw [candidatesOf, List.getElem?_map, h.getElem?_candidates hn hp] at hc
  cases hu : g.ueList[i]? with
  | none => rw [hu] at hc; cases hc
  | some u =>
      rw [hu] at hc
      obtain rfl := Option.some.inj hc
      exact ⟨rfl, rfl⟩

/-- The last candidate with data. -/
private theorem last_servable {cs : List (ScheduleCandidate ℚ ℚ)}
    (hcs : ∀ (i : ℕ) (c : ScheduleCandidate ℚ ℚ), cs[i]? = some c → c.ueIndex = i) (b : ℕ) :
    (servable cs).getLast?.map ScheduleCandidate.ueIndex = some (b : ℤ) ↔
      (cs.map ScheduleCandidate.hasData)[b]? = some true ∧
        ∀ c, (cs.map ScheduleCandidate.hasData)[c]? = some true → c ≤ b := by
  induction cs using List.reverseRecOn with
  | nil => simp [servable]
  | append_singleton cs x ih =>
      have hlast : x.ueIndex = cs.length := hcs cs.length x (by simp)
      have hinit : ∀ (i : ℕ) (c : ScheduleCandidate ℚ ℚ), cs[i]? = some c → c.ueIndex = i :=
        fun i c hc => hcs i c
          ((List.getElem?_append_left (List.getElem?_eq_some_iff.mp hc).1).trans hc)
      have hhas : ∀ i, ((cs ++ [x]).map ScheduleCandidate.hasData)[i]? = some true ↔
          (cs.map ScheduleCandidate.hasData)[i]? = some true ∨
            i = cs.length ∧ x.hasData = true := by
        intro i
        rw [List.map_append, List.getElem?_append, List.length_map]
        by_cases hi : i < cs.length
        · rw [if_pos hi]
          simp [hi.ne]
        · have hnone : (cs.map ScheduleCandidate.hasData)[i]? = none := by simpa using hi
          rw [if_neg hi, hnone, List.map_singleton, List.getElem?_singleton]
          by_cases heq : i = cs.length
          · simp [heq]
          · have hpos : i - cs.length ≠ 0 := by omega
            simp [heq, hpos]
      have hbound : ∀ i, (cs.map ScheduleCandidate.hasData)[i]? = some true → i < cs.length := by
        intro i hi
        have hlt := (List.getElem?_eq_some_iff.mp hi).1
        rwa [List.length_map] at hlt
      simp only [hhas]
      by_cases hdata : x.hasData = true
      · have hfilter : servable (cs ++ [x]) = servable cs ++ [x] := by
          simp [servable, List.filter_append, hdata]
        rw [hfilter, List.getLast?_concat, Option.map_some, hlast, Option.some.injEq,
          Int.natCast_inj]
        constructor
        · rintro rfl
          refine ⟨.inr ⟨rfl, hdata⟩, fun c hc => ?_⟩
          rcases hc with hc | hc
          · exact (hbound c hc).le
          · exact hc.1.le
        · rintro ⟨hb, hle⟩
          have hlen := hle cs.length (.inr ⟨rfl, hdata⟩)
          rcases hb with hb | hb
          · have hlt := hbound b hb
            omega
          · exact hb.1.symm
      · have hfilter : servable (cs ++ [x]) = servable cs := by
          simp [servable, List.filter_append, hdata]
        rw [hfilter, ih hinit]
        simp [hdata]

/-- **A block goes to the UE whose turn it is, or to the last UE with data.** -/
theorem follows_turn {cs : List (ScheduleCandidate ℚ ℚ)} {turn : ℕ}
    (hcs : ∀ (i : ℕ) (c : ScheduleCandidate ℚ ℚ), cs[i]? = some c →
      c.ueIndex = i ∧ c.metric = if turn = i then 1 else 0) :
    Decision.FollowsTurn
      ⟨cs.map ScheduleCandidate.hasData, (best cs).map ScheduleCandidate.ueIndex⟩ turn := by
  intro b
  have hplace : ∀ y ∈ servable cs, ∃ i, cs[i]? = some y ∧ y.hasData = true := fun y hy => by
    obtain ⟨hmem, hdata⟩ := List.mem_filter.mp hy
    obtain ⟨i, hi⟩ := List.mem_iff_getElem?.mp hmem
    exact ⟨i, hi, hdata⟩
  by_cases hturn : (cs.map ScheduleCandidate.hasData)[turn]? = some true
  · rw [List.getElem?_map] at hturn
    obtain ⟨c, hc, hdata⟩ := Option.map_eq_some_iff.mp hturn
    obtain ⟨hindex, hmetric⟩ := hcs turn c hc
    rw [if_pos rfl] at hmetric
    have hbest : best cs = some c := by
      refine LastMax.scan_of_top
        (List.mem_filter.mpr ⟨List.mem_of_getElem? hc, hdata⟩) (by rw [hmetric]; norm_num) ?_
      intro y hy hne
      obtain ⟨i, hi, -⟩ := hplace y hy
      have hother : turn ≠ i := fun heq => hne (Option.some.inj (hi.symm.trans (heq ▸ hc)))
      rw [(hcs i y hi).2, if_neg hother, hmetric]
      norm_num
    rw [hbest, Option.map_some, hindex, Option.some.injEq, Int.natCast_inj]
    constructor
    · rintro rfl
      exact ⟨by rw [Decision.Has, List.getElem?_map]; exact hturn, .inl rfl⟩
    · rintro ⟨-, hb | hb⟩
      · exact hb.symm
      · exact absurd (by rw [Decision.Has, List.getElem?_map]; exact hturn) hb.1
  · have hbest : best cs = (servable cs).getLast? := by
      refine LastMax.scan_of_const (k := 0) (by norm_num) fun y hy => ?_
      obtain ⟨i, hi, hdata⟩ := hplace y hy
      have hother : turn ≠ i := by
        rintro rfl
        exact hturn (by rw [List.getElem?_map, hi, Option.map_some, hdata])
      rw [(hcs i y hi).2, if_neg hother]
    rw [hbest, last_servable (fun i c hc => (hcs i c hc).1) b]
    refine and_congr_right fun hb => ?_
    constructor
    · exact fun hle => .inr ⟨hturn, hle⟩
    · rintro (rfl | hle)
      · exact absurd hb hturn
      · exact hle.2

/-! ### A run keeps the turns -/

/-- **A block with symbols of another frequency takes one turn.** -/
theorem Turned.visit (hn : 0 < n) (h : Turned n m p g) (hp : p ≠ f) (hsyms : 0 < syms) :
    Turned n m f (g.visit t f syms hasPkts handlePkt) := by
  have hhistory : (g.visit t f syms hasPkts handlePkt).history = _ :=
    h.rest.visit_history hsyms
  have hlength : (g.visit t f syms hasPkts handlePkt).history.length = g.history.length + 1 := by
    rw [hhistory, List.length_append, List.length_singleton]
  have hues (i : ℕ) : (g.visit t f syms hasPkts handlePkt).ueList[i]? =
      g.ueList[i]?.map fun u => { u with metricH :=
        { u.metricH with rrIndex := ((g.history.length + 1) % n : ℕ), prevF := f } } := by
    rw [h.rest.visit_ueList hsyms, List.getElem?_map, h.getElem?_candidates hn hp,
      Option.map_map]
    rfl
  refine ⟨?_, h.freqs, fun i u hu => ?_, fun i u hu => ?_, h.rest.visit, fun j d hd => ?_⟩
  · rw [h.rest.visit_ueList hsyms, List.length_map, Rb.candidates, List.length_mapIdx, h.size]
  · rw [hues] at hu
    obtain ⟨v, hv, rfl⟩ := Option.map_eq_some_iff.mp hu
    exact h.ids i v hv
  · rw [hues] at hu
    obtain ⟨u, hu, rfl⟩ := Option.map_eq_some_iff.mp hu
    rw [hlength]
    exact ⟨rfl, rfl⟩
  · rw [hhistory, List.getElem?_append] at hd
    by_cases hj : j < g.history.length
    · rw [if_pos hj] at hd
      exact h.followed j d hd
    · rw [if_neg hj, List.getElem?_singleton] at hd
      by_cases hlast : j - g.history.length = 0
      · rw [if_pos hlast] at hd
        obtain rfl := Option.some.inj hd
        have heq : j = g.history.length := by omega
        rw [heq]
        exact follows_turn fun i c hc => h.mem_candidates hn hp hc
      · rw [if_neg hlast] at hd
        cases hd

theorem Turned.visit_silent (h : Turned n m p g) :
    Turned n m p (g.visit t f 0 hasPkts handlePkt) := by
  have hues : (g.visit t f 0 hasPkts handlePkt).ueList = g.ueList := RbGrid.visit_silent.1
  have hhistory : (g.visit t f 0 hasPkts handlePkt).history = g.history :=
    RbGrid.visit_silent.2
  refine ⟨?_, h.freqs, ?_, ?_, h.rest.visit, ?_⟩
  · rw [hues]
    exact h.size
  · rw [hues]
    exact h.ids
  · rw [hues, hhistory]
    exact h.pointers
  · rw [hhistory]
    exact h.followed

/-- The blocks of a time slot with symbols, as far as a frequency. -/
private theorem Turned.slot_symbols (hn : 0 < n) {x : StepInput ℚ} (hsyms : 0 < x.syms t)
    (h : Turned n m p g) (hp : p ≠ 0) (k : ℕ) :
    ∃ p', Turned n m p' ((List.range k).foldl (fun g f =>
      g.visit t f (x.syms t) (x.hasPkts t f) x.handlePkt) g) ∧
        (k = 0 ∧ p' = p ∨ 0 < k ∧ p' = (k : ℤ) - 1) := by
  induction k with
  | zero => exact ⟨p, h, .inl ⟨rfl, rfl⟩⟩
  | succ k ih =>
      obtain ⟨p', hturned, hlast⟩ := ih
      have hmoves : p' ≠ k := by
        rcases hlast with ⟨rfl, rfl⟩ | ⟨-, rfl⟩
        · exact hp
        · omega
      rw [List.range_succ, List.foldl_concat]
      exact ⟨k, hturned.visit hn hmoves hsyms, .inr ⟨k.succ_pos, by push_cast; ring⟩⟩

/-- The blocks of a time slot without. -/
private theorem Turned.slot_silent {x : StepInput ℚ} (hsyms : x.syms t = 0)
    (h : Turned n m p g) (k : ℕ) :
    Turned n m p ((List.range k).foldl (fun g f =>
      g.visit t f (x.syms t) (x.hasPkts t f) x.handlePkt) g) := by
  induction k with
  | zero => exact h
  | succ k ih =>
      rw [List.range_succ, List.foldl_concat, hsyms]
      rw [hsyms] at ih
      exact ih.visit_silent

/-- **A step of the grid keeps the turns**, when it has two blocks in frequency or more. -/
theorem Turned.step (hn : 0 < n) (hm : 2 ≤ m) (x : StepInput ℚ) (h : Turned n m p g)
    (hp : p ≠ 0) : ∃ p', p' ≠ 0 ∧ Turned n m p' (g.step x) := by
  rw [RbGrid.step]
  generalize g.nTimeRbg = k
  induction k with
  | zero => exact ⟨p, hp, h⟩
  | succ t ih =>
      obtain ⟨p', hp', hturned⟩ := ih
      rw [List.range_succ, List.foldl_concat, hturned.freqs]
      by_cases hsyms : 0 < x.syms t
      · obtain ⟨p'', hturned'', hlast⟩ := hturned.slot_symbols hn hsyms hp' m
        refine ⟨p'', ?_, hturned''⟩
        omega
      · exact ⟨p', hp', hturned.slot_silent (by omega) m⟩

/-- The channel state leaves the turns as they are. -/
theorem Turned.estimateChannelState (x : ℕ → ChannelInput ℚ) (h : Turned n m p g) :
    Turned n m p (g.estimateChannelState x) := by
  have hues : ∀ (i : ℕ) (u : PhyMetrics ℚ ℚ), (g.estimateChannelState x).ueList[i]? = some u →
      ∃ v, g.ueList[i]? = some v ∧ u.id = v.id ∧ u.metricH = v.metricH := by
    intro i u hu
    rw [RbGrid.estimateChannelState, List.getElem?_mapIdx] at hu
    obtain ⟨v, hv, rfl⟩ := Option.map_eq_some_iff.mp hu
    have hframe := v.estimateChannelState_frame (x i)
    exact ⟨v, hv, hframe.1, hframe.2.2.1⟩
  refine ⟨?_, h.freqs, fun i u hu => ?_, fun i u hu => ?_, h.rest, h.followed⟩
  · rw [RbGrid.estimateChannelState, List.length_mapIdx, h.size]
  · obtain ⟨v, hv, hid, hhandler⟩ := hues i u hu
    rw [hid, hhandler]
    exact h.ids i v hv
  · obtain ⟨v, hv, -, hhandler⟩ := hues i u hu
    rw [hhandler]
    exact h.pointers i v hv

/-- **A run keeps the turns.** -/
theorem Turned.exec (hn : 0 < n) (hm : 2 ≤ m) (ttis : List (Tti ℚ)) (h : Turned n m p g)
    (hp : p ≠ 0) : ∃ p', p' ≠ 0 ∧ Turned n m p' (g.exec ttis) := by
  induction ttis using List.reverseRecOn with
  | nil => exact ⟨p, hp, h⟩
  | append_singleton ttis x ih =>
      obtain ⟨p', hp', hturned⟩ := ih
      rw [RbGrid.exec, List.foldl_concat]
      exact (hturned.estimateChannelState x.channel).step hn hm x.grid hp'

/-! ### The shares of two UEs -/

/-- A grid before its first step: `n` UEs with the round-robin metric, numbered in order. -/
structure Fresh (n m : ℕ) (g : RbGrid ℚ ℚ) : Prop where
  size : g.ueList.length = n
  freqs : g.nFreqRbg = m
  ids : ∀ (i : ℕ) (u : PhyMetrics ℚ ℚ), g.ueList[i]? = some u →
    u.id = i ∧ u.metricH.metricT = .rr
  pointers : ∀ (i : ℕ) (u : PhyMetrics ℚ ℚ), g.ueList[i]? = some u →
    u.metricH.rrIndex = 0 ∧ u.metricH.prevF = -1
  rest : g.AtRest
  history : g.history = []

theorem Fresh.turned (h : Fresh n m g) : Turned n m (-1) g where
  size := h.size
  freqs := h.freqs
  ids := h.ids
  pointers i u hu := by
    rw [h.history, List.length_nil, Nat.zero_mod]
    exact h.pointers i u hu
  rest := h.rest
  followed j d hd := by
    rw [h.history] at hd
    cases hd

/-- The blocks that went to a UE. -/
def assigned (a : ℕ) (blocks : List Decision) : ℕ :=
  blocks.countP fun d => d.ueIndex = some (a : ℤ)

/-- The turns of a UE among the first `k` blocks. -/
def turns (n a k : ℕ) : ℕ := Nat.count (fun j => (j + 1) % n = a) k

/-- The turns of UEs without data at which no UE behind `b` had data. -/
def idleTurns (n b : ℕ) (blocks : List Decision) : ℕ :=
  blocks.zipIdx.countP fun x =>
    ¬x.1.Has ((x.2 + 1) % n) ∧ ∀ c < x.1.withData.length, x.1.Has c → c ≤ b

/-- The turns of two UEs differ by one at most. -/
theorem turns_le {a b : ℕ} (ha : a < n) (hb : b < n) (k : ℕ) :
    turns n a k ≤ turns n b k + 1 := by
  have hcount (a : ℕ) (ha : a < n) : turns n a k + (if a = 0 then 1 else 0) =
      (k + 1) / n + if a < (k + 1) % n then 1 else 0 := by
    have hshift := Nat.count_succ' (p := fun j => j % n = a) k
    have hmod := Nat.count_modEq_card (k + 1) (by omega : 0 < n) a
    simp only [Nat.ModEq, Nat.mod_eq_of_lt ha] at hmod
    rw [← hmod, hshift, turns, Nat.zero_mod]
    simp only [eq_comm]
  have hcounta := hcount a ha
  have hcountb := hcount b hb
  have hlt := Nat.mod_lt (k + 1) (by omega : 0 < n)
  split_ifs at hcounta hcountb <;> omega

/-- The shares of two UEs with data, block by block. -/
private theorem shares {a b : ℕ} (hab : a < b) (blocks : List Decision)
    (hfollowed : ∀ (j : ℕ) (d : Decision), blocks[j]? = some d → d.FollowsTurn ((j + 1) % n))
    (hdata : ∀ d ∈ blocks, d.Has a ∧ d.Has b) :
    assigned a blocks = turns n a blocks.length ∧
      assigned b blocks = turns n b blocks.length + idleTurns n b blocks := by
  induction blocks using List.reverseRecOn with
  | nil => exact ⟨rfl, rfl⟩
  | append_singleton blocks d ih =>
      have hinit := ih
        (fun j d hd => hfollowed j d
          ((List.getElem?_append_left (List.getElem?_eq_some_iff.mp hd).1).trans hd))
        fun d hd => hdata d (List.mem_append_left _ hd)
      have hturn := hfollowed blocks.length d (by simp)
      obtain ⟨hhasa, hhasb⟩ := hdata d (by simp)
      have hgoesa : d.ueIndex = some (a : ℤ) ↔ (blocks.length + 1) % n = a := by
        rw [hturn a]
        constructor
        · rintro ⟨-, ha | ha⟩
          · exact ha.symm
          · exact absurd (ha.2 b hhasb) (not_le.mpr hab)
        · intro ha
          exact ⟨hhasa, .inl ha.symm⟩
      have hbelow : (∀ c, d.Has c → c ≤ b) ↔ ∀ c < d.withData.length, d.Has c → c ≤ b :=
        ⟨fun h c _ => h c, fun h c hc => h c (List.getElem?_eq_some_iff.mp hc).1 hc⟩
      have hgoesb : d.ueIndex = some (b : ℤ) ↔ (blocks.length + 1) % n = b ∨
          ¬d.Has ((blocks.length + 1) % n) ∧ ∀ c < d.withData.length, d.Has c → c ≤ b := by
        rw [hturn b, hbelow, and_iff_right hhasb, eq_comm]
      have hsingle : idleTurns n b (blocks ++ [d]) = idleTurns n b blocks +
          if ¬d.Has ((blocks.length + 1) % n) ∧ ∀ c < d.withData.length, d.Has c → c ≤ b
          then 1 else 0 := by
        simp [idleTurns, List.zipIdx_append, List.countP_append, List.countP_singleton]
      have hcount (a : ℕ) : assigned a (blocks ++ [d]) = assigned a blocks +
          if d.ueIndex = some (a : ℤ) then 1 else 0 := by
        simp [assigned, List.countP_append, List.countP_singleton]
      have hturns (a : ℕ) : turns n a (blocks ++ [d]).length = turns n a blocks.length +
          if (blocks.length + 1) % n = a then 1 else 0 := by
        rw [List.length_append, List.length_singleton, turns, Nat.count_succ, turns]
      rw [hcount a, hcount b, hturns a, hturns b, hsingle, hinit.1, hinit.2,
        if_congr hgoesa rfl rfl, if_congr hgoesb rfl rfl]
      refine ⟨rfl, ?_⟩
      by_cases hown : (blocks.length + 1) % n = b
      · have hnot : ¬(¬d.Has ((blocks.length + 1) % n) ∧
            ∀ c < d.withData.length, d.Has c → c ≤ b) := by
          rw [hown]
          exact fun h => h.1 hhasb
        rw [if_pos (.inl hown), if_pos hown, if_neg hnot]
        omega
      · rw [if_congr (or_iff_right hown) rfl rfl, if_neg hown]
        omega

/-- **The shares of two UEs that always have data.**  For any number of UEs, two blocks or more
in frequency, and any run: at every point of it, every turn of `a` and of `b`, which stands
behind `a`, was theirs, and their turns differ by one at most; `b` got besides the turns of UEs
without data at which no UE behind it had data, and `a` got none of those. -/
theorem rr_shares (n m : ℕ) (hm : 2 ≤ m) (g : RbGrid ℚ ℚ) (hfresh : Fresh n m g)
    (ttis : List (Tti ℚ)) (a b : ℕ) (hab : a < b) (hb : b < n)
    (hdata : ∀ d ∈ (g.exec ttis).history, d.Has a ∧ d.Has b) (k : ℕ) :
    let blocks := (g.exec ttis).history.take k
    assigned a blocks = turns n a blocks.length ∧
      assigned b blocks = turns n b blocks.length + idleTurns n b blocks ∧
      turns n a blocks.length ≤ turns n b blocks.length + 1 ∧
      turns n b blocks.length ≤ turns n a blocks.length + 1 := by
  intro blocks
  obtain ⟨p, -, hturned⟩ := hfresh.turned.exec (by omega) hm ttis (by decide)
  obtain ⟨hshareA, hshareB⟩ := shares (n := n) hab blocks
    (fun j d hd => hturned.followed j d (by
      rw [List.getElem?_take] at hd
      exact (Option.ite_none_right_eq_some.mp hd).2))
    fun d hd => hdata d (List.mem_of_mem_take hd)
  exact ⟨hshareA, hshareB, turns_le (hab.trans hb) hb _, turns_le hb (hab.trans hb) _⟩

/-- A UE with the round-robin metric. -/
def rrUe (id : ℕ) : PhyMetrics ℚ ℚ where
  id := id
  nRbs := 2
  metricH := { metricT := .rr, metricF := fun _ _ _ => 0 }
  metricV := fun _ => 0

/-- A grid of two blocks in frequency, for three UEs. -/
def threeUes : RbGrid ℚ ℚ where
  nTimeRbg := 1
  nFreqRbg := 2
  ueList := [rrUe 0, rrUe 1, rrUe 2]
  rbGrid := fun _ f => { f := f }

/-- A TTI in which all UEs have a rate, and the ones of `withData` have packets. -/
def plainTti (withData : List ℕ) : Tti ℚ where
  channel := fun _ =>
    { oldestT := 0, avgTp := 0, avgTp_nonneg := le_rfl, currentT := 0, updateCqi := true
      tp := fun _ => 1 }
  grid :=
    { syms := fun _ => 14, hasPkts := fun _ _ i => i ∈ withData, handlePkt := fun _ bits => bits }

theorem threeUes_fresh : Fresh 3 2 threeUes where
  size := rfl
  freqs := rfl
  ids i u hu := by
    rcases i with _ | _ | _ | i <;> cases hu <;> exact ⟨rfl, rfl⟩
  pointers i u hu := by
    rcases i with _ | _ | _ | i <;> cases hu <;> exact ⟨rfl, rfl⟩
  rest _ _ := ⟨rfl, rfl⟩
  history := rfl

/-- Two steps in which all three UEs have data. -/
theorem rr_shares_three :
    let blocks := (threeUes.exec [plainTti [0, 1, 2], plainTti [0, 1, 2]]).history
    blocks.length = 4 ∧ assigned 0 blocks = turns 3 0 4 ∧
      assigned 2 blocks = turns 3 2 4 + idleTurns 3 2 blocks := by
  have hlength : (threeUes.exec [plainTti [0, 1, 2], plainTti [0, 1, 2]]).history.length = 4 := by
    decide +kernel
  obtain ⟨hshareA, hshareB, -⟩ := rr_shares 3 2 le_rfl threeUes threeUes_fresh
    [plainTti [0, 1, 2], plainTti [0, 1, 2]] 0 2 (by decide) (by decide) (by decide +kernel) 4
  rw [List.take_of_length_le hlength.le, hlength] at hshareA hshareB
  exact ⟨hlength, hshareA, hshareB⟩

/-- When the UE between them has no data, the last UE gets its turns: four blocks to two. -/
theorem rr_unfair :
    let blocks := (threeUes.exec (List.replicate 3 (plainTti [0, 2]))).history
    Fresh 3 2 threeUes ∧ (∀ d ∈ blocks, d.Has 0 ∧ d.Has 2) ∧
      assigned 0 blocks = 2 ∧ assigned 2 blocks = 4 :=
  ⟨threeUes_fresh, by decide +kernel, by decide +kernel, by decide +kernel⟩

end RbGrid

end NetworkEmulator
