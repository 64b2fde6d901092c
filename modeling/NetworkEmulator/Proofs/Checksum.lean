/-
Rewriting the ECN bits of an IPv4 header.

`ipv4_checksum` adds the words of the header in 32 bits and puts the carries back at the
end.  No sum gets near 2^32 (`wordSum_eq`), so the result stands for the plain sum of the
words, and its complement, written where the sum found a zero, makes the ones' complement
sum of the header the greatest word.
-/
import NetworkEmulator.Library.OnesComplement
import NetworkEmulator.Model.PktCapture

namespace NetworkEmulator

/-- The 16-bit words of some bytes, the last one padded. -/
def words : List UInt8 → List ℕ
  | [] => []
  | [a] => [a.toNat * 256]
  | a :: b :: rest => (a.toNat * 256 + b.toNat) :: words rest

/-- The header length of a payload, in bytes. -/
def headerLength (payload : List UInt8) : ℕ := (payload.getD 0 0).toNat % 16 * 4

/-- The length checks of `apply_ipv4_ecn` pass. -/
def HasHeader (payload : List UInt8) : Prop :=
  20 ≤ payload.length ∧ 20 ≤ headerLength payload ∧ headerLength payload ≤ payload.length

instance (payload : List UInt8) : Decidable (HasHeader payload) :=
  inferInstanceAs (Decidable (_ ∧ _ ∧ _))

/-- No sum that the checksum of `data` forms is cut off at 32 bits: not after any of the
bytes, and not in any round that puts the carries back. -/
structure Exact (data : List UInt8) : Prop where
  added : ∀ k, (wordSum (data.take k) 0).toNat = (words (data.take k)).sum
  carried : ∀ k, (foldCarry k (wordSum data 0)).toNat
    = OnesComplement.fold 65536 k (words data).sum

/-- What a CE mark does to a payload with a header. -/
structure Remarked (payload out : List UInt8) : Prop where
  length : out.length = payload.length
  others : ∀ i, i ≠ 1 → i ≠ 10 → i ≠ 11 → out[i]? = payload[i]?
  ecn : out.getD 1 0 &&& (0x03 : UInt8) = Ecn.ce.code
  dscp : out.getD 1 0 &&& (0xfc : UInt8) = payload.getD 1 0 &&& (0xfc : UInt8)
  valid : OnesComplement.sum 65536 (words (out.take (headerLength out))) = 0xFFFF
  again : applyIpv4Ecn out Ecn.ce.code = out

/-! ### Sums of words -/

theorem words_lt : ∀ (data : List UInt8), ∀ w ∈ words data, w < 65536
  | [], w, hw => by cases hw
  | [a], w, hw => by
      have ha := a.toNat_lt
      obtain rfl := List.mem_singleton.mp hw
      omega
  | a :: b :: rest, w, hw => by
      have ha := a.toNat_lt
      have hb := b.toNat_lt
      rcases List.mem_cons.mp hw with rfl | hw
      · omega
      · exact words_lt rest w hw

theorem length_words : ∀ data : List UInt8, (words data).length = (data.length + 1) / 2
  | [] => by simp [words]
  | [a] => by simp [words]
  | a :: b :: rest => by
      have ih := length_words rest
      simp only [words, List.length_cons]
      omega

/-- The words of the longest header add up to much less than 32 bits hold. -/
theorem sum_words_le {data : List UInt8} (hlen : data.length ≤ 60) : (words data).sum < 2 ^ 21 := by
  have hn := length_words data
  have hle : (words data).sum ≤ (words data).length * 65535 :=
    List.sum_le_card_nsmul _ _ fun w hw => Nat.le_of_lt_succ (words_lt data w hw)
  have hmul : (words data).length * 65535 ≤ 30 * 65535 :=
    Nat.mul_le_mul_right _ (by omega)
  omega

theorem toNat_high (a : UInt8) : (a.toUInt32 <<< 8).toNat = a.toNat * 256 := by
  have ha := a.toNat_lt
  simp [Nat.shiftLeft_eq]
  omega

theorem toNat_word (a b : UInt8) :
    ((a.toUInt32 <<< 8) ||| b.toUInt32).toNat = a.toNat * 256 + b.toNat := by
  have hor := Nat.shiftLeft_add_eq_or_of_lt (i := 8) b.toNat_lt a.toNat
  rw [Nat.shiftLeft_eq] at hor
  rw [UInt32.toNat_or, toNat_high, UInt8.toNat_toUInt32]
  exact hor.symm

theorem wordSum_eq : ∀ (data : List UInt8) (acc : UInt32),
    acc.toNat + (words data).sum < 2 ^ 32 →
      (wordSum data acc).toNat = acc.toNat + (words data).sum
  | [], acc, _ => rfl
  | [a], acc, h => by
      simp only [words, List.sum_cons, List.sum_nil] at h ⊢
      rw [wordSum, UInt32.toNat_add, toNat_high]
      omega
  | a :: b :: rest, acc, h => by
      simp only [words, List.sum_cons] at h ⊢
      have hword := toNat_word a b
      have hacc : (acc + ((a.toUInt32 <<< 8) ||| b.toUInt32)).toNat
          = acc.toNat + (a.toNat * 256 + b.toNat) := by
        rw [UInt32.toNat_add, hword]
        omega
      rw [wordSum, wordSum_eq rest _ (by omega), hacc]
      omega

theorem carry_eq (s : UInt32) :
    ((s &&& (0xffff : UInt32)) + (s >>> 16)).toNat = OnesComplement.carry 65536 s.toNat := by
  have hs := s.toNat_lt
  have hlow : s.toNat &&& 65535 = s.toNat % 65536 := Nat.and_two_pow_sub_one_eq_mod _ 16
  simp only [UInt32.toNat_add, UInt32.toNat_and, UInt32.toNat_shiftRight, OnesComplement.carry]
  simp [hlow, Nat.shiftRight_eq_div_pow]
  omega

theorem foldCarry_eq (k : ℕ) : ∀ s : UInt32,
    (foldCarry k s).toNat = OnesComplement.fold 65536 k s.toNat := by
  induction k with
  | zero => intro s; rfl
  | succ k ih =>
      intro s
      have hhigh : s >>> 16 = 0 ↔ s.toNat < 65536 := by
        rw [← UInt32.toNat_inj]
        simp [Nat.shiftRight_eq_div_pow]
      simp only [foldCarry, OnesComplement.fold, hhigh]
      split
      · rfl
      · rw [ih, carry_eq]

/-- **The checksum of a header is formed without overflow.** -/
theorem exact_of_length {data : List UInt8} (hlen : data.length ≤ 60) : Exact data := by
  have hsum {d : List UInt8} (hd : d.length ≤ 60) :
      (wordSum d 0).toNat = (words d).sum := by
    have hlt := sum_words_le hd
    rw [wordSum_eq d 0 (by rw [UInt32.toNat_zero]; omega), UInt32.toNat_zero, Nat.zero_add]
  refine ⟨fun k => hsum ?_, fun k => ?_⟩
  · rw [List.length_take]
    omega
  · rw [foldCarry_eq, hsum hlen]

/-- The checksum completes what the words of the header add up to. -/
theorem toNat_ipv4Checksum {data : List UInt8} (hlen : data.length ≤ 60) :
    ∃ r, OnesComplement.Represents 65536 (words data).sum r ∧
      (ipv4Checksum data).toNat = 65536 - 1 - r := by
  have hlt := sum_words_le hlen
  have hrep := OnesComplement.fold_represents (b := 65536) (k := 1) (n := (words data).sum)
    (by omega) (by omega)
  have hfold := (exact_of_length hlen).carried 3
  refine ⟨_, hrep, ?_⟩
  have hword := hrep.lt
  rw [ipv4Checksum, ← hfold]
  rw [← hfold] at hword
  simp
  omega

/-! ### The rewritten header -/

/-- Writing the two bytes of a word. -/
theorem words_set (a b : UInt8) (k : ℕ) : ∀ {data : List UInt8}, 2 * k + 1 < data.length →
    words ((data.set (2 * k) a).set (2 * k + 1) b)
      = (words data).set k (a.toNat * 256 + b.toNat) := by
  induction k with
  | zero =>
      intro data h
      match data, h with
      | x :: y :: rest, _ => rfl
  | succ k ih =>
      intro data h
      match data, h with
      | x :: y :: rest, h =>
        have hrest : 2 * k + 1 < rest.length := by
          simp only [List.length_cons] at h
          omega
        rw [show 2 * (k + 1) = 2 * k + 1 + 1 by omega]
        simp only [List.set_cons_succ, words, ih hrest]

/-- The second byte of the header, with CE in the ECN bits. -/
def ceByte (x : UInt8) : UInt8 := (x &&& (0xfc : UInt8)) ||| (3 &&& (0x03 : UInt8))

/-- The payload with CE in the ECN bits and no checksum. -/
def unsummed (payload : List UInt8) : List UInt8 :=
  ((payload.set 1 (ceByte (payload.getD 1 0))).set 10 0).set 11 0

/-- The checksum that is written. -/
def checksumOf (payload : List UInt8) : UInt16 :=
  ipv4Checksum ((unsummed payload).take (headerLength payload))

theorem toNat_ihl (payload : List UInt8) :
    ((payload.getD 0 0 &&& (0x0f : UInt8)) * 4).toNat = headerLength payload := by
  have hlow : (payload.getD 0 0).toNat &&& 15 = (payload.getD 0 0).toNat % 16 :=
    Nat.and_two_pow_sub_one_eq_mod _ 4
  rw [headerLength, UInt8.toNat_mul, UInt8.toNat_and]
  show ((payload.getD 0 0).toNat &&& 15) * 4 % 256 = _
  omega

theorem applyIpv4Ecn_of_not {payload : List UInt8} (h : ¬HasHeader payload) :
    applyIpv4Ecn payload Ecn.ce.code = payload := by
  unfold applyIpv4Ecn
  split
  · rfl
  · rename_i hlen
    simp only [UInt8.lt_iff_toNat_lt, toNat_ihl]
    rw [if_pos]
    by_contra hnot
    refine h ⟨by omega, ?_, ?_⟩
    · by_contra hlt
      exact hnot (Or.inl (by simpa using hlt))
    · by_contra hlt
      exact hnot (Or.inr (by omega))

theorem applyIpv4Ecn_of {payload : List UInt8} (h : HasHeader payload) :
    applyIpv4Ecn payload Ecn.ce.code
      = ((unsummed payload).set 10 (checksumOf payload >>> 8).toUInt8).set 11
          (checksumOf payload &&& (0xff : UInt16)).toUInt8 := by
  unfold applyIpv4Ecn
  rw [if_neg (by have := h.1; omega)]
  simp only [UInt8.lt_iff_toNat_lt, toNat_ihl]
  rw [if_neg]
  · rfl
  · rintro (hlt | hlt)
    · have := h.2.1
      simp at hlt
      omega
    · have := h.2.2
      omega

/-- What the checksum bytes held before is gone. -/
theorem set_checksum (data : List UInt8) (a b c d : UInt8) :
    (((data.set 10 a).set 11 b).set 10 c).set 11 d = (data.set 10 c).set 11 d := by
  rw [List.set_comm a b (by omega), List.set_set, List.set_comm b c (by omega), List.set_set]

theorem length_unsummed (payload : List UInt8) : (unsummed payload).length = payload.length := by
  simp [unsummed]

/-- The two bytes of the checksum are its word. -/
theorem toNat_bytes (c : UInt16) :
    (c >>> 8).toUInt8.toNat * 256 + (c &&& (0xff : UInt16)).toUInt8.toNat = c.toNat := by
  have hc := c.toNat_lt
  have hlow : c.toNat &&& 255 = c.toNat % 256 := Nat.and_two_pow_sub_one_eq_mod _ 8
  rw [UInt16.toNat_toUInt8, UInt16.toNat_toUInt8, UInt16.toNat_and, UInt16.toNat_shiftRight]
  show c.toNat >>> 8 % 256 * 256 + (c.toNat &&& 255) % 256 = _
  rw [hlow, Nat.shiftRight_eq_div_pow]
  omega

/-- The ECN bits become CE, and the DSCP bits stay. -/
theorem ce_bits : ∀ x : UInt8, ceByte x &&& (0x03 : UInt8) = 3 ∧
    ceByte x &&& (0xfc : UInt8) = x &&& (0xfc : UInt8) ∧ ceByte (ceByte x) = ceByte x := by
  decide +kernel

/-- **The checksum makes the header valid.** -/
theorem sum_rewritten {payload : List UInt8} (h : HasHeader payload) :
    OnesComplement.sum 65536
      (words ((((unsummed payload).set 10 (checksumOf payload >>> 8).toUInt8).set 11
        (checksumOf payload &&& (0xff : UInt16)).toUInt8).take (headerLength payload)))
      = 0xFFFF := by
  obtain ⟨-, hmin, hmax⟩ := h
  have hmost : headerLength payload ≤ 60 := by
    unfold headerLength
    omega
  obtain ⟨before, hbefore⟩ : ∃ before : List UInt8, before =
      (payload.set 1 (ceByte (payload.getD 1 0))).take (headerLength payload) := ⟨_, rfl⟩
  have hlen : before.length = headerLength payload := by
    rw [hbefore, List.length_take, List.length_set]
    omega
  have hzeroed : (unsummed payload).take (headerLength payload) = (before.set 10 0).set 11 0 := by
    rw [unsummed, List.take_set, List.take_set, ← hbefore]
  have hheader : ((unsummed payload).take (headerLength payload)).length ≤ 60 := by
    rw [List.length_take]
    omega
  obtain ⟨r, hrep, hc⟩ := toNat_ipv4Checksum hheader
  have hwords (a b : UInt8) : words ((before.set 10 a).set 11 b)
      = (words before).set 5 (a.toNat * 256 + b.toNat) := words_set a b 5 (by omega)
  -- the word the checksum takes is zero in the sum it completes
  have hplace : 5 < (words before).length := by
    rw [length_words, hlen]
    omega
  have htotal : (words ((before.set 10 (checksumOf payload >>> 8).toUInt8).set 11
      (checksumOf payload &&& (0xff : UInt16)).toUInt8)).sum
      = (words ((before.set 10 0).set 11 0)).sum + (checksumOf payload).toNat := by
    rw [hwords, hwords, toNat_bytes, List.sum_set, List.sum_set, if_pos hplace, if_pos hplace]
    simp only [UInt8.toNat_zero]
    omega
  rw [List.take_set, List.take_set, hzeroed, set_checksum]
  have hsum := OnesComplement.sum_represents (b := 65536) (by omega) (words_lt
    ((before.set 10 (checksumOf payload >>> 8).toUInt8).set 11
      (checksumOf payload &&& (0xff : UInt16)).toUInt8))
  rw [htotal, checksumOf, hc, ← hzeroed] at hsum
  exact hrep.complement (by omega) hsum

/-- A payload with a header is remarked. -/
theorem remarked_of {payload : List UInt8} (h : HasHeader payload) :
    Remarked payload (applyIpv4Ecn payload Ecn.ce.code) := by
  obtain ⟨hlong, hmin, hmax⟩ := h
  obtain ⟨out, hout⟩ : ∃ out : List UInt8, out = ((unsummed payload).set 10
      (checksumOf payload >>> 8).toUInt8).set 11
        (checksumOf payload &&& (0xff : UInt16)).toUInt8 := ⟨_, rfl⟩
  rw [applyIpv4Ecn_of ⟨hlong, hmin, hmax⟩, ← hout]
  have hlength : out.length = payload.length := by
    rw [hout, List.length_set, List.length_set, length_unsummed]
  have hothers : ∀ i, i ≠ 1 → i ≠ 10 → i ≠ 11 → out[i]? = payload[i]? := by
    intro i h1 h10 h11
    rw [hout, unsummed, List.getElem?_set_ne h11.symm, List.getElem?_set_ne h10.symm,
      List.getElem?_set_ne h11.symm, List.getElem?_set_ne h10.symm, List.getElem?_set_ne h1.symm]
  have hbyte : out.getD 1 0 = ceByte (payload.getD 1 0) := by
    rw [List.getD_eq_getElem?_getD, hout, unsummed, List.getElem?_set_ne (by omega),
      List.getElem?_set_ne (by omega), List.getElem?_set_ne (by omega),
      List.getElem?_set_ne (by omega), List.getElem?_set_self (by omega)]
    rfl
  have hheader : headerLength out = headerLength payload := by
    rw [headerLength, headerLength, List.getD_eq_getElem?_getD, List.getD_eq_getElem?_getD,
      hothers 0 (by omega) (by omega) (by omega)]
  obtain ⟨hecn, hdscp, hagain⟩ := ce_bits (payload.getD 1 0)
  refine ⟨hlength, hothers, ?_, ?_, ?_, ?_⟩
  · rw [hbyte]
    exact hecn
  · rw [hbyte]
    exact hdscp
  · rw [hheader, hout]
    exact sum_rewritten ⟨hlong, hmin, hmax⟩
  · have hbit : 1 < out.length := by omega
    have hget : ceByte (out.getD 1 0) = out[1] := by
      rw [hbyte, hagain, ← hbyte, List.getD_eq_getElem _ _ hbit]
    have hzeroed : unsummed out = unsummed payload := by
      rw [unsummed, hget, List.set_getElem_self, hout, set_checksum, unsummed, set_checksum]
    rw [applyIpv4Ecn_of ⟨by omega, by omega, by omega⟩, checksumOf, hzeroed, hheader, hout]
    rfl

/-- **A CE mark yields a valid header and changes nothing else.**  A payload whose lengths
do not fit is left as it is, and whatever a header of that length holds, no sum over it
overflows. -/
theorem ce_rewrite_valid (payload : List UInt8) :
    (HasHeader payload → Remarked payload (applyIpv4Ecn payload Ecn.ce.code)) ∧
    (¬HasHeader payload → applyIpv4Ecn payload Ecn.ce.code = payload) ∧
    ∀ data : List UInt8, data.length = headerLength payload → Exact data := by
  refine ⟨remarked_of, applyIpv4Ecn_of_not, fun data hlen => exact_of_length ?_⟩
  rw [hlen, headerLength]
  omega

/-- A header with four bytes of options, ECT(0) and a checksum that is wrong. -/
theorem ce_rewrite_valid_options :
    Remarked [0x46, 0xba, 0, 24, 0, 1, 0, 0, 64, 17, 0xff, 0xff, 10, 0, 0, 1, 10, 0, 0, 2,
      0x94, 4, 0, 0] [0x46, 0xbb, 0, 24, 0, 1, 0, 0, 64, 17, 0xd1, 0x12, 10, 0, 0, 1, 10, 0, 0, 2,
      0x94, 4, 0, 0] :=
  (ce_rewrite_valid [0x46, 0xba, 0, 24, 0, 1, 0, 0, 64, 17, 0xff, 0xff, 10, 0, 0, 1, 10, 0, 0, 2,
    0x94, 4, 0, 0]).1 (by decide)

end NetworkEmulator
