import Mathlib.Tactic

/-!
# Cyclic redundancy checks

A reflected CRC over a register of `w` bits: a bit step shifts the register down and, when the bit that falls out is set, adds
the polynomial; a byte step adds a byte to the low end and takes eight bit steps. With the polynomial's top bit set a bit step
can be undone, so feeding equal bytes to different registers leaves them different; and as long as the bytes fit the register,
feeding them is adding one word made of them. Together: texts that differ in a window as wide as the register have different
remainders.
-/

namespace Crc

variable {w : Nat}

/-- One bit step. -/
def bitStep (poly x : BitVec w) : BitVec w := if x.getLsbD 0 then poly ^^^ (x >>> 1) else x >>> 1

/-- `n` bit steps. -/
def bitSteps (poly : BitVec w) : Nat → BitVec w → BitVec w
  | 0, x => x
  | n + 1, x => bitSteps poly n (bitStep poly x)

/-- One byte step. -/
def byteStep (poly x : BitVec w) (b : BitVec 8) : BitVec w := bitSteps poly 8 (x ^^^ b.setWidth w)

/-- The register after a text. -/
def remainder (poly x : BitVec w) (bs : List (BitVec 8)) : BitVec w := bs.foldl (byteStep poly) x

variable (poly : BitVec w)

/-! ## Bit steps -/

/-- A bit step is additive. -/
theorem bitStep_xor (x y : BitVec w) : bitStep poly (x ^^^ y) = bitStep poly x ^^^ bitStep poly y := by
  have hself : ∀ a b : BitVec w, a ^^^ b = (poly ^^^ a) ^^^ (poly ^^^ b) := by
    intro a b
    rw [BitVec.xor_comm poly a, BitVec.xor_assoc, ← BitVec.xor_assoc poly poly b, BitVec.xor_self, BitVec.zero_xor]
  unfold bitStep
  rw [BitVec.getLsbD_xor, BitVec.ushiftRight_xor_distrib]
  cases x.getLsbD 0 <;> cases y.getLsbD 0
  · rfl
  · simp only [Bool.false_bne, if_true, Bool.false_eq_true, if_false]
    rw [← BitVec.xor_assoc, BitVec.xor_comm poly, BitVec.xor_assoc]
  · simp only [Bool.true_bne, Bool.not_false, if_true, Bool.false_eq_true, if_false]
    rw [BitVec.xor_assoc]
  · simp only [bne_self_eq_false, Bool.false_eq_true, if_false, if_true]
    exact hself _ _

theorem bitSteps_xor (n : Nat) (x y : BitVec w) : bitSteps poly n (x ^^^ y) = bitSteps poly n x ^^^ bitSteps poly n y := by
  induction n generalizing x y with
  | zero => rfl
  | succ n ih => rw [bitSteps, bitStep_xor, ih]; rfl

theorem bitSteps_add (m n : Nat) (x : BitVec w) : bitSteps poly (m + n) x = bitSteps poly n (bitSteps poly m x) := by
  induction m generalizing x with
  | zero => rw [Nat.zero_add, bitSteps]
  | succ m ih => rw [Nat.succ_add, bitSteps, bitSteps, ih]

variable {poly}

/-- With the polynomial's top bit set, only zero steps to zero. -/
theorem eq_zero_of_bitStep (hpoly : poly.msb = true) {x : BitVec w} (h : bitStep poly x = 0#w) : x = 0#w := by
  have hw : 0 < w := by
    rcases Nat.eq_zero_or_pos w with rfl | hw
    · rw [BitVec.msb_eq_getLsbD_last, BitVec.getLsbD_of_ge _ _ (Nat.zero_le _)] at hpoly
      cases hpoly
    · exact hw
  rw [BitVec.msb_eq_getLsbD_last] at hpoly
  have htop : (bitStep poly x).getLsbD (w - 1) = x.getLsbD 0 := by
    unfold bitStep
    have hshift : (x >>> 1).getLsbD (w - 1) = false := by
      rw [BitVec.getLsbD_ushiftRight]
      exact BitVec.getLsbD_of_ge _ _ (by omega)
    cases x.getLsbD 0
    · simp only [Bool.false_eq_true, if_false, hshift]
    · simp only [if_true, BitVec.getLsbD_xor, hshift, hpoly, Bool.bne_false]
  rw [h, BitVec.getLsbD_zero] at htop
  unfold bitStep at h
  rw [← htop] at h
  simp only [Bool.false_eq_true, if_false] at h
  apply BitVec.eq_of_getLsbD_eq
  intro i hi
  rw [BitVec.getLsbD_zero]
  rcases i with _ | i
  · exact htop.symm
  · have := congrArg (fun y => y.getLsbD i) h
    simp only [BitVec.getLsbD_ushiftRight, BitVec.getLsbD_zero] at this
    rwa [Nat.add_comm i 1]

theorem bitStep_injective (hpoly : poly.msb = true) : Function.Injective (bitStep poly) := by
  intro x y h
  have hdiff : bitStep poly (x ^^^ y) = 0#w := by rw [bitStep_xor, h, BitVec.xor_self]
  exact BitVec.xor_eq_zero_iff.1 (eq_zero_of_bitStep hpoly hdiff)

theorem bitSteps_injective (hpoly : poly.msb = true) (n : Nat) : Function.Injective (bitSteps poly n) := by
  induction n with
  | zero => exact fun _ _ h => h
  | succ n ih => exact ih.comp (bitStep_injective hpoly)

/-- A text fed to different registers leaves them different. -/
theorem remainder_injective (hpoly : poly.msb = true) (bs : List (BitVec 8)) :
    Function.Injective (fun x => remainder poly x bs) := by
  induction bs with
  | nil => exact fun _ _ h => h
  | cons b bs ih =>
    intro x y h
    have hstep : byteStep poly x b = byteStep poly y b := ih h
    exact (BitVec.xor_left_inj _).1 (bitSteps_injective hpoly 8 hstep)

/-! ## A text that fits the register -/

/-- The highest of the bits of a shifted word is one of the word. -/
theorem msb_shiftLeft_eq_false {x : BitVec w} {n : Nat} (h : x.toNat < 2 ^ (w - (n + 1))) (hn : n < w) :
    (x <<< n).msb = false := by
  rw [BitVec.msb_eq_getLsbD_last, BitVec.getLsbD_shiftLeft, BitVec.getLsbD, Nat.testBit_lt_two_pow]
  · simp
  · rwa [show w - 1 - n = w - (n + 1) by omega]

/-- Bit steps bring a word down that was shifted up without loss. -/
theorem bitSteps_shiftLeft {x : BitVec w} {n : Nat} (hn : n ≤ w) (h : x.toNat < 2 ^ (w - n)) :
    bitSteps poly n (x <<< n) = x := by
  induction n with
  | zero => simp [bitSteps]
  | succ n ih =>
    have hsmall : x.toNat < 2 ^ (w - n) := Nat.lt_of_lt_of_le h (Nat.pow_le_pow_right (by norm_num) (by omega))
    have hdown : bitStep poly (x <<< (n + 1)) = x <<< n := by
      have hzero : (x <<< (n + 1)).getLsbD 0 = false := by simp
      have hmsb := msb_shiftLeft_eq_false h (by omega)
      rw [BitVec.msb_eq_getLsbD_last] at hmsb
      unfold bitStep
      rw [hzero]
      simp only [Bool.false_eq_true, if_false]
      apply BitVec.eq_of_getLsbD_eq
      intro i hi
      rw [BitVec.getLsbD_ushiftRight]
      by_cases hlast : i = w - 1
      · rw [hlast, hmsb]
        exact BitVec.getLsbD_of_ge _ _ (by omega)
      · rw [BitVec.shiftLeft_add, BitVec.getLsbD_shiftLeft]
        simp [show 1 + i < w by omega]
    rw [bitSteps, hdown, ih (by omega) hsmall]

/-- The word of a text, its first byte lowest. -/
def word (w : Nat) : List (BitVec 8) → BitVec w
  | [] => 0#w
  | b :: bs => b.setWidth w ^^^ (word w bs <<< 8)

theorem getLsbD_word_cons (b : BitVec 8) (bs : List (BitVec 8)) (i : Nat) :
    (word w (b :: bs)).getLsbD i =
      if i < 8 then decide (i < w) && b.getLsbD i else decide (i < w) && (word w bs).getLsbD (i - 8) := by
  rw [word, BitVec.getLsbD_xor, BitVec.getLsbD_setWidth, BitVec.getLsbD_shiftLeft]
  by_cases hi : i < 8
  · simp [hi]
  · rw [BitVec.getLsbD_of_ge b i (by omega)]
    simp [hi]

/-- The word of a text that fits has the text's bits only. -/
theorem toNat_word_lt {bs : List (BitVec 8)} {n : Nat} (hn : n ≤ w) (h : 8 * bs.length ≤ n) :
    (word w bs).toNat < 2 ^ n := by
  apply Nat.lt_pow_two_of_testBit
  intro i hi
  show (word w bs).getLsbD i = false
  induction bs generalizing n i with
  | nil => exact BitVec.getLsbD_zero
  | cons b bs ih =>
    rw [List.length_cons] at h
    rw [getLsbD_word_cons, if_neg (by omega), ih (n := n - 8) (by omega) (by omega) (i - 8) (by omega), Bool.and_false]

/-- Feeding a text that fits is adding its word and taking its bit steps. -/
theorem remainder_eq_bitSteps (x : BitVec w) {bs : List (BitVec 8)} (h : 8 * bs.length ≤ w) :
    remainder poly x bs = bitSteps poly (8 * bs.length) (x ^^^ word w bs) := by
  induction bs generalizing x with
  | nil => simp [remainder, word, bitSteps]
  | cons b bs ih =>
    rw [List.length_cons] at h
    have hword : bitSteps poly 8 (word w bs <<< 8) = word w bs :=
      bitSteps_shiftLeft (by omega) (toNat_word_lt (by omega) (by omega))
    calc remainder poly x (b :: bs)
        = remainder poly (byteStep poly x b) bs := rfl
      _ = bitSteps poly (8 * bs.length) (byteStep poly x b ^^^ word w bs) := ih _ (by omega)
      _ = bitSteps poly (8 * bs.length) (bitSteps poly 8 ((x ^^^ b.setWidth w) ^^^ (word w bs <<< 8))) := by
          rw [bitSteps_xor poly 8, hword]
          rfl
      _ = bitSteps poly (8 * (b :: bs).length) (x ^^^ word w (b :: bs)) := by
          rw [← bitSteps_add, word, BitVec.xor_assoc, List.length_cons, Nat.mul_succ, Nat.add_comm]

/-- Texts of one length that fit are told apart by their words. -/
theorem word_injective {bs bs' : List (BitVec 8)} (hlen : bs.length = bs'.length) (h : 8 * bs.length ≤ w)
    (heq : word w bs = word w bs') : bs = bs' := by
  induction bs generalizing bs' with
  | nil => exact (List.length_eq_zero_iff.1 hlen.symm).symm
  | cons b bs ih =>
    rcases bs' with _ | ⟨b', bs'⟩
    · cases hlen
    · rw [List.length_cons] at h
      have hbit : ∀ i, (word w (b :: bs)).getLsbD i = (word w (b' :: bs')).getLsbD i := fun i => by rw [heq]
      simp only [getLsbD_word_cons] at hbit
      have hhead : b = b' := by
        apply BitVec.eq_of_getLsbD_eq
        intro i hi
        have := hbit i
        rw [if_pos hi, if_pos hi] at this
        simpa [show i < w by omega] using this
      have htail : word w bs = word w bs' := by
        apply BitVec.eq_of_getLsbD_eq
        intro i hi
        have hlt : (word w bs).toNat < 2 ^ (w - 8) := toNat_word_lt (by omega) (by omega)
        have hlt' : (word w bs').toNat < 2 ^ (w - 8) := toNat_word_lt (by omega) (by simp at hlen; omega)
        by_cases htop : i + 8 < w
        · have := hbit (i + 8)
          rw [if_neg (by omega), if_neg (by omega), Nat.add_sub_cancel] at this
          simpa [htop] using this
        · have hpow : 2 ^ (w - 8) ≤ 2 ^ i := Nat.pow_le_pow_right (by norm_num) (by omega)
          rw [BitVec.getLsbD, BitVec.getLsbD, Nat.testBit_lt_two_pow (by omega), Nat.testBit_lt_two_pow (by omega)]
      rw [hhead, ih (by simpa using hlen) (by omega) htail]

/-- Texts that differ only in a window as wide as the register have different remainders. -/
theorem remainder_ne_of_window (hpoly : poly.msb = true) (x : BitVec w) (pre post : List (BitVec 8))
    {mid mid' : List (BitVec 8)} (hlen : mid.length = mid'.length) (hw : 8 * mid.length ≤ w) (hne : mid ≠ mid') :
    remainder poly x (pre ++ mid ++ post) ≠ remainder poly x (pre ++ mid' ++ post) := by
  intro h
  simp only [remainder, List.foldl_append] at h
  have hmid : remainder poly (pre.foldl (byteStep poly) x) mid = remainder poly (pre.foldl (byteStep poly) x) mid' :=
    remainder_injective hpoly post h
  rw [remainder_eq_bitSteps _ hw, remainder_eq_bitSteps _ (hlen ▸ hw), ← hlen] at hmid
  have hword := (BitVec.xor_right_inj _).1 (bitSteps_injective hpoly _ hmid)
  exact hne (word_injective hlen hw hword)

/-! ## One bit of the text at a time -/

/-- Feed one bit: shift the register down, and add the polynomial when the bit that falls out is not the bit fed. -/
def feedBit (poly x : BitVec w) (b : Bool) : BitVec w := if x.getLsbD 0 != b then poly ^^^ (x >>> 1) else x >>> 1

/-- The low bits of a word, the lowest first. -/
def lowBits (n : Nat) (x : BitVec w) : List Bool := (List.range n).map x.getLsbD

/-- The register after a text whose bits are fed one after the other, the lowest of each byte first. -/
def bitwise (poly x : BitVec w) (bs : List (BitVec 8)) : BitVec w := (bs.flatMap (lowBits 8)).foldl (feedBit poly) x

theorem lowBits_succ (n : Nat) (x : BitVec w) : lowBits (n + 1) x = x.getLsbD 0 :: lowBits n (x >>> 1) := by
  rw [lowBits, List.range_succ_eq_map, List.map_cons, List.map_map, lowBits]
  refine congrArg (x.getLsbD 0 :: ·) (List.map_congr_left (fun i _ => ?_))
  rw [Function.comp_apply, BitVec.getLsbD_ushiftRight, Nat.succ_eq_add_one, Nat.add_comm]

/-- A bit step of a register to which a word was added feeds the word's lowest bit and leaves the others to come. -/
theorem bitStep_xor_eq_feedBit (x v : BitVec w) : bitStep poly (x ^^^ v) = feedBit poly x (v.getLsbD 0) ^^^ (v >>> 1) := by
  rw [bitStep, feedBit, BitVec.getLsbD_xor, BitVec.ushiftRight_xor_distrib]
  split
  · rw [BitVec.xor_assoc]
  · rfl

/-- Adding a word of `n` bits and taking `n` bit steps feeds the bits of the word. -/
theorem bitSteps_xor_eq_foldl {n : Nat} (x : BitVec w) {v : BitVec w} (hv : v.toNat < 2 ^ n) :
    bitSteps poly n (x ^^^ v) = (lowBits n v).foldl (feedBit poly) x := by
  induction n generalizing x v with
  | zero =>
    have hzero : v = 0#w := BitVec.eq_of_toNat_eq (by simpa using hv)
    rw [hzero, BitVec.xor_zero]
    rfl
  | succ n ih =>
    have hrest : (v >>> 1).toNat < 2 ^ n := by
      rw [BitVec.toNat_ushiftRight, Nat.shiftRight_eq_div_pow]
      rw [Nat.pow_succ] at hv
      omega
    rw [bitSteps, bitStep_xor_eq_feedBit, ih _ hrest, lowBits_succ, List.foldl_cons]

/-- A byte step feeds the bits of the byte. -/
theorem byteStep_eq_foldl (hw : 8 ≤ w) (x : BitVec w) (b : BitVec 8) :
    byteStep poly x b = (lowBits 8 b).foldl (feedBit poly) x := by
  have hsmall : (b.setWidth w).toNat < 2 ^ 8 := by
    rw [BitVec.toNat_setWidth]
    exact Nat.lt_of_le_of_lt (Nat.mod_le _ _) b.isLt
  have hbits : lowBits 8 (b.setWidth w) = lowBits 8 b := by
    refine List.map_congr_left (fun i hi => ?_)
    rw [BitVec.getLsbD_setWidth]
    simp [Nat.lt_of_lt_of_le (List.mem_range.1 hi) hw]
  rw [byteStep, bitSteps_xor_eq_foldl x hsmall, hbits]

/-- The remainder of a text byte by byte is the one bit by bit. -/
theorem remainder_eq_bitwise (hw : 8 ≤ w) (x : BitVec w) (bs : List (BitVec 8)) : remainder poly x bs = bitwise poly x bs := by
  induction bs generalizing x with
  | nil => rfl
  | cons b bs ih =>
    rw [bitwise, List.flatMap_cons, List.foldl_append, ← byteStep_eq_foldl hw]
    exact ih (byteStep poly x b)

/-! ## The table -/

/-- A byte step by a table: the eight steps of the register's low byte, and the rest moved down. -/
theorem byteStep_eq_table (hw : 8 ≤ w) (x : BitVec w) (b : BitVec 8) :
    byteStep poly x b =
      bitSteps poly 8 (((x ^^^ b.setWidth w).setWidth 8).setWidth w) ^^^ (x >>> 8) := by
  have hsmall : (x >>> 8).toNat < 2 ^ (w - 8) := by
    rw [BitVec.toNat_ushiftRight, Nat.shiftRight_eq_div_pow]
    apply Nat.div_lt_of_lt_mul
    rw [← Nat.pow_add, Nat.add_sub_of_le hw]
    exact x.isLt
  have hsplit : x ^^^ b.setWidth w = ((x ^^^ b.setWidth w).setWidth 8).setWidth w ^^^ ((x >>> 8) <<< 8) := by
    apply BitVec.eq_of_getLsbD_eq
    intro i hi
    rw [BitVec.getLsbD_xor, BitVec.getLsbD_xor, BitVec.getLsbD_setWidth, BitVec.getLsbD_setWidth, BitVec.getLsbD_setWidth,
      BitVec.getLsbD_xor, BitVec.getLsbD_setWidth, BitVec.getLsbD_shiftLeft, BitVec.getLsbD_ushiftRight]
    by_cases h8 : i < 8
    · simp [hi, h8]
    · rw [BitVec.getLsbD_of_ge b i (by omega), show 8 + (i - 8) = i by omega]
      simp [hi, h8]
  rw [byteStep, hsplit, bitSteps_xor, bitSteps_shiftLeft hw hsmall, ← hsplit]

end Crc
