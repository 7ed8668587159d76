import StructuralTypes.Proofs.ShortestDecimal

namespace StructuralTypes.Binary64

variable {n num den : Nat}

/-- The number nearest to an integer. -/
def ofInt (n : Int) : Binary64 :=
  .ofRatio (decide (n < 0)) n.natAbs 1

def isFinite : Binary64 → Bool
  | .finite .. => true
  | .infinite _ => false

section Rounding

theorem roundHalfEven_one (num : Nat) : roundHalfEven num 1 = num := by
  simp [roundHalfEven, Nat.mod_one]

theorem roundHalfEven_eq_iff (hden : 0 < den) (hnum : num < 2 ^ 53 * den) :
    roundHalfEven num den = 2 ^ 53 ↔ (2 ^ 54 - 1) * den ≤ 2 * num := by
  have hsplit : den * (num / den) + num % den = num := Nat.div_add_mod num den
  have hrest : num % den < den := Nat.mod_lt num hden
  have hquotient : num / den < 2 ^ 53 := (Nat.div_lt_iff_lt_mul hden).mpr hnum
  rcases Nat.lt_or_ge (num / den) (2 ^ 53 - 1) with hlt | hge
  · have hmul : den * (num / den) ≤ den * (2 ^ 53 - 2) := Nat.mul_le_mul_left den (by omega)
    rcases roundHalfEven_cases num den with h | h <;> omega
  · have hq : num / den = 2 ^ 53 - 1 := by omega
    simp only [roundHalfEven, hq] at hsplit ⊢
    split_ifs <;> omega

end Rounding

section Integers

theorem scaled_bounds (hn : 0 < n) (bits : Nat) {e : Int} (he : e = (n.log2 : Int) - bits) :
    2 ^ bits * 2 ^ e.toNat ≤ n * 2 ^ (-e).toNat ∧
      n * 2 ^ (-e).toNat < 2 ^ (bits + 1) * 2 ^ e.toNat := by
  have hpow : ∀ k, 2 ^ (bits + k) * 2 ^ e.toNat = 2 ^ (n.log2 + k) * 2 ^ (-e).toNat := by
    intro k
    rw [← Nat.pow_add, ← Nat.pow_add]
    congr 1
    omega
  constructor
  · calc
      2 ^ bits * 2 ^ e.toNat = 2 ^ n.log2 * 2 ^ (-e).toNat := hpow 0
      _ ≤ n * 2 ^ (-e).toNat := Nat.mul_le_mul_right _ (Nat.log2_self_le hn.ne')
  · calc
      n * 2 ^ (-e).toNat < 2 ^ (n.log2 + 1) * 2 ^ (-e).toNat :=
        Nat.mul_lt_mul_of_pos_right Nat.lt_log2_self (by positivity)
      _ = 2 ^ (bits + 1) * 2 ^ e.toNat := (hpow 1).symm

theorem exponentFor_one (hn : 0 < n) : exponentFor n 1 = (n.log2 : Int) - 52 := by
  have hlow : max (-1074) ((n.log2 : Int) - Nat.log2 1 - 53) = (n.log2 : Int) - 53 := by
    have hlog : Nat.log2 1 = 0 := rfl
    omega
  have hbits : Nat.pow 2 53 ≤ scaledFloor n 1 ((n.log2 : Int) - 53) := by
    change 2 ^ 53 ≤ n * 2 ^ (-((n.log2 : Int) - 53)).toNat / (1 * 2 ^ ((n.log2 : Int) - 53).toNat)
    rw [Nat.one_mul, Nat.le_div_iff_mul_le (by positivity)]
    exact (scaled_bounds hn 53 rfl).1
  unfold exponentFor
  rw [hlow]
  dsimp only
  rw [if_pos hbits]
  omega

/-- The mantissa of the number nearest to an integer, before a carry. -/
def rounded (n : Nat) : Nat :=
  roundHalfEven (n * 2 ^ (-((n.log2 : Int) - 52)).toNat) (2 ^ ((n.log2 : Int) - 52).toNat)

/-- The mantissa of the number nearest to an integer. -/
def nearestMantissa (n : Nat) : Nat :=
  if rounded n = 2 ^ 53 then 2 ^ 52 else rounded n

/-- The exponent of the number nearest to an integer, were there no end to exponents. -/
def nearestExponent (n : Nat) : Int :=
  if rounded n = 2 ^ 53 then (n.log2 : Int) - 52 + 1 else (n.log2 : Int) - 52

theorem rounded_bounds (hn : 0 < n) : 2 ^ 52 ≤ rounded n ∧ rounded n ≤ 2 ^ 53 := by
  obtain ⟨hlow, hhigh⟩ := scaled_bounds hn 52 rfl
  have hleast := (Nat.le_div_iff_mul_le (by positivity)).mpr hlow
  have hgreatest := (Nat.div_lt_iff_lt_mul (by positivity)).mpr hhigh
  unfold rounded
  rcases roundHalfEven_cases (n * 2 ^ (-((n.log2 : Int) - 52)).toNat)
    (2 ^ ((n.log2 : Int) - 52).toNat) with ⟨h, -⟩ | ⟨h, -⟩
  · rw [h]
    exact ⟨hleast, hgreatest.le⟩
  · rw [h]
    exact ⟨hleast.trans (Nat.le_succ _), hgreatest⟩

theorem normal_nearest_iff (hn : 0 < n) :
    Normal (nearestMantissa n) (nearestExponent n) ↔ nearestExponent n ≤ 971 := by
  obtain ⟨hlow, hhigh⟩ := rounded_bounds hn
  have hmantissa : 2 ^ 52 ≤ nearestMantissa n ∧ nearestMantissa n < 2 ^ 53 := by
    unfold nearestMantissa
    split <;> omega
  have hexponent : -1074 ≤ nearestExponent n := by
    unfold nearestExponent
    split <;> omega
  exact ⟨fun h => h.2.2.1, fun h => ⟨hmantissa.2, hexponent, h, Or.inl hmantissa.1⟩⟩

theorem ofRatio_one (hn : 0 < n) (negative : Bool) :
    ofRatio negative n 1 =
      if h : Normal (nearestMantissa n) (nearestExponent n) then
        .finite negative (nearestMantissa n) (nearestExponent n) h
      else .infinite negative := by
  unfold ofRatio
  rw [if_neg hn.ne', exponentFor_one hn]
  simp only [Nat.one_mul]
  rfl

/-- An exponent lasts as long as the mantissa is not rounded up to one bit more. -/
theorem nearestExponent_le_iff (hn : 0 < n) (k : Nat) :
    nearestExponent n ≤ k + 1 ↔ n < (2 ^ 54 - 1) * 2 ^ k := by
  have hlow : 2 ^ n.log2 ≤ n := Nat.log2_self_le hn.ne'
  have hhigh : n < 2 ^ (n.log2 + 1) := Nat.lt_log2_self
  have hpos : 0 < 2 ^ k := by positivity
  unfold nearestExponent
  rcases Nat.lt_trichotomy n.log2 (k + 53) with hlt | heq | hgt
  · have hpow : 2 ^ (n.log2 + 1) ≤ 2 ^ 53 * 2 ^ k := by
      rw [← Nat.pow_add]
      exact Nat.pow_le_pow_right (by decide) (by omega)
    refine iff_of_true ?_ (by omega)
    split <;> omega
  · have hcarry : rounded n = 2 ^ 53 ↔ (2 ^ 54 - 1) * 2 ^ k ≤ n := by
      have hscale : ((n.log2 : Int) - 52).toNat = k + 1 := by omega
      have hunit : (-((n.log2 : Int) - 52)).toNat = 0 := by omega
      have hbound := (scaled_bounds hn 52 (e := (n.log2 : Int) - 52) rfl).2
      unfold rounded
      rw [roundHalfEven_eq_iff (by positivity) hbound, hscale, hunit, Nat.pow_succ]
      omega
    rw [← not_le, ← hcarry]
    split
    · rename_i hfull
      exact iff_of_false (by omega) (not_not_intro hfull)
    · rename_i hfull
      exact iff_of_true (by omega) hfull
  · have hpow : 2 ^ 54 * 2 ^ k ≤ 2 ^ n.log2 := by
      rw [← Nat.pow_add]
      exact Nat.pow_le_pow_right (by decide) (by omega)
    refine iff_of_false ?_ (by omega)
    split <;> omega

theorem integerLimit_eq : integerLimit = (2 ^ 54 - 1) * 2 ^ 970 := by
  decide +kernel

theorem isFinite_ofInt_iff {i : Int} : (ofInt i).isFinite = true ↔ i.natAbs < integerLimit := by
  unfold ofInt
  rcases Nat.eq_zero_or_pos i.natAbs with hzero | hpos
  · rw [hzero]
    exact iff_of_true rfl (by decide +kernel)
  · rw [integerLimit_eq, ← nearestExponent_le_iff hpos, ofRatio_one hpos]
    split
    · rename_i hnormal
      exact iff_of_true rfl ((normal_nearest_iff hpos).mp hnormal)
    · rename_i hnot
      exact iff_of_false Bool.false_ne_true fun h => hnot ((normal_nearest_iff hpos).mpr h)

/-- A mantissa has places behind the point only where the integer fits in it as it is. -/
theorem nearestMantissa_mod (hn : 0 < n) :
    nearestMantissa n % 2 ^ (-nearestExponent n).toNat = 0 := by
  rcases Nat.lt_or_ge n.log2 52 with hlt | hge
  · have hunit : ((n.log2 : Int) - 52).toNat = 0 := by omega
    have hrounded : rounded n = n * 2 ^ (-((n.log2 : Int) - 52)).toNat := by
      rw [rounded, hunit, Nat.pow_zero, roundHalfEven_one]
    have hfull : rounded n ≠ 2 ^ 53 := by
      have hbound := (scaled_bounds hn 52 (e := (n.log2 : Int) - 52) rfl).2
      rw [← hrounded, hunit] at hbound
      omega
    rw [nearestMantissa, nearestExponent, if_neg hfull, if_neg hfull, hrounded]
    exact Nat.mul_mod_left _ _
  · have hunit : (-nearestExponent n).toNat = 0 := by
      unfold nearestExponent
      split <;> omega
    rw [hunit, Nat.pow_zero, Nat.mod_one]

theorem exists_integer_ofInt {i : Int} (h : (ofInt i).isFinite = true) :
    ∃ k, (ofInt i).integer? = some k := by
  unfold ofInt at h ⊢
  rcases Nat.eq_zero_or_pos i.natAbs with hzero | hpos
  · rw [hzero, ofRatio, if_pos rfl]
    exact ⟨0, integer?_eq_some_iff.mpr (by simp [zero, value, scaled, signed])⟩
  · rw [ofRatio_one hpos] at h ⊢
    split at h
    · rename_i hnormal
      rw [dif_pos hnormal]
      exact ⟨_, if_pos (nearestMantissa_mod hpos)⟩
    · cases h

end Integers

end StructuralTypes.Binary64
