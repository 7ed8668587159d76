import StructuralTypes.Proofs.Number

/-!
The shortest decimal of a number. The integer comparisons of the search are comparisons of exact
values, so that a decimal that reads back is at most halfway to the next number, and seventeen
digits always read back. The decimal that is found is on the same side of a ten-thousandth as the
number.
-/

namespace StructuralTypes.Binary64

section Powers

theorem zpow_eq_div {b : ℚ} (z : Int) : b ^ z = b ^ z.toNat / b ^ (-z).toNat := by
  obtain ⟨k, rfl | rfl⟩ := z.eq_nat_or_neg
  · simp
  · simp

theorem pow_length_toDigits_le {n : Nat} (hn : 0 < n) :
    (10 : ℚ) ^ ((Nat.toDigits 10 n).length - 1 : ℤ) ≤ n := by
  obtain ⟨k, hk⟩ : ∃ k, (Nat.toDigits 10 n).length = k + 1 :=
    Nat.exists_eq_succ_of_ne_zero Nat.length_toDigits_pos.ne'
  have hle : 10 ^ k ≤ n := by
    rcases Nat.eq_zero_or_pos k with rfl | hpos
    · exact hn
    · have hnot : ¬ (Nat.toDigits 10 n).length ≤ k := by omega
      rw [Nat.length_toDigits_le_iff (by decide) hpos] at hnot
      omega
  rw [hk, Nat.cast_succ, add_sub_cancel_right, zpow_natCast]
  exact_mod_cast hle

theorem lt_pow_length_toDigits (n : Nat) : (n : ℚ) < 10 ^ ((Nat.toDigits 10 n).length : ℤ) := by
  have hlt : n < 10 ^ (Nat.toDigits 10 n).length :=
    (Nat.length_toDigits_le_iff (by decide) Nat.length_toDigits_pos).mp le_rfl
  rw [zpow_natCast]
  exact_mod_cast hlt

end Powers

namespace Scaled

variable {d : Scaled} {factor : Nat} {exponent : Int}

/-- The exact value of a decimal. -/
def value (d : Scaled) : ℚ :=
  d.digits * 10 ^ d.scale

theorem le_iff : d.le factor exponent = true ↔ d.value ≤ factor * 2 ^ exponent := by
  rw [Scaled.le, decide_eq_true_iff, value, zpow_eq_div d.scale, zpow_eq_div exponent,
    mul_div_assoc', mul_div_assoc', div_le_div_iff₀ (by positivity) (by positivity)]
  norm_cast

theorem ge_iff : d.ge factor exponent = true ↔ factor * 2 ^ exponent ≤ d.value := by
  rw [Scaled.ge, decide_eq_true_iff, value, zpow_eq_div d.scale, zpow_eq_div exponent,
    mul_div_assoc', mul_div_assoc', div_le_div_iff₀ (by positivity) (by positivity)]
  norm_cast

end Scaled

section ReadsBack

variable {d : Scaled} {mantissa : Nat} {exponent : Int}

/-- Where the values end that read back, below the number, in quarters of its last place. -/
def lowerEnd (mantissa : Nat) (exponent : Int) : Nat :=
  if mantissa = Nat.pow 2 52 ∧ -1074 < exponent then 4 * mantissa - 1 else 4 * mantissa - 2

theorem readsBack_eq (d : Scaled) (mantissa : Nat) (exponent : Int) :
    d.readsBack mantissa exponent =
      let low := lowerEnd mantissa exponent
      let high := 4 * mantissa + 2
      let within := d.ge low (exponent - 2) && d.le high (exponent - 2)
      if mantissa % 2 = 0 then within
      else within && !d.le low (exponent - 2) && !d.ge high (exponent - 2) :=
  rfl

theorem readsBack_of_between
    (hlow : lowerEnd mantissa exponent * 2 ^ (exponent - 2) < d.value)
    (hhigh : d.value < (4 * mantissa + 2 : Nat) * 2 ^ (exponent - 2)) :
    d.readsBack mantissa exponent = true := by
  have hge : d.ge (lowerEnd mantissa exponent) (exponent - 2) = true := Scaled.ge_iff.mpr hlow.le
  have hle : d.le (4 * mantissa + 2) (exponent - 2) = true := Scaled.le_iff.mpr hhigh.le
  have hnot : d.le (lowerEnd mantissa exponent) (exponent - 2) = false := by
    rw [← Bool.not_eq_true, Scaled.le_iff]
    exact hlow.not_ge
  have hnot' : d.ge (4 * mantissa + 2) (exponent - 2) = false := by
    rw [← Bool.not_eq_true, Scaled.ge_iff]
    exact hhigh.not_ge
  simp [readsBack_eq, hge, hle, hnot, hnot']

theorem value_le_of_readsBack (h : d.readsBack mantissa exponent = true) :
    d.value ≤ (mantissa + 1 / 2) * 2 ^ exponent := by
  have hle : d.le (4 * mantissa + 2) (exponent - 2) = true := by
    rw [readsBack_eq] at h
    dsimp only at h
    split at h
    · exact (Bool.and_eq_true_iff.mp h).2
    · simp only [Bool.and_eq_true] at h
      exact h.1.1.2
  have hvalue := Scaled.le_iff.mp hle
  rw [zpow_sub₀ two_ne_zero] at hvalue
  push_cast at hvalue
  linarith

end ReadsBack

section LeadingPower

variable {num den : Nat}

/-- By how much longer one number is written than another. -/
def digitGap (num den : Nat) : Int :=
  (Nat.toDigits 10 num).length - (Nat.toDigits 10 den).length

theorem leadingPower_eq (num den : Nat) :
    leadingPower num den =
      if den * 10 ^ (digitGap num den).toNat ≤ num * 10 ^ (-digitGap num den).toNat then
        digitGap num den
      else digitGap num den - 1 :=
  rfl

theorem pow_digitGap_le (hnum : 0 < num) (hden : 0 < den) :
    (10 : ℚ) ^ (digitGap num den - 1) ≤ num / den := by
  rw [le_div_iff₀ (by exact_mod_cast hden)]
  calc
    (10 : ℚ) ^ (digitGap num den - 1) * den
      ≤ 10 ^ (digitGap num den - 1) * 10 ^ ((Nat.toDigits 10 den).length : ℤ) := by
        gcongr
        exact (lt_pow_length_toDigits den).le
    _ = 10 ^ ((Nat.toDigits 10 num).length - 1 : ℤ) := by
        rw [← zpow_add₀ (by norm_num), digitGap]
        congr 1
        omega
    _ ≤ num := pow_length_toDigits_le hnum

theorem lt_pow_digitGap (hden : 0 < den) : (num / den : ℚ) < 10 ^ (digitGap num den + 1) := by
  rw [div_lt_iff₀ (by exact_mod_cast hden)]
  calc
    (num : ℚ) < 10 ^ ((Nat.toDigits 10 num).length : ℤ) := lt_pow_length_toDigits num
    _ = 10 ^ (digitGap num den + 1) * 10 ^ ((Nat.toDigits 10 den).length - 1 : ℤ) := by
        rw [← zpow_add₀ (by norm_num), digitGap]
        congr 1
        omega
    _ ≤ 10 ^ (digitGap num den + 1) * den := by
        gcongr
        exact pow_length_toDigits_le hden

theorem leadingPower_bounds (hnum : 0 < num) (hden : 0 < den) :
    (10 : ℚ) ^ leadingPower num den ≤ num / den ∧
      (num / den : ℚ) < 10 ^ (leadingPower num den + 1) := by
  have htest : den * 10 ^ (digitGap num den).toNat ≤ num * 10 ^ (-digitGap num den).toNat ↔
      (10 : ℚ) ^ digitGap num den ≤ num / den := by
    rw [zpow_eq_div, div_le_div_iff₀ (by positivity) (by exact_mod_cast hden),
      mul_comm ((10 : ℚ) ^ (digitGap num den).toNat)]
    norm_cast
  rw [leadingPower_eq]
  split
  · rename_i hle
    exact ⟨htest.mp hle, lt_pow_digitGap hden⟩
  · rename_i hnot
    rw [htest, not_le] at hnot
    exact ⟨pow_digitGap_le hnum hden, by rwa [sub_add_cancel]⟩

end LeadingPower

section Rounding

variable {num den : Nat}

theorem roundHalfEven_cases (num den : Nat) :
    (roundHalfEven num den = num / den ∧ 2 * (num % den) ≤ den) ∨
      (roundHalfEven num den = num / den + 1 ∧ den ≤ 2 * (num % den)) := by
  unfold roundHalfEven
  dsimp only
  split
  · exact Or.inl ⟨rfl, by omega⟩
  · split
    · exact Or.inr ⟨rfl, by omega⟩
    · -- Halfway, the quotient decides.
      rcases Nat.mod_two_eq_zero_or_one (num / den) with h | h
      · exact Or.inl ⟨by rw [h, add_zero], by omega⟩
      · exact Or.inr ⟨by rw [h], by omega⟩

theorem abs_roundHalfEven_sub_le (num : Nat) (hden : 0 < den) :
    |(roundHalfEven num den : ℚ) - num / den| ≤ 1 / 2 := by
  have hden' : (0 : ℚ) < den := by exact_mod_cast hden
  have hquotient : (num / den : ℚ) = (num / den : Nat) + (num % den : Nat) / den := by
    have hdiv : (num : ℚ) = den * (num / den : Nat) + (num % den : Nat) := by
      exact_mod_cast (Nat.div_add_mod num den).symm
    rw [hdiv]
    field_simp
  rw [hquotient, abs_le]
  rcases roundHalfEven_cases num den with ⟨h, hle⟩ | ⟨h, hle⟩
  · have hrest : ((num % den : Nat) : ℚ) / den ≤ 1 / 2 := by
      rw [div_le_div_iff₀ hden' two_pos]
      exact_mod_cast (by omega : num % den * 2 ≤ 1 * den)
    have hnonneg : (0 : ℚ) ≤ ((num % den : Nat) : ℚ) / den := by positivity
    rw [h]
    constructor <;> linarith
  · have hrest : (1 / 2 : ℚ) ≤ ((num % den : Nat) : ℚ) / den := by
      rw [div_le_div_iff₀ two_pos hden']
      exact_mod_cast (by omega : 1 * den ≤ num % den * 2)
    have hlt : ((num % den : Nat) : ℚ) / den < 1 := by
      rw [div_lt_one hden']
      exact_mod_cast Nat.mod_lt num hden
    rw [h, Nat.cast_succ]
    constructor <;> linarith

end Rounding

section Candidates

variable {mantissa count : Nat} {exponent scale : Int} {d : Scaled}

/-- A number over a power of ten, as a quotient of integers. -/
def overPower (mantissa : Nat) (exponent scale : Int) : Nat × Nat :=
  (mantissa * 2 ^ exponent.toNat * 10 ^ (-scale).toNat,
    2 ^ (-exponent).toNat * 10 ^ scale.toNat)

/-- The power of ten of the leading digit of a number. -/
def leadingPlace (mantissa : Nat) (exponent : Int) : Int :=
  leadingPower (mantissa * 2 ^ exponent.toNat) (2 ^ (-exponent).toNat)

theorem overPower_ratio (mantissa : Nat) (exponent scale : Int) :
    ((overPower mantissa exponent scale).1 : ℚ) / (overPower mantissa exponent scale).2 =
      mantissa * 2 ^ exponent / 10 ^ scale := by
  rw [zpow_eq_div exponent, zpow_eq_div scale, overPower]
  push_cast
  field_simp

theorem leadingPlace_bounds (hm : 0 < mantissa) (exponent : Int) :
    (10 : ℚ) ^ leadingPlace mantissa exponent ≤ mantissa * 2 ^ exponent ∧
      (mantissa * 2 ^ exponent : ℚ) < 10 ^ (leadingPlace mantissa exponent + 1) := by
  have hratio : ((mantissa * 2 ^ exponent.toNat : Nat) : ℚ) / (2 ^ (-exponent).toNat : Nat) =
      mantissa * 2 ^ exponent := by
    rw [zpow_eq_div exponent]
    push_cast
    rw [mul_div_assoc]
  rw [← hratio]
  exact leadingPower_bounds (by positivity) (by positivity)

/-- The decimal on a scale that is nearest to a number. -/
def nearest (mantissa : Nat) (exponent scale : Int) : Scaled :=
  ⟨roundHalfEven (overPower mantissa exponent scale).1 (overPower mantissa exponent scale).2,
    scale⟩

theorem withDigits?_eq (mantissa : Nat) (exponent : Int) (count : Nat) :
    let scale := leadingPlace mantissa exponent - count + 1
    let quotient := (overPower mantissa exponent scale).1 / (overPower mantissa exponent scale).2
    ∃ farther : Scaled, (farther = ⟨quotient, scale⟩ ∨ farther = ⟨quotient + 1, scale⟩) ∧
      withDigits? mantissa exponent count =
        if (nearest mantissa exponent scale).readsBack mantissa exponent then
          some (nearest mantissa exponent scale)
        else if farther.readsBack mantissa exponent then some farther
        else none := by
  intro scale quotient
  have hunfold : withDigits? mantissa exponent count =
      let rounded := roundHalfEven (overPower mantissa exponent scale).1
        (overPower mantissa exponent scale).2
      let nearer : Scaled := if rounded = quotient then ⟨quotient, scale⟩ else ⟨quotient + 1, scale⟩
      let farther : Scaled :=
        if rounded = quotient then ⟨quotient + 1, scale⟩ else ⟨quotient, scale⟩
      if nearer.readsBack mantissa exponent then some nearer
      else if farther.readsBack mantissa exponent then some farther
      else none := rfl
  rcases roundHalfEven_cases (overPower mantissa exponent scale).1
      (overPower mantissa exponent scale).2 with ⟨h, -⟩ | ⟨h, -⟩
  · change _ = quotient at h
    have hnearest : nearest mantissa exponent scale = ⟨quotient, scale⟩ := by rw [nearest, h]
    refine ⟨⟨quotient + 1, scale⟩, Or.inr rfl, ?_⟩
    rw [hunfold, hnearest]
    simp [h]
  · change _ = quotient + 1 at h
    have hnearest : nearest mantissa exponent scale = ⟨quotient + 1, scale⟩ := by rw [nearest, h]
    refine ⟨⟨quotient, scale⟩, Or.inl rfl, ?_⟩
    rw [hunfold, hnearest]
    simp [h]

theorem overPower_div_eq_floor (mantissa : Nat) (exponent scale : Int) :
    (overPower mantissa exponent scale).1 / (overPower mantissa exponent scale).2 =
      ⌊(mantissa * 2 ^ exponent / 10 ^ scale : ℚ)⌋₊ := by
  rw [← overPower_ratio, Nat.floor_div_eq_div]

theorem withDigits?_eq_some (h : withDigits? mantissa exponent count = some d) :
    d.readsBack mantissa exponent = true ∧ d.scale = leadingPlace mantissa exponent - count + 1 ∧
      (d.digits = ⌊(mantissa * 2 ^ exponent / 10 ^ d.scale : ℚ)⌋₊ ∨
        d.digits = ⌊(mantissa * 2 ^ exponent / 10 ^ d.scale : ℚ)⌋₊ + 1) := by
  obtain ⟨farther, hfarther, heq⟩ := withDigits?_eq mantissa exponent count
  rw [overPower_div_eq_floor] at hfarther
  rw [h] at heq
  split at heq
  · rename_i hreads
    cases heq
    refine ⟨hreads, rfl, ?_⟩
    rw [← overPower_div_eq_floor]
    exact (roundHalfEven_cases _ _).imp And.left And.left
  · split at heq
    · rename_i hreads
      cases heq
      refine ⟨hreads, ?_⟩
      rcases hfarther with rfl | rfl
      · exact ⟨rfl, Or.inl rfl⟩
      · exact ⟨rfl, Or.inr rfl⟩
    · cases heq

theorem exists_withDigits (h : (nearest mantissa exponent
      (leadingPlace mantissa exponent - count + 1)).readsBack mantissa exponent = true) :
    ∃ d, withDigits? mantissa exponent count = some d := by
  obtain ⟨farther, -, heq⟩ := withDigits?_eq mantissa exponent count
  exact ⟨_, heq.trans (if_pos h)⟩

theorem pow_leadingPlace_le (hm : 0 < mantissa) (hcount : 0 < count)
    (h : withDigits? mantissa exponent count = some d) :
    (10 : ℚ) ^ leadingPlace mantissa exponent ≤ d.value := by
  obtain ⟨-, hscale, hdigits⟩ := withDigits?_eq_some h
  have hpower : (0 : ℚ) < 10 ^ d.scale := by positivity
  have hleast : (10 : ℚ) ^ (count - 1) * 10 ^ d.scale = 10 ^ leadingPlace mantissa exponent := by
    rw [← zpow_natCast, ← zpow_add₀ (by norm_num), hscale]
    congr 1
    omega
  -- The quotient has `count` digits before the point.
  have hfloor : 10 ^ (count - 1) ≤ ⌊(mantissa * 2 ^ exponent / 10 ^ d.scale : ℚ)⌋₊ := by
    apply Nat.le_floor
    rw [le_div_iff₀ hpower]
    push_cast
    rw [hleast]
    exact (leadingPlace_bounds hm exponent).1
  have hdigits' : 10 ^ (count - 1) ≤ d.digits := by omega
  rw [← hleast, Scaled.value]
  gcongr
  exact_mod_cast hdigits'

theorem abs_nearest_sub_le (mantissa : Nat) (exponent scale : Int) :
    |(nearest mantissa exponent scale).value - mantissa * 2 ^ exponent| ≤ 10 ^ scale / 2 := by
  have hpower : (0 : ℚ) < 10 ^ scale := by positivity
  have hbottom : 0 < (overPower mantissa exponent scale).2 := by
    unfold overPower
    positivity
  have hround := abs_roundHalfEven_sub_le (overPower mantissa exponent scale).1 hbottom
  rw [overPower_ratio] at hround
  have hvalue : (nearest mantissa exponent scale).value - mantissa * 2 ^ exponent =
      ((nearest mantissa exponent scale).digits - mantissa * 2 ^ exponent / 10 ^ scale) *
        10 ^ scale := by
    rw [Scaled.value, sub_mul, div_mul_cancel₀ _ hpower.ne']
    rfl
  rw [hvalue, abs_mul, abs_of_pos hpower]
  calc
    _ ≤ 1 / 2 * (10 : ℚ) ^ scale := by
        gcongr
        exact hround
    _ = 10 ^ scale / 2 := by ring

/-- Seventeen digits read back: their steps are finer than those between numbers. -/
theorem exists_seventeen (h : Normal mantissa exponent) (hm : 0 < mantissa) :
    ∃ d, withDigits? mantissa exponent 17 = some d := by
  apply exists_withDigits
  have hstep : (10 : ℚ) ^ (leadingPlace mantissa exponent - (17 : Nat) + 1) =
      10 ^ leadingPlace mantissa exponent / 10 ^ 16 := by
    rw [← zpow_natCast, ← zpow_sub₀ (by norm_num)]
    congr 1
    push_cast
    ring
  obtain ⟨hbelow, habove⟩ := abs_le.mp (abs_nearest_sub_le mantissa exponent
    (leadingPlace mantissa exponent - (17 : Nat) + 1))
  have hplace := (leadingPlace_bounds hm exponent).1
  rw [hstep] at hbelow habove
  have hquarter : (2 : ℚ) ^ (exponent - 2) = 2 ^ exponent / 4 := by
    rw [zpow_sub₀ two_ne_zero]
    norm_num
  have hunit : (0 : ℚ) < 2 ^ exponent := by positivity
  have hbits : (mantissa : ℚ) * 2 ^ exponent < 2 ^ 53 * 2 ^ exponent := by
    gcongr
    exact_mod_cast h.1
  apply readsBack_of_between
  · rw [hquarter]
    unfold lowerEnd
    split
    · rename_i hpower
      have hmantissa : (mantissa : ℚ) = 2 ^ 52 := by exact_mod_cast hpower.1
      rw [Nat.cast_sub (by omega)]
      push_cast
      rw [hmantissa] at hplace hbelow ⊢
      linarith
    · rw [Nat.cast_sub (by omega)]
      push_cast
      linarith
  · rw [hquarter]
    push_cast
    linarith

end Candidates

section Shortest

variable {mantissa : Nat} {exponent : Int}

theorem exists_shortest (h : Normal mantissa exponent) (hm : 0 < mantissa) :
    ∃ count, 0 < count ∧
      withDigits? mantissa exponent count = some (shortest mantissa exponent) := by
  obtain ⟨d, hd⟩ := exists_seventeen h hm
  cases hfind : (List.range' 1 17).findSome? (withDigits? mantissa exponent) with
  | none =>
      rw [List.findSome?_eq_none_iff] at hfind
      rw [hfind 17 (by decide)] at hd
      cases hd
  | some d' =>
      obtain ⟨count, hcount, hd'⟩ := List.exists_of_findSome?_eq_some hfind
      refine ⟨count, by rw [List.mem_range'_1] at hcount; omega, ?_⟩
      rw [hd', shortest, hfind, Option.getD_some]

theorem pow_le_shortest (h : Normal mantissa exponent) (hm : 0 < mantissa) {k : Int}
    (hk : (10 : ℚ) ^ k ≤ mantissa * 2 ^ exponent) :
    (10 : ℚ) ^ k ≤ (shortest mantissa exponent).value := by
  obtain ⟨count, hcount, hd⟩ := exists_shortest h hm
  have hplace : (10 : ℚ) ^ k < 10 ^ (leadingPlace mantissa exponent + 1) :=
    hk.trans_lt (leadingPlace_bounds hm exponent).2
  rw [zpow_lt_zpow_iff_right₀ (by norm_num), Int.lt_add_one_iff] at hplace
  calc
    (10 : ℚ) ^ k ≤ 10 ^ leadingPlace mantissa exponent := zpow_le_zpow_right₀ (by norm_num) hplace
    _ ≤ (shortest mantissa exponent).value := pow_leadingPlace_le hm hcount hd

theorem digits_shortest_pos (h : Normal mantissa exponent) (hm : 0 < mantissa) :
    0 < (shortest mantissa exponent).digits := by
  have hplace := pow_le_shortest h hm (leadingPlace_bounds hm exponent).1
  have hpos : 0 < (shortest mantissa exponent).value := lt_of_lt_of_le (by positivity) hplace
  rw [Nat.pos_iff_ne_zero]
  intro hzero
  rw [Scaled.value, hzero, Nat.cast_zero, zero_mul] at hpos
  exact lt_irrefl _ hpos

theorem shortest_le_half (h : Normal mantissa exponent) (hm : 0 < mantissa) :
    (shortest mantissa exponent).value ≤ (mantissa + 1 / 2) * 2 ^ exponent := by
  obtain ⟨count, -, hd⟩ := exists_shortest h hm
  exact value_le_of_readsBack (withDigits?_eq_some hd).1

/-- The number nearest to a ten-thousandth is above it, so that what is below stays below by more
than half a step. -/
theorem half_lt_tenThousandth (h : Normal mantissa exponent)
    (hlt : (mantissa * 2 ^ exponent : ℚ) < 10 ^ (-4 : ℤ)) :
    ((mantissa + 1 / 2) * 2 ^ exponent : ℚ) < 10 ^ (-4 : ℤ) := by
  obtain ⟨hbits, hleast, -, hnormal⟩ := h
  have hbits' : (mantissa : ℚ) + 1 ≤ 2 ^ 53 := by exact_mod_cast hbits
  rcases lt_trichotomy exponent (-66) with hsmall | rfl | hlarge
  · calc
      ((mantissa + 1 / 2) * 2 ^ exponent : ℚ) ≤ 2 ^ 53 * 2 ^ (-67 : ℤ) := by
        gcongr
        · linarith
        · norm_num
        · omega
      _ < 10 ^ (-4 : ℤ) := by norm_num
  · have hmantissa : mantissa ≤ 7378697629483820 := by
      by_contra hnot
      have hge : (7378697629483821 : ℚ) ≤ mantissa := by exact_mod_cast (by omega)
      norm_num at hlt
      linarith
    have hmantissa' : (mantissa : ℚ) ≤ 7378697629483820 := by exact_mod_cast hmantissa
    norm_num
    linarith
  · -- With a greater exponent the number has all its bits and is above.
    have hfull : 2 ^ 52 ≤ mantissa := by
      rcases hnormal with hfull | hleast'
      · exact hfull
      · omega
    have habove : (10 : ℚ) ^ (-4 : ℤ) < mantissa * 2 ^ exponent := by
      calc
        (10 : ℚ) ^ (-4 : ℤ) < 2 ^ 52 * 2 ^ (-65 : ℤ) := by norm_num
        _ ≤ mantissa * 2 ^ exponent := by
          gcongr
          · exact_mod_cast hfull
          · norm_num
          · omega
    exact absurd habove hlt.not_gt

/-- The shortest decimal is at least a ten-thousandth exactly when the number is. -/
theorem tenThousandth_le_shortest_iff (h : Normal mantissa exponent) (hm : 0 < mantissa) :
    (10 : ℚ) ^ (-4 : ℤ) ≤ (shortest mantissa exponent).value ↔
      (10 : ℚ) ^ (-4 : ℤ) ≤ mantissa * 2 ^ exponent := by
  constructor
  · intro hle
    by_contra hnot
    have hhalf := half_lt_tenThousandth h (not_le.mp hnot)
    exact absurd (hle.trans (shortest_le_half h hm)) hhalf.not_ge
  · exact pow_le_shortest h hm

end Shortest

end StructuralTypes.Binary64
