import Mathlib
import StructuralTypes.Literal

namespace StructuralTypes

namespace Binary64

def signed (negative : Bool) (mantissa : Nat) : Int :=
  if negative then -mantissa else mantissa

/-- The exact value of a finite number. -/
def scaled (negative : Bool) (mantissa : Nat) (exponent : Int) : ℚ :=
  signed negative mantissa * 2 ^ exponent

/-- The exact value of a number, infinities included. -/
def value : Binary64 → WithBot (WithTop ℚ)
  | .finite negative mantissa exponent _ => ((scaled negative mantissa exponent : ℚ) : WithTop ℚ)
  | .infinite negative => if negative then ⊥ else ((⊤ : WithTop ℚ) : WithBot (WithTop ℚ))

variable {n m : Bool} {a b : Nat} {e f : Int}

theorem signed_eq_iff : signed n a = signed m b ↔ (a = 0 ∧ b = 0) ∨ (n = m ∧ a = b) := by
  cases n <;> cases m <;> simp only [signed, reduceCtorEq, if_true, if_false] <;> grind

theorem signed_mul (n : Bool) (a b : Nat) : signed n (a * b) = signed n a * b := by
  cases n <;> simp [signed]

theorem natAbs_signed (n : Bool) (a : Nat) : (signed n a).natAbs = a := by
  cases n <;> simp [signed]

theorem abs_scaled (n : Bool) (a : Nat) (e : Int) : |scaled n a e| = a * 2 ^ e := by
  have hpow : (0 : ℚ) < 2 ^ e := by positivity
  cases n <;> simp [scaled, signed, abs_mul, abs_of_pos hpow]

/-- Of two normal forms of one value, neither has the smaller exponent. -/
theorem exponent_le_of_eq (ha : Normal a e) (hb : Normal b f)
    (h : (a : ℚ) * 2 ^ e = b * 2 ^ f) : f ≤ e := by
  by_contra hlt
  obtain ⟨k, rfl⟩ : ∃ k : Nat, f = (k + 1 : Nat) + e := ⟨(f - e - 1).toNat, by omega⟩
  have hab : a = b * 2 ^ (k + 1) := by
    rw [zpow_add₀ two_ne_zero, zpow_natCast, ← mul_assoc] at h
    exact_mod_cast mul_right_cancel₀ (zpow_ne_zero e two_ne_zero) h
  have haLt : a < 2 ^ 53 := ha.1
  obtain ⟨-, heLow, -, -⟩ := ha
  obtain ⟨-, -, -, hbNormal⟩ := hb
  -- The greater exponent is not the least one, so its mantissa has all its bits.
  have hbig : 2 ^ 52 ≤ b := by
    rcases hbNormal with h | h
    · exact h
    · omega
  have htwo : 2 ≤ 2 ^ (k + 1) := by
    rw [pow_succ]
    have : 0 < 2 ^ k := by positivity
    omega
  have : 2 ^ 52 * 2 ≤ b * 2 ^ (k + 1) := Nat.mul_le_mul hbig htwo
  omega

theorem scaled_eq_iff (ha : Normal a e) (hb : Normal b f) :
    scaled n a e = scaled m b f ↔ (a = 0 ∧ b = 0) ∨ (n = m ∧ a = b ∧ e = f) := by
  constructor
  · intro h
    have habs : (a : ℚ) * 2 ^ e = b * 2 ^ f := by rw [← abs_scaled n, ← abs_scaled m, h]
    have hef : e = f :=
      le_antisymm (exponent_le_of_eq hb ha habs.symm) (exponent_le_of_eq ha hb habs)
    subst hef
    have hsigned : signed n a = signed m b := by
      exact_mod_cast mul_right_cancel₀ (zpow_ne_zero e two_ne_zero) h
    exact (signed_eq_iff.mp hsigned).imp_right fun ⟨hn, hab⟩ => ⟨hn, hab, rfl⟩
  · rintro (⟨rfl, rfl⟩ | ⟨rfl, rfl, rfl⟩)
    · simp [scaled, signed]
    · rfl

theorem same_iff {x y : Binary64} : x.same y = true ↔ x.value = y.value := by
  cases x with
  | infinite n =>
      cases y with
      | infinite m => cases n <;> cases m <;> simp [same, value]
      | finite m b f hb => cases n <;> simp [same, value]
  | finite n a e ha =>
      cases y with
      | infinite m => cases m <;> simp [same, value]
      | finite m b f hb =>
          simp only [same, value, Bool.or_eq_true, Bool.and_eq_true, beq_iff_eq, WithBot.coe_inj,
            WithTop.coe_inj, scaled_eq_iff ha hb, and_assoc]

theorem scaled_ofNat (n : Bool) (a k : Nat) : scaled n a k = (signed n (a * 2 ^ k) : ℤ) := by
  rw [scaled, signed_mul, zpow_natCast]
  push_cast
  rfl

theorem scaled_neg_eq_iff {k : Nat} {i : Int} :
    scaled n a (-k) = i ↔ a % 2 ^ k = 0 ∧ signed n (a / 2 ^ k) = i := by
  have hpow : (2 : ℚ) ^ k ≠ 0 := pow_ne_zero k two_ne_zero
  have hclear : scaled n a (-k) = i ↔ signed n a = i * (2 ^ k : Nat) := by
    rw [scaled, zpow_neg, zpow_natCast, ← div_eq_mul_inv, div_eq_iff hpow]
    norm_cast
  rw [hclear]
  constructor
  · intro h
    have ha : a = i.natAbs * 2 ^ k := by
      rw [← natAbs_signed n a, h, Int.natAbs_mul, Int.natAbs_natCast]
    have hmod : a % 2 ^ k = 0 := by rw [ha, Nat.mul_mod_left]
    have hsigned : signed n (a / 2 ^ k) * (2 ^ k : Nat) = i * (2 ^ k : Nat) := by
      rw [← signed_mul, Nat.div_mul_cancel (Nat.dvd_of_mod_eq_zero hmod), h]
    exact ⟨hmod, Int.eq_of_mul_eq_mul_right (by positivity) hsigned⟩
  · rintro ⟨hmod, rfl⟩
    rw [← signed_mul, Nat.div_mul_cancel (Nat.dvd_of_mod_eq_zero hmod)]

theorem integer?_eq_some_iff {x : Binary64} {i : Int} :
    x.integer? = some i ↔ x.value = ((i : ℚ) : WithTop ℚ) := by
  cases x with
  | infinite n => cases n <;> simp [integer?, value]
  | finite n a e ha =>
      have hinteger : (finite n a e ha).integer? = some i ↔
          a % 2 ^ (-e).toNat = 0 ∧ signed n (a / 2 ^ (-e).toNat * 2 ^ e.toNat) = i := by
        simp [integer?, signed]
      rw [hinteger, value, WithBot.coe_inj, WithTop.coe_inj]
      obtain ⟨k, rfl | rfl⟩ := e.eq_nat_or_neg
      · rw [scaled_ofNat, Int.cast_inj]
        simp [Nat.mod_one]
      · rw [scaled_neg_eq_iff]
        simp

theorem integer?_eq_of_same {x y : Binary64} (h : x.same y = true) : x.integer? = y.integer? := by
  ext i
  rw [integer?_eq_some_iff, integer?_eq_some_iff, same_iff.mp h]

end Binary64

namespace Number

/-- The exact value of a number. -/
def value : Number → WithBot (WithTop ℚ)
  | .int i => ((i : ℚ) : WithTop ℚ)
  | .float x => x.value

theorem same_iff {a b : Number} : a.same b = true ↔ a.value = b.value := by
  cases a <;> cases b <;> simp only [same, value, beq_iff_eq]
  case int.int i j => rw [WithBot.coe_inj, WithTop.coe_inj, Int.cast_inj]
  case int.float i x => rw [Binary64.integer?_eq_some_iff, eq_comm]
  case float.int x i => exact Binary64.integer?_eq_some_iff
  case float.float x y => exact Binary64.same_iff

theorem same_refl (a : Number) : a.same a = true :=
  same_iff.mpr rfl

theorem same_symm {a b : Number} (h : a.same b = true) : b.same a = true :=
  same_iff.mpr (same_iff.mp h).symm

theorem same_trans {a b c : Number} (hab : a.same b = true) (hbc : b.same c = true) :
    a.same c = true :=
  same_iff.mpr ((same_iff.mp hab).trans (same_iff.mp hbc))

end Number

namespace Literal

theorem same_refl (l : Literal) : l.same l = true := by
  cases l with
  | number n => exact Number.same_refl n
  | _ => simp [same]

theorem same_symm {l m : Literal} (h : l.same m = true) : m.same l = true := by
  cases l <;> cases m
  case number.number a b => exact Number.same_symm h
  all_goals simp_all [same]

theorem same_trans {l m n : Literal} (hlm : l.same m = true) (hmn : m.same n = true) :
    l.same n = true := by
  cases l <;> cases m <;> cases n
  case number.number.number a b c => exact Number.same_trans hlm hmn
  all_goals simp_all [same]

theorem kind_eq_of_same {l m : Literal} (h : l.same m = true) : l.kind = m.kind := by
  cases l <;> cases m <;> simp_all [same, kind]

end Literal

namespace Scalar

theorem same_refl (v : Scalar) : v.same v = true := by
  cases v <;> simp [same, integer?]

theorem same_symm {v w : Scalar} (h : v.same w = true) : w.same v = true := by
  cases v <;> cases w <;> simp_all [same, integer?]

theorem same_trans {u v w : Scalar} (huv : u.same v = true) (hvw : v.same w = true) :
    u.same w = true := by
  cases u <;> cases v <;> cases w <;> simp_all [same, integer?]

end Scalar

end StructuralTypes
