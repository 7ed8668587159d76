import StructuralTypes.Proofs.DomainInclusion
import StructuralTypes.Proofs.ShortestDecimal

namespace StructuralTypes

namespace Key

section Pattern

variable {text fraction : List Char}

theorem isFraction_iff :
    isFraction fraction = true ↔
      fraction = [] ∨ ∃ c digits, fraction = '.' :: c :: digits ∧
        ∀ d ∈ c :: digits, d.isDigit = true := by
  constructor
  · intro h
    unfold isFraction at h
    split at h
    · exact Or.inl rfl
    · exact Or.inr ⟨_, _, rfl, by simpa using h⟩
    · cases h
  · rintro (rfl | ⟨c, digits, rfl, hdigits⟩)
    · rfl
    · simpa [isFraction] using hdigits

theorem chars_of_isNumeral (h : isNumeral text = true) :
    ∀ c ∈ text, c.isDigit = true ∨ c = '.' ∨ c = '-' := by
  have hfraction : ∀ {fraction}, isFraction fraction = true →
      ∀ c ∈ fraction, c.isDigit = true ∨ c = '.' ∨ c = '-' := by
    intro fraction h c hc
    rcases isFraction_iff.mp h with rfl | ⟨d, digits, rfl, hdigits⟩
    · cases hc
    · rcases List.mem_cons.mp hc with rfl | hc
      · exact Or.inr (Or.inl rfl)
      · exact Or.inl (hdigits c hc)
  have hunsigned : ∀ {text}, isUnsigned text = true →
      ∀ c ∈ text, c.isDigit = true ∨ c = '.' ∨ c = '-' := by
    intro text h c hc
    unfold isUnsigned at h
    split at h
    · cases h
    · rcases List.mem_cons.mp hc with rfl | hc
      · exact Or.inl (by decide)
      · exact hfraction h c hc
    · rename_i d rest _
      rw [Bool.and_eq_true] at h
      rcases List.mem_cons.mp hc with rfl | hc
      · exact Or.inl h.1
      · rw [← List.takeWhile_append_dropWhile (p := Char.isDigit) (l := rest)] at hc
        rcases List.mem_append.mp hc with hc | hc
        · exact Or.inl (List.mem_takeWhile_imp hc)
        · exact hfraction h.2 c hc
  intro c hc
  unfold isNumeral at h
  split at h
  · rcases List.mem_cons.mp hc with rfl | hc
    · exact Or.inr (Or.inr rfl)
    · exact hunsigned h c hc
  · exact hunsigned h c hc

theorem newline_notMem (h : isNumeral text = true) : '\n' ∉ text := by
  intro hnewline
  have hchar := chars_of_isNumeral h '\n' hnewline
  revert hchar
  decide

theorem isNumeric_of_isNumeral (h : isNumeral text = true) :
    isNumeric (String.ofList text) = true := by
  rw [isNumeric_ofList (newline_notMem h), h]

theorem isNumeral_of_isUnsigned (h : isUnsigned text = true) : isNumeral text = true := by
  unfold isNumeral
  split
  · cases h
  · exact h

theorem not_isNumeric_of_mem {c : Char} (hc : c ∈ text) (hdigit : c.isDigit = false)
    (hother : c ≠ '.' ∧ c ≠ '-' ∧ c ≠ '\n') : isNumeric (String.ofList text) = false := by
  rw [← Bool.not_eq_true]
  intro h
  have hkept : c ∈ withoutNewline text := by
    unfold withoutNewline
    split
    · rename_i hlast
      rw [← List.dropLast_append_getLast? _ hlast, List.mem_append, List.mem_singleton] at hc
      exact hc.resolve_right hother.2.2
    · exact hc
  rw [isNumeric, String.toList_ofList] at h
  rcases chars_of_isNumeral h c hkept with hd | hpoint | hsign
  · rw [hdigit] at hd
    cases hd
  · exact hother.1 hpoint
  · exact hother.2.1 hsign

end Pattern

/-- One or more digits, the first of them not zero. -/
structure Significant (digits : List Char) : Prop where
  isDigit : ∀ c ∈ digits, c.isDigit = true
  head : ∃ c rest, digits = c :: rest ∧ c ≠ '0'

section Significant

variable {digits zeros fraction : List Char}

theorem significant_toDigits {n : Nat} (hn : 0 < n) : Significant (Nat.toDigits 10 n) := by
  refine ⟨fun c hc => Nat.isDigit_of_mem_toDigits (by decide) (by decide) hc, ?_⟩
  have hsingle : ∀ k < 10, 0 < k → k.digitChar ≠ '0' := by decide
  induction n using Nat.strongRecOn with
  | _ n ih =>
      by_cases hsmall : n < 10
      · exact ⟨n.digitChar, [], Nat.toDigits_of_lt_base hsmall, hsingle n hsmall hn⟩
      · obtain ⟨c, rest, heq, hc⟩ := ih (n / 10) (by omega) (by omega)
        refine ⟨c, rest ++ [(n % 10).digitChar], ?_, hc⟩
        rw [Nat.toDigits_of_base_le (by decide) (by omega), heq, List.cons_append]

theorem Significant.withoutZeros (h : Significant digits) :
    Significant (digits.reverse.dropWhile (· == '0')).reverse := by
  refine ⟨fun c hc => ?_, ?_⟩
  · have hmem := (List.dropWhile_sublist _).subset (List.mem_reverse.mp hc)
    exact h.isDigit c (List.mem_reverse.mp hmem)
  · obtain ⟨c, rest, rfl, hc⟩ := h.head
    refine ⟨c, (rest.reverse.dropWhile (· == '0')).reverse, ?_, hc⟩
    rw [List.reverse_cons, List.dropWhile_append]
    split
    · rename_i hempty
      rw [List.isEmpty_iff.mp hempty]
      simp [hc]
    · simp

theorem Significant.append (h : Significant digits) (hzeros : ∀ c ∈ zeros, c.isDigit = true) :
    Significant (digits ++ zeros) := by
  refine ⟨fun c hc => (List.mem_append.mp hc).elim (h.isDigit c) (hzeros c), ?_⟩
  obtain ⟨c, rest, rfl, hc⟩ := h.head
  exact ⟨c, rest ++ zeros, rfl, hc⟩

theorem Significant.take (h : Significant digits) (k : Nat) :
    Significant (digits.take (k + 1)) := by
  refine ⟨fun c hc => h.isDigit c (List.mem_of_mem_take hc), ?_⟩
  obtain ⟨c, rest, rfl, hc⟩ := h.head
  exact ⟨c, rest.take k, rfl, hc⟩

theorem isUnsigned_cons {c : Char} (hc : c ≠ '0') (rest : List Char) :
    isUnsigned (c :: rest) = (c.isDigit && isFraction (rest.dropWhile Char.isDigit)) := by
  rw [isUnsigned]
  exact hc

theorem Significant.isUnsigned_append (h : Significant digits)
    (hfraction : isFraction fraction = true) : isUnsigned (digits ++ fraction) = true := by
  obtain ⟨c, rest, rfl, hc⟩ := h.head
  have hdigits := List.forall_mem_cons.mp h.isDigit
  have hdrop : (rest ++ fraction).dropWhile Char.isDigit = fraction := by
    rw [List.dropWhile_append_of_pos hdigits.2]
    rcases isFraction_iff.mp hfraction with rfl | ⟨d, digits, rfl, -⟩
    · rfl
    · rfl
  rw [List.cons_append, isUnsigned_cons hc, hdrop, hdigits.1, hfraction]
  rfl

end Significant

section Written

variable {digits : List Char}

theorem isNumeric_of_isUnsigned (h : isUnsigned digits = true) (negative : Bool) :
    isNumeric (String.ofList (if negative then '-' :: digits else digits)) = true := by
  apply isNumeric_of_isNumeral
  cases negative with
  | true => exact h
  | false => exact isNumeral_of_isUnsigned h

theorem isNumeric_integerText (n : Int) : isNumeric (Number.integerText n) = true := by
  have htext : Number.integerText n = String.ofList
      (if decide (n < 0) then '-' :: Nat.toDigits 10 n.natAbs else Nat.toDigits 10 n.natAbs) := by
    unfold Number.integerText
    rw [Nat.repr_eq_ofList_toDigits]
    by_cases hneg : n < 0
    · rw [if_pos hneg, if_pos (decide_eq_true hneg), ← List.singleton_append, String.ofList_append]
    · rw [if_neg hneg, if_neg (by simpa using hneg)]
  rw [htext]
  apply isNumeric_of_isUnsigned
  rcases Nat.eq_zero_or_pos n.natAbs with hzero | hpos
  · rw [hzero]
    decide
  · rw [← List.append_nil (Nat.toDigits 10 n.natAbs)]
    exact (significant_toDigits hpos).isUnsigned_append rfl

theorem isUnsigned_positional (h : Significant digits) (power : Int) :
    isUnsigned (Binary64.positional digits power) = true := by
  have hzeros : ∀ k, ∀ c ∈ List.replicate k '0', c.isDigit = true := by
    intro k c hc
    rw [List.eq_of_mem_replicate hc]
    decide
  have hpoint : ∀ {fraction : List Char}, fraction ≠ [] → (∀ c ∈ fraction, c.isDigit = true) →
      isFraction ('.' :: fraction) = true := by
    intro fraction hne hdigits
    obtain ⟨c, rest, rfl⟩ := List.exists_cons_of_ne_nil hne
    exact isFraction_iff.mpr (Or.inr ⟨c, rest, rfl, hdigits⟩)
  unfold Binary64.positional
  split
  · -- All digits stand behind the point.
    obtain ⟨c, rest, hcons, -⟩ := h.head
    refine hpoint (by simp [hcons]) fun c hc => ?_
    exact (List.mem_append.mp hc).elim (hzeros _ c) (h.isDigit c)
  · apply ((h.take power.toNat).append (hzeros _)).isUnsigned_append
    split
    · decide
    · rename_i hne
      refine hpoint (by simpa using hne) fun c hc => ?_
      exact h.isDigit c (List.mem_of_mem_drop hc)

end Written

end Key

namespace Binary64

section Text

variable {d : Scaled}

/-- The power of ten of the leading digit of a decimal. -/
def Scaled.power (d : Scaled) : Int :=
  d.scale + (Nat.toDigits 10 d.digits).length - 1

theorem Scaled.le_power_iff (hd : 0 < d.digits) {k : Int} :
    k ≤ d.power ↔ (10 : ℚ) ^ k ≤ d.value := by
  have hleast : (10 : ℚ) ^ d.power ≤ d.value := by
    calc
      (10 : ℚ) ^ d.power
        = 10 ^ ((Nat.toDigits 10 d.digits).length - 1 : ℤ) * 10 ^ d.scale := by
          rw [← zpow_add₀ (by norm_num), Scaled.power]
          congr 1
          omega
      _ ≤ d.value := by
          unfold Scaled.value
          gcongr
          exact pow_length_toDigits_le hd
  have hbelow : d.value < (10 : ℚ) ^ (d.power + 1) := by
    calc
      d.value < 10 ^ ((Nat.toDigits 10 d.digits).length : ℤ) * 10 ^ d.scale := by
          unfold Scaled.value
          gcongr
          exact lt_pow_length_toDigits d.digits
      _ = 10 ^ (d.power + 1) := by
          rw [← zpow_add₀ (by norm_num), Scaled.power]
          congr 1
          omega
  constructor
  · intro hk
    exact (zpow_le_zpow_right₀ (by norm_num) hk).trans hleast
  · intro hk
    have hlt := hk.trans_lt hbelow
    rwa [zpow_lt_zpow_iff_right₀ (by norm_num), Int.lt_add_one_iff] at hlt

theorem Scaled.text_eq (d : Scaled) :
    d.text =
      let digits := ((Nat.toDigits 10 d.digits).reverse.dropWhile (· == '0')).reverse
      if -4 ≤ d.power ∧ d.power < 16 then positional digits d.power
      else withPower digits d.power :=
  rfl

theorem mem_withPower (digits : List Char) (power : Int) : 'e' ∈ withPower digits power := by
  simp [withPower]

/-- A decimal spells a number for keys when it is written positionally. -/
theorem Scaled.isNumeric_text_iff (hd : 0 < d.digits) (negative : Bool) :
    Key.isNumeric (String.ofList (if negative then '-' :: d.text else d.text)) = true ↔
      (10 : ℚ) ^ (-4 : ℤ) ≤ d.value ∧ d.value < 10 ^ (16 : ℤ) := by
  rw [← not_le, ← le_power_iff hd, ← le_power_iff hd, not_le]
  by_cases hpositional : -4 ≤ d.power ∧ d.power < 16
  · have hdigits := (Key.significant_toDigits hd).withoutZeros
    refine iff_of_true (Key.isNumeric_of_isUnsigned ?_ negative) hpositional
    rw [text_eq, if_pos hpositional]
    exact Key.isUnsigned_positional hdigits d.power
  · have hmem : 'e' ∈ d.text := by
      rw [text_eq, if_neg hpositional]
      exact mem_withPower _ _
    refine iff_of_false ?_ hpositional
    rw [Bool.not_eq_true]
    apply Key.not_isNumeric_of_mem (c := 'e') _ (by decide) (by decide)
    split
    · exact List.mem_cons_of_mem _ hmem
    · exact hmem

theorem isNumeric_text_iff {x : Binary64} {q : ℚ}
    (hvalue : x.value = ((q : WithTop ℚ) : WithBot (WithTop ℚ))) (hinteger : x.integer? = none) :
    Key.isNumeric x.text = true ↔ 1 / 10000 ≤ |q| := by
  cases x with
  | infinite negative => cases negative <;> simp [value] at hvalue
  | finite negative mantissa exponent normal =>
      have hq : |q| = mantissa * 2 ^ exponent := by
        rw [value, WithBot.coe_inj, WithTop.coe_inj] at hvalue
        rw [← hvalue, abs_scaled]
      have hodd : mantissa % 2 ^ (-exponent).toNat ≠ 0 := by
        intro hzero
        simp [integer?, hzero] at hinteger
      have hm : 0 < mantissa := Nat.pos_of_ne_zero fun hzero => hodd (by rw [hzero, Nat.zero_mod])
      have hexponent : exponent ≤ -1 := by
        by_contra hnot
        rw [Int.toNat_of_nonpos (by omega), pow_zero, Nat.mod_one] at hodd
        exact hodd rfl
      have hsmall : (shortest mantissa exponent).value < 10 ^ (16 : ℤ) := by
        have hbits : (mantissa : ℚ) + 1 ≤ 2 ^ 53 := by exact_mod_cast normal.1
        calc
          (shortest mantissa exponent).value ≤ (mantissa + 1 / 2) * 2 ^ exponent :=
            shortest_le_half normal hm
          _ ≤ 2 ^ 53 * 2 ^ (-1 : ℤ) := by
            gcongr
            · linarith
            · norm_num
          _ < 10 ^ (16 : ℤ) := by norm_num
      have htext : (finite negative mantissa exponent normal).text = String.ofList
          (if negative then '-' :: (shortest mantissa exponent).text
            else (shortest mantissa exponent).text) := by
        simp only [text, if_neg hm.ne']
      have hleast : (10 : ℚ) ^ (-4 : ℤ) = 1 / 10000 := by norm_num
      rw [htext, Scaled.isNumeric_text_iff (digits_shortest_pos normal hm), and_iff_left hsmall,
        tenThousandth_le_shortest_iff normal hm, hq, hleast]

end Text

end Binary64

namespace Literal

variable {x : Number} {q : ℚ}

theorem isNumeric_keyText_iff (hvalue : x.value = ((q : WithTop ℚ) : WithBot (WithTop ℚ))) :
    Key.isNumeric (Literal.number x).keyText = true ↔ q = 0 ∨ 1 / 10000 ≤ |q| := by
  -- An integer is written as one, and is zero or far from it.
  have hinteger : ∀ n : Int, x.value = (((n : ℚ) : WithTop ℚ) : WithBot (WithTop ℚ)) →
      (Key.isNumeric (Number.integerText n) = true ↔ q = 0 ∨ 1 / 10000 ≤ |q|) := by
    intro n hn
    refine iff_of_true (Key.isNumeric_integerText n) ?_
    rw [hvalue, WithBot.coe_inj, WithTop.coe_inj] at hn
    rw [hn]
    rcases eq_or_ne n 0 with rfl | hne
    · exact Or.inl Int.cast_zero
    · right
      have hone : (1 : ℚ) ≤ |(n : ℚ)| := by exact_mod_cast Int.one_le_abs hne
      linarith
  cases x with
  | int n => exact hinteger n rfl
  | float y =>
      cases hy : y.integer? with
      | some n =>
          rw [show (Literal.number (.float y)).keyText = Number.integerText n by simp [keyText, hy]]
          exact hinteger n (Binary64.integer?_eq_some_iff.mp hy)
      | none =>
          rw [show (Literal.number (.float y)).keyText = y.text by simp [keyText, hy],
            Binary64.isNumeric_text_iff hvalue hy]
          -- Zero is an integer.
          have hne : q ≠ 0 := by
            rintro rfl
            rw [← Int.cast_zero] at hvalue
            rw [Binary64.integer?_eq_some_iff.mpr hvalue] at hy
            cases hy
          rw [or_iff_right hne]

end Literal

namespace Ty

/-- The domain of all numbers has the name of a finite number literal, and covers the literal,
exactly when the number is zero or at least a ten-thousandth away from it. -/
theorem number_domain_of_literal {x : Number} {q : ℚ}
    (hvalue : x.value = ((q : WithTop ℚ) : WithBot (WithTop ℚ)))
    (hrange : ∀ n, x = .int n → n.natAbs < Binary64.integerLimit) :
    ∃ name b, (Literal.number x).key = .ok name ∧
      Ty.number.covers (.literal (.number x)) = .ok b ∧ Ty.number.inDomain name = .ok b ∧
        (b = true ↔ q = 0 ∨ 1 / 10000 ≤ |q|) := by
  have hfault : (Literal.number x).keyFault? = none := by
    unfold Literal.keyFault?
    split
    · rename_i n heq
      exact if_pos (hrange n (Literal.number.inj heq))
    · rfl
  have hkey : (Literal.number x).key = .ok (Literal.number x).keyText := by
    rw [Literal.key, hfault]
  refine ⟨_, _, hkey, ?_, ?_, Literal.isNumeric_keyText_iff hvalue⟩
  · simp [number, covers, coversOne, numbersCover, hkey, Except.map]
  · simp [number, inDomain]

theorem number_domain_tenMillionth :
    let tenMillionth : Literal := .number (.float (.ofRatio false 1 10000000))
    tenMillionth.key = .ok "1e-07" ∧ Ty.number.covers (.literal tenMillionth) = .ok false ∧
      Ty.number.inDomain "1e-07" = .ok false := by
  exact ⟨rfl, rfl, rfl⟩

theorem number_domain_of_literal_halves :
    Ty.number.covers (.literal (.number (.float (.ofRatio true 1 8192)))) = .ok true ∧
      Ty.number.covers (.literal (.number (.float (.ofRatio true 1 16384)))) = .ok false := by
  have hkept : (Number.float (.ofRatio true 1 8192)).value =
      (((-1 / 8192 : ℚ) : WithTop ℚ) : WithBot (WithTop ℚ)) := by
    rw [show Binary64.ofRatio true 1 8192 = .finite true (2 ^ 52) (-65) (by decide) by
      decide +kernel]
    norm_num [Number.value, Binary64.value, Binary64.scaled, Binary64.signed]
  have hlost : (Number.float (.ofRatio true 1 16384)).value =
      (((-1 / 16384 : ℚ) : WithTop ℚ) : WithBot (WithTop ℚ)) := by
    rw [show Binary64.ofRatio true 1 16384 = .finite true (2 ^ 52) (-66) (by decide) by
      decide +kernel]
    norm_num [Number.value, Binary64.value, Binary64.scaled, Binary64.signed]
  obtain ⟨-, b, -, hcovers, -, hb⟩ := number_domain_of_literal hkept (by simp)
  obtain ⟨-, c, -, hcovers', -, hc⟩ := number_domain_of_literal hlost (by simp)
  have hb' : b = true := hb.mpr (Or.inr (by norm_num [abs_div]))
  have hc' : c = false := by
    rw [← Bool.not_eq_true, hc]
    norm_num [abs_div]
  exact ⟨hb' ▸ hcovers, hc' ▸ hcovers'⟩

end Ty

end StructuralTypes
