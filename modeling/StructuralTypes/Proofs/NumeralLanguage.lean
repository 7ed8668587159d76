import StructuralTypes.Proofs.IntegerRange
import StructuralTypes.Proofs.NumericNames
import StructuralTypes.Proofs.StructuralEquality

namespace StructuralTypes

open scoped Computability

namespace Key

variable {text whole fraction : List Char}

/-- The texts of one character in a range. -/
def oneOf (first last : Char) : Language Char :=
  fun text => ∃ c, text = [c] ∧ first ≤ c ∧ c ≤ last

/-- The numerals: an optional sign, then zero or a digit other than zero and any digits, then
optionally a point and one or more digits. -/
def numerals : Language Char :=
  (1 + {['-']}) * (({['0']} + oneOf '1' '9' * (oneOf '0' '9')∗) *
    (1 + {['.']} * (oneOf '0' '9' * (oneOf '0' '9')∗)))

section Pieces

theorem isDigit_iff {c : Char} : c.isDigit = true ↔ '0' ≤ c ∧ c ≤ '9' := by
  simp [Char.isDigit, Char.le_def, UInt32.le_iff_toNat_le]

theorem mem_digits_iff : text ∈ (oneOf '0' '9')∗ ↔ ∀ c ∈ text, c.isDigit = true := by
  rw [Language.mem_kstar]
  constructor
  · rintro ⟨pieces, rfl, hpieces⟩ c hc
    obtain ⟨piece, hpiece, hc⟩ := List.mem_flatten.mp hc
    obtain ⟨d, rfl, hd⟩ := hpieces piece hpiece
    rw [List.mem_singleton.mp hc]
    exact isDigit_iff.mpr hd
  · intro h
    refine ⟨text.map fun c => [c], ?_, fun piece hpiece => ?_⟩
    · rw [← List.flatMap_def, List.flatMap_singleton']
    · obtain ⟨c, hc, rfl⟩ := List.mem_map.mp hpiece
      exact ⟨c, rfl, isDigit_iff.mp (h c hc)⟩

theorem mem_fraction_iff :
    fraction ∈ (1 + {['.']} * (oneOf '0' '9' * (oneOf '0' '9')∗) : Language Char) ↔
      isFraction fraction = true := by
  rw [isFraction_iff, Language.mem_add, Language.mem_one]
  apply or_congr_right
  constructor
  · rintro ⟨_, rfl, _, ⟨_, ⟨c, rfl, hc⟩, digits, hdigits, rfl⟩, rfl⟩
    refine ⟨c, digits, rfl, List.forall_mem_cons.mpr ⟨isDigit_iff.mpr hc, ?_⟩⟩
    exact mem_digits_iff.mp hdigits
  · rintro ⟨c, digits, rfl, hdigits⟩
    rw [List.forall_mem_cons] at hdigits
    exact ⟨['.'], rfl, c :: digits, ⟨[c], ⟨c, rfl, isDigit_iff.mp hdigits.1⟩, digits,
      mem_digits_iff.mpr hdigits.2, rfl⟩, rfl⟩

theorem isDigit_and_ne_zero_iff {c : Char} :
    c.isDigit = true ∧ c ≠ '0' ↔ '1' ≤ c ∧ c ≤ '9' := by
  have hne : c ≠ '0' ↔ c.val.toNat ≠ 48 := Char.toNat_inj.not.symm
  have hone : '1' ≤ c ↔ 49 ≤ c.val.toNat := UInt32.le_iff_toNat_le
  have hzero : '0' ≤ c ↔ 48 ≤ c.val.toNat := UInt32.le_iff_toNat_le
  have hnine : c ≤ '9' ↔ c.val.toNat ≤ 57 := UInt32.le_iff_toNat_le
  rw [isDigit_iff, hne, hone, hzero, hnine]
  omega

theorem mem_whole_iff :
    whole ∈ ({['0']} + oneOf '1' '9' * (oneOf '0' '9')∗ : Language Char) ↔
      whole = ['0'] ∨ Significant whole := by
  rw [Language.mem_add]
  apply or_congr Iff.rfl
  constructor
  · rintro ⟨_, ⟨c, rfl, hc⟩, digits, hdigits, rfl⟩
    obtain ⟨hdigit, hzero⟩ := isDigit_and_ne_zero_iff.mpr hc
    exact ⟨List.forall_mem_cons.mpr ⟨hdigit, mem_digits_iff.mp hdigits⟩, c, digits, rfl, hzero⟩
  · rintro ⟨hdigits, c, rest, rfl, hzero⟩
    rw [List.forall_mem_cons] at hdigits
    exact ⟨[c], ⟨c, rfl, isDigit_and_ne_zero_iff.mp ⟨hdigits.1, hzero⟩⟩, rest,
      mem_digits_iff.mpr hdigits.2, rfl⟩

theorem isUnsigned_iff :
    isUnsigned text = true ↔ ∃ whole fraction, whole ++ fraction = text ∧
      (whole = ['0'] ∨ Significant whole) ∧ isFraction fraction = true := by
  constructor
  · intro h
    unfold isUnsigned at h
    split at h
    · cases h
    · rename_i rest
      exact ⟨['0'], rest, rfl, Or.inl rfl, h⟩
    · rename_i c rest hzero
      rw [Bool.and_eq_true] at h
      refine ⟨c :: rest.takeWhile Char.isDigit, rest.dropWhile Char.isDigit, ?_, Or.inr ⟨?_, ?_⟩,
        h.2⟩
      · rw [List.cons_append, List.takeWhile_append_dropWhile]
      · exact List.forall_mem_cons.mpr ⟨h.1, fun d hd => List.mem_takeWhile_imp hd⟩
      · exact ⟨c, _, rfl, fun hc => hzero hc⟩
  · rintro ⟨whole, fraction, rfl, rfl | hwhole, hfraction⟩
    · exact hfraction
    · exact hwhole.isUnsigned_append hfraction

theorem mem_unsigned_iff :
    text ∈ (({['0']} + oneOf '1' '9' * (oneOf '0' '9')∗) *
      (1 + {['.']} * (oneOf '0' '9' * (oneOf '0' '9')∗)) : Language Char) ↔
        isUnsigned text = true := by
  rw [Language.mem_mul, isUnsigned_iff]
  constructor
  · rintro ⟨whole, hwhole, fraction, hfraction, rfl⟩
    exact ⟨whole, fraction, rfl, mem_whole_iff.mp hwhole, mem_fraction_iff.mp hfraction⟩
  · rintro ⟨whole, fraction, rfl, hwhole, hfraction⟩
    exact ⟨whole, mem_whole_iff.mpr hwhole, fraction, mem_fraction_iff.mpr hfraction, rfl⟩

end Pieces

section Names

theorem isNumeral_iff : isNumeral text = true ↔ text ∈ numerals := by
  rw [numerals, Language.mem_mul]
  constructor
  · intro h
    unfold isNumeral at h
    split at h
    · rename_i rest
      exact ⟨['-'], Or.inr rfl, rest, mem_unsigned_iff.mpr h, rfl⟩
    · exact ⟨[], Or.inl rfl, text, mem_unsigned_iff.mpr h, rfl⟩
  · rintro ⟨_, rfl | rfl, rest, hrest, rfl⟩
    · exact isNumeral_of_isUnsigned (mem_unsigned_iff.mp hrest)
    · exact mem_unsigned_iff.mp hrest

theorem isNumeric_iff {name : String} :
    isNumeric name = true ↔
      ∃ text ∈ numerals, name.toList = text ∨ name.toList = text ++ ['\n'] := by
  rw [isNumeric, isNumeral_iff]
  constructor
  · intro h
    refine ⟨_, h, ?_⟩
    unfold withoutNewline
    split
    · rename_i hlast
      exact Or.inr (List.dropLast_append_getLast? _ hlast).symm
    · exact Or.inl rfl
  · rintro ⟨text, htext, hname | hname⟩
    · have hlast : text.getLast? ≠ some '\n' :=
        fun hlast => newline_notMem (isNumeral_iff.mpr htext) (List.mem_of_getLast? hlast)
      rwa [hname, withoutNewline, if_neg hlast]
    · rwa [hname, withoutNewline, if_pos (by simp), List.dropLast_concat]

end Names

end Key

namespace Number

/-- A number is an integer in the range of binary numbers, written as one or as a binary number. -/
structure IsInteger (x : Number) (i : Int) : Prop where
  value : x.value = ((i : ℚ) : WithTop ℚ)
  inRange : (Binary64.ofInt i).isFinite = true

variable {x y : Number} {i j : Int}

theorem integerText_eq (i : Int) : integerText i = toString i := by
  unfold integerText
  rw [Int.toString_eq_repr, Int.repr_eq_if]
  split
  · rw [if_neg (by omega), show i.natAbs = (-i).toNat by omega]
  · rw [if_pos (by omega), show i.natAbs = i.toNat by omega]

theorem IsInteger.key (h : x.IsInteger i) : (Literal.number x).key = .ok (toString i) := by
  have hvalue := h.value
  cases x with
  | int k =>
      have hk : k = i := by simpa [Number.value] using hvalue
      have hlimit := Binary64.isFinite_ofInt_iff.mp h.inRange
      simp [Literal.key, Literal.keyFault?, Literal.keyText, hk, hlimit, integerText_eq]
  | float b =>
      have hinteger : b.integer? = some i := Binary64.integer?_eq_some_iff.mpr hvalue
      simp [Literal.key, Literal.keyFault?, Literal.keyText, hinteger, integerText_eq]

theorem IsInteger.beq_iff (hx : x.IsInteger i) (hy : y.IsInteger j) :
    Ty.literal (.number x) == Ty.literal (.number y) ↔ i = j := by
  rw [Ty.number_beq_iff, hx.value, hy.value, WithBot.coe_inj, WithTop.coe_inj, Int.cast_inj]

end Number

namespace Key

open Number

/-- A name spells a number exactly when it is a numeral, possibly followed by a newline. A literal
for an integer stands for the decimal text of the integer, which reads back as it and is a numeral,
so two such literals stand for one name exactly when they are equal. The binary number nearest to
the integer is an integer too, but not always the same one. -/
theorem numeric_names_exact :
    (∀ name, isNumeric name = true ↔
      ∃ text ∈ numerals, name.toList = text ∨ name.toList = text ++ ['\n']) ∧
    (∀ (x : Number) (i : Int), x.IsInteger i →
      (Literal.number x).key = .ok (toString i) ∧ (toString i).toInt? = some i ∧
        isNumeric (toString i) = true ∧ ∃ k, (Binary64.ofInt i).integer? = some k) ∧
    ∀ (x y : Number) (i j : Int), x.IsInteger i → y.IsInteger j →
      ((Literal.number x).key = (Literal.number y).key ↔
        Ty.literal (.number x) == Ty.literal (.number y)) := by
  refine ⟨fun name => isNumeric_iff, fun x i hx => ⟨hx.key, ?_, ?_, ?_⟩, fun x y i j hx hy => ?_⟩
  · exact Int.toInt?_repr i
  · rw [← integerText_eq]
    exact isNumeric_integerText i
  · exact Binary64.exists_integer_ofInt hx.inRange
  · rw [hx.key, hy.key, hx.beq_iff hy, Except.ok.injEq]
    exact Int.repr_inj

/-- An integer of 54 bits and the binary number nearest to it stand for two names. -/
theorem numeric_names_exact_wide :
    let wide : Number := .int 9007199254740993
    let nearest : Number := .float (Binary64.ofInt 9007199254740993)
    (Literal.number wide).key = .ok "9007199254740993" ∧
      (Literal.number nearest).key = .ok "9007199254740992" ∧
      (Ty.literal (.number wide) == Ty.literal (.number nearest)) = false ∧
      isNumeric "-0.50\n" = true := by
  intro wide nearest
  obtain ⟨hnames, hintegers, hliterals⟩ := numeric_names_exact
  have hwide : wide.IsInteger 9007199254740993 := ⟨rfl, by decide +kernel⟩
  have hnearest : nearest.IsInteger 9007199254740992 := by
    have hinteger : (Binary64.ofInt 9007199254740993).integer? = some 9007199254740992 := by
      decide +kernel
    have hvalue : nearest.value = _ := Binary64.integer?_eq_some_iff.mp hinteger
    exact ⟨hvalue, by decide +kernel⟩
  have hkey := (hintegers wide _ hwide).1
  have hkey' := (hintegers nearest _ hnearest).1
  refine ⟨hkey, hkey', ?_, ?_⟩
  · rw [← Bool.not_eq_true, ← hliterals _ _ _ _ hwide hnearest, hkey, hkey', Except.ok.injEq]
    decide +kernel
  · have hnumeral : "-0.50".toList ∈ numerals := isNumeral_iff.mp (by decide)
    exact (hnames _).mpr ⟨_, hnumeral, Or.inr (by decide)⟩

end Key

end StructuralTypes
