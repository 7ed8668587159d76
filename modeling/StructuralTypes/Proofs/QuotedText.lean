import Mathlib
import StructuralTypes.Text.Quoted

namespace StructuralTypes.Text

section Hexadecimal

def digitValue (c : Char) : Nat :=
  if c.isDigit then c.toNat - '0'.toNat else c.toNat - 'a'.toNat + 10

/-- The number that is written in hexadecimal digits. -/
def hexValue (digits : List Char) : Nat :=
  digits.foldl (fun n c => 16 * n + digitValue c) 0

theorem digitValue_digitChar {d : Nat} (h : d < 16) : digitValue d.digitChar = d := by
  interval_cases d <;> rfl

theorem hexValue_append (digits : List Char) (c : Char) :
    hexValue (digits ++ [c]) = 16 * hexValue digits + digitValue c := by
  simp [hexValue]

theorem hexValue_toDigits (n : Nat) : hexValue (Nat.toDigits 16 n) = n := by
  induction n using Nat.strongRecOn with
  | _ n ih =>
      rw [Nat.toDigits_eq_if (by norm_num)]
      split
      · rename_i hlt
        simp [hexValue, digitValue_digitChar hlt]
      · rename_i hge
        rw [hexValue_append, ih (n / 16) (by omega),
          digitValue_digitChar (Nat.mod_lt n (by norm_num))]
        exact Nat.div_add_mod n 16

theorem hexValue_hexDigits (width n : Nat) : hexValue (hexDigits width n) = n := by
  have hzeros : ∀ k, (List.replicate k '0').foldl (fun n c => 16 * n + digitValue c) 0 = 0 := by
    intro k
    induction k with
    | zero => rfl
    | succ k ih =>
        rw [List.replicate_succ, List.foldl_cons]
        exact ih
  rw [hexDigits, hexValue, List.foldl_append, hzeros]
  exact hexValue_toDigits n

theorem length_hexDigits {width n : Nat} (hwidth : 0 < width) (h : n < 16 ^ width) :
    (hexDigits width n).length = width := by
  have hle : (Nat.toDigits 16 n).length ≤ width :=
    (Nat.length_toDigits_le_iff (by norm_num) hwidth).mpr h
  rw [hexDigits, List.length_append, List.length_replicate]
  omega

end Hexadecimal

section Escapes

/-- A character that is written out by its code. -/
def readCode (width : Nat) (rest : List Char) : Char × List Char :=
  (Char.ofNat (hexValue (rest.take width)), rest.drop width)

/-- The first character of an escaped text, and what comes after its escape. -/
def readChar : List Char → Option (Char × List Char)
  | [] => none
  | '\x5c' :: 'n' :: rest => some ('\n', rest)
  | '\x5c' :: 'r' :: rest => some ('\r', rest)
  | '\x5c' :: 't' :: rest => some ('\t', rest)
  | '\x5c' :: 'x' :: rest => some (readCode 2 rest)
  | '\x5c' :: 'u' :: rest => some (readCode 4 rest)
  | '\x5c' :: 'U' :: rest => some (readCode 8 rest)
  | '\x5c' :: c :: rest => some (c, rest)
  | c :: rest => some (c, rest)

theorem readCode_hexDigits {width : Nat} (hwidth : 0 < width) {c : Char}
    (h : c.toNat < 16 ^ width) (rest : List Char) :
    readCode width (hexDigits width c.toNat ++ rest) = (c, rest) := by
  have hlength := length_hexDigits hwidth h
  rw [readCode, List.take_left' hlength, List.drop_left' hlength, hexValue_hexDigits,
    Char.ofNat_toNat]

theorem readChar_of_ne {c : Char} (h : c ≠ '\x5c') (rest : List Char) :
    readChar (c :: rest) = some (c, rest) := by
  unfold readChar
  split <;> simp_all

/-- The two quotes that texts are put in. -/
def IsQuote (mark : Char) : Prop :=
  mark = '\x27' ∨ mark = '\x22'

theorem isQuote_quoteMark (text : List Char) : IsQuote (quoteMark text) := by
  unfold quoteMark
  split
  · exact Or.inr rfl
  · exact Or.inl rfl

theorem readChar_escape {mark : Char} (hmark : IsQuote mark) (c : Char) (rest : List Char) :
    readChar (escape mark c ++ rest) = some (c, rest) := by
  unfold escape
  split_ifs with hself hn hr ht hprint hx hu
  · rcases hself with rfl | rfl
    · rcases hmark with rfl | rfl <;> rfl
    · rfl
  · rw [hn]
    rfl
  · rw [hr]
    rfl
  · rw [ht]
    rfl
  · exact readChar_of_ne (fun hc => hself (Or.inr hc)) rest
  · exact congrArg some (readCode_hexDigits (by norm_num) hx rest)
  · exact congrArg some (readCode_hexDigits (by norm_num) hu rest)
  · have hc : c.toNat < 16 ^ 8 := lt_of_lt_of_eq c.val.toNat_lt (by norm_num)
    exact congrArg some (readCode_hexDigits (by norm_num) hc rest)

theorem IsQuote.ne_backslash {mark : Char} (h : IsQuote mark) : mark ≠ '\x5c' := by
  rcases h with rfl | rfl <;> decide

theorem escape_append_ne {mark : Char} (hmark : IsQuote mark) (c : Char) (rest tail : List Char) :
    escape mark c ++ rest ≠ mark :: tail := by
  intro h
  have hread := congrArg readChar h
  rw [readChar_escape hmark, readChar_of_ne hmark.ne_backslash] at hread
  obtain ⟨rfl, rfl⟩ := Prod.mk.inj (Option.some.inj hread)
  rw [escape, if_pos (Or.inl rfl)] at h
  exact hmark.ne_backslash (List.cons_eq_cons.mp h).1.symm

theorem escaped_append_inj {mark : Char} (hmark : IsQuote mark) {s t r r' : List Char}
    (h : s.flatMap (escape mark) ++ mark :: r = t.flatMap (escape mark) ++ mark :: r') :
    s = t ∧ r = r' := by
  induction s generalizing t with
  | nil =>
      cases t with
      | nil => simpa using h
      | cons d t =>
          rw [List.flatMap_cons, List.append_assoc] at h
          exact absurd h.symm (escape_append_ne hmark d _ r)
  | cons c s ih =>
      cases t with
      | nil =>
          rw [List.flatMap_cons, List.append_assoc] at h
          exact absurd h (escape_append_ne hmark c _ r')
      | cons d t =>
          rw [List.flatMap_cons, List.append_assoc, List.flatMap_cons, List.append_assoc] at h
          have hread := congrArg readChar h
          rw [readChar_escape hmark, readChar_escape hmark] at hread
          obtain ⟨rfl, hrest⟩ := Prod.mk.inj (Option.some.inj hread)
          obtain ⟨rfl, hr⟩ := ih hrest
          exact ⟨rfl, hr⟩

end Escapes

theorem toList_quoted (s : String) :
    (quoted s).toList =
      quoteMark s.toList ::
        (s.toList.flatMap (escape (quoteMark s.toList)) ++ [quoteMark s.toList]) := by
  simp [quoted]

/-- A quoted text at the start of a longer one is known, and so is what follows. -/
theorem quoted_append_inj {s t : String} {r r' : List Char}
    (h : (quoted s).toList ++ r = (quoted t).toList ++ r') : s = t ∧ r = r' := by
  rw [toList_quoted, toList_quoted, List.cons_append, List.cons_append, List.append_assoc,
    List.append_assoc, List.cons_eq_cons] at h
  obtain ⟨hmark, h⟩ := h
  rw [← hmark] at h
  obtain ⟨hs, hr⟩ := escaped_append_inj (isQuote_quoteMark s.toList) h
  exact ⟨String.toList_injective hs, hr⟩

end StructuralTypes.Text
