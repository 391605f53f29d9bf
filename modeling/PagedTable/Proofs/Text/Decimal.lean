import PagedTable.Text.Decimal

/-!
# Numerals

* `Numeral`: an optional plus sign, and digits.
* `read_eq_ok_iff`: a text is read as a number exactly if it is a numeral of that number.
* `numeral_toDigits`: the digits of a number, with zeros before them.
-/

namespace PagedTable.Decimal

variable {cs : List Char} {c : Char} {value n : Nat} {id : UInt32}

/-- `cs` is a numeral of `n`. -/
def Numeral (cs : List Char) (n : Nat) : Prop :=
  ∃ sign digits, cs = sign ++ digits ∧ (sign = [] ∨ sign = ['+']) ∧ digits ≠ [] ∧
    (∀ c ∈ digits, c.isDigit = true) ∧ Nat.ofDigitChars 10 digits 0 = n

theorem isDigit_iff : c.isDigit = true ↔ '0' ≤ c ∧ c ≤ '9' := by
  rw [Char.isDigit, Bool.and_eq_true, decide_eq_true_eq, decide_eq_true_eq]
  rfl

theorem digit?_of_isDigit (h : c.isDigit = true) : digit? c = some (c.toNat - '0'.toNat) :=
  if_pos (isDigit_iff.mp h)

theorem digit?_of_not_isDigit (h : ¬ c.isDigit = true) : digit? c = none :=
  if_neg (mt isDigit_iff.mpr h)

/-- More digits do not make a number smaller. -/
theorem le_ofDigitChars (cs : List Char) (value : Nat) : value ≤ Nat.ofDigitChars 10 cs value := by
  induction cs generalizing value with
  | nil => exact Nat.le_refl value
  | cons c cs ih =>
    rw [Nat.ofDigitChars_cons]
    exact Nat.le_trans (by omega) (ih _)

/-- **Digits that follow others.** -/
theorem readFrom_eq_ok_iff (hvalue : value < UInt32.size) :
    readFrom value cs = .ok id ↔
      (∀ c ∈ cs, c.isDigit = true) ∧ Nat.ofDigitChars 10 cs value = id.toNat := by
  induction cs generalizing value with
  | nil =>
    have hnumber : (UInt32.ofNat value).toNat = value := UInt32.toNat_ofNat_of_lt' hvalue
    rw [readFrom, Except.ok.injEq, Nat.ofDigitChars_nil, ← UInt32.toNat_inj, hnumber]
    exact ⟨fun h => ⟨by simp, h⟩, And.right⟩
  | cons c cs ih =>
    rw [readFrom, List.forall_mem_cons, Nat.ofDigitChars_cons]
    by_cases hc : c.isDigit = true
    · rw [digit?_of_isDigit hc, Nat.mul_comm value]
      dsimp only
      split
      · rename_i hlt
        rw [ih hlt, and_iff_right hc]
      · rename_i hge
        refine iff_of_false nofun fun h => hge ?_
        have hle := le_ofDigitChars cs (10 * value + (c.toNat - '0'.toNat))
        have hlt := id.toNat_lt_size
        omega
    · rw [digit?_of_not_isDigit hc]
      exact iff_of_false nofun fun h => hc h.1.1

/-- A sign is no digit. -/
theorem numeral_plus_iff : Numeral ('+' :: cs) n ↔
    cs ≠ [] ∧ (∀ c ∈ cs, c.isDigit = true) ∧ Nat.ofDigitChars 10 cs 0 = n := by
  constructor
  · rintro ⟨sign, digits, heq, rfl | rfl, hne, hdigits, hn⟩
    · rw [List.nil_append] at heq
      rw [← heq] at hdigits
      cases hdigits '+' List.mem_cons_self
    · cases heq
      exact ⟨hne, hdigits, hn⟩
  · rintro ⟨hne, hdigits, hn⟩
    exact ⟨['+'], cs, rfl, .inr rfl, hne, hdigits, hn⟩

theorem numeral_iff_of_ne (h : ∀ rest, cs ≠ '+' :: rest) : Numeral cs n ↔
    cs ≠ [] ∧ (∀ c ∈ cs, c.isDigit = true) ∧ Nat.ofDigitChars 10 cs 0 = n := by
  constructor
  · rintro ⟨sign, digits, rfl, rfl | rfl, hrest⟩
    · exact hrest
    · exact absurd rfl (h digits)
  · exact fun hrest => ⟨[], cs, rfl, .inl rfl, hrest⟩

/-- **Reading a number.** -/
theorem read_eq_ok_iff : read cs = .ok id ↔ Numeral cs id.toNat := by
  have hread : ∀ {cs : List Char}, readFrom 0 cs = .ok id ↔
      (∀ c ∈ cs, c.isDigit = true) ∧ Nat.ofDigitChars 10 cs 0 = id.toNat :=
    readFrom_eq_ok_iff (by decide)
  unfold read
  split
  · rw [numeral_iff_of_ne fun _ => (List.cons_ne_nil _ _).symm]
    exact iff_of_false nofun fun h => h.1 rfl
  · rw [numeral_plus_iff]
    exact iff_of_false nofun fun h => h.1 rfl
  · rename_i cs hne
    rw [numeral_plus_iff, hread]
    exact (and_iff_right hne).symm
  · rename_i hempty _ hplus
    rw [numeral_iff_of_ne fun rest => hplus rest, hread]
    exact (and_iff_right hempty).symm

/-- The digits of a number are a numeral of it, also behind zeros and a sign. -/
theorem numeral_toDigits (n zeros : Nat) {sign : List Char} (hsign : sign = [] ∨ sign = ['+']) :
    Numeral (sign ++ (List.replicate zeros '0' ++ Nat.toDigits 10 n)) n := by
  refine ⟨sign, _, rfl, hsign, ?_, fun c hc => ?_, ?_⟩
  · exact List.append_ne_nil_of_right_ne_nil _ Nat.toDigits_ne_nil
  · rcases List.mem_append.mp hc with hc | hc
    · rw [List.eq_of_mem_replicate hc]
      rfl
    · exact Nat.isDigit_of_mem_toDigits (by decide) (by decide) hc
  · rw [Nat.ofDigitChars_append, Nat.ofDigitChars_replicate_zero, Nat.mul_zero,
      Nat.ofDigitChars_toDigits (by decide) (by decide)]

end PagedTable.Decimal
