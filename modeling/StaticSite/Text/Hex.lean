namespace StaticSite.Text

def hexDigit? (c : Char) : Option Nat :=
  if '0' ≤ c ∧ c ≤ '9' then some (c.toNat - '0'.toNat)
  else if 'a' ≤ c ∧ c ≤ 'f' then some (c.toNat - 'a'.toNat + 10)
  else if 'A' ≤ c ∧ c ≤ 'F' then some (c.toNat - 'A'.toNat + 10)
  else none

-- The number that hexadecimal digits write, the first digit being the highest.
def hexNumber? (digits : List Char) : Option Nat :=
  digits.foldlM (fun number c => (hexDigit? c).map (number * 16 + ·)) 0

theorem hexDigit?_digitChar : ∀ digit < 16, hexDigit? (Nat.digitChar digit) = some digit := by
  decide

-- Four digits write every number of 16 bits.
theorem exists_hexNumber? {number : Nat} (h : number < 0x10000) :
    ∃ a b c d, hexNumber? [a, b, c, d] = some number := by
  refine ⟨Nat.digitChar (number / 0x1000), Nat.digitChar (number / 0x100 % 16),
    Nat.digitChar (number / 16 % 16), Nat.digitChar (number % 16), ?_⟩
  have hfirst := hexDigit?_digitChar (number / 0x1000) (by omega)
  have hsecond := hexDigit?_digitChar (number / 0x100 % 16) (by omega)
  have hthird := hexDigit?_digitChar (number / 16 % 16) (by omega)
  have hfourth := hexDigit?_digitChar (number % 16) (by omega)
  simp [hexNumber?, hfirst, hsecond, hthird, hfourth]
  omega

end StaticSite.Text
