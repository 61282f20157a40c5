import BitcoinRpcOperator.Text

/-!
# Base64 loses nothing

Digits are read modulo 64, and the pads at the end tell how many bytes the last block holds.
-/

namespace BitcoinRpcOperator.Text

theorem base64Digit_injective : ∀ a < 64, ∀ b < 64, base64Digit a = base64Digit b → a = b := by
  decide +kernel

theorem base64Digit_ne_pad : ∀ a < 64, base64Digit a ≠ '=' := by decide +kernel

theorem base64Digit_mod (n : ℕ) : base64Digit (n % 64) = base64Digit n := by
  rw [base64Digit, base64Digit, Nat.mod_mod]

theorem mod_eq_of_digit {m n : ℕ} (h : base64Digit m = base64Digit n) : m % 64 = n % 64 := by
  rw [← base64Digit_mod m, ← base64Digit_mod n] at h
  exact base64Digit_injective _ (Nat.mod_lt _ (by decide)) _ (Nat.mod_lt _ (by decide)) h

theorem digit_ne_pad (n : ℕ) : base64Digit n ≠ '=' := by
  rw [← base64Digit_mod]
  exact base64Digit_ne_pad _ (Nat.mod_lt _ (by decide))

section
variable (a b c d e : UInt8) (rest : Bytes)

theorem base64_one_ne_two : base64 [a] ≠ base64 [b, c] := by
  intro h
  simp only [base64, List.cons.injEq] at h
  exact digit_ne_pad _ h.2.2.1.symm

theorem base64_one_ne_block : base64 [a] ≠ base64 (c :: d :: e :: rest) := by
  intro h
  simp only [base64, List.cons.injEq] at h
  exact digit_ne_pad _ h.2.2.1.symm

theorem base64_two_ne_block : base64 [a, b] ≠ base64 (c :: d :: e :: rest) := by
  intro h
  simp only [base64, List.cons.injEq] at h
  exact digit_ne_pad _ h.2.2.2.1.symm

theorem base64_ne_nil : base64 (a :: rest) ≠ [] := by
  match rest with
  | [] | [_] | _ :: _ :: _ => simp [base64]

end

theorem base64_injective : ∀ {x y : Bytes}, base64 x = base64 y → x = y
  | [], [], _ => rfl
  | [a], [b], h => by
    simp only [base64, List.cons.injEq, and_true] at h
    have hhigh := mod_eq_of_digit h.1
    have hlow := mod_eq_of_digit h.2
    have ha := a.toNat_lt
    have hb := b.toNat_lt
    rw [UInt8.toNat_inj.1 (show a.toNat = b.toNat by omega)]
  | [a, b], [c, d], h => by
    simp only [base64, List.cons.injEq, and_true] at h
    have h₁ := mod_eq_of_digit h.1
    have h₂ := mod_eq_of_digit h.2.1
    have h₃ := mod_eq_of_digit h.2.2
    have ha := a.toNat_lt
    have hb := b.toNat_lt
    have hc := c.toNat_lt
    have hd := d.toNat_lt
    have hsame : a.toNat * 256 + b.toNat = c.toNat * 256 + d.toNat := by omega
    rw [UInt8.toNat_inj.1 (show a.toNat = c.toNat by omega),
      UInt8.toNat_inj.1 (show b.toNat = d.toNat by omega)]
  | a :: b :: c :: rest, d :: e :: f :: rest', h => by
    simp only [base64, List.cons.injEq] at h
    obtain ⟨h₁, h₂, h₃, h₄, hrest⟩ := h
    have h₁ := mod_eq_of_digit h₁
    have h₂ := mod_eq_of_digit h₂
    have h₃ := mod_eq_of_digit h₃
    have h₄ := mod_eq_of_digit h₄
    have ha := a.toNat_lt
    have hb := b.toNat_lt
    have hc := c.toNat_lt
    have hd := d.toNat_lt
    have he := e.toNat_lt
    have hf := f.toNat_lt
    have hsame : (a.toNat * 256 + b.toNat) * 256 + c.toNat = (d.toNat * 256 + e.toNat) * 256 + f.toNat := by
      omega
    rw [UInt8.toNat_inj.1 (show a.toNat = d.toNat by omega),
      UInt8.toNat_inj.1 (show b.toNat = e.toNat by omega),
      UInt8.toNat_inj.1 (show c.toNat = f.toNat by omega), base64_injective hrest]
  | [], b :: bs, h => absurd h.symm (base64_ne_nil b bs)
  | a :: as, [], h => absurd h (base64_ne_nil a as)
  | [a], [b, c], h => absurd h (base64_one_ne_two a b c)
  | [b, c], [a], h => absurd h.symm (base64_one_ne_two a b c)
  | [a], c :: d :: e :: rest, h => absurd h (base64_one_ne_block a c d e rest)
  | c :: d :: e :: rest, [a], h => absurd h.symm (base64_one_ne_block a c d e rest)
  | [a, b], c :: d :: e :: rest, h => absurd h (base64_two_ne_block a b c d e rest)
  | c :: d :: e :: rest, [a, b], h => absurd h.symm (base64_two_ne_block a b c d e rest)

end BitcoinRpcOperator.Text
