import Mathlib.Algebra.Ring.Nat
import Oxbow.Lib.Table

/-! Numbers of several 16-bit units in a block of words, the lowest unit first. A packed structure whose fields do not
begin at whole words is read and written in these units. -/
namespace Oxbow.Lib.Halfword

variable {w : Nat} {p q : Words w} {h k n v : Nat}

def halfword (p : Words w) (h : Nat) : Nat := word p (h / 2) / 2^(16 * (h % 2)) % 2^16

def setHalfword (p : Words w) (h v : Nat) : Words w :=
  if h % 2 = 0 then setWord p (h / 2) (word p (h / 2) / 2^16 * 2^16 + v % 2^16)
  else setWord p (h / 2) (word p (h / 2) % 2^16 + v % 2^16 * 2^16)

def number (p : Words w) (h : Nat) : Nat → Nat
  | 0 => 0
  | n + 1 => halfword p h + 2^16 * number p (h + 1) n

def putNumber (p : Words w) (h : Nat) : Nat → Nat → Words w
  | 0, _ => p
  | n + 1, v => setHalfword (putNumber p (h + 1) n (v / 2^16)) h v

theorem word_lt (p : Words w) (i : Nat) : word p i < 2^32 := by
  rw [word]
  split
  · exact UInt32.toNat_lt _
  · decide

theorem word_outside (outside : w ≤ k) : word p k = 0 := by
  simp [word,Nat.not_lt.mpr outside]

theorem halfword_setHalfword (p : Words w) (inside : h < 2 * w) (v : Nat) : halfword (setHalfword p h v) h = v % 2^16 := by
  have below : h / 2 < w := by omega
  rcases Nat.mod_two_eq_zero_or_one h with even | odd
  · rw [halfword,setHalfword,if_pos even,word_setWord p below,even]
    simp only [Nat.mul_zero,Nat.pow_zero,Nat.div_one]
    omega
  · rw [halfword,setHalfword,if_neg (by omega),word_setWord p below,odd]
    simp only [Nat.mul_one]
    omega

theorem halfword_setHalfword_ne (p : Words w) (other : k ≠ h) (v : Nat) : halfword (setHalfword p h v) k = halfword p k := by
  by_cases same : k / 2 = h / 2
  · rcases Nat.lt_or_ge (h / 2) w with inside | outside
    · have bound := word_lt p (h / 2)
      rcases Nat.mod_two_eq_zero_or_one h with even | odd
      · have half : k % 2 = 1 := by omega
        rw [halfword,halfword,setHalfword,if_pos even,same,word_setWord p inside,half]
        simp only [Nat.mul_one]
        omega
      · have half : k % 2 = 0 := by omega
        rw [halfword,halfword,setHalfword,if_neg (by omega),same,word_setWord p inside,half]
        simp only [Nat.mul_zero,Nat.pow_zero,Nat.div_one]
        omega
    · rw [halfword,halfword,same,word_outside outside,word_outside outside]
  · rw [halfword,halfword,setHalfword]
    split
    · rw [word_setWord_ne p same]
    · rw [word_setWord_ne p same]

theorem number_congr (same : ∀ k, h ≤ k → k < h + n → halfword p k = halfword q k) : number p h n = number q h n := by
  induction n generalizing h with
  | zero => rfl
  | succ n ih =>
    have rest : number p (h + 1) n = number q (h + 1) n := ih fun k low high => same k (by omega) (by omega)
    rw [number,number,same h (Nat.le_refl h) (by omega),rest]

theorem halfword_putNumber (p : Words w) (v : Nat) (outside : k < h ∨ h + n ≤ k) :
    halfword (putNumber p h n v) k = halfword p k := by
  induction n generalizing h v with
  | zero => rfl
  | succ n ih =>
    rw [putNumber,halfword_setHalfword_ne _ (by omega)]
    exact ih _ (by omega)

theorem number_putNumber (p : Words w) (inside : h + n ≤ 2 * w) (v : Nat) :
    number (putNumber p h n v) h n = v % 2^(16 * n) := by
  induction n generalizing h v with
  | zero => rw [Nat.mul_zero,Nat.pow_zero,Nat.mod_one,number]
  | succ n ih =>
    have rest : number (setHalfword (putNumber p (h + 1) n (v / 2^16)) h v) (h + 1) n =
        number (putNumber p (h + 1) n (v / 2^16)) (h + 1) n :=
      number_congr fun k low _ => halfword_setHalfword_ne _ (by omega) v
    rw [putNumber,number,halfword_setHalfword _ (by omega),rest,ih (by omega),Nat.mul_succ,Nat.pow_add,
      Nat.mul_comm (2^(16 * n)),Nat.mod_mul]

theorem number_putNumber_apart (p : Words w) (v : Nat) (apart : at' + m ≤ h ∨ h + n ≤ at') :
    number (putNumber p h n v) at' m = number p at' m :=
  number_congr fun k low high => halfword_putNumber p v (by omega)

theorem number_setHalfword (p : Words w) (v : Nat) (apart : at' + m ≤ h ∨ h < at') :
    number (setHalfword p h v) at' m = number p at' m :=
  number_congr fun k low high => halfword_setHalfword_ne p (by omega) v

end Oxbow.Lib.Halfword
