import Mathlib.Algebra.Ring.Nat
import Mathlib.Logic.Function.Basic

/-! Bitmaps in memory, read and written by bytes and read by little-endian words. -/
namespace Oxbow.Lib.ByteMap

open Function

def bit (m : Nat → BitVec 8) (p : Nat) : Bool := (m (p / 8)).getLsbD (p % 8)

def littleEndian (m : Nat → BitVec 8) (o : Nat) : (n : Nat) → BitVec (n * 8)
  | 0 => 0#(0 * 8)
  | n + 1 => (m (o + n) ++ littleEndian m o n).cast ((Nat.add_comm 8 (n * 8)).trans (Nat.succ_mul n 8).symm)

def word64 (m : Nat → BitVec 8) (i : Nat) : BitVec 64 := littleEndian m (i * 8) 8

def byteOf (w : BitVec 64) (b : Nat) : BitVec 8 := (w >>> (b * 8)).setWidth 8

def setBit (m : Nat → BitVec 8) (o b : Nat) : Nat → BitVec 8 := update m o (m o ||| 1#8 <<< b)

def clearBit (m : Nat → BitVec 8) (o b : Nat) : Nat → BitVec 8 := update m o (m o &&& ~~~(1#8 <<< b))

variable (m : Nat → BitVec 8) {o b p k : Nat}

theorem bit_eq (o : Nat) (small : b < 8) : bit m (o * 8 + b) = (m o).getLsbD b := by
  have byte : (o * 8 + b) / 8 = o := by omega
  have place : (o * 8 + b) % 8 = b := by omega
  rw [bit,byte,place]

theorem getLsbD_littleEndian (o n : Nat) (small : k < n * 8) : (littleEndian m o n).getLsbD k = bit m (o * 8 + k) := by
  induction n with
  | zero => omega
  | succ n ih =>
    rw [littleEndian,BitVec.getLsbD_cast,BitVec.getLsbD_append]
    split
    next low => exact ih low
    next high =>
      have place : o * 8 + k = (o + n) * 8 + (k - n * 8) := by omega
      rw [place,bit_eq m _ (by omega)]

theorem getLsbD_word64 (i : Nat) (small : k < 64) : (word64 m i).getLsbD k = bit m (i * 64 + k) := by
  have place : i * 64 + k = i * 8 * 8 + k := by omega
  rw [place,word64]
  exact getLsbD_littleEndian m (i * 8) 8 small

theorem byteOf_word64 (i : Nat) (small : b < 8) : byteOf (word64 m i) b = m (i * 8 + b) := by
  apply BitVec.eq_of_getLsbD_eq
  intro j below
  have place : i * 64 + (b * 8 + j) = (i * 8 + b) * 8 + j := by omega
  rw [byteOf,BitVec.getLsbD_setWidth,BitVec.getLsbD_ushiftRight,getLsbD_word64 m i (by omega),place,bit_eq m _ below,
    decide_eq_true below,Bool.true_and]

theorem word64_eq_zero (i : Nat) : word64 m i = 0#64 ↔ ∀ k < 64, bit m (i * 64 + k) = false := by
  constructor
  · intro zero k small
    rw [← getLsbD_word64 m i small,zero,BitVec.getLsbD_zero]
  · intro clear
    apply BitVec.eq_of_getLsbD_eq
    intro k small
    rw [getLsbD_word64 m i small,clear k small,BitVec.getLsbD_zero]

theorem byte_eq_zero (o : Nat) : m o = 0#8 ↔ ∀ b < 8, bit m (o * 8 + b) = false := by
  constructor
  · intro zero b small
    rw [bit_eq m o small,zero,BitVec.getLsbD_zero]
  · intro clear
    apply BitVec.eq_of_getLsbD_eq
    intro b small
    rw [← bit_eq m o small,clear b small,BitVec.getLsbD_zero]

theorem getLsbD_one_shift (small : k < 8) : (1#8 <<< b).getLsbD k = decide (k = b) := by
  rw [BitVec.getLsbD_shiftLeft,BitVec.getLsbD_one]
  by_cases same : k = b
  · simp [same]
    omega
  · simp [same,small]
    omega

theorem bit_update (small : b < 8) (here : x.getLsbD b = f) (others : ∀ k < 8, k ≠ b → x.getLsbD k = (m o).getLsbD k)
    (p : Nat) :
    bit (update m o x) p = if p = o * 8 + b then f else bit m p := by
  split
  next same =>
    rw [same,bit_eq _ o small,update_self]
    exact here
  next differs =>
    by_cases byte : p / 8 = o
    · rw [bit,bit,byte,update_self]
      exact others _ (by omega) (by omega)
    · rw [bit,bit,update_of_ne byte]

theorem bit_setBit (small : b < 8) (p : Nat) : bit (setBit m o b) p = if p = o * 8 + b then true else bit m p := by
  refine bit_update m small ?_ ?_ p
  · rw [BitVec.getLsbD_or,getLsbD_one_shift small,decide_eq_true rfl,Bool.or_true]
  · intro k low differs
    rw [BitVec.getLsbD_or,getLsbD_one_shift low,decide_eq_false differs,Bool.or_false]

theorem bit_clearBit (small : b < 8) (p : Nat) : bit (clearBit m o b) p = if p = o * 8 + b then false else bit m p := by
  refine bit_update m small ?_ ?_ p
  · rw [BitVec.getLsbD_and,BitVec.getLsbD_not,getLsbD_one_shift small,decide_eq_true rfl,Bool.not_true,
      Bool.and_false,Bool.and_false]
  · intro k low differs
    rw [BitVec.getLsbD_and,BitVec.getLsbD_not,getLsbD_one_shift low,decide_eq_false differs,decide_eq_true low,Bool.not_false,
      Bool.and_true,Bool.and_true]

end Oxbow.Lib.ByteMap
