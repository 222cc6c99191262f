import FlowLint.BinOp
import Mathlib.Algebra.Group.Nat.Defs

/-! # Words as bit vectors

The operators on the integers that denote words are those of 32-bit vectors: `onWords_toInt` ties
the two together, so every folded result denotes a word again.
-/
namespace FlowLint

namespace Word32

theorem count_eq : count = 2 ^ 32 := rfl

/-- The word of an integer is the signed number of its low bits. -/
theorem wrap_eq (n : Int) : wrap n = (BitVec.ofInt 32 n).toInt := by
  rw [wrap, count_eq, BitVec.toInt_ofInt]

theorem wrap_natCast (n : Nat) : wrap n = (BitVec.ofNat 32 n).toInt := by
  rw [wrap, count_eq, BitVec.toInt_ofNat']

theorem wrap_toInt (a : BitVec 32) : wrap a.toInt = a.toInt := by
  rw [wrap, count_eq, BitVec.toInt_bmod_cancel]

@[simp] theorem wrap_wrap (n : Int) : wrap (wrap n) = wrap n := by
  rw [wrap_eq n, wrap_toInt]

theorem wrap_eq_self_iff {n : Int} : wrap n = n ↔ -2147483648 ≤ n ∧ n ≤ 2147483647 := by
  simp only [wrap, count, Int.bmod_def]
  split <;> omega

theorem wrap_eq_zero_iff {n : Int} : wrap n = 0 ↔ BitVec.ofInt 32 n = 0 := by
  rw [wrap_eq, ← BitVec.toInt_inj]
  rfl

/-- The signed number of 32 bits lies between the least and the greatest word. -/
theorem toInt_range (a : BitVec 32) : -2147483648 ≤ a.toInt ∧ a.toInt ≤ 2147483647 :=
  wrap_eq_self_iff.mp (wrap_toInt a)

theorem bits_toInt (a : BitVec 32) : bits a.toInt = a.toNat := by
  have h := BitVec.toInt_eq_toNat_cond a
  have hlt := a.isLt
  rw [bits, count, h]
  split <;> omega

theorem amount_toInt (a : BitVec 32) : amount a.toInt = a.toNat % 32 := by
  have h := BitVec.toInt_eq_toNat_cond a
  rw [amount, h]
  split <;> omega

theorem scale_toInt (a : BitVec 32) : scale a.toInt = 2 ^ (a.toNat % 32) := by
  rw [scale, amount_toInt]
  rfl

end Word32

namespace BinOp

def truthBits (b : Bool) : BitVec 32 := if b then 1 else 0

/-- The meaning of an operator in 32-bit two's complement arithmetic. Shifts take the low five bits
of the amount; comparisons are signed. -/
def onBits (op : BinOp) (a b : BitVec 32) : BitVec 32 :=
  match op with
  | add => a + b
  | sub => a - b
  | mul => a * b
  | div => a.sdiv b
  | rem => a.srem b
  | and => a &&& b
  | or => a ||| b
  | xor => a ^^^ b
  | shl => a <<< (b.toNat % 32)
  | shr => a.sshiftRight (b.toNat % 32)
  | ushr => a >>> (b.toNat % 32)
  | eq => truthBits (a == b)
  | ne => truthBits (a != b)
  | lt => truthBits (a.slt b)
  | le => truthBits (a.sle b)
  | gt => truthBits (b.slt a)
  | ge => truthBits (b.sle a)

theorem toInt_truthBits (b : Bool) : (truthBits b).toInt = truth b := by
  cases b <;> rfl

theorem onWords_toInt (op : BinOp) (a b : BitVec 32) :
    op.onWords a.toInt b.toInt = (op.onBits a b).toInt := by
  cases op with
  | add => rw [onBits, BitVec.toInt_add]; rfl
  | sub => rw [onBits, BitVec.toInt_sub]; rfl
  | mul => rw [onBits, BitVec.toInt_mul]; rfl
  | div => rw [onBits, BitVec.toInt_sdiv]; rfl
  | rem => rw [onBits, ← Word32.wrap_toInt (a.srem b), BitVec.toInt_srem]; rfl
  | and => rw [onBits, BitVec.toInt_and, onWords, Word32.land, Word32.bits_toInt,
      Word32.bits_toInt]; rfl
  | or => rw [onBits, BitVec.toInt_or, onWords, Word32.lor, Word32.bits_toInt,
      Word32.bits_toInt]; rfl
  | xor => rw [onBits, BitVec.toInt_xor, onWords, Word32.lxor, Word32.bits_toInt,
      Word32.bits_toInt]; rfl
  | shl =>
    -- the product wraps, so the unsigned number of the word may stand for the signed one
    rw [onBits, BitVec.toInt_shiftLeft, onWords, Word32.shiftLeft, Word32.scale_toInt,
      Word32.wrap, Word32.count_eq, BitVec.toInt_eq_toNat_bmod a, Int.bmod_mul_bmod]
    rw [Nat.shiftLeft_eq, Int.natCast_mul]
  | shr => rw [onBits, BitVec.toInt_sshiftRight, onWords, Word32.shiftRight, Word32.wrap_toInt,
      Word32.scale_toInt, Int.shiftRight_eq_div_pow]
  | ushr =>
    have hq : BitVec.ofNat 32 (a.toNat / 2 ^ (b.toNat % 32)) = a >>> (b.toNat % 32) := by
      apply BitVec.eq_of_toNat_eq
      have hlt := Nat.lt_of_le_of_lt (Nat.div_le_self a.toNat (2 ^ (b.toNat % 32))) a.isLt
      rw [BitVec.toNat_ofNat, BitVec.toNat_ushiftRight, Nat.shiftRight_eq_div_pow,
        Nat.mod_eq_of_lt hlt]
    rw [onBits, onWords, Word32.shiftRightZero, Word32.bits_toInt, Word32.scale_toInt, ← hq,
      ← Word32.wrap_natCast, Int.natCast_ediv]
  | eq =>
    rw [onBits, toInt_truthBits]
    simp only [onWords, BitVec.toInt_inj]
    rfl
  | ne =>
    rw [onBits, toInt_truthBits]
    simp only [onWords, ne_eq, BitVec.toInt_inj, decide_not]
    rfl
  | lt => rw [onBits, toInt_truthBits]; rfl
  | le => rw [onBits, toInt_truthBits]; rfl
  | gt => rw [onBits, toInt_truthBits]; rfl
  | ge => rw [onBits, toInt_truthBits]; rfl

theorem onWords_wrap (op : BinOp) (a b : Int) : op.onWords (Word32.wrap a) (Word32.wrap b) =
    (op.onBits (BitVec.ofInt 32 a) (BitVec.ofInt 32 b)).toInt := by
  rw [Word32.wrap_eq, Word32.wrap_eq, onWords_toInt]

theorem fold_eq (op : BinOp) (left right : Int) : op.fold left right =
    if op.traps = true ∧ right = 0 then .ok none
    else if op.traps = true ∧ Word32.wrap right = 0 then .error .divisionByZero
    else .ok (some (op.onBits (BitVec.ofInt 32 left) (BitVec.ofInt 32 right)).toInt) := by
  rw [fold, onWords_wrap]
  simp only [Bool.and_eq_true, beq_iff_eq]

/-- Folding fails only where a divisor is not a word but wraps to zero. -/
theorem fold_of_word (op : BinOp) (left : Int) {right : Int} (h : Word32.wrap right = right) :
    op.fold left right = .ok (if op.traps = true ∧ right = 0 then none
      else some (op.onBits (BitVec.ofInt 32 left) (BitVec.ofInt 32 right)).toInt) := by
  rw [fold_eq, h]
  by_cases hz : op.traps = true ∧ right = 0
  · rw [if_pos hz, if_pos hz]
  · rw [if_neg hz, if_neg hz, if_neg hz]

theorem traps_iff {op : BinOp} : op.traps = true ↔ op = .div ∨ op = .rem := by
  cases op <;> decide

/-- Folding is signed 32-bit two's complement arithmetic on integers of any size. A quotient or
remainder folds to nothing where the divisor is zero as it is given, and fails where it is another
integer without low bits; all else folds to the signed number of the bit vector that the operator
makes of the low bits. -/
theorem fold_exact (op : BinOp) (a b : Int) :
    (op.fold a b = .ok none ↔ (op = .div ∨ op = .rem) ∧ b = 0) ∧
    (∀ e, op.fold a b = .error e ↔
      e = .divisionByZero ∧ (op = .div ∨ op = .rem) ∧ b ≠ 0 ∧ BitVec.ofInt 32 b = 0) ∧
    ∀ n, op.fold a b = .ok (some n) ↔
      ¬((op = .div ∨ op = .rem) ∧ BitVec.ofInt 32 b = 0) ∧
        n = (op.onBits (BitVec.ofInt 32 a) (BitVec.ofInt 32 b)).toInt ∧
        -2147483648 ≤ n ∧ n ≤ 2147483647 := by
  have hrange := Word32.toInt_range (op.onBits (BitVec.ofInt 32 a) (BitVec.ofInt 32 b))
  rw [← traps_iff, ← Word32.wrap_eq_zero_iff]
  by_cases hzero : op.traps = true ∧ b = 0
  · have hfold : op.fold a b = .ok none := by rw [fold_eq, if_pos hzero]
    obtain ⟨hop, rfl⟩ := hzero
    have hwrap : Word32.wrap 0 = 0 := rfl
    rw [hfold]
    simp [hop, hwrap]
  by_cases hwrap : op.traps = true ∧ Word32.wrap b = 0
  · have hfold : op.fold a b = .error .divisionByZero := by
      rw [fold_eq, if_neg hzero, if_pos hwrap]
    have hb : b ≠ 0 := fun hb => hzero ⟨hwrap.1, hb⟩
    rw [hfold]
    simp [hwrap, hb, eq_comm]
  · have hfold := fold_eq op a b
    rw [if_neg hzero, if_neg hwrap] at hfold
    have herror : ∀ e, ¬(e = Error.divisionByZero ∧ op.traps = true ∧ b ≠ 0 ∧
        Word32.wrap b = 0) := fun e h => hwrap ⟨h.2.1, h.2.2.2⟩
    rw [hfold]
    refine ⟨by simpa using hzero, fun e => by simpa using herror e, fun n => ?_⟩
    rw [Except.ok.injEq, Option.some.injEq]
    constructor
    · rintro rfl
      exact ⟨hwrap, rfl, hrange⟩
    · rintro ⟨-, rfl, -⟩
      rfl

/-- The only quotient that overflows, and a divisor that is zero as a word only. -/
example : div.fold (-2147483648) (-1) = .ok (some (-2147483648)) ∧
    rem.fold 1 4294967296 = .error .divisionByZero := ⟨rfl, rfl⟩

end BinOp

end FlowLint
