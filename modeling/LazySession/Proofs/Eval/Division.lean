import LazySession.Eval.Primitive
import Mathlib.Tactic.ByContra
import Mathlib.Logic.Basic

/-!
# Division of 64-bit integers

`/` and `%` round toward zero, `div` and `mod` round down. Either quotient gives the dividend back with
its remainder, and is the mathematical one, but for the least integer divided by -1, which wraps around
(`Division.quotients_exact`).
-/

namespace LazySession

/-- A quotient and a remainder give the dividend back modulo `2 ^ 64`. The remainder is smaller than
the divisor, and is zero or has the sign of `side`. -/
structure Division (a b side q r : Int64) : Prop where
  adds_up : q * b + r = a
  small : r.toInt.natAbs < b.toInt.natAbs
  sign : r = 0 ∨ 0 < r ∧ 0 < side ∨ r < 0 ∧ side < 0

/-- The exact quotient is out of range. -/
def Overflows (a b : Int64) : Prop := a = Int64.minValue ∧ b = -1

/-- The exact quotient is negative and not whole, so that the two roundings differ. -/
def RoundsDown (a b : Int64) : Prop := a % b ≠ 0 ∧ (a < 0) ≠ (b < 0)

instance (a b : Int64) : Decidable (Overflows a b) :=
  inferInstanceAs (Decidable (a = Int64.minValue ∧ b = -1))

instance (a b : Int64) : Decidable (RoundsDown a b) :=
  inferInstanceAs (Decidable (a % b ≠ 0 ∧ (a < 0) ≠ (b < 0)))

namespace Division

variable {a b : Int64}

/-! ## Rounding toward zero -/

theorem toInt_ne_zero (hb : b ≠ 0) : b.toInt ≠ 0 :=
  fun h => hb (Int64.toInt_inj.mp h)

theorem toInt_div (h : ¬ Overflows a b) : (a / b).toInt = a.toInt.tdiv b.toInt := by
  by_cases ha : a = Int64.minValue
  · exact Int64.toInt_div_of_ne_right a b fun hb => h ⟨ha, hb⟩
  · exact Int64.toInt_div_of_ne_left a b ha

theorem natAbs_mod_lt (a : Int64) (hb : b ≠ 0) : (a % b).toInt.natAbs < b.toInt.natAbs := by
  rw [Int64.toInt_mod, Int.natAbs_tmod]
  exact Nat.mod_lt _ (Int.natAbs_pos.mpr (toInt_ne_zero hb))

theorem sign_mod (a b : Int64) : a % b = 0 ∨ 0 < a % b ∧ 0 < a ∨ a % b < 0 ∧ a < 0 := by
  have hs := Int.sign_tmod a.toInt b.toInt
  rw [← Int64.toInt_mod] at hs
  simp only [Int64.lt_iff_toInt_lt, Int64.toInt_zero, ← Int64.toInt_inj]
  split at hs
  · exact .inl (Int.sign_eq_zero_iff_zero.mp hs)
  · rcases Int.lt_trichotomy a.toInt 0 with ha | ha | ha
    · rw [Int.sign_eq_neg_one_of_neg ha, Int.sign_eq_neg_one_iff_neg] at hs
      exact .inr (.inr ⟨hs, ha⟩)
    · rw [ha, Int.sign_zero, Int.sign_eq_zero_iff_zero] at hs
      exact .inl hs
    · rw [Int.sign_eq_one_of_pos ha, Int.sign_eq_one_iff_pos] at hs
      exact .inr (.inl ⟨hs, ha⟩)

theorem div_mul_add_mod (a b : Int64) : a / b * b + a % b = a := by
  rw [← Int64.toInt_inj, Int64.toInt_add, Int64.toInt_mul, Int64.toInt_div, Int64.toInt_mod]
  rw [Int.bmod_mul_bmod, Int.bmod_add_bmod, Int.mul_comm, Int.add_comm, Int.tmod_add_mul_tdiv]
  exact a.toInt_bmod

theorem toward_zero (a : Int64) (hb : b ≠ 0) : Division a b a (a / b) (a % b) :=
  ⟨div_mul_add_mod a b, natAbs_mod_lt a hb, sign_mod a b⟩

/-! ## Rounding down -/

theorem mod_neg_iff (h : a % b ≠ 0) : a % b < 0 ↔ a < 0 := by
  have hs := (sign_mod a b).resolve_left h
  simp only [Int64.lt_iff_toInt_lt, Int64.toInt_zero] at hs ⊢
  omega

theorem floorDiv_eq (a b : Int64) :
    Builtin.floorDiv a b = if RoundsDown a b then a / b - 1 else a / b := rfl

theorem floorMod_eq (a b : Int64) :
    Builtin.floorMod a b = if RoundsDown a b then a % b + b else a % b := by
  unfold Builtin.floorMod
  refine if_congr ?_ rfl rfl
  unfold RoundsDown
  refine and_congr_right fun h => ?_
  rw [propext (mod_neg_iff h)]

/-- Where the quotient is rounded down, the divisor is not 1 or -1, and so the quotient is at most half
of the dividend. -/
theorem two_le_natAbs (hb : b ≠ 0) (h : RoundsDown a b) : 2 ≤ b.toInt.natAbs := by
  have hb := toInt_ne_zero hb
  by_contra hlt
  have hone : b.toInt.natAbs = 1 := by omega
  refine h.1 (Int64.toInt_inj.mp (Int.natAbs_eq_zero.mp ?_))
  rw [Int64.toInt_mod, Int.natAbs_tmod, hone, Nat.mod_one]

theorem not_overflows (h : RoundsDown a b) : ¬ Overflows a b := by
  rintro ⟨rfl, rfl⟩
  exact h.1 rfl

theorem toInt_div_sub_one (hb : b ≠ 0) (h : RoundsDown a b) :
    (a / b - 1).toInt = (a / b).toInt - 1 := by
  have hhalf : (a / b).toInt.natAbs ≤ a.toInt.natAbs / 2 := by
    rw [toInt_div (not_overflows h), Int.natAbs_tdiv]
    exact Nat.div_le_div_left (two_le_natAbs hb h) (by decide)
  have hlo := a.le_toInt
  have hhi := a.toInt_lt
  rw [Int64.toInt_sub, Int64.toInt_one]
  exact Int.bmod_eq_of_le (by omega) (by omega)

theorem signs_of_roundsDown (h : RoundsDown a b) :
    (a % b).toInt < 0 ∧ 0 ≤ b.toInt ∨ 0 < (a % b).toInt ∧ b.toInt < 0 := by
  obtain ⟨hr, hne⟩ := h
  have hs := (sign_mod a b).resolve_left hr
  rw [ne_eq, eq_iff_iff] at hne
  simp only [Int64.lt_iff_toInt_lt, Int64.toInt_zero] at hs hne
  omega

theorem toInt_mod_add (h : RoundsDown a b) : (a % b + b).toInt = (a % b).toInt + b.toInt := by
  have hs := signs_of_roundsDown h
  have hr := (a % b).le_toInt
  have hr' := (a % b).toInt_lt
  have hlo := b.le_toInt
  have hhi := b.toInt_lt
  rw [Int64.toInt_add]
  exact Int.bmod_eq_of_le (by omega) (by omega)

theorem down (a : Int64) (hb : b ≠ 0) :
    Division a b b (Builtin.floorDiv a b) (Builtin.floorMod a b) := by
  have hz := toward_zero a hb
  have hsmall := hz.small
  have hb' := toInt_ne_zero hb
  rw [floorDiv_eq, floorMod_eq]
  by_cases h : RoundsDown a b
  · rw [if_pos h, if_pos h]
    have hs := signs_of_roundsDown h
    refine ⟨?_, ?_, .inr ?_⟩
    · calc (a / b - 1) * b + (a % b + b) = a / b * b + a % b := by grind
        _ = a := hz.adds_up
    · rw [toInt_mod_add h]
      omega
    · simp only [Int64.lt_iff_toInt_lt, Int64.toInt_zero, toInt_mod_add h]
      omega
  · rw [if_neg h, if_neg h]
    refine ⟨hz.adds_up, hsmall, ?_⟩
    by_cases hr : a % b = 0
    · exact .inl hr
    · have hs := hz.sign.resolve_left hr
      have hsame : a < 0 ↔ b < 0 := by
        by_contra hne
        exact h ⟨hr, fun he => hne (eq_iff_iff.mp he)⟩
      refine .inr ?_
      simp only [Int64.lt_iff_toInt_lt, Int64.toInt_zero] at hs hsame ⊢
      omega

theorem toInt_floorMod_add (hb : b ≠ 0) (h : ¬ Overflows a b) :
    (Builtin.floorMod a b).toInt + b.toInt * (Builtin.floorDiv a b).toInt = a.toInt := by
  have hexact := Int.tmod_add_mul_tdiv a.toInt b.toInt
  rw [← toInt_div h, ← Int64.toInt_mod] at hexact
  rw [floorDiv_eq, floorMod_eq]
  split
  · rename_i hr
    rw [toInt_div_sub_one hb hr, toInt_mod_add hr, Int.mul_sub, Int.mul_one]
    omega
  · exact hexact

theorem toInt_floorDiv (hb : b ≠ 0) (h : ¬ Overflows a b) :
    (Builtin.floorDiv a b).toInt = a.toInt.fdiv b.toInt := by
  have hexact := toInt_floorMod_add hb h
  obtain ⟨-, hsmall, hsign⟩ := down a hb
  have hb' := toInt_ne_zero hb
  simp only [Int64.lt_iff_toInt_lt, Int64.toInt_zero, ← Int64.toInt_inj] at hsign
  rcases Int.lt_or_gt_of_ne hb' with hneg | hpos
  · exact ((Int.fdiv_fmod_unique' hneg).mpr ⟨hexact, by omega, by omega⟩).1.symm
  · exact ((Int.fdiv_fmod_unique hpos).mpr ⟨hexact, by omega, by omega⟩).1.symm

/-! ## Operators and builtin functions -/

/-- On whatever stands for the integers `a` and `b`, both divisions fail if `b` is zero. Otherwise they
give quotients and remainders that add up to `a`; the quotients are those of the numbers, rounded toward
zero and rounded down, if 64 bits can hold them, and where the second is one less, neither it nor its
remainder wraps around. -/
theorem quotients_exact (h : Heap) {l r : Value} (hl : l.int? = some a) (hr : r.int? = some b) :
    (b = 0 → Operator.div.eval l r = .error .divisionByZero ∧
      Operator.rem.eval l r = .error .divisionByZero ∧
      Builtin.div.call h [l, r] = .error (.builtinZero .div) ∧
      Builtin.mod.call h [l, r] = .error (.builtinZero .mod)) ∧
    (b ≠ 0 → ∃ q m d n : Int64,
      Operator.div.eval l r = .ok (.int q) ∧ Operator.rem.eval l r = .ok (.int m) ∧
      Builtin.div.call h [l, r] = .ok (.int d, h) ∧ Builtin.mod.call h [l, r] = .ok (.int n, h) ∧
      Division a b a q m ∧ Division a b b d n ∧
      (if Overflows a b then q = Int64.minValue ∧ d = Int64.minValue
        else q.toInt = a.toInt.tdiv b.toInt ∧ d.toInt = a.toInt.fdiv b.toInt) ∧
      if RoundsDown a b then d.toInt = q.toInt - 1 ∧ n.toInt = m.toInt + b.toInt
        else d = q ∧ n = m) := by
  constructor
  · intro hb
    simp [Operator.eval, Operator.arithmetic, Builtin.call, Builtin.divisionArgs, hl, hr, hb, Except.map,
      bind, Except.bind]
  · intro hb
    refine ⟨a / b, a % b, Builtin.floorDiv a b, Builtin.floorMod a b, ?_, ?_, ?_, ?_,
      toward_zero a hb, down a hb, ?_, ?_⟩
    · simp [Operator.eval, Operator.arithmetic, hl, hr, hb, Except.map]
    · simp [Operator.eval, Operator.arithmetic, hl, hr, hb, Except.map]
    · simp [Builtin.call, Builtin.divisionArgs, hl, hr, hb, bind, Except.bind]
      rfl
    · simp [Builtin.call, Builtin.divisionArgs, hl, hr, hb, bind, Except.bind]
      rfl
    · split
      · rename_i ho
        obtain ⟨rfl, rfl⟩ := ho
        exact ⟨rfl, rfl⟩
      · rename_i ho
        exact ⟨toInt_div ho, toInt_floorDiv hb ho⟩
    · rw [floorDiv_eq, floorMod_eq]
      split
      · rename_i hd
        exact ⟨toInt_div_sub_one hb hd, toInt_mod_add hd⟩
      · exact ⟨rfl, rfl⟩

/-- -7 by an integer 2 of the host, the least integer by -1, and 5 by 0. -/
theorem quotients_exact_rounded :
    (∃ q d : Int64, Operator.div.eval (.int (-7)) (.host (.ofInt 2)) = .ok (.int q) ∧
      Builtin.div.call {} [.int (-7), .host (.ofInt 2)] = .ok (.int d, {}) ∧
      q.toInt = -3 ∧ d.toInt = -4 ∧ ∃ n, Division (-7) 2 2 d n) ∧
    (∃ q d : Int64, Operator.div.eval (.int Int64.minValue) (.int (-1)) = .ok (.int q) ∧
      Builtin.div.call {} [.int Int64.minValue, .int (-1)] = .ok (.int d, {}) ∧
      q = Int64.minValue ∧ d = Int64.minValue) ∧
    Builtin.mod.call {} [.int 5, .int 0] = .error (.builtinZero .mod) := by
  refine ⟨?_, ?_, ?_⟩
  · obtain ⟨q, m, d, n, hq, -, hd, -, -, hdown, hvalue, -⟩ :=
      (quotients_exact {} (l := .int (-7)) (r := .host (.ofInt 2)) rfl rfl).2 (by decide)
    rw [if_neg (by decide)] at hvalue
    exact ⟨q, d, hq, hd, hvalue.1, hvalue.2, n, hdown⟩
  · obtain ⟨q, m, d, n, hq, -, hd, -, -, -, hvalue, -⟩ :=
      (quotients_exact {} (l := .int Int64.minValue) (r := .int (-1)) rfl rfl).2 (by decide)
    rw [if_pos (by decide)] at hvalue
    exact ⟨q, d, hq, hd, hvalue⟩
  · exact ((quotients_exact {} (l := .int 5) (r := .int 0) rfl rfl).1 rfl).2.2.2

end Division

end LazySession
