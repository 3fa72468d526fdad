/-
  Rddl/Proofs/Datum/Keys.lean
  ===========================
  **What a datum is worth as a key.**

  Two data agree exactly if they are worth the same (`agrees_and_agreeAll_iff`), where a
  number is worth its place on the number line and a sequence what its items are
  worth.  A datum that is worth nothing, such as an undefined number, agrees with no
  datum, not even with itself.  So keys have an equality that is symmetric and
  transitive but not reflexive, and that is enough for a table to find under a key
  what it holds under any equal one (`Table.find?_congr`).
-/
import Mathlib.Algebra.Order.Field.Power
import Mathlib.Algebra.Order.Field.Rat
import Mathlib.Data.Int.Cast.Lemmas
import Rddl.Datum.Order

namespace Rddl

/-! ### Places on the number line -/

namespace Binary64.Point

/-- The number at a place, or the sign of an infinity. -/
def number : Point → ℚ ⊕ Bool
  | .value a e => .inl (a * 2 ^ e)
  | .infinity negative => .inr negative

theorem cast_mul_twoTo (a : Int) {e base : Int} (h : base ≤ e) :
    ((a * Int.ofNat (twoTo (e - base).toNat) : Int) : ℚ) = a * 2 ^ e / 2 ^ base := by
  have hpow : ((twoTo (e - base).toNat : Nat) : ℚ) = 2 ^ (e - base) := by
    rw [twoTo, Nat.pow_eq, Nat.cast_pow, ← zpow_natCast, Int.toNat_of_nonneg (by omega)]
    rfl
  rw [Int.cast_mul, Int.ofNat_eq_natCast, Int.cast_natCast, hpow,
    zpow_sub₀ two_ne_zero, mul_div_assoc]

theorem compareOfLessAndEq_eq_eq_iff (a b : Int) : compareOfLessAndEq a b = .eq ↔ a = b := by
  rw [compareOfLessAndEq]
  by_cases hlt : a < b
  · simp [hlt, hlt.ne]
  · by_cases heq : a = b <;> simp [hlt, heq]

theorem compare_eq_eq_iff (p q : Point) : p.compare q = .eq ↔ p.number = q.number := by
  cases p with
  | infinity s => cases q <;> cases s <;> simp [compare, number] <;> split <;> simp_all
  | value a e =>
    cases q with
    | infinity s => cases s <;> simp [compare, number]
    | value b f =>
      have hbase : (2 : ℚ) ^ min e f ≠ 0 := zpow_ne_zero _ two_ne_zero
      rw [compare, compareOfLessAndEq_eq_eq_iff, ← Int.cast_inj (α := ℚ),
        cast_mul_twoTo a (min_le_left e f), cast_mul_twoTo b (min_le_right e f),
        div_left_inj' hbase, number, number, Sum.inl.injEq]

end Binary64.Point

/-! ### The worth of a datum -/

inductive Worth where
  | text (value : String)
  | number (value : ℚ ⊕ Bool)
  | absent
  | tuple (items : List Worth)
  | list (items : List Worth)

namespace Datum

mutual

def worth? : Datum → Option Worth
  | .text s => some (.text s)
  | .absent => some .absent
  | .tuple ds => (worths? ds).map .tuple
  | .list ds => (worths? ds).map .list
  | d => d.point?.map fun p => .number p.number

def worths? : List Datum → Option (List Worth)
  | [] => some []
  | d :: ds => d.worth?.bind fun w => (worths? ds).map (w :: ·)

end

theorem worth?_eq_number {d : Datum} {n : ℚ ⊕ Bool} :
    d.worth? = some (.number n) ↔ d.point?.map Binary64.Point.number = some n := by
  cases d <;> simp [worth?, point?]

theorem eq_text_of_worth? {d : Datum} {s : String} (h : d.worth? = some (.text s)) :
    d = .text s := by
  cases d <;> simp_all [worth?]

theorem eq_absent_of_worth? {d : Datum} (h : d.worth? = some .absent) : d = .absent := by
  cases d <;> simp_all [worth?]

theorem exists_tuple_of_worth? {d : Datum} {ws : List Worth} (h : d.worth? = some (.tuple ws)) :
    ∃ ds, d = .tuple ds := by
  cases d <;> simp_all [worth?]

theorem exists_list_of_worth? {d : Datum} {ws : List Worth} (h : d.worth? = some (.list ws)) :
    ∃ ds, d = .list ds := by
  cases d <;> simp_all [worth?]

theorem worths?_nil : worths? [] = some [] := by rw [worths?]

theorem worths?_cons_eq_some {d : Datum} {ds : List Datum} {ws : List Worth} :
    worths? (d :: ds) = some ws ↔
      ∃ w rest, d.worth? = some w ∧ worths? ds = some rest ∧ w :: rest = ws := by
  simp only [worths?, Option.bind_eq_some_iff, Option.map_eq_some_iff]
  constructor
  · rintro ⟨w, hw, rest, hrest, heq⟩
    exact ⟨w, rest, hw, hrest, heq⟩
  · rintro ⟨w, rest, hw, hrest, heq⟩
    exact ⟨w, hw, rest, hrest, heq⟩

theorem numericOrder_eq_iff (a b : Datum) :
    numericOrder .eq a b = true ↔
      ∃ n, a.point?.map Binary64.Point.number = some n ∧
        b.point?.map Binary64.Point.number = some n := by
  rw [numericOrder]
  cases a.point? <;> cases b.point? <;> simp [Binary64.Point.compare_eq_eq_iff, @eq_comm (ℚ ⊕ Bool)]

/-- **Data agree exactly if they are worth the same,** and so do sequences of data. -/
theorem agrees_and_agreeAll_iff :
    (∀ a b, agrees a b = true ↔ ∃ w, a.worth? = some w ∧ b.worth? = some w) ∧
    ∀ as bs, agreeAll as bs = true ↔ ∃ ws, worths? as = some ws ∧ worths? bs = some ws := by
  apply agrees.mutual_induct
  case case1 =>
    intro a b
    simp [agrees, worth?, @eq_comm String]
  case case2 => simp [agrees, worth?]
  case case3 =>
    intro as bs ih
    simp [agrees, ih, worth?]
  case case4 =>
    intro as bs ih
    simp [agrees, ih, worth?]
  case case5 =>
    intro a b htext habsent htuple hlist
    -- neither two texts nor two absent, tuples or lists: what is left is compared as numbers
    have hagrees : agrees a b = numericOrder .eq a b := by rw [agrees] <;> assumption
    rw [hagrees, numericOrder_eq_iff]
    constructor
    · rintro ⟨n, ha, hb⟩
      exact ⟨.number n, worth?_eq_number.mpr ha, worth?_eq_number.mpr hb⟩
    · -- what both are worth can only be a number
      rintro ⟨w, ha, hb⟩
      cases w with
      | number n => exact ⟨n, worth?_eq_number.mp ha, worth?_eq_number.mp hb⟩
      | text s => exact (htext s s (eq_text_of_worth? ha) (eq_text_of_worth? hb)).elim
      | absent => exact (habsent (eq_absent_of_worth? ha) (eq_absent_of_worth? hb)).elim
      | tuple ws =>
        obtain ⟨as, rfl⟩ := exists_tuple_of_worth? ha
        obtain ⟨bs, rfl⟩ := exists_tuple_of_worth? hb
        exact (htuple as bs rfl rfl).elim
      | list ws =>
        obtain ⟨as, rfl⟩ := exists_list_of_worth? ha
        obtain ⟨bs, rfl⟩ := exists_list_of_worth? hb
        exact (hlist as bs rfl rfl).elim
  case case6 => simp [agreeAll, worths?_nil]
  case case7 =>
    intro a as b bs ih ihs
    rw [agreeAll, Bool.and_eq_true, ih, ihs]
    simp only [worths?_cons_eq_some]
    constructor
    · rintro ⟨⟨w, ha, hb⟩, ws, has, hbs⟩
      exact ⟨w :: ws, ⟨w, ws, ha, has, rfl⟩, w, ws, hb, hbs, rfl⟩
    · rintro ⟨_, ⟨w, ws, ha, has, rfl⟩, w', ws', hb, hbs, heq⟩
      cases heq
      exact ⟨⟨w, ha, hb⟩, ws, has, hbs⟩
  case case8 =>
    -- one of the lists is longer, and then their worths are not of one length, either
    intro as bs hnil hcons
    cases as with
    | nil =>
      cases bs with
      | nil => exact (hnil rfl rfl).elim
      | cons b bs => simp [agreeAll, worths?_nil, worths?_cons_eq_some]
    | cons a as =>
      cases bs with
      | nil => simp [agreeAll, worths?_nil, worths?_cons_eq_some]
      | cons b bs => exact (hcons a as b bs rfl rfl).elim

end Datum

/-! ### Keys -/

theorem Key.beq_eq_true_iff (a b : Key) :
    (a == b) = true ↔ ∃ w, a.datum.worth? = some w ∧ b.datum.worth? = some w :=
  Datum.agrees_and_agreeAll_iff.1 a.datum b.datum

instance : PartialEquivBEq Key where
  symm := by
    intro a b hab
    rw [Key.beq_eq_true_iff] at hab ⊢
    obtain ⟨w, ha, hb⟩ := hab
    exact ⟨w, hb, ha⟩
  trans := by
    intro a b c hab hbc
    rw [Key.beq_eq_true_iff] at hab hbc ⊢
    obtain ⟨w, ha, hb⟩ := hab
    obtain ⟨w', hb', hc⟩ := hbc
    rw [hb, Option.some_inj] at hb'
    exact ⟨w, ha, hb' ▸ hc⟩

end Rddl
