import Mathlib.Data.Nat.Log
import Mathlib.Data.List.Sort
import Mathlib.Data.List.Induction
import Mathlib.Algebra.Group.Nat.Defs

/-!
# Sums truncated to a number of digits

A number kept to `D` digits in base `b` loses its digits below the `D`-th: `chop` clears them,
at the position `level` gives. A list summed in order with every partial sum chopped, `truncSum`,
is how a decimal floating format whose addition truncates sums a collection.

For a sorted list, inserting one more element `o` raises the sum by at most `o` rounded up to the
position of the old sum's last digit (`truncSum_orderedInsert`). So a budget `T` that keeps to `D`
digits is kept when `o` is at most `T` less the old sum cut at the position of `T`'s last digit
(`truncSum_orderedInsert_le`), which is what `T - S` computes when `S` is aligned to `T` by
truncation.
-/

set_option autoImplicit false

namespace List

variable {α : Type} [LinearOrder α]

/-- Inserting after the elements not above `a` (`upper_bound`) happens before a last element above
`a`. -/
theorem orderedInsert_append_of_lt {a x : α} (h : a < x) : ∀ l : List α,
    (l ++ [x]).orderedInsert (· < ·) a = l.orderedInsert (· < ·) a ++ [x]
  | [] => by simp [h]
  | y :: l => by
    simp only [cons_append, orderedInsert_cons]
    split
    · rfl
    · rw [orderedInsert_append_of_lt h l, cons_append]

/-- An element no smaller than every element is inserted last. -/
theorem orderedInsert_lt_of_forall_le {a : α} : ∀ {l : List α}, (∀ y ∈ l, y ≤ a) →
    l.orderedInsert (· < ·) a = l ++ [a]
  | [], _ => rfl
  | y :: l, h => by
    rw [orderedInsert_cons, if_neg (not_lt.mpr (h y mem_cons_self)),
      orderedInsert_lt_of_forall_le fun z hz => h z (mem_cons_of_mem y hz), cons_append]

/-- Inserting after the elements not above it keeps a list sorted. -/
theorem Pairwise.orderedInsert_lt {a : α} : ∀ {l : List α}, l.Pairwise (· ≤ ·) →
    (l.orderedInsert (· < ·) a).Pairwise (· ≤ ·)
  | [], _ => pairwise_singleton _ _
  | y :: l, h => by
    obtain ⟨hy, hl⟩ := pairwise_cons.mp h
    rw [orderedInsert_cons]
    split
    · rename_i hay
      refine pairwise_cons.mpr ⟨fun z hz => ?_, h⟩
      rcases mem_cons.mp hz with rfl | hz
      · exact hay.le
      · exact hay.le.trans (hy z hz)
    · rename_i hay
      refine pairwise_cons.mpr ⟨fun z hz => ?_, hl.orderedInsert_lt⟩
      rcases (mem_orderedInsert _).mp hz with rfl | hz
      · exact not_lt.mp hay
      · exact hy z hz

end List

namespace TruncSum

section Defs

variable (b D : Nat)

/-- `v` rounded down to a multiple of `b ^ k`. -/
def floorTo (k v : Nat) : Nat := v / b ^ k * b ^ k

/-- The position of the last digit that `D` digits of `v` keep: its digits in base `b` beyond the
first `D`. -/
def level (v : Nat) : Nat := Nat.log b v + 1 - D

/-- `v` kept to its first `D` digits, the others cleared. -/
def chop (v : Nat) : Nat := floorTo b (level b D v) v

/-- A list summed from zero in list order, every partial sum kept to `D` digits. -/
def truncSum (l : List Nat) : Nat := l.foldl (fun s y => chop b D (s + y)) 0

end Defs

variable {b D : Nat}

/-! ## Rounding down to a multiple of a power -/

section Floor

theorem floorTo_le (k v : Nat) : floorTo b k v ≤ v := Nat.div_mul_le_self v (b ^ k)

theorem floorTo_mono (k : Nat) {v w : Nat} (h : v ≤ w) : floorTo b k v ≤ floorTo b k w :=
  Nat.mul_le_mul_right _ (Nat.div_le_div_right h)

theorem dvd_floorTo (k v : Nat) : b ^ k ∣ floorTo b k v := Nat.dvd_mul_left (b ^ k) (v / b ^ k)

theorem floorTo_eq_of_dvd {k v : Nat} (h : b ^ k ∣ v) : floorTo b k v = v := Nat.div_mul_cancel h

/-- A multiple of `b ^ k` below `v` is below `v` rounded down. -/
theorem le_floorTo_of_dvd {k m v : Nat} (hm : b ^ k ∣ m) (h : m ≤ v) : m ≤ floorTo b k v :=
  floorTo_eq_of_dvd hm ▸ floorTo_mono k h

/-- Rounding at a coarser position rounds further down. -/
theorem floorTo_anti {j k : Nat} (hjk : j ≤ k) (v : Nat) : floorTo b k v ≤ floorTo b j v :=
  le_floorTo_of_dvd (Nat.dvd_trans (Nat.pow_dvd_pow b hjk) (dvd_floorTo k v)) (floorTo_le k v)

theorem floorTo_add_of_dvd (hb : 0 < b) {k c : Nat} (hc : b ^ k ∣ c) (v : Nat) :
    floorTo b k (v + c) = floorTo b k v + c := by
  obtain ⟨q, rfl⟩ := hc
  unfold floorTo
  rw [Nat.mul_comm (b ^ k) q, Nat.add_mul_div_right _ _ (Nat.pow_pos hb), Nat.add_mul]

theorem lt_floorTo_add (hb : 0 < b) (k v : Nat) : v < floorTo b k v + b ^ k :=
  Nat.lt_div_mul_add (Nat.pow_pos hb)

end Floor

/-! ## Keeping `D` digits -/

section Chop

theorem level_mono {v w : Nat} (h : v ≤ w) : level b D v ≤ level b D w :=
  Nat.sub_le_sub_right (Nat.succ_le_succ (Nat.log_mono_right h)) D

/-- A number has at most `D` digits above its level. -/
theorem lt_pow_level (hb : 1 < b) (v : Nat) : v < b ^ (D + level b D v) :=
  calc v < b ^ (Nat.log b v + 1) := Nat.lt_pow_succ_log_self hb v
    _ ≤ b ^ (D + level b D v) := Nat.pow_le_pow_right (by omega) (by unfold level; omega)

theorem chop_le (v : Nat) : chop b D v ≤ v := floorTo_le _ v

theorem dvd_chop (v : Nat) : b ^ level b D v ∣ chop b D v := dvd_floorTo _ v

/-- Above level zero, the leading digit of `v` is kept. -/
theorem pow_log_le_chop (hD : 0 < D) {v : Nat} (h : 0 < level b D v) : b ^ Nat.log b v ≤ chop b D v := by
  have hv : v ≠ 0 := by
    rintro rfl
    simp [level] at h
    omega
  exact le_floorTo_of_dvd (Nat.pow_dvd_pow b (by unfold level; omega)) (Nat.pow_log_le_self b hv)

theorem chop_mono (hb : 1 < b) (hD : 0 < D) {v w : Nat} (h : v ≤ w) : chop b D v ≤ chop b D w := by
  rcases (level_mono h).eq_or_lt with heq | hlt
  · unfold chop
    rw [heq]
    exact floorTo_mono _ h
  · -- `w` has more digits than `v` can have at its level
    have hw : 0 < level b D w := by omega
    have hlog : D + level b D v ≤ Nat.log b w := by unfold level at hlt ⊢; omega
    calc chop b D v ≤ v := chop_le v
      _ ≤ b ^ (D + level b D v) := (lt_pow_level hb v).le
      _ ≤ b ^ Nat.log b w := Nat.pow_le_pow_right (by omega) hlog
      _ ≤ chop b D w := pow_log_le_chop hD hw

theorem level_chop (hb : 1 < b) (hD : 0 < D) (v : Nat) : level b D (chop b D v) = level b D v := by
  by_cases h : level b D v = 0
  · have hc : chop b D v = v := by rw [chop, h, floorTo, Nat.pow_zero, Nat.div_one, Nat.mul_one]
    rw [hc]
  · have hlog : Nat.log b (chop b D v) = Nat.log b v :=
      Nat.log_eq_of_pow_le_of_lt_pow (pow_log_le_chop hD (Nat.pos_of_ne_zero h))
        (lt_of_le_of_lt (chop_le v) (Nat.lt_pow_succ_log_self hb v))
    rw [level, level, hlog]

theorem chop_chop (hb : 1 < b) (hD : 0 < D) (v : Nat) : chop b D (chop b D v) = chop b D v := by
  rw [chop, level_chop hb hD]
  exact floorTo_eq_of_dvd (dvd_chop v)

/-- A number with `D` digits above position `k` is at level `k`. -/
theorem level_mul_add (hD : 0 < D) {q k r : Nat} (hq : b ^ (D - 1) ≤ q) (hq' : q < b ^ D)
    (hr : r < b ^ k) : level b D (q * b ^ k + r) = k := by
  have hlow : b ^ (D - 1 + k) ≤ q * b ^ k + r := by
    rw [Nat.pow_add]
    exact (Nat.mul_le_mul_right _ hq).trans (Nat.le_add_right _ _)
  have hhigh : q * b ^ k + r < b ^ (D - 1 + k + 1) := by
    have hD' : D - 1 + k + 1 = D + k := by omega
    calc q * b ^ k + r < q * b ^ k + b ^ k := by omega
      _ = (q + 1) * b ^ k := by rw [Nat.add_mul, Nat.one_mul]
      _ ≤ b ^ D * b ^ k := Nat.mul_le_mul_right _ hq'
      _ = b ^ (D - 1 + k + 1) := by rw [hD', Nat.pow_add]
  rw [level, Nat.log_eq_of_pow_le_of_lt_pow hlow hhigh]
  omega

/-- Keeping the `D` digits above position `k` drops what is below. -/
theorem chop_mul_add (hb : 1 < b) (hD : 0 < D) {q k r : Nat} (hq : b ^ (D - 1) ≤ q) (hq' : q < b ^ D)
    (hr : r < b ^ k) : chop b D (q * b ^ k + r) = q * b ^ k := by
  rw [chop, level_mul_add hD hq hq' hr, floorTo, Nat.add_comm, Nat.add_mul_div_right _ _ (Nat.pow_pos (by omega)),
    Nat.div_eq_of_lt hr, Nat.zero_add]

/-- A number that keeps to `D` digits is a multiple of the position of its last digit. -/
theorem dvd_of_chop_eq {T : Nat} (hT : chop b D T = T) : b ^ level b D T ∣ T := by
  have hd := dvd_chop (b := b) (D := D) T
  rwa [hT] at hd

/-- **Kept numbers are spaced by the last digit of the smaller**: above a number `T` that keeps to
`D` digits, the next one is `b ^ level T` away. -/
theorem add_pow_level_le {T S : Nat} (hT : chop b D T = T) (hS : chop b D S = S) (h : T < S) :
    T + b ^ level b D T ≤ S := by
  have hdT := dvd_of_chop_eq hT
  have hdS : b ^ level b D T ∣ S :=
    Nat.dvd_trans (Nat.pow_dvd_pow b (level_mono h.le)) (dvd_of_chop_eq hS)
  have hgap := Nat.le_of_dvd (Nat.sub_pos_of_lt h) (Nat.dvd_sub hdS hdT)
  omega

end Chop

/-! ## Truncated sums -/

section Sum

theorem truncSum_append_singleton (l : List Nat) (x : Nat) :
    truncSum b D (l ++ [x]) = chop b D (truncSum b D l + x) := by
  simp only [truncSum, List.foldl_append, List.foldl_cons, List.foldl_nil]

variable (hb : 1 < b) (hD : 0 < D)
include hb hD

theorem chop_truncSum (l : List Nat) : chop b D (truncSum b D l) = truncSum b D l := by
  induction l using List.reverseRecOn with
  | nil => simp [truncSum, chop, floorTo]
  | append_singleton l x _ => rw [truncSum_append_singleton, chop_chop hb hD]

/-- A kept number summed with more elements does not go down. -/
theorem le_foldl_chop {s : Nat} (hs : chop b D s = s) :
    ∀ l : List Nat, s ≤ l.foldl (fun s y => chop b D (s + y)) s
  | [] => le_rfl
  | y :: l => by
    have hstep : s ≤ chop b D (s + y) := hs ▸ chop_mono hb hD (by omega)
    exact hstep.trans (le_foldl_chop (chop_chop hb hD _) l)

/-- **One more element in a sorted sum.** Inserting `o` into a sorted list raises its truncated sum
by at most any multiple `c` of the position of the old sum's last digit with `o ≤ c`. By induction
on the list from its last, greatest, element: when `o` goes before it, the sums without it differ
by at most `c` by induction, and adding the last element and cutting at its position keeps that
difference, since `c` is a multiple of that position. -/
theorem truncSum_orderedInsert {o c : Nat} (hoc : o ≤ c) (l : List Nat) (hl : l.Pairwise (· ≤ ·))
    (hc : b ^ level b D (truncSum b D l) ∣ c) :
    truncSum b D (l.orderedInsert (· < ·) o) ≤ truncSum b D l + c := by
  induction l using List.reverseRecOn with
  | nil =>
    simp only [List.orderedInsert_nil, truncSum, List.foldl_cons, List.foldl_nil, Nat.zero_add]
    exact (chop_le o).trans hoc
  | append_singleton l x ih =>
    obtain ⟨hl', -, hlx⟩ := List.pairwise_append.mp hl
    rw [truncSum_append_singleton] at hc ⊢
    by_cases hox : o < x
    · rw [List.orderedInsert_append_of_lt hox, truncSum_append_singleton]
      set S₀ := truncSum b D l
      set S₀' := truncSum b D (l.orderedInsert (· < ·) o)
      set ℓ := level b D (chop b D (S₀ + x))
      have hℓ : level b D (S₀ + x) = ℓ := (level_chop hb hD _).symm
      by_cases hle : chop b D (S₀' + x) ≤ chop b D (S₀ + x)
      · exact hle.trans (Nat.le_add_right _ _)
      · -- the new sum is cut at a position at least `ℓ`, and `c` is a multiple of `b ^ ℓ`
        have hlev : ℓ ≤ level b D (S₀' + x) := by
          rw [← level_chop hb hD (S₀' + x)]
          exact level_mono (le_of_lt (not_le.mp hle))
        have hS₀ : level b D S₀ ≤ ℓ := hℓ ▸ level_mono (Nat.le_add_right _ _)
        have hih : S₀' ≤ S₀ + c := ih hl' (Nat.dvd_trans (Nat.pow_dvd_pow b hS₀) hc)
        calc chop b D (S₀' + x) ≤ floorTo b ℓ (S₀' + x) := floorTo_anti hlev _
          _ ≤ floorTo b ℓ (S₀ + x + c) := floorTo_mono ℓ (by omega)
          _ = floorTo b ℓ (S₀ + x) + c := floorTo_add_of_dvd (by omega) hc _
          _ = chop b D (S₀ + x) + c := by rw [chop, hℓ]
    · -- `o` is the greatest and goes last
      have hall : ∀ y ∈ l ++ [x], y ≤ o := by
        intro y hy
        rcases List.mem_append.mp hy with hy | hy
        · exact (hlx y hy x (List.mem_singleton_self x)).trans (not_lt.mp hox)
        · exact List.mem_singleton.mp hy ▸ not_lt.mp hox
      rw [List.orderedInsert_lt_of_forall_le hall, truncSum_append_singleton, truncSum_append_singleton]
      exact (chop_le _).trans (by omega)

/-- **A budget kept.** If the truncated sum `S` of a sorted list is within a budget `T` that keeps
to `D` digits, inserting an element no larger than `T` less `S` cut at the position of `T`'s last
digit keeps the sum within `T`. -/
theorem truncSum_orderedInsert_le {l : List Nat} (hl : l.Pairwise (· ≤ ·)) {o T : Nat}
    (hT : chop b D T = T) (hS : truncSum b D l ≤ T)
    (ho : o ≤ T - floorTo b (level b D T) (truncSum b D l)) :
    truncSum b D (l.orderedInsert (· < ·) o) ≤ T := by
  have hc : b ^ level b D (truncSum b D l) ∣ T - floorTo b (level b D T) (truncSum b D l) :=
    Nat.dvd_trans (Nat.pow_dvd_pow b (level_mono hS)) (Nat.dvd_sub (dvd_of_chop_eq hT) (dvd_floorTo _ _))
  have hK := truncSum_orderedInsert hb hD ho l hl hc
  have hfl := floorTo_le (b := b) (level b D T) (truncSum b D l)
  have hlt := lt_floorTo_add (b := b) (by omega) (level b D T) (truncSum b D l)
  have hsub := Nat.sub_add_cancel (hfl.trans hS)
  -- a sum above `T` would be a whole `b ^ level T` above it
  by_contra hgt
  have hgap := add_pow_level_le hT (chop_truncSum hb hD _) (not_le.mp hgt)
  omega

end Sum

end TruncSum
