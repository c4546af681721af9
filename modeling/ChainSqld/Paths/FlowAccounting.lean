import ChainSqld.Paths.StrandFlow
import ChainSqld.Protocol.IOUValue

/-!
# The budgets of `flow` in `IOUAmount` and `ZXCAmount`

`Flow.cpp` runs the multi-strand `flow` over `ZXCAmount` and `IOUAmount` in and out. Both keep
its accounting (`StrandFlow.Accounting`) for amounts that are not negative:

* `ZXCAmount.accounting`: drops are summed exactly, as no sum within a budget leaves 64 bits;
* `IOUAmount.accounting`: the sum of the saved amounts, taken from the smallest with every partial
  sum cut to sixteen digits, is not above the budget, because each amount saved is not above
  the budget less the sum cut at the budget's last place (`TruncSum.truncSum_orderedInsert_le`),
  which is what `minus` leaves at most (`IOUAmount.minus_le`).

So `flow_keeps_budgets`: in the four instantiations the amounts `flow` returns are within
`outReq` and `sendMax`, and `tefEXCEPTION` is never returned, as long as every strand moves
amounts that are not negative. A negative amount out breaks it: cut at a coarser place in the sum
than in what remained, it adds less than it was counted for (`flow_negative_out_exceeds`).
-/

set_option autoImplicit false

namespace Ripple

open StrandFlow TruncSum

/-! ## ZXCAmount -/

namespace ZXCAmount

/-- `ZXCAmount (beast::zero)`. -/
def zero : ZXCAmount := ⟨0⟩

/-- `signum`. -/
def signum (a : ZXCAmount) : Int := if a.drops < 0 then -1 else if a.drops ≠ 0 then 1 else 0

/-- `operator+`, from `operator+=` on the drops. -/
def plus (a other : ZXCAmount) : ZXCAmount := ⟨a.drops + other.drops⟩

/-- `operator-`, from `operator-=` on the drops. -/
def minus (a other : ZXCAmount) : ZXCAmount := ⟨a.drops - other.drops⟩

/-- `operator<`. -/
def lessThan (a other : ZXCAmount) : Bool := decide (a.drops < other.drops)

instance flowAmount : FlowAmount ZXCAmount where
  zero := zero
  signum := signum
  add a other := .ok (a.plus other)
  sub a other := .ok (a.minus other)
  lt := lessThan

/-- An amount a strand moves: no drops below zero. -/
def Nonneg (a : ZXCAmount) : Prop := 0 ≤ a.drops.toInt

instance : DecidablePred Nonneg := fun a => inferInstanceAs (Decidable (0 ≤ a.drops.toInt))

/-- The drops of amounts, added as integers. -/
def total (l : List ZXCAmount) : Int := (l.map fun x => x.drops.toInt).sum

/-- A budget `T`, the amounts `l` saved against it and what remains `R`: none is negative, `l`
adds up to at most `T`, and `R` is the difference. -/
def Within (T : ZXCAmount) (l : List ZXCAmount) (R : ZXCAmount) : Prop :=
  T.Nonneg ∧ (∀ x ∈ l, x.Nonneg) ∧ total l ≤ T.drops.toInt ∧ R.drops.toInt = T.drops.toInt - total l

@[simp] theorem total_nil : total [] = 0 := rfl

@[simp] theorem total_cons (x : ZXCAmount) (l : List ZXCAmount) :
    total (x :: l) = x.drops.toInt + total l := by
  simp [total]

theorem total_nonneg {l : List ZXCAmount} (hl : ∀ x ∈ l, x.Nonneg) : 0 ≤ total l :=
  List.sum_nonneg (by simpa [Nonneg] using hl)

theorem total_multisetInsert (o : ZXCAmount) (l : List ZXCAmount) :
    total (multisetInsert o l) = o.drops.toInt + total l := by
  rw [← total_cons]
  exact ((List.perm_orderedInsert _ o l).map _).sum_eq

theorem lessThan_iff {a b : ZXCAmount} : a.lessThan b = true ↔ a.drops.toInt < b.drops.toInt := by
  simp [lessThan, Int64.lt_iff_toInt_lt]

/-- A sum of drops that stays in 64 bits is exact. -/
theorem toInt_plus {a b : ZXCAmount} (h0 : 0 ≤ a.drops.toInt + b.drops.toInt)
    (h : a.drops.toInt + b.drops.toInt < 2 ^ 63) :
    (a.plus b).drops.toInt = a.drops.toInt + b.drops.toInt := by
  rw [plus, Int64.toInt_add]
  exact Int.bmod_eq_of_le (by omega) (by omega)

/-- A difference of drops that stays in 64 bits is exact. -/
theorem toInt_minus {a b : ZXCAmount} (h0 : 0 ≤ a.drops.toInt - b.drops.toInt)
    (h : a.drops.toInt - b.drops.toInt < 2 ^ 63) :
    (a.minus b).drops.toInt = a.drops.toInt - b.drops.toInt := by
  rw [minus, Int64.toInt_sub]
  exact Int.bmod_eq_of_le (by omega) (by omega)

/-- Adding up drops that are not negative, while the total stays in 64 bits, is exact. -/
theorem toInt_foldl_plus : ∀ (xs : List ZXCAmount) (a : ZXCAmount), a.Nonneg → (∀ x ∈ xs, x.Nonneg) →
    a.drops.toInt + total xs < 2 ^ 63 → (xs.foldl plus a).drops.toInt = a.drops.toInt + total xs
  | [], _, _, _, _ => by simp
  | x :: xs, a, ha, hxs, hfit => by
    have hx : x.Nonneg := hxs x List.mem_cons_self
    have hrest : ∀ y ∈ xs, y.Nonneg := fun y hy => hxs y (List.mem_cons_of_mem x hy)
    have ha' : 0 ≤ a.drops.toInt := ha
    have hx' : 0 ≤ x.drops.toInt := hx
    have htot : 0 ≤ total xs := total_nonneg hrest
    rw [total_cons] at hfit
    -- the first partial sum is exact, and the rest of the total is added to it
    have hax : (a.plus x).drops.toInt = a.drops.toInt + x.drops.toInt :=
      toInt_plus (Int.add_nonneg ha hx) (by omega)
    have hnn : (a.plus x).Nonneg := by unfold Nonneg; omega
    rw [List.foldl_cons, toInt_foldl_plus xs (a.plus x) hnn hrest (by omega), hax, total_cons]
    omega

/-- The `sum` of drops that are not negative, while they stay in 64 bits, is their total. -/
theorem sum_toInt {l : List ZXCAmount} (hl : ∀ x ∈ l, x.Nonneg) (hfit : total l < 2 ^ 63) :
    ∃ S, sum l = .ok S ∧ S.drops.toInt = total l := by
  cases l with
  | nil => exact ⟨zero, rfl, rfl⟩
  | cons x xs =>
    refine ⟨xs.foldl plus x, Except.foldlM_eq_ok (fun _ _ _ => rfl) x, ?_⟩
    rw [total_cons] at hfit ⊢
    exact toInt_foldl_plus xs x (hl x List.mem_cons_self)
      (fun y hy => hl y (List.mem_cons_of_mem x hy)) hfit

/-- **`ZXCAmount` keeps the accounting**: an amount not above what remains keeps the total of
the saved drops within the budget, and the sum and the difference are exact. -/
theorem accounting : Accounting ZXCAmount Nonneg Within where
  signum_nonneg := by
    intro a ha
    have hnot : ¬ a.drops < 0 := by
      rw [Int64.lt_iff_toInt_lt]
      exact Int.not_lt.mpr ha
    show 0 ≤ signum a
    unfold signum
    split_ifs <;> omega
  within_nil := fun hT => ⟨hT, by simp, by rw [total_nil]; exact hT, by simp⟩
  within_insert := by
    rintro T l R o ⟨hT, hl, hle, hR⟩ ho hlt
    have hoR : o.drops.toInt ≤ R.drops.toInt := by
      have hlt' : R.lessThan o = false := hlt
      rw [Bool.eq_false_iff, Ne, lessThan_iff] at hlt'
      omega
    have hl' : ∀ x ∈ multisetInsert o l, x.Nonneg := forall_mem_multisetInsert ho hl
    have htot : total (multisetInsert o l) ≤ T.drops.toInt := by
      rw [total_multisetInsert]
      omega
    obtain ⟨S, hS, hSv⟩ := sum_toInt hl' (lt_of_le_of_lt htot (Int64.toInt_lt _))
    refine ⟨S, T.minus S, hS, rfl, hT, hl', htot, ?_⟩
    have hS0 : 0 ≤ S.drops.toInt := hSv ▸ total_nonneg hl'
    rw [toInt_minus (by omega) (by have := Int64.toInt_lt T.drops; omega), hSv]
  sum_le := by
    rintro T l R ⟨hT, hl, hle, hR⟩
    obtain ⟨S, hS, hSv⟩ := sum_toInt hl (lt_of_le_of_lt hle (Int64.toInt_lt _))
    refine ⟨S, hS, ?_⟩
    show T.lessThan S = false
    rw [Bool.eq_false_iff, Ne, lessThan_iff]
    omega

end ZXCAmount

/-! ## IOUAmount -/

namespace IOUAmount

/-- `signum`. -/
def signum (a : IOUAmount) : Int := if a.mantissa < 0 then -1 else if a.mantissa ≠ 0 then 1 else 0

instance flowAmount : FlowAmount IOUAmount where
  zero := zero
  signum := signum
  add := plus
  sub := minus
  lt := lessThan

/-- An amount that is not negative is below the largest one. -/
theorem Nonneg.val_lt {a : IOUAmount} (h : a.Nonneg) : val a < 10 ^ 192 := by
  rcases h with rfl | h
  · simp
  · calc val a < 10 ^ (16 + a.place) := h.val_bounds.2
      _ ≤ 10 ^ 192 := Nat.pow_le_pow_right (by decide) (by have := h.place_le; omega)

/-- The `sum` of amounts that are not negative is the sum of their values with every partial sum
cut to sixteen digits, as long as that is below the largest amount. -/
theorem sum_val {l : List IOUAmount} (hl : ∀ x ∈ l, x.Nonneg)
    (hfit : truncSum 10 16 (l.map val) < 10 ^ 192) :
    ∃ S, sum l = .ok S ∧ S.Nonneg ∧ val S = truncSum 10 16 (l.map val) := by
  cases l with
  | nil => exact ⟨zero, rfl, Or.inl rfl, by simp [truncSum]⟩
  | cons x xs =>
    have hx := hl x List.mem_cons_self
    -- the first partial sum is the first amount, whole
    have hfirst : truncSum 10 16 ((x :: xs).map val) =
        (xs.map val).foldl (fun s y => chop 10 16 (s + y)) (val x) := by
      rw [List.map_cons, truncSum, List.foldl_cons, Nat.zero_add, hx.chop_val]
    rw [hfirst] at hfit ⊢
    exact foldlM_plus xs x hx (fun y hy => hl y (List.mem_cons_of_mem x hy)) hfit

/-- Inserting into the multiset inserts the value among the values. -/
theorem map_val_multisetInsert {o : IOUAmount} {l : List IOUAmount} (ho : o.Nonneg)
    (hl : ∀ x ∈ l, x.Nonneg) :
    (multisetInsert o l).map val = (l.map val).orderedInsert (· < ·) (val o) := by
  apply List.map_orderedInsert
  · intro a ha
    show a.lessThan o = true ↔ val a < val o
    rw [lessThan_nonneg (hl a ha) ho, decide_eq_true_iff]
  · intro a ha
    show o.lessThan a = true ↔ val o < val a
    rw [lessThan_nonneg ho (hl a ha), decide_eq_true_iff]

/-- A budget `T`, the amounts `l` saved against it and what remains `R`: none is negative, the
values of `l` are in order, their cut sum is not above `T`, and `R` is not above `T` less that
sum cut at `T`'s last place. -/
def Within (T : IOUAmount) (l : List IOUAmount) (R : IOUAmount) : Prop :=
  T.Nonneg ∧ (∀ x ∈ l, x.Nonneg) ∧ (l.map val).Pairwise (· ≤ ·) ∧
    truncSum 10 16 (l.map val) ≤ val T ∧ R.Nonneg ∧
    val R ≤ val T - floorTo 10 (level 10 16 (val T)) (truncSum 10 16 (l.map val))

/-- **`IOUAmount` keeps the accounting**: an amount not above what remains keeps the cut sum of
the saved amounts within the budget, and `minus` leaves no more than the budget less that sum
cut at the budget's last place. -/
theorem accounting : Accounting IOUAmount Nonneg Within where
  signum_nonneg := by
    intro a ha
    show 0 ≤ signum a
    have hm : 0 ≤ a.mantissa := by
      rcases ha with rfl | h
      · exact le_rfl
      · exact h.mantissa_pos.le
    unfold signum
    split_ifs <;> omega
  within_nil := fun hT =>
    ⟨hT, by simp, List.Pairwise.nil, by simp [truncSum], hT, by simp [truncSum, floorTo]⟩
  within_insert := by
    rintro T l R o ⟨hT, hl, hsort, hle, hR, hRle⟩ ho hlt
    have hoR : val o ≤ val R := by
      have hlt' : R.lessThan o = false := hlt
      rw [lessThan_nonneg hR ho, decide_eq_false_iff_not] at hlt'
      omega
    have hl' : ∀ x ∈ multisetInsert o l, x.Nonneg := forall_mem_multisetInsert ho hl
    have hmap := map_val_multisetInsert ho hl
    -- the saved amount is within what the budget less the sum cut at its place leaves
    have hsum : truncSum 10 16 ((multisetInsert o l).map val) ≤ val T := by
      rw [hmap]
      exact truncSum_orderedInsert_le (by decide) (by decide) hsort hT.chop_val hle (hoR.trans hRle)
    obtain ⟨S, hS, hSn, hSv⟩ := sum_val hl' (lt_of_le_of_lt hsum hT.val_lt)
    obtain ⟨R', hR', hR'n, hR'le⟩ := minus_le hT hSn (hSv ▸ hsum)
    refine ⟨S, R', hS, hR', hT, hl', ?_, hsum, hR'n, hSv ▸ hR'le⟩
    rw [hmap]
    exact hsort.orderedInsert_lt
  sum_le := by
    rintro T l R ⟨hT, hl, -, hle, -⟩
    obtain ⟨S, hS, hSn, hSv⟩ := sum_val hl (lt_of_le_of_lt hle hT.val_lt)
    refine ⟨S, hS, ?_⟩
    show T.lessThan S = false
    rw [lessThan_nonneg hT hSn, decide_eq_false_iff_not]
    omega

end IOUAmount

/-! ## The four instantiations -/

theorem flow_keeps_budgets :
    KeepsBudgets ZXCAmount ZXCAmount ZXCAmount.Nonneg ZXCAmount.Nonneg ∧
      KeepsBudgets ZXCAmount IOUAmount ZXCAmount.Nonneg IOUAmount.Nonneg ∧
      KeepsBudgets IOUAmount ZXCAmount IOUAmount.Nonneg ZXCAmount.Nonneg ∧
      KeepsBudgets IOUAmount IOUAmount IOUAmount.Nonneg IOUAmount.Nonneg :=
  ⟨keepsBudgets ZXCAmount.accounting ZXCAmount.accounting,
    keepsBudgets ZXCAmount.accounting IOUAmount.accounting,
    keepsBudgets IOUAmount.accounting ZXCAmount.accounting,
    keepsBudgets IOUAmount.accounting IOUAmount.accounting⟩

/-- A strand that delivers all that remains to deliver and spends nothing, while neither what
remains to deliver nor what remains to spend is negative. -/
def deliverAll (st : FlowState ZXCAmount ZXCAmount) : Option (BestStrand ZXCAmount ZXCAmount) :=
  if 0 ≤ st.remainingOut.drops.toInt ∧ st.remainingIn.all (fun r => decide (0 ≤ r.drops.toInt)) then
    some ⟨ZXCAmount.zero, st.remainingOut⟩
  else none

theorem deliverAll_respects : Respects ZXCAmount.Nonneg ZXCAmount.Nonneg deliverAll := by
  intro st b h
  simp only [deliverAll, Option.ite_none_right_eq_some] at h
  obtain ⟨⟨hout, hin⟩, hb⟩ := h
  obtain rfl := Option.some.inj hb
  refine ⟨show ZXCAmount.zero.Nonneg by decide, hout, by simp [FlowAmount.lt, ZXCAmount.lessThan],
    fun r hr => ?_⟩
  rw [hr] at hin
  show r.lessThan ZXCAmount.zero = false
  rw [Bool.eq_false_iff, Ne, ZXCAmount.lessThan_iff]
  simpa [ZXCAmount.zero] using hin

theorem flow_keeps_budgets_deliver_all :
    flow (⟨100⟩ : ZXCAmount) false false (some (⟨50⟩ : ZXCAmount)) deliverAll =
        .ok (.tesSUCCESS ⟨0⟩ ⟨100⟩) ∧
      (FlowResult.tesSUCCESS ⟨0⟩ ⟨100⟩ : FlowResult ZXCAmount ZXCAmount).Within ⟨100⟩ (some ⟨50⟩) :=
  have hwithin := (flow_keeps_budgets.1 ⟨100⟩ (some ⟨50⟩) false false deliverAll (by decide)
    (by rintro m ⟨⟩; decide) deliverAll_respects).1
  ⟨rfl, hwithin _ rfl⟩

/-- A `best` that gives out `-2` on the first pass and all that remains on the second, each
within the bounds asked of it, and finds nothing after. -/
def negativeThenRest (st : FlowState IOUAmount IOUAmount) : Option (BestStrand IOUAmount IOUAmount) :=
  let b : BestStrand IOUAmount IOUAmount :=
    ⟨IOUAmount.zero, if st.savedOuts = [] then ⟨-2000000000000000, -15⟩ else st.remainingOut⟩
  if st.savedOuts.length < 2 ∧ st.remainingOut.lessThan b.out = false ∧
      st.remainingIn.all (fun r => !r.lessThan b.inAmt) then some b
  else none

/-- With a negative amount out the sum can pass `outReq`: `10^16 - 1` less `-2` leaves `10^16`
(cut to sixteen digits), and `-2`, aligned to the exponent of `10^16` in the sum, adds nothing
to it. -/
theorem flow_negative_out_exceeds :
    (∀ st b, negativeThenRest st = some b → st.remainingOut.lessThan b.out = false ∧
        ∀ r, st.remainingIn = some r → r.lessThan b.inAmt = false) ∧
      flow (⟨9999999999999999, 0⟩ : IOUAmount) false false none negativeThenRest = .ok .tefEXCEPTION := by
  refine ⟨fun st b h => ?_, rfl⟩
  simp only [negativeThenRest, Option.ite_none_right_eq_some] at h
  obtain ⟨⟨-, hout, hin⟩, hb⟩ := h
  obtain rfl := Option.some.inj hb
  refine ⟨hout, fun r hr => ?_⟩
  rw [hr] at hin
  simpa using hin

end Ripple
