import ChainSqld.Ledger.StateTableView

/-!
# The entries of an open view in key order

`RawStateTable`'s `sles` iterator merges the base's entries with the table's, the table's on a
tie, passing over the base entries the table erased. `merged` is that merge written as a list: the
iterator lists it from any position past the erasures in front (`toList_eq_merged`), whatever
the lists. For a table over its base, where an entry is an insertion exactly when the base lacks
its key, the merge is the map the table shows, in key order (`merged_spec`); so are the
iterations from `slesBegin` and from `slesUpperBound` (`slesBegin_toList`, `slesUpperBound_toList`).
-/

set_option autoImplicit false

namespace Ripple

open List

variable {K D : Type} [LinearOrder K]

namespace SlesIter

/-- The entries from a position to the end. -/
def merged : List (SLE K D) → List (K × (RawAction × SLE K D)) → List (SLE K D)
  | [], r1 => r1.map fun e => e.2.2
  | s0 :: r0, [] => s0 :: r0
  | s0 :: r0, (k1, (a, s1)) :: r1 =>
    if s1.key = s0.key then (if a.isErase then merged r0 r1 else s1 :: merged r0 r1)
    else if s1.key < s0.key then s1 :: merged (s0 :: r0) r1
    else s0 :: merged r0 ((k1, (a, s1)) :: r1)
termination_by r0 r1 => r0.length + r1.length

theorem merged_nil_right : ∀ r0 : List (SLE K D), merged r0 [] = r0
  | [] => by simp [merged]
  | _ :: _ => by rw [merged]

/-- No erasure of the base entry in front is left in front. -/
def Skipped (r0 : List (SLE K D)) (r1 : List (K × (RawAction × SLE K D))) : Prop :=
  ∀ s0 r0' k1 s1 r1', r0 = s0 :: r0' → r1 = (k1, (.erase, s1)) :: r1' → s0.key ≠ s1.key

/-- `skip` passes erasures, which the merge passes too. -/
theorem skip_spec (r0 : List (SLE K D)) (r1 : List (K × (RawAction × SLE K D))) :
    Skipped (skip r0 r1).rest0 (skip r0 r1).rest1 ∧
      merged (skip r0 r1).rest0 (skip r0 r1).rest1 = merged r0 r1 ∧
      (skip r0 r1).rest0.length + (skip r0 r1).rest1.length ≤ r0.length + r1.length := by
  fun_induction skip r0 r1 with
  | case1 s0 k1 s1 r1 heq =>
    refine ⟨(fun _ _ _ _ _ h _ => by cases h), ?_, by simp; omega⟩
    rw [merged.eq_3, if_pos heq.symm]
    simp [merged, RawAction.isErase]
  | case2 s0 k1 s1 r1 heq x xs ih =>
    obtain ⟨hs, hm, hl⟩ := ih
    refine ⟨hs, ?_, by simp at hl ⊢; omega⟩
    rw [hm, merged.eq_3, if_pos heq.symm]
    rfl
  | case3 s0 r0 k1 s1 r1 hne =>
    exact ⟨fun _ _ _ _ _ h0 h1 => by cases h0; cases h1; exact hne, rfl, Nat.le_refl _⟩
  | case4 r0 r1 hnot =>
    refine ⟨fun s0 r0' k1 s1 r1' h0 h1 => ?_, rfl, Nat.le_refl _⟩
    subst h0 h1
    exact (hnot s0 r0' k1 s1 r1' rfl rfl).elim

theorem dereference_cons (s0 : SLE K D) (r0 : List (SLE K D)) (k1 : K) (a : RawAction)
    (s1 : SLE K D) (r1 : List (K × (RawAction × SLE K D))) :
    dereference ⟨s0 :: r0, (k1, (a, s1)) :: r1⟩ = if s1.key ≤ s0.key then some s1 else some s0 :=
  rfl

theorem increment_cons (s0 : SLE K D) (r0 : List (SLE K D)) (k1 : K) (a : RawAction)
    (s1 : SLE K D) (r1 : List (K × (RawAction × SLE K D))) :
    increment ⟨s0 :: r0, (k1, (a, s1)) :: r1⟩ =
      if s1.key = s0.key then skip r0 r1
      else if s1.key < s0.key then skip (s0 :: r0) r1
      else skip r0 ((k1, (a, s1)) :: r1) :=
  rfl

theorem skip_nil_left (r1 : List (K × (RawAction × SLE K D))) : skip [] r1 = ⟨[], r1⟩ := by
  cases r1 <;> rfl

theorem skip_nil_right (r0 : List (SLE K D)) : skip r0 [] = ⟨r0, []⟩ := by
  cases r0 <;> rfl

/-- Iterating from a skip lists the merge, given the fuel for the entries left. -/
theorem toList_skip :
    ∀ (n : Nat) (r0 : List (SLE K D)) (r1 : List (K × (RawAction × SLE K D))), r0.length + r1.length ≤ n →
      toList n (skip r0 r1) = merged r0 r1
  | 0, r0, r1, hn => by
    have h0 : r0 = [] := eq_nil_of_length_eq_zero (by omega)
    have h1 : r1 = [] := eq_nil_of_length_eq_zero (by omega)
    subst h0 h1
    simp [toList, merged]
  | n + 1, r0, r1, hn => by
    obtain ⟨hs, hm, hl⟩ := skip_spec r0 r1
    have hn' := Nat.le_trans hl hn
    rw [← hm]
    generalize skip r0 r1 = it at hs hn' ⊢
    obtain ⟨r0, r1⟩ := it
    dsimp only at hs hn' ⊢
    -- one step of the loop, then the skip that ends every increment
    match r0, r1, hn', hs with
    | [], [], _, _ => simp [toList, merged]
    | s0 :: r0, [], hn, _ =>
      rw [toList]
      simp only [List.isEmpty_cons, Bool.false_and, Bool.false_eq_true, if_false]
      rw [merged_nil_right, show increment ⟨s0 :: r0, []⟩ = skip r0 [] by rw [skip_nil_right]; rfl,
        toList_skip n r0 [] (by simp at hn ⊢; omega), merged_nil_right]
      rfl
    | [], e :: r1, hn, _ =>
      rw [toList]
      simp only [List.isEmpty_nil, List.isEmpty_cons, Bool.and_false, Bool.false_eq_true, if_false]
      rw [show increment ⟨[], e :: r1⟩ = skip [] r1 by rw [skip_nil_left]; rfl,
        toList_skip n [] r1 (by simp at hn ⊢; omega)]
      simp [dereference, merged]
    | s0 :: r0, (k1, (a, s1)) :: r1, hn, hs =>
      rw [toList]
      simp only [List.isEmpty_cons, Bool.false_and, Bool.false_eq_true, if_false, dereference_cons,
        increment_cons]
      have hlen : r0.length + r1.length + 2 ≤ n + 1 := by simp at hn; omega
      rw [merged.eq_3]
      by_cases heq : s1.key = s0.key
      · -- on a tie the skip before left the table's entry only if it is not an erasure
        have ha : a.isErase = false := by
          cases a
          · exact absurd heq (hs s0 r0 k1 s1 r1 rfl rfl).symm
          · rfl
          · rfl
        simp only [if_pos heq, if_pos (le_of_eq heq), ha, Bool.false_eq_true, if_false]
        rw [toList_skip n r0 r1 (by omega)]
        rfl
      · by_cases hlt : s1.key < s0.key
        · simp only [if_neg heq, if_pos hlt, if_pos (le_of_lt hlt)]
          rw [toList_skip n (s0 :: r0) r1 (by simp; omega)]
          rfl
        · have hgt : ¬s1.key ≤ s0.key := fun hle => hlt (lt_of_le_of_ne hle heq)
          simp only [if_neg heq, if_neg hlt, if_neg hgt]
          rw [toList_skip n r0 ((k1, (a, s1)) :: r1) (by simp; omega)]
          rfl

/-- The merge lists base and table entries only. -/
theorem merged_subset (r0 : List (SLE K D)) (r1 : List (K × (RawAction × SLE K D))) :
    merged r0 r1 ⊆ r0 ++ r1.map fun e => e.2.2 := by
  induction r0, r1 using merged.induct with
  | case1 r1 => simp [merged]
  | case2 s0 r0 => simp [merged_nil_right]
  | case3 s0 r0 k1 a s1 r1 heq ha ih =>
    rw [merged.eq_3, if_pos heq, if_pos ha]
    exact List.Subset.trans ih ((sublist_cons_self _ _).append (sublist_cons_self _ _)).subset
  | case4 s0 r0 k1 a s1 r1 heq ha ih =>
    rw [merged.eq_3, if_pos heq, if_neg ha]
    exact cons_subset.mpr
      ⟨by simp, List.Subset.trans ih ((sublist_cons_self _ _).append (sublist_cons_self _ _)).subset⟩
  | case5 s0 r0 k1 a s1 r1 hne hlt ih =>
    rw [merged.eq_3, if_neg hne, if_pos hlt]
    exact cons_subset.mpr
      ⟨by simp, List.Subset.trans ih ((Sublist.refl _).append (sublist_cons_self _ _)).subset⟩
  | case6 s0 r0 k1 a s1 r1 hne hlt ih =>
    rw [merged.eq_3, if_neg hne, if_neg hlt]
    exact cons_subset.mpr
      ⟨by simp, List.Subset.trans ih ((sublist_cons_self _ _).append (Sublist.refl _)).subset⟩

/-- What the merge needs of a table over its base: both sides in key order, each table entry under
its own key, and an entry under a key the base lacks an insertion. -/
structure Merging (r0 : List (SLE K D)) (r1 : List (K × (RawAction × SLE K D))) : Prop where
  sorted0 : r0.Pairwise fun s s' => s.key < s'.key
  sorted1 : r1.Pairwise fun e e' => e.1 < e'.1
  keyed : ∀ e ∈ r1, e.2.2.key = e.1
  insert : ∀ e ∈ r1, (∀ s ∈ r0, s.key ≠ e.1) → e.2.1.isErase = false

namespace Merging

variable {r0 : List (SLE K D)} {r1 : List (K × (RawAction × SLE K D))}

theorem lt0 {s0 : SLE K D} (h : Merging (s0 :: r0) r1) : ∀ s ∈ r0, s0.key < s.key :=
  (pairwise_cons.mp h.sorted0).1

theorem lt1 {e : K × (RawAction × SLE K D)} (h : Merging r0 (e :: r1)) : ∀ e' ∈ r1, e.1 < e'.1 :=
  (pairwise_cons.mp h.sorted1).1

theorem key_head {k1 : K} {a : RawAction} {s1 : SLE K D} (h : Merging r0 ((k1, (a, s1)) :: r1)) :
    s1.key = k1 :=
  h.keyed _ mem_cons_self

theorem tail1 {e : K × (RawAction × SLE K D)} (h : Merging r0 (e :: r1)) : Merging r0 r1 where
  sorted0 := h.sorted0
  sorted1 := (pairwise_cons.mp h.sorted1).2
  keyed e he := h.keyed e (mem_cons_of_mem _ he)
  insert e he := h.insert e (mem_cons_of_mem _ he)

theorem tail0 {s0 : SLE K D} (h : Merging (s0 :: r0) r1) (hlt : ∀ e ∈ r1, s0.key < e.1) : Merging r0 r1 where
  sorted0 := (pairwise_cons.mp h.sorted0).2
  sorted1 := h.sorted1
  keyed := h.keyed
  insert e he hne := h.insert e he fun s hs => by
    rcases mem_cons.mp hs with rfl | hs
    · exact ne_of_lt (hlt e he)
    · exact hne s hs

/-- Past a tie both sides move on. -/
theorem tail {s0 : SLE K D} {k1 : K} {a : RawAction} {s1 : SLE K D}
    (h : Merging (s0 :: r0) ((k1, (a, s1)) :: r1)) (heq : s1.key = s0.key) : Merging r0 r1 :=
  h.tail1.tail0 fun e he => by
    rw [← heq, h.key_head]
    exact h.lt1 e he

/-- A key below both sides is below every entry of the merge. -/
theorem lt_of_mem (h : Merging r0 r1) {b : K} (h0 : ∀ s ∈ r0, b < s.key) (h1 : ∀ e ∈ r1, b < e.1)
    {x : SLE K D} (hx : x ∈ merged r0 r1) : b < x.key := by
  rcases mem_append.mp (merged_subset r0 r1 hx) with hx | hx
  · exact h0 x hx
  · obtain ⟨e, he, rfl⟩ := mem_map.mp hx
    rw [h.keyed e he]
    exact h1 e he

end Merging

/-- The merge is in key order. -/
theorem merged_sorted {r0 : List (SLE K D)} {r1 : List (K × (RawAction × SLE K D))} (h : Merging r0 r1) :
    (merged r0 r1).Pairwise fun s s' => s.key < s'.key := by
  induction r0, r1 using merged.induct with
  | case1 r1 =>
    rw [merged.eq_1, pairwise_map]
    exact h.sorted1.imp_of_mem fun he he' hlt => by rw [h.keyed _ he, h.keyed _ he']; exact hlt
  | case2 s0 r0 => rw [merged_nil_right]; exact h.sorted0
  | case3 s0 r0 k1 a s1 r1 heq ha ih =>
    rw [merged.eq_3, if_pos heq, if_pos ha]
    exact ih (h.tail heq)
  | case4 s0 r0 k1 a s1 r1 heq ha ih =>
    rw [merged.eq_3, if_pos heq, if_neg ha]
    refine pairwise_cons.mpr ⟨fun x hx => (h.tail heq).lt_of_mem (fun s hs => ?_) (fun e he => ?_) hx, ih (h.tail heq)⟩
    · rw [heq]; exact h.lt0 s hs
    · rw [h.key_head]; exact h.lt1 e he
  | case5 s0 r0 k1 a s1 r1 hne hlt ih =>
    rw [merged.eq_3, if_neg hne, if_pos hlt]
    refine pairwise_cons.mpr ⟨fun x hx => h.tail1.lt_of_mem (fun s hs => ?_) (fun e he => ?_) hx, ih h.tail1⟩
    · rcases mem_cons.mp hs with rfl | hs
      · exact hlt
      · exact hlt.trans (h.lt0 s hs)
    · rw [h.key_head]; exact h.lt1 e he
  | case6 s0 r0 k1 a s1 r1 hne hlt ih =>
    rw [merged.eq_3, if_neg hne, if_neg hlt]
    have hgt : s0.key < k1 := h.key_head ▸ lt_of_le_of_ne (not_lt.mp hlt) (Ne.symm hne)
    have h1 : ∀ e ∈ (k1, (a, s1)) :: r1, s0.key < e.1 := by
      intro e he
      rcases mem_cons.mp he with rfl | he
      · exact hgt
      · exact hgt.trans (h.lt1 e he)
    exact pairwise_cons.mpr ⟨fun x hx => (h.tail0 h1).lt_of_mem h.lt0 h1 hx, ih (h.tail0 h1)⟩

/-- What a table shows over the base entries: its entries that are not erasures, and the base
entries under keys it does not hold. -/
def Shown (r0 : List (SLE K D)) (r1 : List (K × (RawAction × SLE K D))) (x : SLE K D) : Prop :=
  (∃ a, (x.key, (a, x)) ∈ r1 ∧ a.isErase = false) ∨ (x ∈ r0 ∧ ∀ e ∈ r1, e.1 ≠ x.key)

section Shown

variable {r0 : List (SLE K D)} {r1 : List (K × (RawAction × SLE K D))} {x : SLE K D}

omit [LinearOrder K] in
theorem shown_cons0 {s0 : SLE K D} (hne : ∀ e ∈ r1, e.1 ≠ s0.key) :
    Shown (s0 :: r0) r1 x ↔ x = s0 ∨ Shown r0 r1 x := by
  simp only [Shown, mem_cons]
  grind

omit [LinearOrder K] in
theorem shown_cons1 {k1 : K} {a : RawAction} {s1 : SLE K D} (hk : s1.key = k1) (h0 : ∀ s ∈ r0, s.key ≠ k1) :
    Shown r0 ((k1, (a, s1)) :: r1) x ↔ (x = s1 ∧ a.isErase = false) ∨ Shown r0 r1 x := by
  simp only [Shown, mem_cons, Prod.mk.injEq]
  grind

omit [LinearOrder K] in
theorem shown_tie {s0 : SLE K D} {k1 : K} {a : RawAction} {s1 : SLE K D} (hk : s1.key = k1) (hk0 : s0.key = k1)
    (h0 : ∀ s ∈ r0, s.key ≠ k1) :
    Shown (s0 :: r0) ((k1, (a, s1)) :: r1) x ↔ (x = s1 ∧ a.isErase = false) ∨ Shown r0 r1 x := by
  constructor
  · rintro (⟨a', hm, ha'⟩ | ⟨hx, hr⟩)
    · rcases mem_cons.mp hm with h | h
      · obtain ⟨-, rfl, rfl⟩ := Prod.mk.injEq .. ▸ h
        exact .inl ⟨rfl, ha'⟩
      · exact .inr (.inl ⟨a', h, ha'⟩)
    · rcases mem_cons.mp hx with rfl | hx
      -- the base entry at the tie is hidden by the table's
      · exact absurd hk0.symm (hr _ mem_cons_self)
      · exact .inr (.inr ⟨hx, fun e he => hr e (mem_cons_of_mem _ he)⟩)
  · rintro (⟨rfl, ha⟩ | ⟨a', hm, ha'⟩ | ⟨hx, hr⟩)
    · exact .inl ⟨a, hk ▸ mem_cons_self, ha⟩
    · exact .inl ⟨a', mem_cons_of_mem _ hm, ha'⟩
    · refine .inr ⟨mem_cons_of_mem _ hx, fun e he => ?_⟩
      rcases mem_cons.mp he with rfl | he
      · exact fun h => h0 x hx h.symm
      · exact hr e he

end Shown

/-- The merge lists exactly what the table shows over the base entries. -/
theorem mem_merged {r0 : List (SLE K D)} {r1 : List (K × (RawAction × SLE K D))} (h : Merging r0 r1)
    (x : SLE K D) : x ∈ merged r0 r1 ↔ Shown r0 r1 x := by
  induction r0, r1 using merged.induct with
  | case1 r1 =>
    -- with the base done, every table entry left is an insertion
    rw [merged.eq_1]
    simp only [Shown, not_mem_nil, false_and, or_false, mem_map]
    constructor
    · rintro ⟨e, he, rfl⟩
      exact ⟨e.2.1, by rw [h.keyed e he]; exact he, h.insert e he (by simp)⟩
    · rintro ⟨a, he, -⟩
      exact ⟨_, he, rfl⟩
  | case2 s0 r0 => simp [merged_nil_right, Shown]
  | case3 s0 r0 k1 a s1 r1 heq ha ih =>
    have h0 : ∀ s ∈ r0, s.key ≠ k1 := fun s hs => by
      rw [← h.key_head, heq]
      exact ne_of_gt (h.lt0 s hs)
    rw [merged.eq_3, if_pos heq, if_pos ha, ih (h.tail heq), shown_tie h.key_head (heq ▸ h.key_head) h0]
    simp [ha]
  | case4 s0 r0 k1 a s1 r1 heq ha ih =>
    have h0 : ∀ s ∈ r0, s.key ≠ k1 := fun s hs => by
      rw [← h.key_head, heq]
      exact ne_of_gt (h.lt0 s hs)
    rw [merged.eq_3, if_pos heq, if_neg ha, mem_cons, ih (h.tail heq),
      shown_tie h.key_head (heq ▸ h.key_head) h0]
    simp [ha]
  | case5 s0 r0 k1 a s1 r1 hne hlt ih =>
    -- the table's entry is below every base entry, so it is an insertion
    have h0 : ∀ s ∈ s0 :: r0, s.key ≠ k1 := fun s hs => by
      rw [← h.key_head]
      rcases mem_cons.mp hs with rfl | hs
      · exact ne_of_gt hlt
      · exact ne_of_gt (hlt.trans (h.lt0 s hs))
    have ha : a.isErase = false := h.insert _ mem_cons_self h0
    rw [merged.eq_3, if_neg hne, if_pos hlt, mem_cons, ih h.tail1, shown_cons1 h.key_head h0]
    simp [ha]
  | case6 s0 r0 k1 a s1 r1 hne hlt ih =>
    have hgt : s0.key < k1 := h.key_head ▸ lt_of_le_of_ne (not_lt.mp hlt) (Ne.symm hne)
    have h1 : ∀ e ∈ (k1, (a, s1)) :: r1, s0.key < e.1 := by
      intro e he
      rcases mem_cons.mp he with rfl | he
      · exact hgt
      · exact hgt.trans (h.lt1 e he)
    rw [merged.eq_3, if_neg hne, if_neg hlt, mem_cons, ih (h.tail0 h1),
      shown_cons0 fun e he => ne_of_gt (h1 e he)]

end SlesIter

theorem ReadView.Keyed.key_of_mem {base : ReadView K D} (hbase : base.Keyed) {e : K × SLE K D}
    (he : e ∈ base.entries) : e.2.key = e.1 :=
  hbase e.1 e.2 ((OrdMap.find?_eq_some_iff base).mpr he)

namespace RawStateTable

open SlesIter

variable {t : RawStateTable K D} {base : ReadView K D} {P : K → Prop}
  {l0 : List (K × SLE K D)} {l1 : List (K × (RawAction × SLE K D))}

/-- `l0` and `l1` are the entries of the base and of the table under the keys `P` holds of, in key
order: where an iteration starts. -/
structure Range (P : K → Prop) (base : ReadView K D) (t : RawStateTable K D) (l0 : List (K × SLE K D))
    (l1 : List (K × (RawAction × SLE K D))) : Prop where
  mem0 : ∀ e, e ∈ l0 ↔ e ∈ base.entries ∧ P e.1
  mem1 : ∀ e, e ∈ l1 ↔ e ∈ t.items.entries ∧ P e.1
  sorted0 : l0.Pairwise fun e e' => e.1 < e'.1
  sorted1 : l1.Pairwise fun e e' => e.1 < e'.1

theorem Range.mem_base (hr : Range P base t l0 l1) (hbase : base.Keyed) (x : SLE K D) :
    x ∈ l0.map Prod.snd ↔ P x.key ∧ base.find? x.key = some x := by
  constructor
  · rintro hx
    obtain ⟨e, he, rfl⟩ := mem_map.mp hx
    obtain ⟨he, hp⟩ := (hr.mem0 e).mp he
    rw [hbase.key_of_mem he]
    exact ⟨hp, (OrdMap.find?_eq_some_iff base).mpr he⟩
  · rintro ⟨hp, hx⟩
    exact mem_map.mpr ⟨(x.key, x), (hr.mem0 _).mpr ⟨(OrdMap.find?_eq_some_iff base).mp hx, hp⟩, rfl⟩

theorem Range.merging (hr : Range P base t l0 l1) (hbase : base.Keyed) (hc : t.Consistent base) :
    Merging (l0.map Prod.snd) l1 where
  sorted0 := pairwise_map.mpr <| hr.sorted0.imp_of_mem fun he he' hlt => by
    rw [hbase.key_of_mem ((hr.mem0 _).mp he).1, hbase.key_of_mem ((hr.mem0 _).mp he').1]
    exact hlt
  sorted1 := hr.sorted1
  keyed e he := (hc e.1 e.2.1 e.2.2 ((OrdMap.find?_eq_some_iff t.items).mpr ((hr.mem1 e).mp he).1)).1
  insert e he hne := by
    obtain ⟨he, hp⟩ := (hr.mem1 e).mp he
    -- a key the base lacks is held by an insertion
    have hb : base.find? e.1 = none := by
      cases hx : base.find? e.1 with
      | none => rfl
      | some s =>
        have hk := hbase _ _ hx
        exact absurd hk (hne s ((hr.mem_base hbase s).mpr ⟨hk ▸ hp, hk ▸ hx⟩))
    rw [(hc e.1 e.2.1 e.2.2 ((OrdMap.find?_eq_some_iff t.items).mpr he)).2.mpr hb]
    rfl

theorem Range.shown_iff (hr : Range P base t l0 l1) (hbase : base.Keyed) (x : SLE K D) :
    Shown (l0.map Prod.snd) l1 x ↔ P x.key ∧ t.view base x.key = some x := by
  unfold Shown
  cases hf : t.items.find? x.key with
  | none =>
    have hnot : ∀ e ∈ l1, e.1 ≠ x.key := fun e he hk => by
      have := (OrdMap.find?_eq_some_iff t.items).mpr ((hr.mem1 e).mp he).1
      rw [hk, hf] at this
      cases this
    rw [view, overlayView_of_none hf, ← hr.mem_base hbase]
    constructor
    · rintro (⟨a, he, -⟩ | ⟨hx, -⟩)
      · exact absurd rfl (hnot _ he)
      · exact hx
    · exact fun hx => .inr ⟨hx, hnot⟩
  | some p =>
    obtain ⟨a, s⟩ := p
    have hmem := (OrdMap.find?_eq_some_iff t.items).mp hf
    rw [view, overlayView_of_some hf]
    constructor
    · rintro (⟨a', he, ha'⟩ | ⟨hx, hne⟩)
      · obtain ⟨he, hp⟩ := (hr.mem1 _).mp he
        have hs : some (a, s) = some (a', x) := hf ▸ (OrdMap.find?_eq_some_iff t.items).mpr he
        obtain ⟨rfl, rfl⟩ := Prod.mk.inj (Option.some.inj hs)
        exact ⟨hp, by simp [ha']⟩
      -- the table holds the key, so no base entry there is shown
      · exact absurd rfl (hne _ ((hr.mem1 _).mpr ⟨hmem, ((hr.mem_base hbase x).mp hx).1⟩))
    · rintro ⟨hp, hv⟩
      cases ha : a.isErase with
      | true => simp [ha] at hv
      | false =>
        obtain rfl : s = x := by simpa [ha] using hv
        exact .inl ⟨a, (hr.mem1 _).mpr ⟨hmem, hp⟩, ha⟩

/-- Iterating from the start of a range lists, in key order, the entries the table shows there. -/
theorem Range.toList_skip (hr : Range P base t l0 l1) (hbase : base.Keyed) (hc : t.Consistent base) {fuel : Nat}
    (hf : l0.length + l1.length ≤ fuel) :
    (toList fuel (skip (l0.map Prod.snd) l1)).Pairwise (fun s s' => s.key < s'.key) ∧
      ∀ x, x ∈ toList fuel (skip (l0.map Prod.snd) l1) ↔ P x.key ∧ t.view base x.key = some x := by
  have hm := hr.merging hbase hc
  rw [SlesIter.toList_skip fuel (l0.map Prod.snd) l1 (by rw [length_map]; exact hf)]
  exact ⟨merged_sorted hm, fun x => (mem_merged hm x).trans (hr.shown_iff hbase x)⟩

theorem range_all : Range (fun _ => True) base t base.entries t.items.entries :=
  ⟨fun _ => by simp, fun _ => by simp, base.sorted, t.items.sorted⟩

theorem range_upperBound (key : K) : Range (key < ·) base t (base.upperBound key) (t.items.upperBound key) :=
  ⟨fun _ => OrdMap.mem_upperBound base, fun _ => OrdMap.mem_upperBound t.items, base.upperBound_sorted key,
    t.items.upperBound_sorted key⟩

/-- **The iteration from `slesBegin` lists, in key order, exactly the entries the table shows.** -/
theorem slesBegin_toList (hbase : base.Keyed) (hc : t.Consistent base) {fuel : Nat}
    (hf : base.entries.length + t.items.entries.length ≤ fuel) :
    ((t.slesBegin base).toList fuel).Pairwise (fun s s' => s.key < s'.key) ∧
      ∀ x, x ∈ (t.slesBegin base).toList fuel ↔ t.view base x.key = some x := by
  obtain ⟨hs, hm⟩ := range_all.toList_skip hbase hc hf
  exact ⟨hs, fun x => (hm x).trans (iff_of_eq (true_and _))⟩

/-- **The iteration from `slesUpperBound key` lists, in key order, exactly the entries the table
shows above `key`.** -/
theorem slesUpperBound_toList (hbase : base.Keyed) (hc : t.Consistent base) (key : K) {fuel : Nat}
    (hf : base.entries.length + t.items.entries.length ≤ fuel) :
    ((t.slesUpperBound base key).toList fuel).Pairwise (fun s s' => s.key < s'.key) ∧
      ∀ x, x ∈ (t.slesUpperBound base key).toList fuel ↔ key < x.key ∧ t.view base x.key = some x := by
  have hlen : (base.upperBound key).length + (t.items.upperBound key).length ≤ fuel :=
    Nat.le_trans (Nat.add_le_add (base.upperBound_length_le key) (t.items.upperBound_length_le key)) hf
  exact (range_upperBound key).toList_skip hbase hc hlen

end RawStateTable

end Ripple
