import Mathlib.Data.List.Pairwise
import Mathlib.Data.List.Basic
import Mathlib.Order.Lattice

/-!
# Ordered maps as sorted entry lists

An ordered map (`std::map`) is kept as the list of its entries, strictly increasing in key. The
operations are the map's: `find?`, assignment (`set`), `erase`, and `upperBound`, the entries after
a key in key order. The lemmas say what each does to lookups, and that the first entry of a
sorted list with a property has the least key among the entries with it (`find?_least`).

`IsSucc P key last r` says that `r` is the least key above `key` and below `last` with `P`, or
`none` when there is none: what a successor query on a map answers. A query that skips ahead to a
key `n` with no `P` between (`IsSucc.step`), or that cuts its answer at `last` afterwards
(`IsSucc.cut`), still answers it.
-/

set_option autoImplicit false

namespace List

variable {K V : Type} [DecidableEq K]

theorem lookup_cons_of_ne {k k' : K} {v : V} {l : List (K × V)} (h : k' ≠ k) :
    ((k, v) :: l).lookup k' = l.lookup k' := by
  rw [lookup_cons, beq_false_of_ne h]

/-- A key missing from the entries is found nowhere. -/
theorem lookup_eq_none_of_forall {k : K} {l : List (K × V)} (h : ∀ e ∈ l, e.1 ≠ k) : l.lookup k = none := by
  induction l with
  | nil => rfl
  | cons e es ih =>
    obtain ⟨k', v⟩ := e
    rw [lookup_cons_of_ne (Ne.symm (h _ mem_cons_self))]
    exact ih fun e he => h e (mem_cons_of_mem _ he)

end List

namespace List

variable {α β : Type} [LinearOrder α]

/-- A sorted list split at one of its entries: a `flatMap` that is empty before `b` and agrees
with `g` after it is `f b` followed by the `flatMap` of `g` over the entries after `b`. -/
theorem flatMap_split {l : List α} (hl : l.Pairwise (· < ·)) {b : α} (hb : b ∈ l) {f g : α → List β}
    (hlt : ∀ i ∈ l, i < b → f i = []) (hgt : ∀ i ∈ l, b < i → f i = g i) :
    l.flatMap f = f b ++ l.flatMap fun i => if b < i then g i else [] := by
  obtain ⟨as, bs, rfl⟩ := List.append_of_mem hb
  obtain ⟨-, hbs, has⟩ := List.pairwise_append.mp hl
  have hbs' : ∀ c ∈ bs, b < c := (List.pairwise_cons.mp hbs).1
  have has' : ∀ a ∈ as, a < b := fun a ha => has a ha b List.mem_cons_self
  have hf : as.flatMap f = [] :=
    List.flatMap_eq_nil_iff.mpr fun a ha => hlt a (List.mem_append_left _ ha) (has' a ha)
  have hg : (as.flatMap fun i => if b < i then g i else []) = [] :=
    List.flatMap_eq_nil_iff.mpr fun a ha => if_neg (not_lt.mpr (has' a ha).le)
  have hrest : bs.flatMap f = bs.flatMap fun i => if b < i then g i else [] :=
    List.flatMap_congr fun c hc => by
      rw [if_pos (hbs' c hc)]
      exact hgt c (List.mem_append_right _ (List.mem_cons_of_mem _ hc)) (hbs' c hc)
  simp only [List.flatMap_append, List.flatMap_cons, hf, hg, hrest, lt_irrefl, if_false, List.nil_append]

end List

open List

/-- The entries of an ordered map, strictly increasing in key. -/
structure OrdMap (K V : Type) [LinearOrder K] where
  entries : List (K × V)
  sorted : entries.Pairwise fun a b => a.1 < b.1

namespace OrdMap

variable {K V : Type} [LinearOrder K]

/-- No entry. -/
def empty : OrdMap K V :=
  ⟨[], .nil⟩

/-- The value at `k` (`find`). -/
def find? (m : OrdMap K V) (k : K) : Option V :=
  m.entries.lookup k

/-- `v` at `k` in a sorted entry list: in its place, over the entry there if any. -/
def setList (k : K) (v : V) : List (K × V) → List (K × V)
  | [] => [(k, v)]
  | e :: es => if k < e.1 then (k, v) :: e :: es else if k = e.1 then (k, v) :: es else e :: setList k v es

theorem mem_setList {k : K} {v : V} : ∀ {l : List (K × V)} {e : K × V}, e ∈ setList k v l → e = (k, v) ∨ e ∈ l
  | [], e, h => by simp_all [setList]
  | a :: as, e, h => by
    simp only [setList] at h
    split_ifs at h with h₁ h₂
    · simpa using h
    · rcases mem_cons.mp h with rfl | h
      · exact .inl rfl
      · exact .inr (mem_cons_of_mem a h)
    · rcases mem_cons.mp h with rfl | h
      · exact .inr mem_cons_self
      · rcases mem_setList h with h | h
        · exact .inl h
        · exact .inr (mem_cons_of_mem a h)

theorem setList_sorted {k : K} {v : V} :
    ∀ {l : List (K × V)}, l.Pairwise (fun a b => a.1 < b.1) → (setList k v l).Pairwise fun a b => a.1 < b.1
  | [], _ => pairwise_singleton _ _
  | a :: as, h => by
    have ha := (pairwise_cons.mp h).1
    simp only [setList]
    split_ifs with h₁ h₂
    · exact pairwise_cons.mpr ⟨fun b hb => (mem_cons.mp hb).elim (fun hb => hb ▸ h₁)
        fun hb => h₁.trans (ha b hb), h⟩
    · subst h₂
      exact pairwise_cons.mpr ⟨ha, (pairwise_cons.mp h).2⟩
    · refine pairwise_cons.mpr ⟨fun b hb => ?_, setList_sorted (pairwise_cons.mp h).2⟩
      rcases mem_setList hb with rfl | hb
      · exact lt_of_le_of_ne (not_lt.mp h₁) (Ne.symm h₂)
      · exact ha b hb

theorem lookup_setList (k : K) (v : V) (k' : K) :
    ∀ l : List (K × V), (setList k v l).lookup k' = if k' = k then some v else l.lookup k'
  | [] => by
    by_cases hk : k' = k
    · simp [setList, hk]
    · simp [setList, lookup_cons_of_ne hk, hk]
  | (a, b) :: as => by
    simp only [setList]
    by_cases hk : k' = k
    · subst hk
      rw [if_pos rfl]
      split_ifs with h₁ h₂
      · exact lookup_cons_self
      · exact lookup_cons_self
      · rw [lookup_cons_of_ne h₂, lookup_setList k' v k' as, if_pos rfl]
    · rw [if_neg hk]
      split_ifs with h₁ h₂
      · rw [lookup_cons_of_ne hk]
      · subst h₂
        rw [lookup_cons_of_ne hk, lookup_cons_of_ne hk]
      · by_cases ha : k' = a
        · subst ha
          rw [lookup_cons_self, lookup_cons_self]
        · rw [lookup_cons_of_ne ha, lookup_cons_of_ne ha, lookup_setList k v k' as, if_neg hk]

/-- Assignment: `m[k] = v`. -/
def set (m : OrdMap K V) (k : K) (v : V) : OrdMap K V :=
  ⟨setList k v m.entries, setList_sorted m.sorted⟩

/-- `erase(k)`. -/
def erase (m : OrdMap K V) (k : K) : OrdMap K V :=
  ⟨m.entries.filter fun e => e.1 != k, m.sorted.filter _⟩

/-- The entries after key `k`, in order: iteration from `upper_bound(k)`. -/
def upperBound (m : OrdMap K V) (k : K) : List (K × V) :=
  m.entries.dropWhile fun e => e.1 ≤ k

@[simp] theorem find?_empty (k : K) : (empty : OrdMap K V).find? k = none := rfl

theorem find?_set (m : OrdMap K V) (k : K) (v : V) (k' : K) :
    (m.set k v).find? k' = if k' = k then some v else m.find? k' :=
  lookup_setList k v k' m.entries

theorem lookup_filter_ne (k k' : K) :
    ∀ l : List (K × V), (l.filter fun e => e.1 != k).lookup k' = if k' = k then none else l.lookup k'
  | [] => by simp
  | (a, b) :: as => by
    rw [filter_cons]
    by_cases ha : a = k
    · subst ha
      by_cases hk : k' = a
      · simp [hk, lookup_filter_ne]
      · simp [lookup_filter_ne, hk, lookup_cons_of_ne hk]
    · have hk : (a != k) = true := bne_iff_ne.mpr ha
      rw [if_pos hk]
      by_cases hka : k' = a
      · subst hka
        simp [ha]
      · rw [lookup_cons_of_ne hka, lookup_cons_of_ne hka, lookup_filter_ne k k' as]

theorem find?_erase (m : OrdMap K V) (k k' : K) : (m.erase k).find? k' = if k' = k then none else m.find? k' :=
  lookup_filter_ne k k' m.entries

/-! ## Lookups in sorted lists -/

/-- In a sorted list an entry is what its key looks up. -/
theorem lookup_of_mem : ∀ {l : List (K × V)}, l.Pairwise (fun a b => a.1 < b.1) → ∀ {e : K × V}, e ∈ l →
    l.lookup e.1 = some e.2
  | [], _, _, h => by cases h
  | (a, b) :: as, hs, e, he => by
    rcases mem_cons.mp he with rfl | he
    · exact lookup_cons_self
    · have hlt := (pairwise_cons.mp hs).1 e he
      rw [lookup_cons_of_ne (ne_of_gt hlt)]
      exact lookup_of_mem (pairwise_cons.mp hs).2 he

theorem mem_of_lookup : ∀ {l : List (K × V)} {k : K} {v : V}, l.lookup k = some v → (k, v) ∈ l
  | [], _, _, h => by cases h
  | (a, b) :: as, k, v, h => by
    by_cases hk : k = a
    · subst hk
      rw [lookup_cons_self] at h
      cases h
      exact mem_cons_self
    · rw [lookup_cons_of_ne hk] at h
      exact mem_cons_of_mem _ (mem_of_lookup h)

theorem find?_eq_some_iff (m : OrdMap K V) {k : K} {v : V} : m.find? k = some v ↔ (k, v) ∈ m.entries :=
  ⟨mem_of_lookup, fun h => lookup_of_mem m.sorted h⟩

/-- Dropping the entries up to `k` of a sorted list leaves those above it. -/
theorem dropWhile_le_eq_filter (k : K) :
    ∀ {l : List (K × V)}, l.Pairwise (fun a b => a.1 < b.1) →
      (l.dropWhile fun e => e.1 ≤ k) = l.filter fun e => k < e.1
  | [], _ => rfl
  | a :: as, hs => by
    rw [dropWhile_cons, filter_cons]
    by_cases ha : a.1 ≤ k
    · simp only [ha, decide_true, if_true, not_lt.mpr ha, decide_false, Bool.false_eq_true, if_false]
      exact dropWhile_le_eq_filter k (pairwise_cons.mp hs).2
    · -- the rest is above `a`, so above `k`
      have hrest : (as.filter fun e => k < e.1) = as := filter_eq_self.mpr fun e he =>
        decide_eq_true ((not_le.mp ha).trans ((pairwise_cons.mp hs).1 e he))
      simp only [ha, decide_false, Bool.false_eq_true, if_false, not_le.mp ha, decide_true, if_true, hrest]

theorem mem_upperBound (m : OrdMap K V) {k : K} {e : K × V} : e ∈ m.upperBound k ↔ e ∈ m.entries ∧ k < e.1 := by
  rw [upperBound, dropWhile_le_eq_filter k m.sorted, mem_filter, decide_eq_true_iff]

theorem upperBound_sorted (m : OrdMap K V) (k : K) : (m.upperBound k).Pairwise fun a b => a.1 < b.1 :=
  m.sorted.sublist (dropWhile_sublist _)

/-- The first entry of a sorted list with a property has the least key among those with it. -/
theorem find?_least {p : K × V → Bool} : ∀ {l : List (K × V)}, l.Pairwise (fun a b => a.1 < b.1) →
    ∀ {e : K × V}, l.find? p = some e → ∀ e' ∈ l, p e' = true → e.1 ≤ e'.1
  | [], _, _, h, _, _, _ => by cases h
  | a :: as, hs, e, h, e', he', hp => by
    rw [find?_cons] at h
    by_cases ha : p a = true
    · rw [ha] at h
      cases h
      rcases mem_cons.mp he' with rfl | he'
      · exact le_rfl
      · exact le_of_lt ((pairwise_cons.mp hs).1 e' he')
    · rw [eq_false_of_ne_true ha] at h
      rcases mem_cons.mp he' with rfl | he'
      · exact absurd hp ha
      · exact find?_least (pairwise_cons.mp hs).2 h e' he' hp

/-- The first entry above `k` with a property is the least key above `k` with an entry with it. -/
theorem find?_upperBound (m : OrdMap K V) (k : K) (q : K × V → Bool) {e : K × V}
    (h : (m.upperBound k).find? q = some e) :
    e ∈ m.entries ∧ k < e.1 ∧ q e = true ∧ ∀ e' ∈ m.entries, k < e'.1 → q e' = true → e.1 ≤ e'.1 := by
  obtain ⟨he, hk⟩ := (m.mem_upperBound).mp (mem_of_find?_eq_some h)
  exact ⟨he, hk, find?_some h, fun e' he' hk' hq => find?_least (m.upperBound_sorted k) h e'
    ((m.mem_upperBound).mpr ⟨he', hk'⟩) hq⟩

theorem find?_upperBound_eq_none (m : OrdMap K V) (k : K) (q : K × V → Bool)
    (h : (m.upperBound k).find? q = none) : ∀ e ∈ m.entries, k < e.1 → q e = false := by
  intro e he hk
  have := find?_eq_none.mp h e ((m.mem_upperBound).mpr ⟨he, hk⟩)
  simpa using this

/-- Past an entry above `k`, fewer entries are above. -/
theorem length_upperBound_lt (m : OrdMap K V) {k : K} {e : K × V} (he : e ∈ m.entries) (hk : k < e.1) :
    (m.upperBound e.1).length < (m.upperBound k).length := by
  rw [upperBound, upperBound, dropWhile_le_eq_filter _ m.sorted, dropWhile_le_eq_filter _ m.sorted]
  -- the entries above `e` are those above `k` that are above `e`
  have hsub : (m.entries.filter fun x => e.1 < x.1).Sublist (m.entries.filter fun x => k < x.1) := by
    have heq : (m.entries.filter fun x => e.1 < x.1) =
        (m.entries.filter fun x => k < x.1).filter (fun x => e.1 < x.1) := by
      rw [filter_filter]
      congr 1
      funext x
      by_cases h : e.1 < x.1
      · simp [h, hk.trans h]
      · simp [h]
    rw [heq]
    exact filter_sublist
  refine Nat.lt_of_le_of_ne hsub.length_le fun hlen => ?_
  have heq := hsub.eq_of_length hlen
  have hmem : e ∈ m.entries.filter fun x => k < x.1 := mem_filter.mpr ⟨he, by simpa using hk⟩
  rw [← heq, mem_filter] at hmem
  simp at hmem

theorem upperBound_length_le (m : OrdMap K V) (k : K) : (m.upperBound k).length ≤ m.entries.length :=
  (dropWhile_sublist _).length_le

end OrdMap

/-! ## Successors -/

section Succ

variable {K : Type} [LinearOrder K]

/-- `k` is below the bound `last`, if there is one. -/
def Below : Option K → K → Prop
  | none, _ => True
  | some l, k => k < l

/-- `r` is the least key above `key` and below `last` with `P`, or `none` when no key is. -/
def IsSucc (P : K → Prop) (key : K) (last : Option K) : Option K → Prop
  | none => ∀ k, key < k → Below last k → ¬P k
  | some n => key < n ∧ Below last n ∧ P n ∧ ∀ k, key < k → k < n → ¬P k

variable {P : K → Prop} {key : K} {last : Option K}

theorem IsSucc.of_iff {Q : K → Prop} {r : Option K} (hPQ : ∀ k, P k ↔ Q k) (h : IsSucc P key last r) :
    IsSucc Q key last r := by
  cases r with
  | none => exact fun k hk hb hq => h k hk hb ((hPQ k).mpr hq)
  | some n => exact ⟨h.1, h.2.1, (hPQ n).mp h.2.2.1, fun k hk hkn hq => h.2.2.2 k hk hkn ((hPQ k).mpr hq)⟩

/-- The first entry above `key` with a property answers the unbounded query for it. -/
theorem IsSucc.of_upperBound {V : Type} (m : OrdMap K V) (key : K) (q : K × V → Bool) :
    IsSucc (fun k => ∃ v, m.find? k = some v ∧ q (k, v) = true) key none
      (((m.upperBound key).find? q).map Prod.fst) := by
  cases h : (m.upperBound key).find? q with
  | none =>
    intro k hk _ ⟨v, hv, hq⟩
    have := m.find?_upperBound_eq_none key q h (k, v) ((m.find?_eq_some_iff).mp hv) hk
    rw [hq] at this
    cases this
  | some e =>
    obtain ⟨he, hk, hq, hmin⟩ := m.find?_upperBound key q h
    refine ⟨hk, trivial, ⟨e.2, (m.find?_eq_some_iff).mpr he, hq⟩, fun k hk' hke ⟨v, hv, hqv⟩ => ?_⟩
    exact absurd (hmin (k, v) ((m.find?_eq_some_iff).mp hv) hk' hqv) (not_le.mpr hke)

/-- Skipping to a key `n` above `key` with no `P` up to it. -/
theorem IsSucc.step {n : K} {r : Option K} (hn : key < n) (hgap : ∀ k, key < k → k ≤ n → ¬P k)
    (h : IsSucc P n last r) : IsSucc P key last r := by
  cases r with
  | none =>
    intro k hk hb
    by_cases hkn : k ≤ n
    · exact hgap k hk hkn
    · exact h k (lt_of_not_ge hkn) hb
  | some m =>
    obtain ⟨hnm, hb, hp, hmin⟩ := h
    refine ⟨hn.trans hnm, hb, hp, fun k hk hkm => ?_⟩
    by_cases hkn : k ≤ n
    · exact hgap k hk hkn
    · exact hmin k (lt_of_not_ge hkn) hkm

instance (last : Option K) (k : K) : Decidable (Below last k) :=
  match last with
  | none => isTrue trivial
  | some l => inferInstanceAs (Decidable (k < l))

/-- An answer kept when below `last`. -/
def cutAt (last : Option K) : Option K → Option K
  | none => none
  | some n => if Below last n then some n else none

/-- Cutting an unbounded answer at `last`. -/
theorem IsSucc.cut {r : Option K} (h : IsSucc P key none r) : IsSucc P key last (cutAt last r) := by
  cases r with
  | none => exact fun k hk _ => h k hk trivial
  | some n =>
    obtain ⟨hkn, -, hp, hmin⟩ := h
    by_cases hb : Below last n
    · rw [cutAt, if_pos hb]
      exact ⟨hkn, hb, hp, hmin⟩
    · rw [cutAt, if_neg hb]
      intro k hk hbk hpk
      -- a key below `last` but not below `n` would put `n` below `last`
      cases last with
      | none => exact hb trivial
      | some l => exact hmin k hk (lt_of_lt_of_le hbk (not_lt.mp hb)) hpk

/-- The lower of two answers, the second kept on a tie. -/
def lowerKey (r₁ r₂ : Option K) : Option K :=
  match r₂ with
  | some e => if r₁.all (e < ·) then some e else r₁
  | none => r₁

theorem below_of_le {last : Option K} {k n : K} (hb : Below last n) (hkn : k ≤ n) : Below last k := by
  cases last with
  | none => trivial
  | some l => exact lt_of_le_of_lt hkn hb

theorem cutAt_of_isSucc {r : Option K} (h : IsSucc P key last r) : cutAt last r = r := by
  cases r with
  | none => rfl
  | some n => rw [cutAt, if_pos h.2.1]

/-- A successor among the keys with `P` or `Q`: the lower of one for `P` below `last` and an
unbounded one for `Q`, cut at `last`. -/
theorem IsSucc.lower {Q : K → Prop} {r₁ r₂ : Option K} (h₁ : IsSucc P key last r₁) (h₂ : IsSucc Q key none r₂) :
    IsSucc (fun k => P k ∨ Q k) key last (cutAt last (lowerKey r₁ r₂)) := by
  cases r₂ with
  | none =>
    rw [lowerKey, cutAt_of_isSucc h₁]
    cases r₁ with
    | none => exact fun k hk hb hpq => hpq.elim (h₁ k hk hb) (h₂ k hk trivial)
    | some n =>
      obtain ⟨hkn, hb, hp, hmin⟩ := h₁
      exact ⟨hkn, hb, .inl hp, fun k hk hkn' hpq => hpq.elim (hmin k hk hkn') (h₂ k hk trivial)⟩
  | some e =>
    obtain ⟨hke, -, hq, hqmin⟩ := h₂
    -- a `P`-key below `last` is at or above the `P`-answer
    have hp_ge : ∀ k, key < k → Below last k → P k → ∃ n, r₁ = some n ∧ n ≤ k := by
      intro k hk hb hp
      cases r₁ with
      | none => exact absurd hp (h₁ k hk hb)
      | some n => exact ⟨n, rfl, not_lt.mp fun hkn => h₁.2.2.2 k hk hkn hp⟩
    by_cases hall : r₁.all (e < ·) = true
    · rw [lowerKey, if_pos hall]
      have hlt : ∀ n, r₁ = some n → e < n := fun n hn => by
        subst hn
        simpa using hall
      by_cases hbe : Below last e
      · rw [cutAt, if_pos hbe]
        refine ⟨hke, hbe, .inr hq, fun k hk hke' hpq => hpq.elim (fun hp => ?_) (hqmin k hk hke')⟩
        obtain ⟨n, hn, hnk⟩ := hp_ge k hk (below_of_le hbe (le_of_lt hke')) hp
        exact absurd (lt_of_lt_of_le (hke'.trans (hlt n hn)) hnk) (lt_irrefl k)
      · rw [cutAt, if_neg hbe]
        intro k hk hb hpq
        rcases hpq with hp | hqk
        · obtain ⟨n, hn, hnk⟩ := hp_ge k hk hb hp
          exact hbe (below_of_le hb ((le_of_lt (hlt n hn)).trans hnk))
        · by_cases hke' : k < e
          · exact hqmin k hk hke' hqk
          · exact hbe (below_of_le hb (not_lt.mp hke'))
    · rw [lowerKey, if_neg hall, cutAt_of_isSucc h₁]
      cases r₁ with
      | none => exact absurd rfl hall
      | some n =>
        have hne : n ≤ e := not_lt.mp fun h => hall (by simpa using h)
        obtain ⟨hkn, hb, hp, hmin⟩ := h₁
        exact ⟨hkn, hb, .inl hp, fun k hk hkn' hpq =>
          hpq.elim (hmin k hk hkn') (hqmin k hk (lt_of_lt_of_le hkn' hne))⟩

end Succ
