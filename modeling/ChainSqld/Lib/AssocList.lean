import Mathlib

/-!
# Association lists as hash maps

A `std::unordered_map` or `std::map` that is read only through its entries is a list of key-value
pairs with distinct keys. `emplace` adds an entry for a key not yet present and says whether it did
(the `second` of `insert` and `emplace`), `assign` overwrites the value of a key where it stands or
adds the key, `erase` drops a key and `mapVals` changes every value in place, as a loop over the
entries does.

* `lookup_emplace`, `lookup_assign`, `lookup_erase`, `lookup_mapVals`: what a key maps to after each;
* `nodup_emplace`, `nodup_assign`, `nodup_erase`: the keys stay distinct;
* `countP_assign`, `countP_erase`: the entries of a kind, counted through an overwrite or an erase,
  which is what a counter kept beside a map is checked against;
* `lookup_eq_some_iff_mem`: with distinct keys a lookup is membership.
-/

namespace AssocList

variable {K V : Type}

/-- The keys, in order. -/
def keys (m : List (K × V)) : List K := m.map Prod.fst

/-- A loop over the entries that changes each value in place. -/
def mapVals (f : K → V → V) (m : List (K × V)) : List (K × V) := m.map fun e => (e.1, f e.1 e.2)

theorem mem_keys_of_mem {m : List (K × V)} {e : K × V} (h : e ∈ m) : e.1 ∈ keys m := List.mem_map_of_mem h

theorem keys_mapVals (f : K → V → V) (m : List (K × V)) : keys (mapVals f m) = keys m := by
  simp [keys, mapVals, Function.comp_def]

variable [DecidableEq K]

/-- `insert` or `emplace`: a key not yet present is added at the end; the result says whether. -/
def emplace (m : List (K × V)) (k : K) (v : V) : Bool × List (K × V) :=
  if (m.lookup k).isSome then (false, m) else (true, m ++ [(k, v)])

/-- Assignment through `operator[]` or a found iterator: the entry of `k` takes `v` where it stands,
and a key not yet present is added at the end. -/
def assign (m : List (K × V)) (k : K) (v : V) : List (K × V) :=
  if (m.lookup k).isSome then m.map fun e => if e.1 = k then (k, v) else e else m ++ [(k, v)]

/-- `erase`. -/
def erase (m : List (K × V)) (k : K) : List (K × V) := m.filter fun e => e.1 != k

theorem lookup_cons_eq (m : List (K × V)) (k : K) (v : V) : (((k, v) :: m).lookup k) = some v := by
  simp

theorem lookup_cons_ne (m : List (K × V)) {k k' : K} (v : V) (h : k' ≠ k) :
    (((k, v) :: m).lookup k') = m.lookup k' := by
  simp [List.lookup_cons, beq_false_of_ne h]

theorem lookup_eq_none_iff {m : List (K × V)} {k : K} : m.lookup k = none ↔ k ∉ keys m := by
  rw [List.lookup_eq_none_iff, keys, List.mem_map, not_exists]
  simp only [bne_iff_ne, ne_eq, not_and]
  exact ⟨fun h p hp hk => h p hp hk.symm, fun h p hp hk => h p hp hk.symm⟩

theorem lookup_isSome_iff {m : List (K × V)} {k : K} : (m.lookup k).isSome ↔ k ∈ keys m := by
  rw [← not_iff_not, Option.not_isSome_iff_eq_none, lookup_eq_none_iff]

theorem lookup_of_mem : ∀ {m : List (K × V)}, (keys m).Nodup → ∀ {k : K} {v : V}, (k, v) ∈ m → m.lookup k = some v
  | [], _, _, _, h => absurd h List.not_mem_nil
  | (k', v') :: m, hn, k, v, h => by
    rw [keys, List.map_cons, List.nodup_cons] at hn
    rcases List.mem_cons.mp h with he | hm
    · rw [Prod.mk.injEq] at he
      obtain ⟨rfl, rfl⟩ := he
      exact lookup_cons_eq m _ _
    · have hk : k ≠ k' := by
        rintro rfl
        have hkm : k ∈ keys m := mem_keys_of_mem hm
        exact hn.1 hkm
      rw [lookup_cons_ne m v' hk]
      exact lookup_of_mem hn.2 hm

theorem mem_of_lookup : ∀ {m : List (K × V)} {k : K} {v : V}, m.lookup k = some v → (k, v) ∈ m
  | [], _, _, h => by simp at h
  | (k', v') :: m, k, v, h => by
    by_cases hk : k = k'
    · subst hk
      rw [lookup_cons_eq, Option.some.injEq] at h
      subst h
      exact List.mem_cons_self
    · rw [lookup_cons_ne m v' hk] at h
      exact List.mem_cons_of_mem _ (mem_of_lookup h)

/-- With distinct keys a lookup is membership. -/
theorem lookup_eq_some_iff_mem {m : List (K × V)} (hn : (keys m).Nodup) {k : K} {v : V} :
    m.lookup k = some v ↔ (k, v) ∈ m :=
  ⟨mem_of_lookup, lookup_of_mem hn⟩

theorem lookup_append_singleton (m : List (K × V)) (k k' : K) (v : V) :
    (m ++ [(k, v)]).lookup k' = if (m.lookup k').isSome then m.lookup k' else if k' = k then some v else none := by
  rw [List.lookup_append]
  by_cases hk : k' = k
  · subst hk
    cases m.lookup k' <;> simp
  · cases m.lookup k' <;> simp [lookup_cons_ne _ _ hk, hk]

theorem lookup_emplace (m : List (K × V)) (k : K) (v : V) (k' : K) :
    (emplace m k v).2.lookup k' = if (m.lookup k).isSome then m.lookup k' else if k' = k then some v else m.lookup k' := by
  unfold emplace
  split
  · rfl
  · rename_i hk
    rw [lookup_append_singleton]
    by_cases hk' : k' = k
    · subst hk'
      simp [hk]
    · rw [if_neg hk']
      cases m.lookup k' <;> simp [hk']

theorem lookup_emplace_of_isSome {m : List (K × V)} {k k' : K} {v w : V} (h : m.lookup k' = some w) :
    (emplace m k v).2.lookup k' = some w := by
  rw [lookup_emplace]
  split
  · exact h
  · rename_i hk
    have hne : k' ≠ k := fun he => hk (he ▸ h ▸ rfl)
    rw [if_neg hne, h]

theorem emplace_of_isSome {m : List (K × V)} {k : K} (h : (m.lookup k).isSome) (v : V) : emplace m k v = (false, m) := by
  simp [emplace, h]

theorem emplace_fst (m : List (K × V)) (k : K) (v : V) : (emplace m k v).1 = !(m.lookup k).isSome := by
  unfold emplace
  split <;> rename_i h <;> simp [h]

/-- Overwriting every entry of key `k` changes only what `k` maps to. -/
theorem lookup_map_overwrite (m : List (K × V)) (k : K) (v : V) (k' : K) :
    (m.map fun e => if e.1 = k then (k, v) else e).lookup k' =
      if k' = k then (m.lookup k).map fun _ => v else m.lookup k' := by
  induction m with
  | nil => split <;> rfl
  | cons e m ih =>
    obtain ⟨k₀, v₀⟩ := e
    by_cases h0 : k₀ = k
    · subst h0
      by_cases hk : k' = k₀
      · subst hk
        simp
      · simp only [List.map_cons, if_true, lookup_cons_ne _ _ hk, if_neg hk, ih]
    · by_cases hk : k' = k₀
      · subst hk
        simp only [List.map_cons, if_neg h0, lookup_cons_eq]
      · simp only [List.map_cons, if_neg h0, lookup_cons_ne _ _ hk, ih, lookup_cons_ne _ _ (Ne.symm h0)]

theorem lookup_assign (m : List (K × V)) (k : K) (v : V) (k' : K) :
    (assign m k v).lookup k' = if k' = k then some v else m.lookup k' := by
  unfold assign
  split
  · rename_i hk
    rw [lookup_map_overwrite]
    split
    · obtain ⟨w, hw⟩ := Option.isSome_iff_exists.mp hk
      rw [hw, Option.map_some]
    · rfl
  · rename_i hk
    rw [lookup_append_singleton]
    by_cases hk' : k' = k
    · subst hk'
      simp [hk]
    · simp only [hk', if_false]
      cases m.lookup k' <;> rfl

theorem lookup_erase (m : List (K × V)) (k k' : K) :
    (erase m k).lookup k' = if k' = k then none else m.lookup k' := by
  induction m with
  | nil => split <;> rfl
  | cons e m ih =>
    obtain ⟨k₀, v₀⟩ := e
    by_cases h0 : k₀ = k
    · subst h0
      simp only [erase, List.filter_cons, bne_self_eq_false, Bool.false_eq_true, if_false] at ih ⊢
      rw [ih]
      split
      · rfl
      · rename_i hk
        rw [lookup_cons_ne _ _ hk]
    · simp only [erase, List.filter_cons, bne_iff_ne, ne_eq, h0, not_false_eq_true, if_true] at ih ⊢
      by_cases hk : k' = k₀
      · subst hk
        simp [h0]
      · rw [lookup_cons_ne _ _ hk, lookup_cons_ne _ _ hk, ih]

theorem lookup_mapVals (f : K → V → V) (m : List (K × V)) (k : K) :
    (mapVals f m).lookup k = (m.lookup k).map (f k) := by
  induction m with
  | nil => rfl
  | cons e m ih =>
    obtain ⟨k₀, v₀⟩ := e
    by_cases hk : k = k₀
    · subst hk
      simp [mapVals]
    · simp only [mapVals, List.map_cons] at ih ⊢
      rw [lookup_cons_ne _ _ hk, lookup_cons_ne _ _ hk, ih]

theorem keys_emplace (m : List (K × V)) (k : K) (v : V) :
    keys (emplace m k v).2 = if (m.lookup k).isSome then keys m else keys m ++ [k] := by
  unfold emplace
  split <;> simp [keys]

omit [DecidableEq K] in
theorem nodup_append_singleton {l : List K} (hn : l.Nodup) {k : K} (hk : k ∉ l) : (l ++ [k]).Nodup :=
  List.nodup_append.mpr ⟨hn, List.nodup_singleton k, fun a ha b hb hab => by
    rw [List.mem_singleton] at hb
    exact hk (hb ▸ hab ▸ ha)⟩

theorem nodup_emplace {m : List (K × V)} (hn : (keys m).Nodup) (k : K) (v : V) : (keys (emplace m k v).2).Nodup := by
  rw [keys_emplace]
  split
  · exact hn
  · rename_i hk
    exact nodup_append_singleton hn (lookup_eq_none_iff.mp (Option.not_isSome_iff_eq_none.mp hk))

theorem keys_erase (m : List (K × V)) (k : K) : keys (erase m k) = (keys m).filter fun k' => k' != k := by
  simp [keys, erase, List.filter_map, Function.comp_def]

theorem nodup_erase {m : List (K × V)} (hn : (keys m).Nodup) (k : K) : (keys (erase m k)).Nodup := by
  rw [keys_erase]
  exact hn.filter _

omit [DecidableEq K] in
theorem nodup_filter {m : List (K × V)} (hn : (keys m).Nodup) (f : K × V → Bool) : (keys (m.filter f)).Nodup :=
  ((List.filter_sublist).map Prod.fst).nodup hn

/-- A key missing from a map is missing from every sublist of it. -/
theorem lookup_eq_none_of_sublist {m m' : List (K × V)} (hs : m'.Sublist m) {k : K} (hk : m.lookup k = none) :
    m'.lookup k = none :=
  lookup_eq_none_iff.mpr fun hmem => lookup_eq_none_iff.mp hk ((hs.map Prod.fst).subset hmem)

/-- With distinct keys, a filtered map looks an entry up where the map does, and keeps it when it passes. -/
theorem lookup_filter {m : List (K × V)} (hn : (keys m).Nodup) (f : K × V → Bool) (k : K) :
    (m.filter f).lookup k = (m.lookup k).filter fun v => f (k, v) := by
  have hsub : keys (m.filter f) ⊆ keys m := ((List.filter_sublist).map Prod.fst).subset
  cases hk : m.lookup k with
  | none =>
    rw [Option.filter_none, lookup_eq_none_iff]
    exact fun hmem => lookup_eq_none_iff.mp hk (hsub hmem)
  | some v =>
    have hm := mem_of_lookup hk
    rw [Option.filter_some]
    split
    · exact lookup_of_mem (nodup_filter hn f) (List.mem_filter.mpr ⟨hm, by assumption⟩)
    · rename_i hf
      cases hk' : (m.filter f).lookup k with
      | none => rfl
      | some w =>
        have hw := List.mem_filter.mp (mem_of_lookup hk')
        have hwv : w = v := Option.some.inj ((lookup_of_mem hn hw.1).symm.trans hk)
        exact absurd (hwv ▸ hw.2) hf

/-- An entry of a map with distinct keys can be taken to the front. -/
theorem perm_erase : ∀ {m : List (K × V)}, (keys m).Nodup → ∀ {k : K} {v : V}, m.lookup k = some v →
    m.Perm ((k, v) :: erase m k)
  | [], _, _, _, h => by simp at h
  | (k', v') :: m, hn, k, v, h => by
    rw [keys, List.map_cons, List.nodup_cons] at hn
    by_cases hk : k = k'
    · subst hk
      rw [lookup_cons_eq, Option.some.injEq] at h
      subst h
      have hm : erase m k = m := List.filter_eq_self.mpr fun e he => bne_iff_ne.mpr fun hek => by
        have hkm : e.1 ∈ keys m := mem_keys_of_mem he
        exact hn.1 (hek ▸ hkm)
      simp only [erase, List.filter_cons, bne_self_eq_false, Bool.false_eq_true, if_false]
      rw [show List.filter (fun e => e.1 != k) m = erase m k from rfl, hm]
    · rw [lookup_cons_ne _ _ hk] at h
      have ih := perm_erase hn.2 h
      have hcons : erase ((k', v') :: m) k = (k', v') :: erase m k := by
        simp [erase, Ne.symm hk]
      rw [hcons]
      exact (ih.cons _).trans (List.Perm.swap _ _ _)

theorem nodup_assign {m : List (K × V)} (hn : (keys m).Nodup) (k : K) (v : V) : (keys (assign m k v)).Nodup := by
  unfold assign
  split
  · have hkeys : keys (m.map fun e => if e.1 = k then (k, v) else e) = keys m := by
      simp only [keys, List.map_map]
      congr 1
      funext e
      by_cases h : e.1 = k <;> simp [h]
    rw [hkeys]
    exact hn
  · rename_i hk
    simpa [keys] using nodup_append_singleton hn (lookup_eq_none_iff.mp (Option.not_isSome_iff_eq_none.mp hk))

theorem erase_map_overwrite (m : List (K × V)) (k : K) (v : V) :
    erase (m.map fun e => if e.1 = k then (k, v) else e) k = erase m k := by
  induction m with
  | nil => rfl
  | cons e m ih =>
    by_cases hek : e.1 = k
    · simpa [erase, hek] using ih
    · simpa [erase, hek] using ih

/-- Overwriting a present key is erasing it and putting the new entry in front, up to order. -/
theorem perm_assign {m : List (K × V)} (hn : (keys m).Nodup) {k : K} {w : V} (h : m.lookup k = some w) (v : V) :
    (assign m k v).Perm ((k, v) :: erase m k) := by
  have hl : (assign m k v).lookup k = some v := by rw [lookup_assign, if_pos rfl]
  have he : erase (assign m k v) k = erase m k := by
    unfold assign
    rw [if_pos (Option.isSome_iff_exists.mpr ⟨w, h⟩), erase_map_overwrite]
  have hp := perm_erase (nodup_assign hn k v) hl
  rwa [he] at hp

theorem countP_erase {m : List (K × V)} (hn : (keys m).Nodup) {k : K} {w : V} (h : m.lookup k = some w)
    (p : K × V → Bool) : (erase m k).countP p + (if p (k, w) then 1 else 0) = m.countP p := by
  rw [(perm_erase hn h).countP_eq, List.countP_cons]

theorem countP_assign {m : List (K × V)} (hn : (keys m).Nodup) {k : K} {w : V} (h : m.lookup k = some w) (v : V)
    (p : K × V → Bool) :
    (assign m k v).countP p + (if p (k, w) then 1 else 0) = m.countP p + (if p (k, v) then 1 else 0) := by
  rw [(perm_assign hn h v).countP_eq, List.countP_cons, ← countP_erase hn h p]
  split <;> split <;> omega

end AssocList
