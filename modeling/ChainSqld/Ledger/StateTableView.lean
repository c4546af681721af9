import ChainSqld.Ledger.StateTable

/-!
# The map a state table shows

A table over a base shows one map (`overlayView`): the table's entry for a key it holds, none for an
erasure, and the base's entry for a key it does not hold. For any table over any base, `read` is
that map with the keylet's check (`overlayRead_eq`), `exists` is whether the map has the key when
the keylet accepts the entry there (`overlayExists_eq`), and `succ` is the map's next key below
`last` (`overlaySucc_isSucc`).
-/

set_option autoImplicit false

namespace Ripple

open List

variable {K D : Type} [LinearOrder K]

section View

variable {A : Type} (isErase : A → Bool)

/-- The map a table over a base shows. -/
def overlayView (items : OrdMap K (A × SLE K D)) (base : ReadView K D) (k : K) : Option (SLE K D) :=
  match items.find? k with
  | none => base.find? k
  | some (a, sle) => if isErase a then none else some sle

variable {isErase} {items : OrdMap K (A × SLE K D)} {base : ReadView K D}

theorem overlayView_of_none {k : K} (h : items.find? k = none) : overlayView isErase items base k = base.find? k := by
  simp [overlayView, h]

theorem overlayView_of_some {k : K} {a : A} {sle : SLE K D} (h : items.find? k = some (a, sle)) :
    overlayView isErase items base k = if isErase a then none else some sle := by
  simp [overlayView, h]

theorem overlayView_set (k : K) (a : A) (sle : SLE K D) :
    overlayView isErase (items.set k (a, sle)) base =
      Function.update (overlayView isErase items base) k (if isErase a then none else some sle) := by
  funext k'
  by_cases hk : k' = k <;> simp [overlayView, OrdMap.find?_set, hk]

theorem overlayView_erase (k : K) :
    overlayView isErase (items.erase k) base = Function.update (overlayView isErase items base) k (base.find? k) := by
  funext k'
  by_cases hk : k' = k
  · subst hk
    simp [overlayView, OrdMap.find?_erase]
  · simp [overlayView, OrdMap.find?_erase, hk]

/-- `read` is the map, with the keylet's check. -/
theorem overlayRead_eq (k : Keylet K D) :
    overlayRead isErase items base k = (overlayView isErase items base k.key).filter k.check := by
  unfold overlayRead
  cases h : items.find? k.key with
  | none => simp [overlayView_of_none h, ReadView.read]
  | some e =>
    rw [overlayView_of_some h]
    by_cases ha : isErase e.1 = true
    · simp [ha]
    · by_cases hc : k.check e.2 = true <;> simp [ha, hc, Option.filter]

/-- `exists` is whether the map has the key, for a keylet that accepts the entry there. -/
theorem overlayExists_eq (k : Keylet K D) (hk : ∀ s, overlayView isErase items base k.key = some s → k.check s = true) :
    overlayExists isErase items base k = (overlayView isErase items base k.key).isSome := by
  unfold overlayExists
  cases h : items.find? k.key with
  | none => simp [overlayView_of_none h, ReadView.exists]
  | some e =>
    obtain ⟨a, sle⟩ := e
    have hv : overlayView isErase items base k.key = _ := overlayView_of_some h
    by_cases ha : isErase a = true
    · simp [hv, ha]
    · rw [if_neg ha] at hv
      simp [hv, ha, hk sle hv]

/-! ## `succ` -/

/-- `Ledger::succ` is the next key of the base below `last`. -/
theorem ReadView.succ_isSucc (base : ReadView K D) (key : K) (last : Option K) :
    IsSucc (fun k => (base.find? k).isSome) key last (base.succ key last) := by
  have h : IsSucc _ key last _ := (IsSucc.of_upperBound base key fun _ => true).cut
  have heq : base.succ key last = cutAt last (((base.upperBound key).find? fun _ => true).map Prod.fst) := by
    unfold ReadView.succ
    cases hu : base.upperBound key with
    | nil => rfl
    | cons e es =>
      cases last with
      | none => simp [cutAt, Below]
      | some l =>
        rcases le_or_gt l e.1 with hl | hl
        · simp [cutAt, Below, hl, not_lt.mpr hl]
        · simp [cutAt, Below, hl, not_le.mpr hl]
  rw [heq]
  exact h.of_iff fun k => by simp [Option.isSome_iff_exists]

/-- The base loop of `succ` finds the next key of the base below `last` that the table has not
erased; each round passes one base entry, so the fuel is enough. -/
theorem succBase_isSucc (last : Option K) :
    ∀ (fuel : Nat) (next : K), (base.upperBound next).length < fuel →
      IsSucc (fun k => (base.find? k).isSome ∧ (items.find? k).any (fun e => isErase e.1) = false) next last
        (succBase isErase items base last fuel next)
  | 0, _, h => absurd h (Nat.not_lt_zero _)
  | fuel + 1, next, hfuel => by
    have hs := base.succ_isSucc next last
    unfold succBase
    cases hb : base.succ next last with
    | none =>
      rw [hb] at hs
      exact fun k hk hbk hp => hs k hk hbk hp.1
    | some n =>
      rw [hb] at hs
      obtain ⟨hnext, hbn, hn, hgap⟩ := hs
      simp only
      split
      · -- erased: the loop goes on from `n`
        rename_i herased
        obtain ⟨v, hv⟩ := Option.isSome_iff_exists.mp hn
        have hlen := base.length_upperBound_lt ((base.find?_eq_some_iff).mp hv) hnext
        refine IsSucc.step hnext (fun k hk hkn hp => ?_) (succBase_isSucc last fuel n (by simp at hlen; omega))
        rcases lt_or_eq_of_le hkn with hkn | rfl
        · exact hgap k hk hkn hp.1
        · rw [herased] at hp
          exact Bool.false_ne_true hp.2.symm
      · rename_i hkept
        exact ⟨hnext, hbn, ⟨hn, by simpa using hkept⟩, fun k hk hkn hp => hgap k hk hkn hp.1⟩

/-- A key the map has is one the base has and the table has not erased, or one the table holds. -/
theorem overlayView_isSome_iff (k : K) :
    (overlayView isErase items base k).isSome ↔
      ((base.find? k).isSome ∧ (items.find? k).any (fun e => isErase e.1) = false) ∨
        ∃ v, items.find? k = some v ∧ (!isErase v.1) = true := by
  cases h : items.find? k with
  | none => simp [overlayView_of_none h]
  | some e =>
    rw [overlayView_of_some h]
    by_cases ha : isErase e.1 = true <;> simp [ha]

/-- **`succ`** is the next key of the map below `last`. -/
theorem overlaySucc_isSucc (key : K) (last : Option K) :
    IsSucc (fun k => (overlayView isErase items base k).isSome) key last (overlaySucc isErase items base key last) := by
  have h₁ : IsSucc _ key last (succBase isErase items base last (base.entries.length + 1) key) :=
    succBase_isSucc last _ key (Nat.lt_succ_of_le (base.upperBound_length_le key))
  have h₂ := IsSucc.of_upperBound items key fun e => !isErase e.2.1
  have h := (h₁.lower h₂).of_iff fun k => (overlayView_isSome_iff k).symm
  -- the source's comparisons are `lowerKey` and `cutAt`
  have heq : overlaySucc isErase items base key last =
      cutAt last (lowerKey (succBase isErase items base last (base.entries.length + 1) key)
        (((items.upperBound key).find? fun e => !isErase e.2.1).map Prod.fst)) := by
    unfold overlaySucc
    generalize succBase isErase items base last (base.entries.length + 1) key = r₁
    cases (items.upperBound key).find? (fun e => !isErase e.2.1) <;> cases r₁ <;> cases last <;>
      simp only [lowerKey, cutAt, Below, Option.map_some, Option.map_none, Option.all_some, Option.all_none] <;>
      split_ifs <;> grind
  rw [heq]
  exact h

end View

/-! ## Writing a table into a raw view -/

section Apply

variable {A : Type}

/-- What `apply` leaves under a key: the raw view's entry `x` for a key the table does not hold,
and what the table's action `g` makes of it otherwise. -/
def appliedAt (g : A → SLE K D → Option (SLE K D) → Option (SLE K D)) (o : Option (A × SLE K D))
    (x : Option (SLE K D)) : Option (SLE K D) :=
  match o with
  | none => x
  | some (a, sle) => g a sle x

/-- `apply`'s loop over entries each under its own key, in key order, with an `applyItem` that
changes the entry's key alone: each key ends as its entry makes it. -/
theorem foldl_applyItem (applyItem : RawView K D → A × SLE K D → RawView K D)
    (g : A → SLE K D → Option (SLE K D) → Option (SLE K D))
    (hitem : ∀ target a s k, (applyItem target (a, s)).state k = if k = s.key then g a s (target.state k) else target.state k)
    (hdrops : ∀ target e, (applyItem target e).dropsDestroyed = target.dropsDestroyed) :
    ∀ (l : List (K × (A × SLE K D))) (target : RawView K D), l.Pairwise (fun a b => a.1 < b.1) →
      (∀ e ∈ l, e.2.2.key = e.1) →
      (l.foldl (fun target e => applyItem target e.2) target).state = (fun k => appliedAt g (l.lookup k) (target.state k)) ∧
        (l.foldl (fun target e => applyItem target e.2) target).dropsDestroyed = target.dropsDestroyed
  | [], target, _, _ => ⟨rfl, rfl⟩
  | (k₀, (a, s)) :: l, target, hs, hkey => by
    have hk₀ : s.key = k₀ := hkey _ mem_cons_self
    obtain ⟨ih, ihd⟩ := foldl_applyItem applyItem g hitem hdrops l (applyItem target (a, s)) (pairwise_cons.mp hs).2
      fun e he => hkey e (mem_cons_of_mem _ he)
    refine ⟨?_, by rw [foldl_cons, ihd, hdrops]⟩
    rw [foldl_cons, ih]
    funext k
    by_cases hk : k = k₀
    · -- the later entries are above `k₀`
      subst hk
      have hnone : l.lookup k = none := lookup_eq_none_of_forall fun e he =>
        ne_of_gt ((pairwise_cons.mp hs).1 e he)
      rw [hnone, lookup_cons_self, hitem, if_pos hk₀.symm]
      rfl
    · rw [lookup_cons_of_ne hk, hitem, if_neg (hk₀ ▸ hk)]

end Apply

/-- The entries of a ledger are under their own keys. -/
def ReadView.Keyed (base : ReadView K D) : Prop :=
  ∀ k s, base.find? k = some s → s.key = k

/-! ## `ApplyStateTable` -/

namespace ApplyStateTable

variable {t : ApplyStateTable K D} {base : ReadView K D}

/-- The map the table shows over `base`. -/
def view (t : ApplyStateTable K D) (base : ReadView K D) : K → Option (SLE K D) :=
  overlayView ApplyAction.isErase t.items base

/-- Each entry is under its own key, an entry cached for change is the base's, and an inserted
entry is not in the base. -/
def Consistent (t : ApplyStateTable K D) (base : ReadView K D) : Prop :=
  ∀ k a s, t.items.find? k = some (a, s) →
    s.key = k ∧ (a = .cache → base.find? k = some s) ∧ (a = .insert → base.find? k = none)

theorem consistent_empty : (empty : ApplyStateTable K D).Consistent base := by
  intro k a s h
  simp [empty] at h

theorem view_empty : (empty : ApplyStateTable K D).view base = base.find? := by
  funext k
  simp [view, overlayView, empty]

theorem view_set (k : K) (a : ApplyAction) (s : SLE K D) :
    ({ t with items := t.items.set k (a, s) } : ApplyStateTable K D).view base =
      Function.update (t.view base) k (if a.isErase then none else some s) :=
  overlayView_set k a s

theorem view_erase (k : K) :
    ({ t with items := t.items.erase k } : ApplyStateTable K D).view base =
      Function.update (t.view base) k (base.find? k) :=
  overlayView_erase k

theorem Consistent.set (hc : t.Consistent base) {k : K} {a : ApplyAction} {s : SLE K D} (hs : s.key = k)
    (hcache : a = .cache → base.find? k = some s) (hins : a = .insert → base.find? k = none) :
    ({ t with items := t.items.set k (a, s) } : ApplyStateTable K D).Consistent base := by
  intro k' a' s' h
  simp only [OrdMap.find?_set] at h
  split at h
  · rename_i hk
    subst hk
    cases h
    exact ⟨hs, hcache, hins⟩
  · exact hc k' a' s' h

theorem Consistent.erase (hc : t.Consistent base) (k : K) :
    ({ t with items := t.items.erase k } : ApplyStateTable K D).Consistent base := by
  intro k' a' s' h
  simp only [OrdMap.find?_erase] at h
  split at h
  · cases h
  · exact hc k' a' s' h

/-- The table holds a key the map has not, only as an erasure. -/
theorem erase_of_view_none {k : K} (hv : t.view base k = none) {e : ApplyAction × SLE K D}
    (h : t.items.find? k = some e) : e.1 = .erase := by
  obtain ⟨a, s⟩ := e
  rw [view, overlayView_of_some h] at hv
  cases a <;> simp [ApplyAction.isErase] at hv ⊢

/-- An erasure is not in the map. -/
theorem view_none_of_erase {k : K} {s : SLE K D} (h : t.items.find? k = some (.erase, s)) : t.view base k = none := by
  rw [view, overlayView_of_some h]
  rfl

/-- The table holds the key, not as an erasure: `peek` returned its entry. -/
def Peeked (t : ApplyStateTable K D) (k : K) : Prop :=
  ∃ e, t.items.find? k = some e ∧ e.1 ≠ .erase

/-- What an operation leaves: a consistent table showing the map `M`, with the drops destroyed
unchanged. -/
def Leaves (t : ApplyStateTable K D) (base : ReadView K D) (M : K → Option (SLE K D)) (t' : ApplyStateTable K D) :
    Prop :=
  t'.Consistent base ∧ t'.view base = M ∧ t'.dropsDestroyed = t.dropsDestroyed

/-- `insert` of a key the map has not. -/
theorem insert_spec (hc : t.Consistent base) {sle : SLE K D} (hv : t.view base sle.key = none) :
    ∃ t', t.insert sle = .ok t' ∧ t.Leaves base (Function.update (t.view base) sle.key (some sle)) t' := by
  cases h : t.items.find? sle.key with
  | none =>
    have hb : base.find? sle.key = none := by rwa [view, overlayView_of_none h] at hv
    exact ⟨_, by simp [insert, h], hc.set (a := .insert) (s := sle) rfl (by simp) fun _ => hb, by rw [view_set]; rfl, rfl⟩
  | some e =>
    obtain ⟨a, s⟩ := e
    have ha : a = .erase := erase_of_view_none hv h
    subst ha
    exact ⟨_, by simp [insert, h], hc.set (a := .modify) (s := sle) rfl (by simp) (by simp), by rw [view_set]; rfl, rfl⟩

/-- `update` of the entry `peek` returned, as changed. -/
theorem update_spec (hc : t.Consistent base) {sle : SLE K D} (hp : t.Peeked sle.key) :
    ∃ t', t.update sle = .ok t' ∧ t.Leaves base (Function.update (t.view base) sle.key (some sle)) t' := by
  obtain ⟨⟨a, s⟩, h, ha⟩ := hp
  have hins := (hc _ _ _ h).2.2
  cases a with
  | erase => exact absurd rfl ha
  | cache => exact ⟨_, by simp [update, h], hc.set (a := .modify) (s := sle) rfl (by simp) (by simp), by rw [view_set]; rfl, rfl⟩
  | insert => exact ⟨_, by simp [update, h], hc.set (a := .insert) (s := sle) rfl (by simp) (fun _ => hins rfl), by rw [view_set]; rfl, rfl⟩
  | modify => exact ⟨_, by simp [update, h], hc.set (a := .modify) (s := sle) rfl (by simp) (by simp), by rw [view_set]; rfl, rfl⟩

/-- `erase` of the entry `peek` returned. -/
theorem erase_spec (hc : t.Consistent base) {sle : SLE K D} (hp : t.Peeked sle.key) :
    ∃ t', t.erase sle = .ok t' ∧ t.Leaves base (Function.update (t.view base) sle.key none) t' := by
  obtain ⟨⟨a, s⟩, h, ha⟩ := hp
  obtain ⟨hkey, -, hins⟩ := hc _ _ _ h
  cases a with
  | erase => exact absurd rfl ha
  | insert =>
    -- an inserted entry goes, and the base has none there
    refine ⟨_, by simp [erase, h], hc.erase sle.key, ?_, rfl⟩
    rw [view_erase, hins rfl]
  | cache => exact ⟨_, by simp [erase, h], hc.set (a := .erase) hkey (by simp) (by simp), by rw [view_set]; rfl, rfl⟩
  | modify => exact ⟨_, by simp [erase, h], hc.set (a := .erase) hkey (by simp) (by simp), by rw [view_set]; rfl, rfl⟩

/-- `replace` of a key the map has. -/
theorem replace_spec (hc : t.Consistent base) {sle : SLE K D} (hv : (t.view base sle.key).isSome) :
    ∃ t', t.replace sle = .ok t' ∧ t.Leaves base (Function.update (t.view base) sle.key (some sle)) t' := by
  cases h : t.items.find? sle.key with
  | none => exact ⟨_, by simp [replace, h], hc.set (a := .modify) (s := sle) rfl (by simp) (by simp), by rw [view_set]; rfl, rfl⟩
  | some e =>
    obtain ⟨a, s⟩ := e
    have hins := (hc _ _ _ h).2.2
    cases a with
    | erase => simp [view_none_of_erase h] at hv
    | cache => exact ⟨_, by simp [replace, h], hc.set (a := .modify) (s := sle) rfl (by simp) (by simp), by rw [view_set]; rfl, rfl⟩
    | insert => exact ⟨_, by simp [replace, h], hc.set (a := .insert) (s := sle) rfl (by simp) (fun _ => hins rfl), by rw [view_set]; rfl, rfl⟩
    | modify => exact ⟨_, by simp [replace, h], hc.set (a := .modify) (s := sle) rfl (by simp) (by simp), by rw [view_set]; rfl, rfl⟩

/-- `rawErase` of a key the map has. -/
theorem rawErase_spec (hc : t.Consistent base) {sle : SLE K D} (hv : (t.view base sle.key).isSome) :
    ∃ t', t.rawErase sle = .ok t' ∧ t.Leaves base (Function.update (t.view base) sle.key none) t' := by
  cases h : t.items.find? sle.key with
  | none => exact ⟨_, by simp [rawErase, h], hc.set (a := .erase) (s := sle) rfl (by simp) (by simp), by rw [view_set]; rfl, rfl⟩
  | some e =>
    obtain ⟨a, s⟩ := e
    have hins := (hc _ _ _ h).2.2
    cases a with
    | erase => simp [view_none_of_erase h] at hv
    | insert =>
      refine ⟨_, by simp [rawErase, h], hc.erase sle.key, ?_, rfl⟩
      rw [view_erase, hins rfl]
    | cache => exact ⟨_, by simp [rawErase, h], hc.set (a := .erase) (s := sle) rfl (by simp) (by simp), by rw [view_set]; rfl, rfl⟩
    | modify => exact ⟨_, by simp [rawErase, h], hc.set (a := .erase) (s := sle) rfl (by simp) (by simp), by rw [view_set]; rfl, rfl⟩

/-- `peek` returns what `read` would, and caching a base entry changes nothing the table shows. -/
theorem peek_spec (hc : t.Consistent base) (hbase : base.Keyed) (k : Keylet K D) :
    (t.peek base k).1 = t.read base k ∧ t.Leaves base (t.view base) (t.peek base k).2 := by
  rw [read, overlayRead_eq]
  unfold peek
  cases h : t.items.find? k.key with
  | none =>
    cases hr : base.read k with
    | none => exact ⟨by simpa [view, overlayView_of_none h, ReadView.read] using hr.symm, hc, rfl, rfl⟩
    | some sle =>
      -- the entry read is the base's, under its own key
      obtain ⟨hfind, -⟩ : base.find? k.key = some sle ∧ k.check sle = true := by
        simpa [ReadView.read, Option.filter_eq_some_iff] using hr
      have hkey : sle.key = k.key := hbase _ _ hfind
      refine ⟨by simpa [view, overlayView_of_none h, ReadView.read] using hr.symm,
        hc.set rfl (fun _ => hkey ▸ hfind) (by simp), ?_, rfl⟩
      rw [view_set, hkey]
      funext k'
      by_cases hk : k' = k.key
      · subst hk
        simp [view, overlayView_of_none h, hfind, ApplyAction.isErase]
      · simp [hk]
  | some e =>
    obtain ⟨a, s⟩ := e
    dsimp only
    -- the table is left as it is
    have hsnd : (if a.isErase = true then (none, t) else if k.check s = true then (some s, t) else (none, t)).2 = t := by
      split_ifs <;> rfl
    rw [hsnd]
    refine ⟨?_, hc, rfl, rfl⟩
    simp only [overlayView_of_some h]
    by_cases ha : a.isErase = true
    · simp [ha]
    · by_cases hck : k.check s = true <;> simp [ha, hck, Option.filter]

/-- What one action of the table makes of the raw view's entry. -/
def applied : ApplyAction → SLE K D → Option (SLE K D) → Option (SLE K D)
  | .cache, _, x => x
  | .erase, _, _ => none
  | .insert, s, _ => some s
  | .modify, s, _ => some s

/-- **`apply`** into a raw view that holds the base leaves the map the table shows. -/
theorem apply_view (hc : t.Consistent base) (target : RawView K D) (hto : target.state = base.find?) :
    (t.apply target).state = t.view base ∧ (t.apply target).dropsDestroyed = target.dropsDestroyed + t.dropsDestroyed := by
  have hitem : ∀ (target : RawView K D) a s k,
      (applyItem target (a, s)).state k = if k = s.key then applied a s (target.state k) else target.state k := by
    intro target a s k
    cases a <;> by_cases hk : k = s.key <;>
      simp [applyItem, applied, RawView.rawErase, RawView.rawInsert, RawView.rawReplace, hk]
  have hdrops : ∀ (target : RawView K D) e, (applyItem target e).dropsDestroyed = target.dropsDestroyed := by
    intro target e
    obtain ⟨a, s⟩ := e
    cases a <;> rfl
  have hkey : ∀ e ∈ t.items.entries, e.2.2.key = e.1 := fun e he =>
    (hc e.1 e.2.1 e.2.2 ((t.items.find?_eq_some_iff).mpr he)).1
  obtain ⟨hs, hd⟩ := foldl_applyItem applyItem applied hitem hdrops t.items.entries
    (target.rawDestroyZXC t.dropsDestroyed) t.items.sorted hkey
  refine ⟨?_, by rw [apply, hd]; rfl⟩
  rw [apply, hs]
  funext k
  change appliedAt applied (t.items.find? k) (target.state k) = _
  rw [hto]
  cases h : t.items.find? k with
  | none => simp [appliedAt, view, overlayView_of_none h]
  | some e =>
    obtain ⟨a, s⟩ := e
    have hcache := (hc _ _ _ h).2.1
    cases a <;> simp [appliedAt, applied, view, overlayView_of_some h, ApplyAction.isErase, hcache]

end ApplyStateTable

/-! ## `RawStateTable` -/

namespace RawStateTable

variable {t : RawStateTable K D} {base : ReadView K D}

/-- The map the table shows over `base`. -/
def view (t : RawStateTable K D) (base : ReadView K D) : K → Option (SLE K D) :=
  overlayView RawAction.isErase t.items base

/-- Each entry is under its own key, and is an insertion exactly when the base has no entry
there. -/
def Consistent (t : RawStateTable K D) (base : ReadView K D) : Prop :=
  ∀ k a s, t.items.find? k = some (a, s) → s.key = k ∧ (a = .insert ↔ base.find? k = none)

/-- What an operation leaves: a consistent table showing the map `M`. -/
def Leaves (t : RawStateTable K D) (base : ReadView K D) (M : K → Option (SLE K D)) (t' : RawStateTable K D) :
    Prop :=
  t'.Consistent base ∧ t'.view base = M ∧ t'.dropsDestroyed = t.dropsDestroyed

theorem consistent_empty : (empty : RawStateTable K D).Consistent base := by
  intro k a s h
  simp [empty] at h

theorem view_empty : (empty : RawStateTable K D).view base = base.find? := by
  funext k
  simp [view, overlayView, empty]

theorem view_set (k : K) (a : RawAction) (s : SLE K D) :
    ({ t with items := t.items.set k (a, s) } : RawStateTable K D).view base =
      Function.update (t.view base) k (if a.isErase then none else some s) :=
  overlayView_set k a s

theorem view_erase (k : K) :
    ({ t with items := t.items.erase k } : RawStateTable K D).view base =
      Function.update (t.view base) k (base.find? k) :=
  overlayView_erase k

theorem Consistent.set (hc : t.Consistent base) {k : K} {a : RawAction} {s : SLE K D} (hs : s.key = k)
    (hins : a = .insert ↔ base.find? k = none) :
    ({ t with items := t.items.set k (a, s) } : RawStateTable K D).Consistent base := by
  intro k' a' s' h
  simp only [OrdMap.find?_set] at h
  split at h
  · rename_i hk
    subst hk
    cases h
    exact ⟨hs, hins⟩
  · exact hc k' a' s' h

theorem Consistent.erase (hc : t.Consistent base) (k : K) :
    ({ t with items := t.items.erase k } : RawStateTable K D).Consistent base := by
  intro k' a' s' h
  simp only [OrdMap.find?_erase] at h
  split at h
  · cases h
  · exact hc k' a' s' h

/-- A key the table does not hold shows the base's entry. -/
theorem view_of_none {k : K} (h : t.items.find? k = none) : t.view base k = base.find? k :=
  overlayView_of_none h

/-- The base has the key of an entry that is not an insertion. -/
theorem base_of_ne_insert (hc : t.Consistent base) {k : K} {a : RawAction} {s : SLE K D}
    (h : t.items.find? k = some (a, s)) (ha : a ≠ .insert) : base.find? k ≠ none :=
  fun hb => ha ((hc k a s h).2.mpr hb)

/-- `insert` of a key the map has not. -/
theorem insert_spec (hc : t.Consistent base) {sle : SLE K D} (hv : t.view base sle.key = none) :
    ∃ t', t.insert sle = .ok t' ∧ t.Leaves base (Function.update (t.view base) sle.key (some sle)) t' := by
  cases h : t.items.find? sle.key with
  | none =>
    have hb : base.find? sle.key = none := by rwa [view_of_none h] at hv
    exact ⟨_, by simp [insert, h], hc.set (a := .insert) (s := sle) rfl (iff_of_true rfl hb),
      by rw [view_set]; rfl, rfl⟩
  | some e =>
    obtain ⟨a, s⟩ := e
    cases a with
    | erase =>
      have hb := base_of_ne_insert hc h (by simp)
      exact ⟨_, by simp [insert, h], hc.set (a := .replace) (s := sle) rfl (iff_of_false (by simp) hb),
        by rw [view_set]; rfl, rfl⟩
    | insert => simp [view, overlayView_of_some h, RawAction.isErase] at hv
    | replace => simp [view, overlayView_of_some h, RawAction.isErase] at hv

/-- `replace` of a key the map has. -/
theorem replace_spec (hc : t.Consistent base) {sle : SLE K D} (hv : (t.view base sle.key).isSome) :
    ∃ t', t.replace sle = .ok t' ∧ t.Leaves base (Function.update (t.view base) sle.key (some sle)) t' := by
  cases h : t.items.find? sle.key with
  | none =>
    have hb : base.find? sle.key ≠ none := by
      rw [view_of_none h] at hv
      exact Option.isSome_iff_ne_none.mp hv
    exact ⟨_, by simp [replace, h], hc.set (a := .replace) (s := sle) rfl (iff_of_false (by simp) hb),
      by rw [view_set]; rfl, rfl⟩
  | some e =>
    obtain ⟨a, s⟩ := e
    have hins := (hc _ _ _ h).2
    cases a with
    | erase => simp [view, overlayView_of_some h, RawAction.isErase] at hv
    | insert => exact ⟨_, by simp [replace, h], hc.set (a := .insert) (s := sle) rfl hins, by rw [view_set]; rfl, rfl⟩
    | replace => exact ⟨_, by simp [replace, h], hc.set (a := .replace) (s := sle) rfl hins, by rw [view_set]; rfl, rfl⟩

/-- `erase` of a key the map has. -/
theorem erase_spec (hc : t.Consistent base) {sle : SLE K D} (hv : (t.view base sle.key).isSome) :
    ∃ t', t.erase sle = .ok t' ∧ t.Leaves base (Function.update (t.view base) sle.key none) t' := by
  cases h : t.items.find? sle.key with
  | none =>
    have hb : base.find? sle.key ≠ none := by
      rw [view_of_none h] at hv
      exact Option.isSome_iff_ne_none.mp hv
    exact ⟨_, by simp [erase, h], hc.set (a := .erase) (s := sle) rfl (iff_of_false (by simp) hb),
      by rw [view_set]; rfl, rfl⟩
  | some e =>
    obtain ⟨a, s⟩ := e
    have hins := (hc _ _ _ h).2
    cases a with
    | erase => simp [view, overlayView_of_some h, RawAction.isErase] at hv
    | insert =>
      -- an inserted entry goes, and the base has none there
      refine ⟨_, by simp [erase, h], hc.erase sle.key, ?_, rfl⟩
      rw [view_erase, hins.mp rfl]
    | replace =>
      exact ⟨_, by simp [erase, h], hc.set (a := .erase) (s := sle) rfl (iff_of_false (by simp) (by simpa using hins)),
        by rw [view_set]; rfl, rfl⟩

/-- What one action of the table makes of the raw view's entry. -/
def applied : RawAction → SLE K D → Option (SLE K D) → Option (SLE K D)
  | .erase, _, _ => none
  | .insert, s, _ => some s
  | .replace, s, _ => some s

/-- **`apply`** into a raw view that holds the base leaves the map the table shows. -/
theorem apply_view (hc : t.Consistent base) (target : RawView K D) (hto : target.state = base.find?) :
    (t.apply target).state = t.view base ∧ (t.apply target).dropsDestroyed = target.dropsDestroyed + t.dropsDestroyed := by
  have hitem : ∀ (target : RawView K D) a s k,
      (applyItem target (a, s)).state k = if k = s.key then applied a s (target.state k) else target.state k := by
    intro target a s k
    cases a <;> by_cases hk : k = s.key <;>
      simp [applyItem, applied, RawView.rawErase, RawView.rawInsert, RawView.rawReplace, hk]
  have hdrops : ∀ (target : RawView K D) e, (applyItem target e).dropsDestroyed = target.dropsDestroyed := by
    intro target e
    obtain ⟨a, s⟩ := e
    cases a <;> rfl
  have hkey : ∀ e ∈ t.items.entries, e.2.2.key = e.1 := fun e he =>
    (hc e.1 e.2.1 e.2.2 ((t.items.find?_eq_some_iff).mpr he)).1
  obtain ⟨hs, hd⟩ := foldl_applyItem applyItem applied hitem hdrops t.items.entries
    (target.rawDestroyZXC t.dropsDestroyed) t.items.sorted hkey
  refine ⟨?_, by rw [apply, hd]; rfl⟩
  rw [apply, hs]
  funext k
  change appliedAt applied (t.items.find? k) (target.state k) = _
  rw [hto]
  cases h : t.items.find? k with
  | none => simp [appliedAt, view, overlayView_of_none h]
  | some e =>
    obtain ⟨a, s⟩ := e
    cases a <;> simp [appliedAt, applied, view, overlayView_of_some h, RawAction.isErase]

end RawStateTable

end Ripple
