import ChainSqld.Ledger.DirectoryRing

/-!
# What one `dirAdd` or `dirRemove` does

Each operation, from a directory that keeps the invariant `DirInv`, succeeds, raises no
`LogicError`, and keeps the invariant with the placement of its key updated: `dirAdd` places a key
that had no place on the page it returns (`dirAdd_dirInv`), and `dirRemove` takes a key off the
page it was placed on (`dirRemove_dirInv`). Every branch of the source is followed; the guards
that raise `LogicError` are shown false from the ring, and the branches for a legacy empty last
page are shown not taken, since no page but the root is ever empty.
-/

set_option autoImplicit false

namespace Ripple

open Dir List

variable {α : Type} [LinearOrder α]

/-- On every page a key follows a greater one only when it was added with the order preserved
(`inOrder`); so a page of keys added without it is sorted. -/
def PagesOrdered (d : Dir α) (inOrder : α → Bool) : Prop :=
  ∀ n p, d n = some p → p.indexes.Pairwise fun x y => x ≤ y ∨ inOrder y = true

/-- Each page of `d'` is a page of `d` holding a part of what it held. -/
def Shrinks (d d' : Dir α) : Prop :=
  ∀ m p', d' m = some p' → ∃ p, d m = some p ∧ p'.indexes.Sublist p.indexes

section Shrinks

variable {d d' : Dir α}

omit [LinearOrder α] in
theorem Shrinks.of_indexes (h : ∀ m, (d' m).map DirPage.indexes = (d m).map DirPage.indexes) : Shrinks d d' := by
  intro m p' hp'
  obtain ⟨p, hp, he⟩ := Stored.exists_of_map_indexes (h m) hp'
  exact ⟨p, hp, he ▸ Sublist.refl _⟩

omit [LinearOrder α] in
theorem Shrinks.erasePage (h : Shrinks d d') (n : Nat) : Shrinks d (d'.erasePage n) := by
  intro m p' hp'
  by_cases hm : m = n
  · subst hm
    simp at hp'
  · exact h m p' (by rwa [erasePage_ne hm] at hp')

/-- Taking a key off one page. -/
theorem Shrinks.of_erase {n : Nat} {k : α} (hsub : ∀ m p', d' m = some p' → ∃ p, d m = some p ∧
    p'.indexes = if m = n then p.indexes.erase k else p.indexes) : Shrinks d d' := by
  intro m p' hp'
  obtain ⟨p, hp, he⟩ := hsub m p' hp'
  refine ⟨p, hp, ?_⟩
  rw [he]
  split
  · exact erase_sublist
  · exact Sublist.refl _

theorem shrinks_setErase {n : Nat} {node : DirPage α} (hn : d n = some node) (k : α) :
    Shrinks d (d.setPage n { node with indexes := node.indexes.erase k }) := by
  refine Shrinks.of_erase (n := n) (k := k) fun m p' hp' => ?_
  by_cases hm : m = n
  · subst hm
    rw [setPage_self] at hp'
    cases hp'
    exact ⟨node, hn, by simp⟩
  · rw [setPage_ne hm] at hp'
    exact ⟨p', hp', by simp [hm]⟩

variable {inOrder : α → Bool}

theorem PagesOrdered.of_shrinks (hd : PagesOrdered d inOrder) (h : Shrinks d d') : PagesOrdered d' inOrder := by
  intro m p' hp'
  obtain ⟨p, hp, hsub⟩ := h m p' hp'
  exact (hd m p hp).sublist hsub

theorem PagesOrdered.setPage (hd : PagesOrdered d inOrder) {p : DirPage α}
    (hp : p.indexes.Pairwise fun x y => x ≤ y ∨ inOrder y = true) (n : Nat) : PagesOrdered (d.setPage n p) inOrder := by
  intro m q hq
  by_cases hm : m = n
  · subst hm
    rw [setPage_self] at hq
    cases hq
    exact hp
  · rw [setPage_ne hm] at hq
    exact hd m q hq

/-- Recording how a key on no page is added. -/
theorem PagesOrdered.update (hd : PagesOrdered d inOrder) {key : α} (hk : ∀ n p, d n = some p → key ∉ p.indexes)
    (b : Bool) : PagesOrdered d (Function.update inOrder key b) := by
  intro n p hp
  refine (hd n p hp).imp_of_mem fun _ hy hxy => ?_
  have hne : _ ≠ key := fun h => hk n p hp (h ▸ hy)
  rwa [Function.update_of_ne hne]

/-- A page of keys added without the order preserved is sorted. -/
theorem PagesOrdered.sorted (hd : PagesOrdered d inOrder) {n : Nat} {p : DirPage α} (hp : d n = some p)
    (hall : ∀ k ∈ p.indexes, inOrder k = false) : p.indexes.Pairwise (· ≤ ·) :=
  (hd n p hp).imp_of_mem fun _ hy hxy => hxy.resolve_right (by simp [hall _ hy])

end Shrinks

/-! ## `dirAdd` -/

/-- The keys `insertIndex` leaves: those of the page and the new key, sorted when the order is not
preserved. -/
theorem insertIndex_spec (preserveOrder : Bool) {key : α} {indexes : List α} (hk : key ∉ indexes) :
    ∃ l, insertIndex preserveOrder key indexes = .ok l ∧ l.Perm (key :: indexes) ∧
      (preserveOrder = false → l.Pairwise (· ≤ ·)) := by
  cases preserveOrder with
  | true =>
    refine ⟨indexes ++ [key], by simp [insertIndex, hk], perm_append_comm, by simp⟩
  | false =>
    set sorted := indexes.insertionSort (· ≤ ·)
    -- `std::lower_bound` splits the sorted keys where `orderedInsert` puts the new one
    have hsplit : (sorted.takeWhile fun b => decide (b < key)) ++ key :: sorted.dropWhile (fun b => decide (b < key)) =
        sorted.orderedInsert (· ≤ ·) key := by
      rw [orderedInsert_eq_take_drop]
      simp only [not_le]
    have hpos : (sorted.dropWhile fun b => decide (b < key)).head? ≠ some key := fun h =>
      hk ((perm_insertionSort (· ≤ ·) indexes).subset ((dropWhile_sublist _).subset (mem_of_mem_head? h)))
    refine ⟨sorted.orderedInsert (· ≤ ·) key, ?_, ?_, fun _ => ?_⟩
    · simp only [insertIndex, Bool.false_eq_true, if_false]
      rw [if_neg hpos, hsplit]
    · exact (perm_orderedInsert _ key sorted).trans ((perm_insertionSort _ indexes).cons key)
    · exact (pairwise_insertionSort _ indexes).orderedInsert _ _

/-- The keys `insertIndex` leaves keep `PagesOrdered`: sorted when the order is not preserved, and
the new key last when it is. -/
theorem insertIndex_ordered {preserveOrder : Bool} {key : α} {indexes l : List α} {inOrder : α → Bool}
    (hk : key ∉ indexes) (hl : insertIndex preserveOrder key indexes = .ok l)
    (hord : indexes.Pairwise fun x y => x ≤ y ∨ inOrder y = true) :
    l.Pairwise fun x y => x ≤ y ∨ Function.update inOrder key preserveOrder y = true := by
  obtain ⟨l', hl', -, hsorted⟩ := insertIndex_spec preserveOrder hk
  rw [hl] at hl'
  cases hl'
  cases preserveOrder with
  | false => exact (hsorted rfl).imp Or.inl
  | true =>
    have happ : l = indexes ++ [key] := by
      simp only [insertIndex, hk, if_true, if_false] at hl
      cases hl
      rfl
    subst happ
    refine pairwise_append.mpr ⟨hord.imp_of_mem fun _ hy hxy => ?_, pairwise_singleton _ _, fun _ _ y hy => ?_⟩
    · have hne : _ ≠ key := fun h => hk (h ▸ hy)
      rwa [Function.update_of_ne hne]
    · rw [mem_singleton] at hy
      subst hy
      exact .inr (by simp)

/-- `dirAdd` on a ring: the key goes to the last page if it has room, to no page if no page is
left, and to a new page after the last one otherwise. -/
theorem dirAdd_of_ring {d : Dir α} {L pre : List Nat} {last : Nat} {node : DirPage α} (hr : Ring d L)
    (hL : L = pre ++ [last]) (hnode : d last = some node) (preserveOrder : Bool) (key : α) :
    dirAdd preserveOrder key d =
      if node.indexes.length < dirNodeMaxEntries then
        (insertIndex preserveOrder key node.indexes).map fun l => (some last, d.setPage last { node with indexes := l })
      else if dirNodeMaxPages ≤ last + 1 then .ok (none, d)
      else .ok (some (last + 1), ((d.modifyPage last fun p => { p with indexNext := last + 1 }).modifyPage rootPage
        fun r => { r with indexPrevious := last + 1 }).setPage (last + 1) ⟨[key], 0, last⟩) := by
  obtain ⟨root, hroot⟩ := hr.exists_page hr.root_mem
  have hprev : root.indexPrevious = last := by
    have h := hr.root_prev hL
    rw [hroot] at h
    exact Option.some.inj h
  -- the last page is read through the root when it is the root
  have hnode' : (if last = 0 then some root else d last) = some node := by
    split
    · rename_i h0
      subst h0
      exact hroot.symm.trans hnode
    · exact hnode
  have hprevPage : (if last + 1 ≠ 1 then last + 1 - 1 else 0) = last := by
    split <;> omega
  simp only [dirAdd, hroot, hprev, hnode', hprevPage]
  split
  · cases insertIndex preserveOrder key node.indexes <;> rfl
  · rfl

/-- One `dirAdd` of a key with no place: it succeeds, and either places the key on the page it
returns, keeping the invariant, or finds no page left in a directory holding keys and changes
nothing. Pages stay ordered with the way the key was added recorded. -/
theorem dirAdd_dirInv {d : Dir α} {A : α → Option Nat} (hi : DirInv d A) {key : α} (hk : A key = none)
    (preserveOrder : Bool) :
    ∃ page d', dirAdd preserveOrder key d = .ok (page, d') ∧ (page = none → d' = d ∧ ∃ k n, A k = some n) ∧
      (∀ inOrder, PagesOrdered d inOrder → PagesOrdered d' (Function.update inOrder key preserveOrder)) ∧
      ∀ n, page = some n → DirInv d' (Function.update A key (some n)) := by
  obtain ⟨hs, hdir⟩ := hi
  have hfree : ∀ n p, d n = some p → key ∉ p.indexes := fun _ _ h => hs.not_mem_of_none hk h
  rcases hdir with hempty | ⟨L, hr⟩
  · -- no root: the root is made with the key
    have hadd : dirAdd preserveOrder key d = .ok (some 0, d.setPage rootPage ⟨[key], 0, 0⟩) := by
      simp [dirAdd, hempty]
    refine ⟨some 0, _, hadd, by simp, fun _ hd => (hd.update hfree _).setPage (pairwise_singleton _ key) _,
      fun n hn => ?_⟩
    cases hn
    refine ⟨hs.add hk (setPage_self ..) (by simp [hempty]) (by simp [dirNodeMaxEntries])
      (by simp [dirNodeMaxPages]) fun m hm => ?_, .inr ⟨_, Ring.single hempty [key]⟩⟩
    rw [setPage_ne (show m ≠ rootPage from hm)]
  · have hne : L ≠ [] := ne_nil_of_mem hr.root_mem
    have hL : L = L.dropLast ++ [L.getLast hne] := (dropLast_concat_getLast hne).symm
    set last := L.getLast hne
    obtain ⟨node, hnode⟩ := hr.exists_page (hL ▸ by simp : last ∈ L)
    rw [dirAdd_of_ring hr hL hnode]
    split
    · -- room on the last page
      rename_i hroom
      obtain ⟨l, hl, hperm, -⟩ := insertIndex_spec preserveOrder (hfree last node hnode)
      rw [hl]
      refine ⟨some last, _, rfl, by simp,
        fun _ hd => (hd.update hfree _).setPage (insertIndex_ordered (hfree last node hnode) hl (hd last node hnode)) last,
        fun n hn => ?_⟩
      cases hn
      have hlen : l.length ≤ dirNodeMaxEntries := by
        rw [hperm.length_eq, length_cons]
        exact hroom
      refine ⟨hs.add hk (setPage_self ..) (by simpa [hnode] using hperm) hlen
        (hs.below last (by simp [hnode])) fun m hm => by rw [setPage_ne hm], .inr ⟨L, ?_⟩⟩
      refine hr.of_links (fun m => ?_) (fun m => ?_) (fun m => ?_) <;>
        by_cases hm : m = last <;> simp [hm, hnode, setPage_ne]
    · split
      · -- no page left: the last page is not the root, so it holds a key
        rename_i hfull hleft
        have hlast0 : last ≠ rootPage := by
          simp only [dirNodeMaxPages] at hleft
          simp only [rootPage]
          omega
        obtain ⟨k, hkl⟩ := exists_mem_of_ne_nil _ (hs.nonempty last node hnode hlast0)
        exact ⟨none, d, rfl, fun _ => ⟨rfl, k, last, (hs.placed k last).mpr ⟨node, hnode, hkl⟩⟩,
          fun _ hd => hd.update hfree _, by simp⟩
      · -- a new page after the last one
        rename_i hfull hleft
        have hnL : last + 1 ∉ L := fun h => by
          have := hr.lt_last hL
          rw [hL, mem_append, mem_singleton] at h
          rcases h with h | h
          · exact absurd (this _ h) (by omega)
          · omega
        have hfresh : d (last + 1) = none := by
          cases h : d (last + 1) with
          | none => rfl
          | some _ => exact absurd ((hr.present _).mp (by simp [h])) hnL
        refine ⟨some (last + 1), _, rfl, by simp,
          fun _ hd => ((hd.update hfree _).of_shrinks (Shrinks.of_indexes (indexes_relink d _ _ _ _))).setPage
            (pairwise_singleton _ key) _,
          fun n hn => ?_⟩
        cases hn
        refine ⟨hs.add hk (setPage_self ..) (by simp [hfresh]) (by simp [dirNodeMaxEntries]) (by omega) fun m hm => ?_,
          .inr ⟨_, hr.append hL [key]⟩⟩
        rw [setPage_ne hm, indexes_relink]

/-! ## `dirRemove` -/

section Remove

variable {d : Dir α}

/-- `dirRemove` of a key on the page: the key comes off, and a page left empty is handled by the
root case or the page case. -/
theorem dirRemove_of_mem {page : Nat} {key : α} {node : DirPage α} (hnode : d page = some node)
    (hk : key ∈ node.indexes) (keepRoot : Bool) :
    dirRemove page key keepRoot d =
      if node.indexes.erase key = [] then
        if page = rootPage then
          dirRemoveRoot page node.indexPrevious node.indexNext keepRoot
            (d.setPage page { node with indexes := node.indexes.erase key })
        else
          dirRemovePage page node.indexPrevious node.indexNext keepRoot
            (d.setPage page { node with indexes := node.indexes.erase key })
      else .ok (true, d.setPage page { node with indexes := node.indexes.erase key }) := by
  simp only [dirRemove, hnode, hk, not_true_eq_false, if_false]
  by_cases he : node.indexes.erase key = [] <;> simp [he]

omit [LinearOrder α] in
/-- The root was the only page: it goes unless kept. -/
theorem dirRemoveRoot_alone (keepRoot : Bool) :
    dirRemoveRoot rootPage rootPage rootPage keepRoot d =
      .ok (true, if keepRoot then d else d.erasePage rootPage) := by
  cases keepRoot <;> simp [dirRemoveRoot, dirRemoveRoot.dropLegacyLastPage]

omit [LinearOrder α] in
/-- Pages follow the root and the page after it holds keys: the root stays, empty. -/
theorem dirRemoveRoot_of_pages {prev next : Nat} (hprev : prev ≠ rootPage) (hnext : next ≠ rootPage)
    {q : DirPage α} (hq : d next = some q) (hqne : q.indexes ≠ []) (keepRoot : Bool) :
    dirRemoveRoot rootPage prev next keepRoot d = .ok (true, d) := by
  have hlegacy : dirRemoveRoot.dropLegacyLastPage rootPage prev next d = .ok (prev, next, d) := by
    unfold dirRemoveRoot.dropLegacyLastPage
    split
    · simp [hq, hqne]
    · rfl
  cases keepRoot <;> simp [dirRemoveRoot, hprev, hnext, hlegacy]

omit [LinearOrder α] in
/-- The page after the unlinked one is the root or holds keys: it is not dropped. -/
theorem dropLegacyNextPage_of {prev next : Nat} (h : next ≠ rootPage → ∀ q, d next = some q → q.indexes ≠ []) :
    dirRemovePage.dropLegacyNextPage prev next d = .ok (next, d) := by
  unfold dirRemovePage.dropLegacyNextPage
  split
  · rename_i q hq
    split
    · rename_i hc
      exact absurd (List.isEmpty_iff.mp hc.2.2) (h hc.1 q hq)
    · rfl
  · rfl

omit [LinearOrder α] in
/-- A page between `a` and `b` left empty: it is unlinked and erased, and the root goes too when
it is `a` and `b`, empty and not kept. -/
theorem dirRemovePage_eq {page a b : Nat} (hpa : a ≠ page) (hpb : b ≠ page) (ha : (d a).isSome)
    (hb : (d b).isSome) (hbne : b ≠ rootPage → ∀ q, d b = some q → q.indexes ≠ []) (keepRoot : Bool) :
    ∃ d', dirRemovePage page a b keepRoot d = .ok (true, d') ∧
      let d₃ := ((d.modifyPage a fun p => { p with indexNext := b }).modifyPage b
        fun p => { p with indexPrevious := a }).erasePage page
      ((keepRoot = false ∧ b = rootPage ∧ a = rootPage ∧ ∃ q, d₃ a = some q ∧ q.indexes = []) → d' = d₃.erasePage a) ∧
      (¬(keepRoot = false ∧ b = rootPage ∧ a = rootPage ∧ ∃ q, d₃ a = some q ∧ q.indexes = []) → d' = d₃) := by
  obtain ⟨pa, hpa'⟩ := Option.isSome_iff_exists.mp ha
  have hb' : ((d.modifyPage a fun p => { p with indexNext := b }) b).isSome := by
    rw [isSome_modifyPage]
    exact hb
  obtain ⟨pb, hpb'⟩ := Option.isSome_iff_exists.mp hb'
  simp only [dirRemovePage, hpa, hpb, if_false, hpa', hpb']
  set d₃ := ((d.modifyPage a fun p => { p with indexNext := b }).modifyPage b
    fun p => { p with indexPrevious := a }).erasePage page
  -- the links are relinked; what `b` holds is unchanged, so it is not a legacy empty page
  have hlegacy : dirRemovePage.dropLegacyNextPage a b d₃ = .ok (b, d₃) := by
    refine dropLegacyNextPage_of fun hb0 q hq => ?_
    have he := indexes_relink d a b b a b
    rw [show d₃ b = _ from erasePage_ne hpb] at hq
    rw [hq] at he
    obtain ⟨q', hq', hqe⟩ := Stored.exists_of_map_indexes he rfl
    rw [← hqe]
    exact hbne hb0 q' hq'
  rw [hlegacy]
  by_cases hc : keepRoot = false ∧ b = rootPage ∧ a = rootPage
  · obtain ⟨rfl, rfl, rfl⟩ := hc
    cases hq : d₃ rootPage with
    | none => exact ⟨d₃, by simp [hq], by simp, fun _ => rfl⟩
    | some q =>
      by_cases hqe : q.indexes = []
      · exact ⟨d₃.erasePage rootPage, by simp [hq, hqe], fun _ => rfl,
          fun h => absurd ⟨rfl, rfl, rfl, q, rfl, hqe⟩ h⟩
      · exact ⟨d₃, by simp [hq, hqe], fun h => by
          obtain ⟨-, -, -, q', hq', hqe'⟩ := h
          cases hq'
          exact absurd hqe' hqe, fun _ => rfl⟩
  · refine ⟨d₃, ?_, fun h => absurd ⟨h.1, h.2.1, h.2.2.1⟩ hc, fun _ => rfl⟩
    have hc' : ¬((!keepRoot) = true ∧ b = rootPage ∧ a = rootPage) := by simpa using hc
    dsimp only
    rw [if_neg hc']

variable {A : α → Option Nat} {L : List Nat} {key : α} {node : DirPage α}

/-- The last key of the root comes off: the root goes when it was the only page and is not kept. -/
theorem dirRemoveRoot_dirInv (hs : Stored d A) (hr : Ring d L) (hk : A key = some rootPage)
    (hnode : d rootPage = some node) (he : node.indexes.erase key = []) (keepRoot : Bool) :
    ∃ d', dirRemoveRoot rootPage node.indexPrevious node.indexNext keepRoot
        (d.setPage rootPage { node with indexes := node.indexes.erase key }) = .ok (true, d') ∧
      DirInv d' (Function.update A key none) ∧ Shrinks d d' ∧ (keepRoot = true → (d' rootPage).isSome) ∧
      (keepRoot = false → (∀ k, Function.update A key none k = none) → d' rootPage = none) := by
  set d₁ := d.setPage rootPage { node with indexes := node.indexes.erase key }
  have hs₁ : Stored d₁ (Function.update A key none) := hs.setErase hk hnode (.inr rfl)
  have hr₁ : Ring d₁ L := hr.setIndexes hnode _
  have hroot₁ : (d₁ rootPage).isSome := by simp [d₁]
  obtain ⟨rest, hL⟩ := hr.eq_root_append
  have hnext : node.indexNext = rest.headD rootPage := hr.next_of_split (show L = [] ++ rootPage :: rest from hL) hnode
  cases rest with
  | nil =>
    -- the root was the only page
    have hprev : node.indexPrevious = rootPage := by
      have h := hr.root_prev (show L = [] ++ [rootPage] from hL)
      rw [hnode] at h
      exact Option.some.inj h
    rw [hnext, hprev, headD_nil, dirRemoveRoot_alone]
    cases keepRoot with
    | true => exact ⟨d₁, rfl, ⟨hs₁, .inr ⟨L, hr₁⟩⟩, shrinks_setErase hnode key, fun _ => hroot₁, by simp⟩
    | false =>
      have hall : ∀ m, d₁.erasePage rootPage m = none := by
        intro m
        by_cases hm : m = rootPage
        · subst hm
          simp
        · rw [erasePage_ne hm]
          cases h : d₁ m with
          | none => rfl
          | some _ => exact absurd ((hr₁.present m).mp (by simp [h])) (by simpa [hL] using hm)
      refine ⟨_, by simp, ⟨hs.remove hk (fun m p' hp' => by simp [hall m] at hp') (fun m p hp hp' => ?_)
        (fun m p' hp' => by simp [hall m] at hp'), .inl hall⟩, (shrinks_setErase hnode key).erasePage _, by simp,
        fun _ _ => hall rootPage⟩
      -- every page was the root, which the key leaves empty
      have hm : m = rootPage := by
        have := (hr.present m).mp (by simp [hp])
        simpa [hL] using this
      subst hm
      rw [hnode] at hp
      cases hp
      simp [he] at hp'
  | cons r rs =>
    -- other pages follow the root: the root stays, empty
    have hinc := hr.increasing
    rw [hL, pairwise_cons] at hinc
    have hr0 : r ≠ rootPage := Nat.ne_of_gt (hinc.1 r (by simp))
    have hLne : L ≠ [] := by simp [hL]
    have hlast : L.getLast hLne ≠ rootPage := by
      have hmem : L.getLast hLne ∈ r :: rs := by
        simp only [hL, getLast_cons_cons]
        exact getLast_mem _
      exact Nat.ne_of_gt (hinc.1 _ hmem)
    have hprev : node.indexPrevious = L.getLast hLne := by
      have h := hr.root_prev (dropLast_concat_getLast hLne).symm
      rw [hnode] at h
      exact Option.some.inj h
    obtain ⟨q, hq⟩ := hr.exists_page (by simp [hL] : r ∈ L)
    have hqne := hs.nonempty r q hq hr0
    rw [hnext, hprev, headD_cons, dirRemoveRoot_of_pages hlast hr0 ((show d₁ r = _ from setPage_ne hr0 _).trans hq) hqne]
    exact ⟨d₁, rfl, ⟨hs₁, .inr ⟨L, hr₁⟩⟩, shrinks_setErase hnode key, fun _ => hroot₁,
      fun _ hnone => absurd (hs.empty_of_none hk hnone hr0 hq) hqne⟩

/-- The last key of a page after the root comes off: the page is unlinked and erased, and the root
goes too when it was the only other page, empty and not kept. -/
theorem dirRemovePage_dirInv (hs : Stored d A) (hr : Ring d L) {page : Nat} (hk : A key = some page)
    (hnode : d page = some node) (he : node.indexes.erase key = []) (hp0 : page ≠ rootPage) (keepRoot : Bool) :
    ∃ d', dirRemovePage page node.indexPrevious node.indexNext keepRoot
        (d.setPage page { node with indexes := node.indexes.erase key }) = .ok (true, d') ∧
      DirInv d' (Function.update A key none) ∧ Shrinks d d' ∧ (keepRoot = true → (d' rootPage).isSome) ∧
      (keepRoot = false → (∀ k, Function.update A key none k = none) → d' rootPage = none) := by
  set d₁ := d.setPage page { node with indexes := node.indexes.erase key }
  have hr₁ : Ring d₁ L := hr.setIndexes hnode _
  -- the page sits between `a` and `b` in the ring
  have hpL : page ∈ L := (hr.present page).mp (by simp [hnode])
  obtain ⟨s', t, hst⟩ := mem_iff_append.mp hpL
  have hs'ne : s' ≠ [] := by
    rintro rfl
    have h := hr.starts
    simp [hst] at h
    exact hp0 h
  set a := s'.getLast hs'ne
  set pre := s'.dropLast
  set b := t.headD rootPage
  have hL : L = pre ++ a :: page :: t := by
    rw [hst, ← dropLast_concat_getLast hs'ne]
    simp [pre, a]
  have hnd := hr.nodup
  rw [hL] at hnd
  have hprev : node.indexPrevious = a := hr.prev_of_split hL hnode
  have hnext : node.indexNext = b := hr.next_of_split (show L = (pre ++ [a]) ++ page :: t by simp [hL]) hnode
  rw [hprev, hnext]
  -- the facts `dirRemovePage` checks
  have hpa : a ≠ page := by
    intro h
    have := not_mem_of_nodup_splice hnd
    rw [← h] at this
    simp at this
  have hbL : b ∈ L := by
    cases t with
    | nil => exact hr.root_mem
    | cons c cs => simp [b, hL]
  have hpb : b ≠ page := by
    cases t with
    | nil => exact Ne.symm hp0
    | cons c cs =>
      intro h
      have := not_mem_of_nodup_splice hnd
      simp only [b, headD_cons] at h
      simp [h] at this
  have hd₁ : ∀ m, m ≠ page → d₁ m = d m := fun m hm => setPage_ne hm _
  have haL : a ∈ L := by simp [hL]
  obtain ⟨d', hd', hgone, hstay⟩ := dirRemovePage_eq (d := d₁) hpa hpb (by rw [hd₁ a hpa]; exact (hr.present a).mpr haL)
    (by rw [hd₁ b hpb]; exact (hr.present b).mpr hbL)
    (fun hb0 q hq => hs.nonempty b q (by rw [← hd₁ b hpb]; exact hq) hb0) keepRoot
  set d₃ := ((d₁.modifyPage a fun p => { p with indexNext := b }).modifyPage b
    fun p => { p with indexPrevious := a }).erasePage page
  have hr₃ : Ring d₃ (pre ++ a :: t) := hr₁.unlink hL
  -- what the pages of `d₃` hold: what they held in `d`
  have hind₃ : ∀ m, m ≠ page → (d₃ m).map DirPage.indexes = (d m).map DirPage.indexes := by
    intro m hm
    rw [show d₃ m = _ from erasePage_ne hm, indexes_relink, hd₁ m hm]
  have hsub₃ : ∀ m p', d₃ m = some p' → ∃ p, d m = some p ∧
      p'.indexes = if m = page then p.indexes.erase key else p.indexes := by
    intro m p' hp'
    have hm : m ≠ page := by
      rintro rfl
      simp [d₃] at hp'
    obtain ⟨p, hp, hpe⟩ := Stored.exists_of_map_indexes (hind₃ m hm) hp'
    exact ⟨p, hp, by simp [hm, hpe]⟩
  have hkeep₃ : ∀ m p, d m = some p → (if m = page then p.indexes.erase key else p.indexes) ≠ [] →
      (d₃ m).isSome := by
    intro m p hp hne
    by_cases hm : m = page
    · subst hm
      rw [hnode] at hp
      cases hp
      simp [he] at hne
    · have := congrArg Option.isSome (hind₃ m hm)
      rw [Option.isSome_map, Option.isSome_map] at this
      simp [this, hp]
  have hne₃ : ∀ m p', d₃ m = some p' → m ≠ rootPage → p'.indexes ≠ [] := by
    intro m p' hp' hm0
    obtain ⟨p, hp, hpe⟩ := hsub₃ m p' hp'
    have hm : m ≠ page := by
      rintro rfl
      simp [d₃] at hp'
    rw [hpe, if_neg hm]
    exact hs.nonempty m p hp hm0
  have hs₃ : Stored d₃ (Function.update A key none) := hs.remove hk hsub₃ hkeep₃ hne₃
  by_cases hc : keepRoot = false ∧ b = rootPage ∧ a = rootPage ∧ ∃ q, d₃ a = some q ∧ q.indexes = []
  · -- the root was the only other page, and it is empty: it goes
    obtain ⟨hkr, hb0, ha0, q, hq, hqe⟩ := hc
    have hd' := hgone ⟨hkr, hb0, ha0, q, hq, hqe⟩
    subst hd'
    have ht : t = [] := by
      cases t with
      | nil => rfl
      | cons c cs =>
        have : page < c := hr.lt_of_split (show L = (pre ++ [a]) ++ page :: c :: cs by simp [hL])
        simp only [b, headD_cons, rootPage] at hb0
        omega
    have hpre : pre = [] := by
      by_contra hne
      obtain ⟨x, xs, hx⟩ := exists_cons_of_ne_nil hne
      have h := hr.starts
      rw [hL, hx] at h
      simp only [cons_append, head?_cons, Option.some.injEq] at h
      have hnd' := hnd
      rw [hx, h, ha0] at hnd'
      simp at hnd'
    have hall : ∀ m, d₃.erasePage a m = none := by
      intro m
      by_cases hm : m = a
      · subst hm
        simp
      · rw [erasePage_ne hm]
        cases h : d₃ m with
        | none => rfl
        | some _ =>
          have := (hr₃.present m).mp (by simp [h])
          simp [ht, hpre] at this
          exact absurd this hm
    refine ⟨_, hd', ⟨hs.remove hk (fun m p' hp' => by simp [hall m] at hp') (fun m p hp hne => ?_)
      (fun m p' hp' => by simp [hall m] at hp'), .inl hall⟩, (Shrinks.of_erase hsub₃).erasePage a, by simp [hkr],
      fun _ _ => by rw [← ha0]; exact hall a⟩
    -- the root was empty and the page held only the key
    by_cases hm : m = a
    · rw [hm] at hp hne
      have hpq : q.indexes = p.indexes := by
        have := hind₃ a hpa
        rw [hq, hp] at this
        exact Option.some.inj this
      rw [if_neg hpa, ← hpq, hqe] at hne
      exact absurd rfl hne
    · rw [erasePage_ne hm]
      exact hkeep₃ m p hp hne
  · have hd' := hstay hc
    subst hd'
    refine ⟨_, hd', ⟨hs₃, .inr ⟨_, hr₃⟩⟩, Shrinks.of_erase hsub₃, fun _ => (hr₃.present rootPage).mpr hr₃.root_mem,
      fun hkr hnone => ?_⟩
    -- with every key gone, `a` and `b` can only be the root, which is empty: `dirRemovePage` erased it
    exfalso
    apply hc
    have hempty : ∀ m, m ≠ page → m ≠ rootPage → m ∈ L → False := by
      intro m hm hm0 hmL
      obtain ⟨q, hq⟩ := hr.exists_page hmL
      exact hs.nonempty m q hq hm0 (hs.empty_of_none hk hnone hm hq)
    have ha0 : a = rootPage := by
      by_contra h
      exact hempty a hpa h haL
    have hb0 : b = rootPage := by
      by_contra h
      exact hempty b hpb h hbL
    obtain ⟨q, hq⟩ := Option.isSome_iff_exists.mp ((hr₃.present a).mpr (by simp))
    obtain ⟨p, hp, hpe⟩ := Stored.exists_of_map_indexes (hind₃ a hpa) hq
    exact ⟨hkr, hb0, ha0, q, hq, hpe ▸ hs.empty_of_none hk hnone hpa hp⟩

end Remove

/-- One `dirRemove` of a key from the page it was placed on: it succeeds, returns `true`, takes the
key out and keeps the invariant; no page gains a key. A kept root stays; otherwise the root goes
once the directory holds no key. -/
theorem dirRemove_dirInv {d : Dir α} {A : α → Option Nat} (hi : DirInv d A) {key : α} {page : Nat}
    (hk : A key = some page) (keepRoot : Bool) :
    ∃ d', dirRemove page key keepRoot d = .ok (true, d') ∧ DirInv d' (Function.update A key none) ∧
      Shrinks d d' ∧ (keepRoot = true → (d' rootPage).isSome) ∧
      (keepRoot = false → (∀ k, Function.update A key none k = none) → d' rootPage = none) := by
  obtain ⟨hs, hempty | ⟨L, hr⟩⟩ := hi
  · obtain ⟨node, hnode, -⟩ := (hs.placed key page).mp hk
    simp [hempty page] at hnode
  obtain ⟨node, hnode, hkn⟩ := (hs.placed key page).mp hk
  rw [dirRemove_of_mem hnode hkn]
  split
  · rename_i he
    split
    · rename_i hp0
      subst hp0
      exact dirRemoveRoot_dirInv hs hr hk hnode he keepRoot
    · rename_i hp0
      exact dirRemovePage_dirInv hs hr hk hnode he hp0 keepRoot
  · -- the page keeps other keys
    rename_i he
    have hrest : ∃ k', k' ≠ key ∧ k' ∈ node.indexes := by
      obtain ⟨k', hk'⟩ := exists_mem_of_ne_nil _ he
      exact ⟨k', ((hs.nodup page node hnode).mem_erase_iff.mp hk').1, mem_of_mem_erase hk'⟩
    refine ⟨_, rfl, ⟨hs.setErase hk hnode (.inl he), .inr ⟨L, hr.setIndexes hnode _⟩⟩, shrinks_setErase hnode key,
      fun _ => ?_, fun _ hnone => ?_⟩
    · by_cases hp0 : rootPage = page
      · rw [hp0]
        simp
      · rw [setPage_ne hp0]
        exact (hr.present rootPage).mpr hr.root_mem
    · obtain ⟨k', hne, hk'⟩ := hrest
      have := hnone k'
      rw [Function.update_of_ne hne, (hs.placed k' page).mpr ⟨node, hnode, hk'⟩] at this
      cases this

end Ripple
