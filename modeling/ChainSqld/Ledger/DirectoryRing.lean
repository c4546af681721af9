import ChainSqld.Ledger.Directory
import ChainSqld.Lib.CyclicList

/-!
# The page ring of a directory

The invariant the directory code keeps. The pages of a directory with a root are a list `L` of
page numbers that starts at the root and increases; the view holds exactly these pages, the next
of each is the one after it in `L` (the root after the last), and each is the previous of its
next (`Ring`). The keys are where the placement `A` says, at most `dirNodeMaxEntries` distinct
keys to a page, at least one on every page but the root (`Stored`).

Linking a new last page in (`Ring.append`) and unlinking a page (`Ring.unlink`) keep the ring;
both are the splice of `List.nextIn` read in one direction or the other.
-/

set_option autoImplicit false

namespace Ripple

open Dir List

variable {α : Type}

/-- The pages of a directory with a root, in `sfIndexNext` order. -/
structure Ring (d : Dir α) (L : List Nat) : Prop where
  starts : L.head? = some rootPage
  increasing : L.Pairwise (· < ·)
  present : ∀ n, (d n).isSome ↔ n ∈ L
  next : ∀ n ∈ L, (d n).map DirPage.indexNext = some (nextIn rootPage L n)
  prev : ∀ n ∈ L, (d (nextIn rootPage L n)).map DirPage.indexPrevious = some n

/-- What the pages hold: each key on the page `A` places it on, distinct keys, at most
`dirNodeMaxEntries` of them to a page and at least one on every page but the root, and no page
numbered from `dirNodeMaxPages` on. -/
structure Stored (d : Dir α) (A : α → Option Nat) : Prop where
  bounded : ∀ n p, d n = some p → p.indexes.length ≤ dirNodeMaxEntries
  nonempty : ∀ n p, d n = some p → n ≠ rootPage → p.indexes ≠ []
  nodup : ∀ n p, d n = some p → p.indexes.Nodup
  placed : ∀ k n, A k = some n ↔ ∃ p, d n = some p ∧ k ∈ p.indexes
  below : ∀ n, (d n).isSome → n < dirNodeMaxPages

/-- The directory invariant: the pages hold what `A` says, and there is no page at all or the
pages form a ring. -/
def DirInv (d : Dir α) (A : α → Option Nat) : Prop :=
  Stored d A ∧ ((∀ n, d n = none) ∨ ∃ L, Ring d L)

/-! ## Reading the ring -/

namespace Ring

variable {d : Dir α} {L : List Nat}

theorem nodup (hr : Ring d L) : L.Nodup :=
  hr.increasing.imp (fun h => Nat.ne_of_lt h)

theorem root_mem (hr : Ring d L) : rootPage ∈ L :=
  List.mem_of_mem_head? hr.starts

theorem exists_page (hr : Ring d L) {n : Nat} (hn : n ∈ L) : ∃ p, d n = some p :=
  Option.isSome_iff_exists.mp ((hr.present n).mpr hn)

theorem nextIn_mem (hr : Ring d L) (n : Nat) : nextIn rootPage L n ∈ L := by
  rcases List.nextIn_mem rootPage L n with h | h
  · exact h
  · rw [h]
    exact hr.root_mem

/-- Two pages with one next page are one page: that page names its previous. -/
theorem next_inj (hr : Ring d L) {n n' : Nat} (hn : n ∈ L) (hn' : n' ∈ L)
    (h : nextIn rootPage L n = nextIn rootPage L n') : n = n' := by
  have h1 := hr.prev n hn
  have h2 := hr.prev n' hn'
  rw [h] at h1
  exact Option.some.inj (h1.symm.trans h2)

/-- The root is the first page of the list. -/
theorem eq_root_append (hr : Ring d L) : ∃ rest, L = rootPage :: rest := by
  have hs := hr.starts
  cases L with
  | nil => simp at hs
  | cons h t =>
    simp only [head?_cons, Option.some.injEq] at hs
    exact ⟨t, by rw [hs]⟩

/-- The root's previous page is the last page. -/
theorem root_prev (hr : Ring d L) {pre : List Nat} {last : Nat} (hL : L = pre ++ [last]) :
    (d rootPage).map DirPage.indexPrevious = some last := by
  have hlast : last ∈ L := by simp [hL]
  have hnext : nextIn rootPage L last = rootPage := by
    rw [hL, nextIn_append_cons rootPage pre [] (hL ▸ hr.nodup)]
    rfl
  simpa [hnext] using hr.prev last hlast

/-- Each page number is above the pages before it. -/
theorem lt_last (hr : Ring d L) {pre : List Nat} {last : Nat} (hL : L = pre ++ [last]) :
    ∀ x ∈ pre, x < last := by
  have hinc := hr.increasing
  rw [hL, pairwise_append] at hinc
  intro x hx
  exact hinc.2.2 x hx last (by simp)

/-- A page's next is the page after it in the list, the root after the last. -/
theorem next_of_split (hr : Ring d L) {pre post : List Nat} {n : Nat} (hL : L = pre ++ n :: post) {p : DirPage α}
    (hp : d n = some p) : p.indexNext = post.headD rootPage := by
  have h := hr.next n (by simp [hL])
  rw [hp, hL, nextIn_append_cons rootPage pre post (hL ▸ hr.nodup)] at h
  exact Option.some.inj h

/-- A page's previous is the page before it in the list. -/
theorem prev_of_split (hr : Ring d L) {pre post : List Nat} {a n : Nat} (hL : L = pre ++ a :: n :: post)
    {p : DirPage α} (hp : d n = some p) : p.indexPrevious = a := by
  have h := hr.prev a (by simp [hL])
  rw [hL, nextIn_append_cons rootPage pre (n :: post) (hL ▸ hr.nodup), headD_cons, hp] at h
  exact Option.some.inj h

theorem lt_of_split (hr : Ring d L) {pre post : List Nat} {n m : Nat} (hL : L = pre ++ n :: m :: post) : n < m :=
  (pairwise_cons.mp (pairwise_append.mp (hL ▸ hr.increasing)).2.1).1 m (by simp)

/-- Each page is the next of its previous page: the root of the last page, any other page of the
page before it. -/
theorem exists_prev (hr : Ring d L) {p : Nat} (hp : p ∈ L) :
    ∃ q ∈ L, (d p).map DirPage.indexPrevious = some q ∧ (d q).map DirPage.indexNext = some p := by
  -- the page `q` whose successor in the list is `p`
  have hq : ∃ q ∈ L, nextIn rootPage L q = p := by
    obtain ⟨pre, post, hL⟩ := mem_iff_append.mp hp
    rcases eq_nil_or_concat pre with rfl | ⟨pre', q, rfl⟩
    · have hs := hr.starts
      rw [hL, nil_append, head?_cons, Option.some.injEq] at hs
      have hne : L ≠ [] := ne_nil_of_mem hp
      have hL' : L = L.dropLast ++ [L.getLast hne] := (dropLast_concat_getLast hne).symm
      refine ⟨L.getLast hne, getLast_mem hne, ?_⟩
      rw [hs]
      nth_rewrite 1 [hL']
      exact nextIn_append_cons rootPage _ [] (hL' ▸ hr.nodup)
    · have hL' : L = pre' ++ q :: p :: post := by simp [hL]
      refine ⟨q, by simp [hL'], ?_⟩
      rw [hL', nextIn_append_cons rootPage pre' (p :: post) (hL' ▸ hr.nodup)]
      rfl
  obtain ⟨q, hqL, hnext⟩ := hq
  refine ⟨q, hqL, ?_, ?_⟩
  · rw [← hnext]
    exact hr.prev q hqL
  · rw [hr.next q hqL, hnext]

/-- The ring stays a ring when each page keeps its presence and its links. -/
theorem of_links {d' : Dir α} (hr : Ring d L) (hsome : ∀ n, (d' n).isSome = (d n).isSome)
    (hnext : ∀ n, (d' n).map DirPage.indexNext = (d n).map DirPage.indexNext)
    (hprev : ∀ n, (d' n).map DirPage.indexPrevious = (d n).map DirPage.indexPrevious) : Ring d' L where
  starts := hr.starts
  increasing := hr.increasing
  present n := by rw [hsome]; exact hr.present n
  next n hn := by rw [hnext]; exact hr.next n hn
  prev n hn := by rw [hprev]; exact hr.prev n hn

end Ring

/-- A directory holding a key has a root. -/
theorem DirInv.root_of_placed {d : Dir α} {A : α → Option Nat} (hi : DirInv d A) {k : α} {n : Nat}
    (hk : A k = some n) : (d rootPage).isSome := by
  obtain ⟨hs, hempty | ⟨L, hr⟩⟩ := hi
  · obtain ⟨p, hp, -⟩ := (hs.placed k n).mp hk
    simp [hempty n] at hp
  · exact (hr.present rootPage).mpr hr.root_mem

/-! ## Relinking pages -/

namespace Dir

theorem isSome_modifyPage (d : Dir α) (a : Nat) (f : DirPage α → DirPage α) (n : Nat) :
    (d.modifyPage a f n).isSome = (d n).isSome := by
  rw [modifyPage_apply]
  split <;> simp

theorem map_modifyPage {β : Type} (d : Dir α) (a : Nat) (f : DirPage α → DirPage α) (g : DirPage α → β)
    (n : Nat) : (d.modifyPage a f n).map g = if n = a then (d n).map (g ∘ f) else (d n).map g := by
  rw [modifyPage_apply]
  split <;> simp [Option.map_map]

/-- Page `a` takes `x` as its next, then page `c` takes `y` as its previous. -/
theorem next_relink (d : Dir α) (a x c y m : Nat) :
    (((d.modifyPage a fun p => { p with indexNext := x }).modifyPage c
      fun p => { p with indexPrevious := y }) m).map DirPage.indexNext =
        if m = a then (d m).map (fun _ => x) else (d m).map DirPage.indexNext := by
  simp only [map_modifyPage]
  by_cases hma : m = a <;> by_cases hmc : m = c <;> simp [hma, hmc, Function.comp_def]

theorem prev_relink (d : Dir α) (a x c y m : Nat) :
    (((d.modifyPage a fun p => { p with indexNext := x }).modifyPage c
      fun p => { p with indexPrevious := y }) m).map DirPage.indexPrevious =
        if m = c then (d m).map (fun _ => y) else (d m).map DirPage.indexPrevious := by
  simp only [map_modifyPage]
  by_cases hma : m = a <;> by_cases hmc : m = c <;> simp [hma, hmc, Function.comp_def]

theorem indexes_relink (d : Dir α) (a x c y m : Nat) :
    (((d.modifyPage a fun p => { p with indexNext := x }).modifyPage c
      fun p => { p with indexPrevious := y }) m).map DirPage.indexes = (d m).map DirPage.indexes := by
  simp only [map_modifyPage]
  by_cases hma : m = a <;> by_cases hmc : m = c <;> simp [hma, hmc, Function.comp_def]

theorem isSome_relink (d : Dir α) (a x c y m : Nat) :
    (((d.modifyPage a fun p => { p with indexNext := x }).modifyPage c
      fun p => { p with indexPrevious := y }) m).isSome = (d m).isSome := by
  rw [isSome_modifyPage, isSome_modifyPage]

end Dir

namespace Ring

variable {d : Dir α} {L : List Nat}

/-- Changing the keys of a page leaves the ring. -/
theorem setIndexes (hr : Ring d L) {n : Nat} {node : DirPage α} (hn : d n = some node) (l : List α) :
    Ring (d.setPage n { node with indexes := l }) L := by
  refine hr.of_links (fun m => ?_) (fun m => ?_) (fun m => ?_) <;>
    by_cases hm : m = n <;> simp [hm, hn, setPage_ne]

/-- The root alone, as `dirAdd` makes it. -/
theorem single (hd : ∀ n, d n = none) (ks : List α) : Ring (d.setPage rootPage ⟨ks, 0, 0⟩) [rootPage] where
  starts := rfl
  increasing := pairwise_singleton _ _
  present n := by
    by_cases hn : n = rootPage
    · subst hn
      simp
    · simp [setPage_ne hn, hd n, hn]
  next n hn := by
    rw [mem_singleton] at hn
    subst hn
    simp [nextIn_cons_self, rootPage]
  prev n hn := by
    rw [mem_singleton] at hn
    subst hn
    simp [nextIn_cons_self, rootPage]

/-- Unlinking page `p` from between `a` and the page after it keeps the ring of the other pages:
`a` takes `p`'s next and that page takes `a` as its previous. -/
theorem unlink (hr : Ring d L) {pre post : List Nat} {a p : Nat} (hL : L = pre ++ a :: p :: post) :
    Ring (((d.modifyPage a fun x => { x with indexNext := post.headD rootPage }).modifyPage
      (post.headD rootPage) fun x => { x with indexPrevious := a }).erasePage p) (pre ++ a :: post) := by
  set b := post.headD rootPage
  set L' := pre ++ a :: post
  have hnd : L.Nodup := hr.nodup
  rw [hL] at hnd
  have hnd' : L'.Nodup := hnd.sublist (by simp [L'])
  have hpL' : p ∉ L' := not_mem_of_nodup_splice hnd
  have hsub : ∀ x ∈ L', x ∈ L := by
    intro x hx
    simp only [L', mem_append, mem_cons] at hx
    simp only [hL, mem_append, mem_cons]
    tauto
  have hb : b ∈ L' := by
    cases post with
    | nil =>
      -- the root comes before `p`, so it is in `pre` or is `a`
      have hap : a < p := hr.lt_of_split hL
      have h0 : rootPage ∈ L := hr.root_mem
      rw [hL] at h0
      simp only [mem_append, mem_cons, mem_nil_iff, or_false] at h0
      simp only [L', b, headD_nil, mem_append, mem_cons, mem_nil_iff, or_false]
      rcases h0 with h | h | h
      · exact .inl h
      · exact .inr h
      · simp only [rootPage] at h
        omega
    | cons c cs => simp [b, L']
  have hpb : p ≠ b := fun h => hpL' (h ▸ hb)
  -- the successors in the old ring and in the new one
  have ha_next : nextIn rootPage L a = p := by
    rw [hL, nextIn_append_cons rootPage pre (p :: post) hnd]
    rfl
  have hp_next : nextIn rootPage L p = b := by
    rw [hL, show pre ++ a :: p :: post = (pre ++ [a]) ++ p :: post by simp,
      nextIn_append_cons rootPage (pre ++ [a]) post (by simpa using hnd)]
  have ha_next' : nextIn rootPage L' a = b := nextIn_append_cons rootPage pre post hnd'
  have hsplice : ∀ x ∈ L', x ≠ a → nextIn rootPage L' x = nextIn rootPage L x := by
    intro x hx hxa
    rw [hL]
    exact (nextIn_splice rootPage pre post hnd hx hxa).symm
  refine ⟨?_, hr.increasing.sublist (hL ▸ by simp [L']), ?_, ?_, ?_⟩
  · have hs := hr.starts
    rw [hL] at hs
    cases pre <;> simpa [L'] using hs
  · intro n
    by_cases hn : n = p
    · subst hn
      simpa using hpL'
    · rw [erasePage_ne hn, isSome_relink, hr.present n]
      constructor
      · intro h
        simp only [hL, mem_append, mem_cons] at h
        simp only [L', mem_append, mem_cons]
        tauto
      · exact hsub n
  · intro n hn
    have hnp : n ≠ p := fun h => hpL' (h ▸ hn)
    rw [erasePage_ne hnp, next_relink]
    by_cases hna : n = a
    · subst hna
      obtain ⟨x, hx⟩ := hr.exists_page (hsub n hn)
      simp [hx, ha_next']
    · rw [if_neg hna, hsplice n hn hna]
      exact hr.next n (hsub n hn)
  · intro n hn
    have hnp : n ≠ p := fun h => hpL' (h ▸ hn)
    by_cases hna : n = a
    · subst hna
      obtain ⟨x, hx⟩ := hr.exists_page (hsub b hb)
      rw [ha_next', erasePage_ne hpb.symm, prev_relink, if_pos rfl, hx]
      rfl
    · rw [hsplice n hn hna]
      -- the old next of `n` is neither `p` (the next of `a`) nor `b` (the next of `p`)
      have hmp : nextIn rootPage L n ≠ p := fun h =>
        hna (hr.next_inj (hsub n hn) (by simp [hL]) (h.trans ha_next.symm))
      have hmb : nextIn rootPage L n ≠ b := fun h =>
        hnp (hr.next_inj (hsub n hn) (by simp [hL]) (h.trans hp_next.symm))
      rw [erasePage_ne hmp, prev_relink, if_neg hmb]
      exact hr.prev n (hsub n hn)

/-- A new page numbered after the last one, linked in after it, keeps the ring. -/
theorem append (hr : Ring d L) {pre : List Nat} {last : Nat} (hL : L = pre ++ [last]) (ks : List α) :
    Ring (((d.modifyPage last fun x => { x with indexNext := last + 1 }).modifyPage rootPage
      fun r => { r with indexPrevious := last + 1 }).setPage (last + 1) ⟨ks, 0, last⟩) (L ++ [last + 1]) := by
  set n := last + 1
  have hlt : ∀ x ∈ L, x < n := by
    intro x hx
    rw [hL, mem_append, mem_singleton] at hx
    rcases hx with hx | rfl
    · exact Nat.lt_succ_of_lt (hr.lt_last hL x hx)
    · exact Nat.lt_succ_self x
  have hnL : n ∉ L := fun h => Nat.lt_irrefl n (hlt n h)
  have hn0 : rootPage ≠ n := fun h => hnL (h ▸ hr.root_mem)
  have hnd : (L ++ [n]).Nodup := nodup_append.mpr ⟨hr.nodup, nodup_singleton n, fun x hx y hy => by
    rw [mem_singleton] at hy
    subst hy
    exact fun h => hnL (h ▸ hx)⟩
  have hlastL : last ∈ L := by simp [hL]
  have hlast_next : nextIn rootPage (L ++ [n]) last = n := by
    rw [hL, append_assoc, singleton_append, nextIn_append_cons rootPage pre [n] (by simpa [hL] using hnd)]
    rfl
  have hn_next : nextIn rootPage (L ++ [n]) n = rootPage := by
    rw [nextIn_append_cons rootPage L [] hnd]
    rfl
  have hold_last : nextIn rootPage L last = rootPage := by
    rw [hL, nextIn_append_cons rootPage pre [] (hL ▸ hr.nodup)]
    rfl
  have hsplice : ∀ x ∈ L, x ≠ last → nextIn rootPage (L ++ [n]) x = nextIn rootPage L x := by
    intro x hx hxl
    rw [hL, append_assoc, singleton_append]
    exact nextIn_splice rootPage pre [] (by simpa [hL] using hnd) (by simpa [hL] using hx) hxl
  refine ⟨?_, ?_, ?_, ?_, ?_⟩
  · obtain ⟨rest, hrest⟩ := hr.eq_root_append
    simp [hrest]
  · exact pairwise_append.mpr ⟨hr.increasing, pairwise_singleton _ n, fun x hx y hy => by
      rw [mem_singleton] at hy
      exact hy ▸ hlt x hx⟩
  · intro m
    by_cases hm : m = n
    · subst hm
      simp
    · rw [setPage_ne hm, isSome_relink, hr.present m]
      simp [hm]
  · intro m hm
    by_cases hmn : m = n
    · subst hmn
      rw [hn_next, setPage_self]
      rfl
    · have hmL : m ∈ L := by simpa [hmn] using hm
      rw [setPage_ne hmn, next_relink]
      by_cases hml : m = last
      · subst hml
        obtain ⟨x, hx⟩ := hr.exists_page hmL
        simp [hx, hlast_next]
      · rw [if_neg hml, hsplice m hmL hml]
        exact hr.next m hmL
  · intro m hm
    by_cases hmn : m = n
    · subst hmn
      obtain ⟨x, hx⟩ := hr.exists_page hr.root_mem
      rw [hn_next, setPage_ne hn0, prev_relink, if_pos rfl, hx]
      rfl
    · have hmL : m ∈ L := by simpa [hmn] using hm
      by_cases hml : m = last
      · subst hml
        simp [hlast_next]
      · rw [hsplice m hmL hml]
        -- the old next of `m` is a page of the ring other than the root, which follows `last`
        have hm0 : nextIn rootPage L m ≠ rootPage := fun h =>
          hml (hr.next_inj hmL hlastL (h.trans hold_last.symm))
        have hmn' : nextIn rootPage L m ≠ n := fun h => hnL (h ▸ hr.nextIn_mem m)
        rw [setPage_ne hmn', prev_relink, if_neg hm0]
        exact hr.prev m hmL

end Ring

/-! ## What the pages hold -/

namespace Stored

variable {d d' : Dir α} {A : α → Option Nat}

theorem exists_of_map_indexes {x y : Option (DirPage α)} (h : x.map DirPage.indexes = y.map DirPage.indexes)
    {p : DirPage α} (hx : x = some p) : ∃ q, y = some q ∧ q.indexes = p.indexes := by
  subst hx
  cases y with
  | none => simp at h
  | some q => exact ⟨q, rfl, (Option.some.inj h).symm⟩

/-- A key with no place is on no page. -/
theorem not_mem_of_none (hs : Stored d A) {k : α} (hk : A k = none) {n : Nat} {p : DirPage α}
    (hp : d n = some p) : k ∉ p.indexes := fun hm => by
  have := (hs.placed k n).mpr ⟨p, hp, hm⟩
  simp [hk] at this

/-- Relinking pages leaves what they hold. -/
theorem of_indexes (hs : Stored d A) (h : ∀ n, (d' n).map DirPage.indexes = (d n).map DirPage.indexes) :
    Stored d' A where
  bounded n p hp := by
    obtain ⟨q, hq, he⟩ := exists_of_map_indexes (h n) hp
    exact he ▸ hs.bounded n q hq
  nonempty n p hp hn := by
    obtain ⟨q, hq, he⟩ := exists_of_map_indexes (h n) hp
    exact he ▸ hs.nonempty n q hq hn
  nodup n p hp := by
    obtain ⟨q, hq, he⟩ := exists_of_map_indexes (h n) hp
    exact he ▸ hs.nodup n q hq
  placed k n := by
    rw [hs.placed k n]
    constructor
    · rintro ⟨q, hq, hk⟩
      obtain ⟨p, hp, he⟩ := exists_of_map_indexes (h n).symm hq
      exact ⟨p, hp, he ▸ hk⟩
    · rintro ⟨p, hp, hk⟩
      obtain ⟨q, hq, he⟩ := exists_of_map_indexes (h n) hp
      exact ⟨q, hq, he ▸ hk⟩
  below n hn := by
    have hsome := congrArg Option.isSome (h n)
    rw [Option.isSome_map, Option.isSome_map] at hsome
    exact hs.below n (hsome ▸ hn)

variable [DecidableEq α]

/-- Adding a key without a place to page `n`, which ends up holding it and what it held. -/
theorem add (hs : Stored d A) {k : α} (hk : A k = none) {n : Nat} {P : DirPage α} (hn : d' n = some P)
    (hP : P.indexes.Perm (k :: ((d n).map DirPage.indexes).getD []))
    (hlen : P.indexes.length ≤ dirNodeMaxEntries) (hbelow : n < dirNodeMaxPages)
    (hother : ∀ m, m ≠ n → (d' m).map DirPage.indexes = (d m).map DirPage.indexes) :
    Stored d' (Function.update A k (some n)) := by
  -- what page `n` held, and that `k` was not there
  have hold : (((d n).map DirPage.indexes).getD []).Nodup ∧ k ∉ ((d n).map DirPage.indexes).getD [] := by
    cases hdn : d n with
    | none => simp
    | some q => exact ⟨by simpa using hs.nodup n q hdn, by simpa using hs.not_mem_of_none hk hdn⟩
  have hmemP : ∀ k', k' ≠ k → (k' ∈ P.indexes ↔ ∃ p, d n = some p ∧ k' ∈ p.indexes) := by
    intro k' hk'
    rw [hP.mem_iff, mem_cons]
    cases hdn : d n <;> simp [hk']
  refine ⟨?_, ?_, ?_, ?_, ?_⟩
  · intro m p hp
    by_cases hm : m = n
    · subst hm
      rw [hn] at hp
      exact Option.some.inj hp ▸ hlen
    · obtain ⟨q, hq, he⟩ := exists_of_map_indexes (hother m hm) hp
      exact he ▸ hs.bounded m q hq
  · intro m p hp hm0
    by_cases hm : m = n
    · subst hm
      rw [hn] at hp
      cases Option.some.inj hp
      exact fun h => by simpa [h] using hP.length_eq
    · obtain ⟨q, hq, he⟩ := exists_of_map_indexes (hother m hm) hp
      exact he ▸ hs.nonempty m q hq hm0
  · intro m p hp
    by_cases hm : m = n
    · subst hm
      rw [hn] at hp
      cases Option.some.inj hp
      exact hP.nodup_iff.mpr (nodup_cons.mpr ⟨hold.2, hold.1⟩)
    · obtain ⟨q, hq, he⟩ := exists_of_map_indexes (hother m hm) hp
      exact he ▸ hs.nodup m q hq
  · intro k' m
    by_cases hkk : k' = k
    · subst hkk
      rw [Function.update_self, Option.some.injEq]
      constructor
      · rintro rfl
        exact ⟨P, hn, hP.mem_iff.mpr (mem_cons_self ..)⟩
      · rintro ⟨p, hp, hkp⟩
        by_contra hm
        obtain ⟨q, hq, he⟩ := exists_of_map_indexes (hother m (Ne.symm hm)) hp
        exact hs.not_mem_of_none hk hq (he ▸ hkp)
    · rw [Function.update_of_ne hkk, hs.placed k' m]
      by_cases hm : m = n
      · subst hm
        rw [hn]
        simp only [Option.some.injEq, exists_eq_left']
        exact (hmemP k' hkk).symm
      · constructor
        · rintro ⟨q, hq, hkq⟩
          obtain ⟨p, hp, he⟩ := exists_of_map_indexes (hother m hm).symm hq
          exact ⟨p, hp, he ▸ hkq⟩
        · rintro ⟨p, hp, hkp⟩
          obtain ⟨q, hq, he⟩ := exists_of_map_indexes (hother m hm) hp
          exact ⟨q, hq, he ▸ hkp⟩
  · intro m hm
    by_cases hmn : m = n
    · exact hmn ▸ hbelow
    · have hsome := congrArg Option.isSome (hother m hmn)
      rw [Option.isSome_map, Option.isSome_map] at hsome
      exact hs.below m (hsome ▸ hm)

/-- Taking key `k` off page `n`: the pages left hold what they held, `n` without `k`; a page that
still holds a key is left, and no page but the root is left empty. -/
theorem remove (hs : Stored d A) {k : α} {n : Nat} (hk : A k = some n)
    (hsub : ∀ m p', d' m = some p' → ∃ p, d m = some p ∧
      p'.indexes = if m = n then p.indexes.erase k else p.indexes)
    (hkeep : ∀ m p, d m = some p → (if m = n then p.indexes.erase k else p.indexes) ≠ [] → (d' m).isSome)
    (hne : ∀ m p', d' m = some p' → m ≠ rootPage → p'.indexes ≠ []) :
    Stored d' (Function.update A k none) := by
  refine ⟨?_, hne, ?_, ?_, ?_⟩
  · intro m p' hp'
    obtain ⟨p, hp, he⟩ := hsub m p' hp'
    have hb := hs.bounded m p hp
    rw [he]
    split
    · exact (length_erase_le ..).trans hb
    · exact hb
  · intro m p' hp'
    obtain ⟨p, hp, he⟩ := hsub m p' hp'
    rw [he]
    split
    · exact (hs.nodup m p hp).erase k
    · exact hs.nodup m p hp
  · intro k' m
    by_cases hkk : k' = k
    · subst hkk
      simp only [Function.update_self, reduceCtorEq, false_iff, not_exists, not_and]
      intro p' hp' hkp'
      obtain ⟨p, hp, he⟩ := hsub m p' hp'
      rw [he] at hkp'
      split at hkp'
      · exact (hs.nodup m p hp).not_mem_erase hkp'
      · rename_i hmn
        exact hmn (Option.some.inj (((hs.placed k' m).mpr ⟨p, hp, hkp'⟩).symm.trans hk))
    · rw [Function.update_of_ne hkk, hs.placed k' m]
      -- `k'` stays where it was: its page keeps it and is left
      have hkeep' : ∀ p, d m = some p → (k' ∈ p.indexes ↔ k' ∈ if m = n then p.indexes.erase k else p.indexes) := by
        intro p _
        split
        · exact (mem_erase_of_ne hkk).symm
        · exact Iff.rfl
      constructor
      · rintro ⟨p, hp, hkp⟩
        have hin := (hkeep' p hp).mp hkp
        obtain ⟨p', hp'⟩ := Option.isSome_iff_exists.mp (hkeep m p hp (ne_nil_of_mem hin))
        obtain ⟨q, hq, he⟩ := hsub m p' hp'
        rw [hp] at hq
        cases hq
        exact ⟨p', hp', he ▸ hin⟩
      · rintro ⟨p', hp', hkp'⟩
        obtain ⟨p, hp, he⟩ := hsub m p' hp'
        exact ⟨p, hp, (hkeep' p hp).mpr (he ▸ hkp')⟩
  · intro m hm
    obtain ⟨p', hp'⟩ := Option.isSome_iff_exists.mp hm
    obtain ⟨p, hp, _⟩ := hsub m p' hp'
    exact hs.below m (by simp [hp])

/-- Once every key is gone, every page but the one the last key came off holds nothing. -/
theorem empty_of_none (hs : Stored d A) {k : α} {n : Nat} (hk : A k = some n)
    (hnone : ∀ k', Function.update A k none k' = none) {m : Nat} (hm : m ≠ n) {q : DirPage α}
    (hq : d m = some q) : q.indexes = [] := by
  refine eq_nil_iff_forall_not_mem.mpr fun k' hk' => ?_
  have hplaced := (hs.placed k' m).mpr ⟨q, hq, hk'⟩
  have hne : k' ≠ k := fun h => hm (Option.some.inj (hplaced.symm.trans (h ▸ hk)))
  have := hnone k'
  rw [Function.update_of_ne hne, hplaced] at this
  cases this

/-- Taking a key off its page, which keeps other keys or is the root. -/
theorem setErase (hs : Stored d A) {k : α} {n : Nat} (hk : A k = some n) {node : DirPage α}
    (hn : d n = some node) (hkeep : node.indexes.erase k ≠ [] ∨ n = rootPage) :
    Stored (d.setPage n { node with indexes := node.indexes.erase k }) (Function.update A k none) := by
  refine hs.remove hk (fun m p' hp' => ?_) (fun m p hp _ => ?_) (fun m p' hp' hm0 => ?_)
  · by_cases hm : m = n
    · subst hm
      rw [setPage_self] at hp'
      cases hp'
      exact ⟨node, hn, by simp⟩
    · rw [setPage_ne hm] at hp'
      exact ⟨p', hp', by simp [hm]⟩
  · by_cases hm : m = n
    · subst hm
      simp
    · simp [setPage_ne hm, hp]
  · by_cases hm : m = n
    · subst hm
      rw [setPage_self] at hp'
      cases hp'
      exact hkeep.resolve_right hm0
    · rw [setPage_ne hm] at hp'
      exact hs.nonempty m p' hp' hm0

end Stored

end Ripple
