import Mathlib.Algebra.Order.BigOperators.Group.List
import Mathlib.Algebra.Order.Group.Nat
import Mathlib.Data.Finset.Card
import ChainSqld.Ledger.DirectorySteps

/-!
# Runs of a directory, and what its readers see

A directory is reached from no page by `dirAdd` of keys it does not hold and `dirRemove` of a key
from the page `dirAdd` returned for it, each caller recording that page (`ValidRun`). Along every
such run the invariant `DirInv` holds; the root is there exactly when keys are or the last
operation kept it; and a page whose keys were all added without the order preserved is sorted
(`runDir_spec`).

From the invariant alone, `forEachItem` and a `cdirFirst`/`cdirNext` loop read the keys of the
pages in ring order, each placed key once, and `dirIsEmpty` says whether any key is left
(`DirInv.reads`). The reading proofs walk the ring list `L` from the front, so the recursion of
each reader is matched by an induction on the part of `L` still ahead.
-/

set_option autoImplicit false

namespace Ripple

open Dir List

variable {α : Type}

/-! ## Reading a ring -/

/-- The keys of page `n`, none when there is no page. -/
def pageKeys (d : Dir α) (n : Nat) : List α :=
  ((d n).map DirPage.indexes).getD []

theorem pageKeys_of_eq {d : Dir α} {n : Nat} {p : DirPage α} (h : d n = some p) : pageKeys d n = p.indexes := by
  simp [pageKeys, h]

/-- A `cdirNext` position, page `node` at entry `i`, from which `rest` is left of the ring. -/
def AtEntry (d : Dir α) (L : List Nat) (node : DirPage α) (i : Nat) (rest : List α) : Prop :=
  ∃ pre n post, L = pre ++ n :: post ∧ d n = some node ∧ rest = node.indexes.drop i ++ post.flatMap (pageKeys d)

/-- What a `cdirFirst` or `cdirNext` call returns when `rest` is left: nothing when it is empty,
and otherwise its first key, at a position from which the other keys are left. -/
def IterFrom (d : Dir α) (L : List Nat) : Option (α × DirPage α × Nat) → List α → Prop
  | none, rest => rest = []
  | some (k, node, i), rest => ∃ rest', rest = k :: rest' ∧ AtEntry d L node i rest'

theorem forEachItem_of_none {d : Dir α} {pos : Nat} (h : d pos = none) (fuel : Nat) : forEachItem fuel d pos = [] := by
  cases fuel <;> simp [forEachItem, h]

namespace Ring

variable {d : Dir α} {L : List Nat}

/-- The page after `n` is not the root. -/
theorem ne_root_of_split (hr : Ring d L) {pre post : List Nat} {n m : Nat} (hL : L = pre ++ n :: m :: post) :
    m ≠ rootPage := by
  have := hr.lt_of_split hL
  simp only [rootPage]
  omega

/-- `forEachItem` from a page of the ring reads the keys of it and the pages after it. -/
theorem forEachItem_from (hr : Ring d L) :
    ∀ (post pre : List Nat) (n fuel : Nat), L = pre ++ n :: post → post.length < fuel →
      forEachItem fuel d n = (n :: post).flatMap (pageKeys d)
  | _, _, _, 0, _, hf => absurd hf (Nat.not_lt_zero _)
  | [], pre, n, fuel + 1, hL, _ => by
    obtain ⟨p, hp⟩ := hr.exists_page (by simp [hL] : n ∈ L)
    have hnext : p.indexNext = rootPage := hr.next_of_split hL hp
    simp [forEachItem, hp, hnext, rootPage, pageKeys]
  | m :: post, pre, n, fuel + 1, hL, hf => by
    obtain ⟨p, hp⟩ := hr.exists_page (by simp [hL] : n ∈ L)
    have hnext : p.indexNext = m := hr.next_of_split hL hp
    have hm0 : m ≠ 0 := hr.ne_root_of_split hL
    have ih := hr.forEachItem_from post (pre ++ [n]) m fuel (by simp [hL]) (by simp at hf; omega)
    rw [forEachItem, hp]
    simp only [hnext, hm0, if_false, ih, flatMap_cons, pageKeys_of_eq hp]

/-- `cdirNext` at a position of the ring returns what is left from it, skipping empty pages. -/
theorem cdirNext_from (hr : Ring d L) :
    ∀ (post pre : List Nat) (n fuel : Nat) (node : DirPage α) (i : Nat), L = pre ++ n :: post → d n = some node →
      post.length < fuel → IterFrom d L (cdirNext fuel d node i) (node.indexes.drop i ++ post.flatMap (pageKeys d))
  | _, _, _, 0, _, _, _, _, hf => absurd hf (Nat.not_lt_zero _)
  | post, pre, n, fuel + 1, node, i, hL, hp, hf => by
    by_cases hi : i < node.indexes.length
    · -- the entry is on this page
      simp only [cdirNext, hi, dite_true, IterFrom]
      exact ⟨_, by rw [drop_eq_getElem_cons hi, cons_append], pre, n, post, hL, hp, rfl⟩
    · -- this page is done: go on at the next, or stop after the last
      have hdrop : node.indexes.drop i = [] := drop_eq_nil_of_le (by omega)
      have hnext : node.indexNext = post.headD rootPage := hr.next_of_split hL hp
      cases post with
      | nil => simp [cdirNext, hi, hnext, hdrop, IterFrom, rootPage]
      | cons m post =>
        have hm0 : m ≠ 0 := hr.ne_root_of_split hL
        obtain ⟨q, hq⟩ := hr.exists_page (by simp [hL] : m ∈ L)
        have ih := hr.cdirNext_from post (pre ++ [n]) m fuel q 0 (by simp [hL]) hq (by simp at hf; omega)
        simp only [cdirNext, hi, dite_false, hnext, headD_cons, hm0, if_false, hq]
        rw [hdrop, nil_append, flatMap_cons, pageKeys_of_eq hq]
        simpa using ih

variable {A : α → Option Nat}

theorem length_le (hs : Stored d A) (hr : Ring d L) : L.length ≤ dirNodeMaxPages := by
  have hsub : L.toFinset ⊆ Finset.range dirNodeMaxPages := fun x hx =>
    Finset.mem_range.mpr (hs.below x ((hr.present x).mpr (mem_toFinset.mp hx)))
  calc L.length = L.toFinset.card := (toFinset_card_of_nodup hr.nodup).symm
    _ ≤ (Finset.range dirNodeMaxPages).card := Finset.card_le_card hsub
    _ = dirNodeMaxPages := Finset.card_range _

theorem keys_length_le (hs : Stored d A) (hr : Ring d L) :
    (L.flatMap (pageKeys d)).length ≤ dirNodeMaxPages * dirNodeMaxEntries := by
  have hpage : ∀ x ∈ L.map (fun n => (pageKeys d n).length), x ≤ dirNodeMaxEntries := by
    intro x hx
    obtain ⟨n, hn, rfl⟩ := mem_map.mp hx
    obtain ⟨p, hp⟩ := hr.exists_page hn
    rw [pageKeys_of_eq hp]
    exact hs.bounded n p hp
  calc (L.flatMap (pageKeys d)).length = (L.map fun n => (pageKeys d n).length).sum := length_flatMap ..
    _ ≤ (L.map fun n => (pageKeys d n).length).length • dirNodeMaxEntries := sum_le_card_nsmul _ _ hpage
    _ = L.length * dirNodeMaxEntries := by simp
    _ ≤ dirNodeMaxPages * dirNodeMaxEntries := Nat.mul_le_mul_right _ (hr.length_le hs)

/-- The keys of the ring are the placed keys. -/
theorem mem_keys (hs : Stored d A) (hr : Ring d L) (k : α) : k ∈ L.flatMap (pageKeys d) ↔ (A k).isSome := by
  rw [mem_flatMap, Option.isSome_iff_exists]
  constructor
  · rintro ⟨n, hn, hk⟩
    obtain ⟨p, hp⟩ := hr.exists_page hn
    exact ⟨n, (hs.placed k n).mpr ⟨p, hp, pageKeys_of_eq hp ▸ hk⟩⟩
  · rintro ⟨n, hkn⟩
    obtain ⟨p, hp, hk⟩ := (hs.placed k n).mp hkn
    exact ⟨n, (hr.present n).mp (by simp [hp]), by rwa [pageKeys_of_eq hp]⟩

/-- Each key is on one page, once. -/
theorem keys_nodup (hs : Stored d A) (hr : Ring d L) : (L.flatMap (pageKeys d)).Nodup := by
  refine nodup_flatMap.mpr ⟨fun n hn => ?_, hr.nodup.imp fun {a b} hab => ?_⟩
  · obtain ⟨p, hp⟩ := hr.exists_page hn
    rw [pageKeys_of_eq hp]
    exact hs.nodup n p hp
  · -- a key on two pages is placed on both
    refine disjoint_left.mpr fun {k} hka hkb => hab ?_
    have place : ∀ n, k ∈ pageKeys d n → A k = some n := fun n hk => by
      cases hn : d n with
      | none => simp [pageKeys, hn] at hk
      | some p => exact (hs.placed k n).mpr ⟨p, hn, pageKeys_of_eq hn ▸ hk⟩
    exact Option.some.inj ((place a hka).symm.trans (place b hkb))

/-- A `cdirFirst`/`cdirNext` loop with enough steps lists what is left. -/
theorem cdirEntries_of_iterFrom (hr : Ring d L) {fuel : Nat} (hfuel : L.length ≤ fuel) :
    ∀ (rest : List α) (r : Option (α × DirPage α × Nat)) (steps : Nat), IterFrom d L r rest →
      rest.length ≤ steps → cdirEntries fuel d steps r = rest
  | rest, none, steps, h, _ => by
    cases steps <;> simpa [cdirEntries, IterFrom] using h.symm
  | rest, some (k, node, i), steps, h, hsteps => by
    obtain ⟨rest', rfl, pre, n, post, hL, hp, hrest⟩ := h
    obtain ⟨steps, rfl⟩ := Nat.exists_eq_add_one_of_ne_zero (by simp at hsteps; omega : steps ≠ 0)
    have hnext : IterFrom d L (cdirNext fuel d node i) rest' := by
      rw [hrest]
      exact hr.cdirNext_from post pre n fuel node i hL hp (by rw [hL] at hfuel; simp at hfuel; omega)
    rw [cdirEntries, hr.cdirEntries_of_iterFrom hfuel rest' _ steps hnext (by simp at hsteps; omega)]

/-- `cdirFirst` starts at the root with every key of the ring left. -/
theorem cdirFirst_iterFrom (hr : Ring d L) {fuel : Nat} (hfuel : L.length ≤ fuel) :
    IterFrom d L (cdirFirst fuel d) (L.flatMap (pageKeys d)) := by
  obtain ⟨rest, hL⟩ := hr.eq_root_append
  obtain ⟨root, hroot⟩ := hr.exists_page hr.root_mem
  have h := hr.cdirNext_from rest [] rootPage fuel root 0 hL hroot (by rw [hL] at hfuel; simp at hfuel; omega)
  have hkeys : L.flatMap (pageKeys d) = root.indexes ++ rest.flatMap (pageKeys d) := by
    rw [hL, flatMap_cons, pageKeys_of_eq hroot]
  rw [cdirFirst, hroot, hkeys]
  simpa using h

/-- `dirIsEmpty`: the root holds nothing and is the only page, that is, no key is placed. -/
theorem dirIsEmpty_iff (hs : Stored d A) (hr : Ring d L) : dirIsEmpty d = true ↔ ∀ k, A k = none := by
  obtain ⟨rest, hL⟩ := hr.eq_root_append
  obtain ⟨root, hroot⟩ := hr.exists_page hr.root_mem
  have hnext : root.indexNext = rest.headD rootPage := hr.next_of_split (show L = [] ++ rootPage :: rest from hL) hroot
  -- the pages after the root each hold a key, so there are none exactly when they hold none
  have hrest : rest.flatMap (pageKeys d) = [] ↔ rest = [] := by
    refine ⟨fun h => ?_, fun h => by simp [h]⟩
    cases rest with
    | nil => rfl
    | cons m ms =>
      obtain ⟨q, hq⟩ := hr.exists_page (by simp [hL] : m ∈ L)
      have hm0 : m ≠ rootPage := hr.ne_root_of_split (show L = [] ++ rootPage :: m :: ms from hL)
      simp only [flatMap_cons, append_eq_nil_iff, pageKeys_of_eq hq] at h
      exact absurd h.1 (hs.nonempty m q hq hm0)
  have hnone : (∀ k, A k = none) ↔ L.flatMap (pageKeys d) = [] := by
    rw [eq_nil_iff_forall_not_mem]
    simp only [hr.mem_keys hs, Option.not_isSome_iff_eq_none]
  have hnext0 : root.indexNext = 0 ↔ rest = [] := by
    rw [hnext]
    cases rest with
    | nil => simp [rootPage]
    | cons m ms => simpa [rootPage] using hr.ne_root_of_split (show L = [] ++ rootPage :: m :: ms from hL)
  rw [hnone, hL, flatMap_cons, pageKeys_of_eq hroot, append_eq_nil_iff, hrest, ← hnext0]
  simp [dirIsEmpty, hroot]

end Ring

/-- What the reading functions report of a directory whose keys are placed by `A`: `forEachItem`
lists each placed key once, a `cdirFirst`/`cdirNext` loop lists the same keys, and `dirIsEmpty`
says that none is placed. Fuel for every page and steps for every key are enough. -/
structure Reads (d : Dir α) (A : α → Option Nat) : Prop where
  forEachItem_nodup : ∀ fuel, dirNodeMaxPages ≤ fuel → (forEachItem fuel d rootPage).Nodup
  mem_forEachItem : ∀ fuel, dirNodeMaxPages ≤ fuel → ∀ k, k ∈ forEachItem fuel d rootPage ↔ (A k).isSome
  cdirEntries_eq : ∀ fuel steps, dirNodeMaxPages ≤ fuel → dirNodeMaxPages * dirNodeMaxEntries ≤ steps →
    cdirEntries fuel d steps (cdirFirst fuel d) = forEachItem fuel d rootPage
  dirIsEmpty_iff : dirIsEmpty d = true ↔ ∀ k, A k = none

/-- **The readers**: under the invariant they report exactly the placed keys. -/
theorem DirInv.reads {d : Dir α} {A : α → Option Nat} (hi : DirInv d A) : Reads d A := by
  obtain ⟨hs, hempty | ⟨L, hr⟩⟩ := hi
  · -- no page: nothing to read, and no key is placed
    have hnone : ∀ k, A k = none := fun k => by
      cases hk : A k with
      | none => rfl
      | some n =>
        obtain ⟨p, hp, -⟩ := (hs.placed k n).mp hk
        simp [hempty n] at hp
    have hread : ∀ fuel, forEachItem fuel d rootPage = [] := forEachItem_of_none (hempty rootPage)
    refine ⟨fun fuel _ => by simp [hread], fun fuel _ k => by simp [hread, hnone k], fun fuel steps _ _ => ?_, ?_⟩
    · simp [hread, cdirFirst, hempty rootPage, cdirEntries]
    · simp [dirIsEmpty, hempty rootPage, hnone]
  · have hread : ∀ fuel, dirNodeMaxPages ≤ fuel → forEachItem fuel d rootPage = L.flatMap (pageKeys d) := by
      intro fuel hfuel
      obtain ⟨rest, hL⟩ := hr.eq_root_append
      have hlen : rest.length < fuel := by
        have := hr.length_le hs
        rw [hL, length_cons] at this
        omega
      rw [hL]
      exact hr.forEachItem_from rest [] rootPage fuel hL hlen
    refine ⟨fun fuel hfuel => ?_, fun fuel hfuel k => ?_, fun fuel steps hfuel hsteps => ?_, hr.dirIsEmpty_iff hs⟩
    · rw [hread fuel hfuel]
      exact hr.keys_nodup hs
    · rw [hread fuel hfuel]
      exact hr.mem_keys hs k
    · have hfuel' : L.length ≤ fuel := (hr.length_le hs).trans hfuel
      rw [hread fuel hfuel]
      exact hr.cdirEntries_of_iterFrom hfuel' _ _ steps (hr.cdirFirst_iterFrom hfuel')
        ((hr.keys_length_le hs).trans hsteps)

/-! ## The shape of the pages -/

namespace Ring

variable {d : Dir α} {L : List Nat} {n : Nat} {p : DirPage α}

/-- Along `sfIndexNext` page numbers increase, but for the link back to the root. -/
theorem indexNext_gt (hr : Ring d L) (hp : d n = some p) : p.indexNext = rootPage ∨ n < p.indexNext := by
  obtain ⟨pre, post, hL⟩ := mem_iff_append.mp ((hr.present n).mp (by simp [hp]))
  rw [hr.next_of_split hL hp]
  cases post with
  | nil => exact .inl rfl
  | cons m ms => exact .inr (hr.lt_of_split hL)

/-- Each page is the previous of its next and the next of its previous. -/
theorem linked (hr : Ring d L) (hp : d n = some p) :
    (d p.indexNext).map DirPage.indexPrevious = some n ∧ (d p.indexPrevious).map DirPage.indexNext = some n := by
  have hn : n ∈ L := (hr.present n).mp (by simp [hp])
  have hnext : p.indexNext = nextIn rootPage L n := by
    have h := hr.next n hn
    rw [hp] at h
    exact Option.some.inj h
  obtain ⟨q, -, hprev, hq⟩ := hr.exists_prev hn
  rw [hp] at hprev
  rw [hnext, Option.some.inj hprev]
  exact ⟨hr.prev n hn, hq⟩

/-- The root's previous page is the last: no page is numbered above it. -/
theorem le_root_prev (hr : Ring d L) {root : DirPage α} (hroot : d rootPage = some root) (hn : (d n).isSome) :
    n ≤ root.indexPrevious := by
  have hne : L ≠ [] := ne_nil_of_mem hr.root_mem
  have hL : L = L.dropLast ++ [L.getLast hne] := (dropLast_concat_getLast hne).symm
  have hprev : root.indexPrevious = L.getLast hne := by
    have h := hr.root_prev hL
    rw [hroot] at h
    exact Option.some.inj h
  have hnL := (hr.present n).mp hn
  rw [hL, mem_append, mem_singleton] at hnL
  rw [hprev]
  rcases hnL with h | h
  · exact Nat.le_of_lt (hr.lt_last hL n h)
  · exact Nat.le_of_eq h

end Ring

namespace DirInv

variable {d : Dir α} {A : α → Option Nat} {n : Nat} {p : DirPage α}

theorem ring_of_some (hi : DirInv d A) (hp : d n = some p) : ∃ L, Ring d L := by
  obtain ⟨-, hempty | hring⟩ := hi
  · simp [hempty n] at hp
  · exact hring

theorem indexNext_gt (hi : DirInv d A) (hp : d n = some p) : p.indexNext = rootPage ∨ n < p.indexNext := by
  obtain ⟨L, hr⟩ := hi.ring_of_some hp
  exact hr.indexNext_gt hp

theorem linked (hi : DirInv d A) (hp : d n = some p) :
    (d p.indexNext).map DirPage.indexPrevious = some n ∧ (d p.indexPrevious).map DirPage.indexNext = some n := by
  obtain ⟨L, hr⟩ := hi.ring_of_some hp
  exact hr.linked hp

theorem le_root_prev (hi : DirInv d A) {root : DirPage α} (hroot : d rootPage = some root) (hn : (d n).isSome) :
    n ≤ root.indexPrevious := by
  obtain ⟨L, hr⟩ := hi.ring_of_some hroot
  exact hr.le_root_prev hroot hn

/-- The page `dirAdd` makes next, after the root's previous page, is not there yet. -/
theorem next_page_fresh (hi : DirInv d A) {root : DirPage α} (hroot : d rootPage = some root) :
    d (root.indexPrevious + 1) = none := by
  cases h : d (root.indexPrevious + 1) with
  | none => rfl
  | some q => exact absurd (hi.le_root_prev hroot (by simp [h])) (Nat.not_succ_le_self _)

end DirInv

/-! ## Runs -/

/-- A call of the directory code. -/
inductive DirOp (α : Type) where
  | add (preserveOrder : Bool) (key : α)
  | remove (page : Nat) (key : α) (keepRoot : Bool)
deriving Repr, DecidableEq

/-- The pages of a directory, the page each key's holder records for it (`sfOwnerNode`,
`sfBookNode`, ...), and whether the key was added with the order preserved. -/
structure DirState (α : Type) where
  pages : Dir α
  placed : α → Option Nat
  inOrder : α → Bool

/-- No directory. -/
def DirState.empty : DirState α :=
  ⟨Dir.empty, fun _ => none, fun _ => false⟩

namespace DirOp

/-- The call made by the callers: a key the directory does not hold is added, and a key is
removed from the page its holder recorded. -/
def Enabled (placed : α → Option Nat) : DirOp α → Prop
  | add _ key => placed key = none
  | remove page key _ => placed key = some page

instance (placed : α → Option Nat) (op : DirOp α) : Decidable (op.Enabled placed) :=
  match op with
  | add _ key => inferInstanceAs (Decidable (placed key = none))
  | remove page key _ => inferInstanceAs (Decidable (placed key = some page))

/-- The `keepRoot` of a remove; an add does not keep an empty root. -/
def keepsRoot : DirOp α → Bool
  | add _ _ => false
  | remove _ _ keepRoot => keepRoot

variable [LinearOrder α]

/-- One call: the holder records the page `dirAdd` returns, and forgets it once `dirRemove` took
the key off. With no page left, or a `LogicError`, the transaction fails and changes nothing. -/
def apply : DirOp α → DirState α → DirState α
  | add preserveOrder key, s =>
    match dirAdd preserveOrder key s.pages with
    | .ok (some page, d) => ⟨d, Function.update s.placed key (some page), Function.update s.inOrder key preserveOrder⟩
    | _ => s
  | remove page key keepRoot, s =>
    match dirRemove page key keepRoot s.pages with
    | .ok (true, d) => ⟨d, Function.update s.placed key none, s.inOrder⟩
    | _ => s

end DirOp

section Run

variable [LinearOrder α]

/-- The calls one after the other. -/
def runDir : List (DirOp α) → DirState α → DirState α
  | [], s => s
  | op :: ops, s => runDir ops (op.apply s)

/-- Each call of the run is one the callers make. -/
def ValidRun : List (DirOp α) → DirState α → Prop
  | [], _ => True
  | op :: ops, s => op.Enabled s.placed ∧ ValidRun ops (op.apply s)

instance instDecidableValidRun : (ops : List (DirOp α)) → (s : DirState α) → Decidable (ValidRun ops s)
  | [], _ => isTrue trivial
  | op :: ops, s =>
    have := instDecidableValidRun ops (op.apply s)
    inferInstanceAs (Decidable (op.Enabled s.placed ∧ ValidRun ops (op.apply s)))

/-- Whether the last call of the run kept the root, `kept` for no call. -/
def keptRoot (kept : Bool) : List (DirOp α) → Bool
  | [] => kept
  | op :: ops => keptRoot op.keepsRoot ops

end Run

/-- The root is there exactly when a key is placed or the root was kept. -/
def RootAfter (s : DirState α) (kept : Bool) : Prop :=
  (s.pages rootPage).isSome = true ↔ (∃ k, (s.placed k).isSome) ∨ kept = true

section Steps

variable [LinearOrder α] {s : DirState α}

theorem DirOp.apply_add_spec (hi : DirInv s.pages s.placed) {key : α} (hk : s.placed key = none)
    (preserveOrder : Bool) :
    DirInv ((add preserveOrder key).apply s).pages ((add preserveOrder key).apply s).placed ∧
      RootAfter ((add preserveOrder key).apply s) false ∧
      (PagesOrdered s.pages s.inOrder →
        PagesOrdered ((add preserveOrder key).apply s).pages ((add preserveOrder key).apply s).inOrder) := by
  obtain ⟨page, d', hadd, hfull, hsort, hinv⟩ := dirAdd_dirInv hi hk preserveOrder
  cases page with
  | none =>
    -- no page left: nothing changes, and the directory holds a key
    obtain ⟨rfl, k, n, hkn⟩ := hfull rfl
    have happ : (add preserveOrder key).apply s = s := by simp [apply, hadd]
    rw [happ]
    exact ⟨hi, ⟨fun _ => .inl ⟨k, by simp [hkn]⟩, fun _ => hi.root_of_placed hkn⟩, fun hd => hd⟩
  | some n =>
    have happ : (add preserveOrder key).apply s =
        ⟨d', Function.update s.placed key (some n), Function.update s.inOrder key preserveOrder⟩ := by
      simp [apply, hadd]
    have hi' := hinv n rfl
    rw [happ]
    exact ⟨hi', ⟨fun _ => .inl ⟨key, by simp⟩, fun _ => hi'.root_of_placed (Function.update_self ..)⟩, hsort _⟩

theorem DirOp.apply_remove_spec (hi : DirInv s.pages s.placed) {page : Nat} {key : α}
    (hk : s.placed key = some page) (keepRoot : Bool) :
    DirInv ((remove page key keepRoot).apply s).pages ((remove page key keepRoot).apply s).placed ∧
      RootAfter ((remove page key keepRoot).apply s) keepRoot ∧
      (PagesOrdered s.pages s.inOrder →
        PagesOrdered ((remove page key keepRoot).apply s).pages ((remove page key keepRoot).apply s).inOrder) := by
  obtain ⟨d', hrem, hi', hshrink, hkept, hgone⟩ := dirRemove_dirInv hi hk keepRoot
  have happ : (remove page key keepRoot).apply s = ⟨d', Function.update s.placed key none, s.inOrder⟩ := by
    simp [apply, hrem]
  rw [happ]
  refine ⟨hi', ?_, fun hd => hd.of_shrinks hshrink⟩
  cases keepRoot with
  | true => exact ⟨fun _ => .inr rfl, fun _ => hkept rfl⟩
  | false =>
    -- an unkept root stays while a key does
    refine ⟨fun hroot => .inl ?_, fun h => ?_⟩
    · by_contra hno
      simp only [not_exists, Option.not_isSome_iff_eq_none] at hno
      simp [hgone rfl hno] at hroot
    · obtain ⟨k, hk'⟩ := h.resolve_right (by simp)
      obtain ⟨n, hn⟩ := Option.isSome_iff_exists.mp hk'
      exact hi'.root_of_placed hn

/-- **One call** keeps the invariant and the order of the pages, and leaves the root as its
`keepRoot` says. -/
theorem DirOp.apply_spec (hi : DirInv s.pages s.placed) {op : DirOp α} (h : op.Enabled s.placed) :
    DirInv (op.apply s).pages (op.apply s).placed ∧ RootAfter (op.apply s) op.keepsRoot ∧
      (PagesOrdered s.pages s.inOrder → PagesOrdered (op.apply s).pages (op.apply s).inOrder) := by
  cases op with
  | add preserveOrder key => exact DirOp.apply_add_spec hi h preserveOrder
  | remove page key keepRoot => exact DirOp.apply_remove_spec hi h keepRoot

/-- **A run** keeps what one call keeps. -/
theorem runDir_spec : ∀ (ops : List (DirOp α)) (s : DirState α) (kept : Bool), ValidRun ops s →
    DirInv s.pages s.placed → RootAfter s kept →
    DirInv (runDir ops s).pages (runDir ops s).placed ∧ RootAfter (runDir ops s) (keptRoot kept ops) ∧
      (PagesOrdered s.pages s.inOrder → PagesOrdered (runDir ops s).pages (runDir ops s).inOrder)
  | [], _, _, _, hi, hroot => ⟨hi, hroot, fun hd => hd⟩
  | op :: ops, s, _, hv, hi, _ => by
    obtain ⟨hen, hv⟩ := hv
    obtain ⟨hi₁, hroot₁, hord₁⟩ := DirOp.apply_spec hi hen
    obtain ⟨hi₂, hroot₂, hord₂⟩ := runDir_spec ops (op.apply s) op.keepsRoot hv hi₁ hroot₁
    exact ⟨hi₂, hroot₂, fun hd => hord₂ (hord₁ hd)⟩

end Steps

theorem dirInv_empty : DirInv (DirState.empty : DirState α).pages DirState.empty.placed := by
  refine ⟨⟨?_, ?_, ?_, ?_, ?_⟩, .inl fun _ => rfl⟩ <;> simp [DirState.empty, Dir.empty]

theorem rootAfter_empty : RootAfter (DirState.empty : DirState α) false := by
  simp [RootAfter, DirState.empty, Dir.empty]

theorem pagesOrdered_empty [LinearOrder α] : PagesOrdered (DirState.empty : DirState α).pages DirState.empty.inOrder := by
  simp [PagesOrdered, DirState.empty, Dir.empty]

/-- What holds of the directory a run leaves: the pages are no page or a ring through the root,
each page linked both ways, page numbers increasing along `sfIndexNext` up to the root's previous
page, so that the next new page is not there yet; the pages hold the placed keys, each once; a page
of keys all added without the order preserved is sorted; the readers report the placed keys; and
the root is there exactly when a key is placed or the last call kept it. -/
structure Reached [LinearOrder α] (ops : List (DirOp α)) (s : DirState α) : Prop where
  ring : (∀ n, s.pages n = none) ∨ ∃ L, Ring s.pages L
  linked : ∀ n p, s.pages n = some p → (s.pages p.indexNext).map DirPage.indexPrevious = some n ∧
    (s.pages p.indexPrevious).map DirPage.indexNext = some n
  increasing : ∀ n p, s.pages n = some p → p.indexNext = rootPage ∨ n < p.indexNext
  root_prev_last : ∀ root n, s.pages rootPage = some root → (s.pages n).isSome → n ≤ root.indexPrevious
  next_page_fresh : ∀ root, s.pages rootPage = some root → s.pages (root.indexPrevious + 1) = none
  stored : Stored s.pages s.placed
  sorted : ∀ n p, s.pages n = some p → (∀ k ∈ p.indexes, s.inOrder k = false) → p.indexes.Pairwise (· ≤ ·)
  reads : Reads s.pages s.placed
  root : (s.pages rootPage).isSome = true ↔ (∃ k, (s.placed k).isSome) ∨ keptRoot false ops = true

theorem dirRuns_keep_directory_invariant [LinearOrder α] (ops : List (DirOp α))
    (hv : ValidRun ops DirState.empty) : Reached ops (runDir ops DirState.empty) := by
  obtain ⟨hi, hroot, hord⟩ := runDir_spec ops DirState.empty false hv dirInv_empty rootAfter_empty
  exact ⟨hi.2, fun _ _ => hi.linked, fun _ _ => hi.indexNext_gt, fun _ _ => hi.le_root_prev,
    fun _ => hi.next_page_fresh, hi.1, fun _ _ hp => (hord pagesOrdered_empty).sorted hp, hi.reads, hroot⟩

theorem dirRuns_keep_directory_invariant_books :
    let ops : List (DirOp Nat) := [.add false 7, .add false 3, .add true 1, .remove 0 7 false, .add false 5]
    ValidRun ops DirState.empty ∧ Reached ops (runDir ops DirState.empty) := by
  intro ops
  have hv : ValidRun ops DirState.empty := by decide
  exact ⟨hv, dirRuns_keep_directory_invariant ops hv⟩

end Ripple
