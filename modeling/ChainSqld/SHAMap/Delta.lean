import ChainSqld.SHAMap.Invariants
import ChainSqld.Lib.Worklist

/-!
# The differences between two maps

`SHAMap::compare` lists the items two maps hold differently, down to `maxCount` of them, without
descending below branches of equal hash. It walks the two trees together with a stack of pairs of
nodes at one place in both; where one side has a single leaf or nothing, `SHAMap::walkBranch` walks
the other side's branch with its own stack of nodes.

Both loops are `Worklist.loop`s, and a worklist over a stack is a recursion over its items
(`Worklist.run_cons`, `Worklist.run_singleton`). Read that way, each loop records a list of
differences fixed by the two trees, in order, and stops when `maxCount` runs out (`recordAll`):

* `walkBranch_eq`: `walkBranch` records `walkEntries` of the items below its node, met in
  `walkOrder` (the stack takes an inner node's branches from the last);
* `compare_run`: the loop of `compare` on a pair of nodes records `cmpEntries`, the one-sided walks of
  two inner nodes in branch order, then the pairs of branches it pushed, from the last.

What those lists hold is the subject of `DeltaExact`.
-/

namespace Ripple

/-- `SHAMap::DeltaItem`: the item of a key in this map and in the other, each possibly null. -/
abbrev DeltaItem := Option SHAMapItem × Option SHAMapItem

/-- `SHAMap::Delta`, a `std::map` from keys to `DeltaItem`, as its entries in the order they were
inserted. -/
abbrev Delta := List (UInt256 × DeltaItem)

namespace Delta

/-- `std::map::insert`: a key the map holds keeps its entry. -/
def insert (differences : Delta) (k : UInt256) (v : DeltaItem) : Delta :=
  if differences.any (fun e => e.1 == k) then differences else differences ++ [(k, v)]

theorem insert_of_not_mem {differences : Delta} {k : UInt256} (hk : k ∉ differences.map Prod.fst)
    (v : DeltaItem) : differences.insert k v = differences ++ [(k, v)] := by
  have hany : (differences.any fun e => e.1 == k) = false := by
    rw [List.any_eq_false]
    intro e he hek
    exact hk (List.mem_map.mpr ⟨e, he, by simpa using hek⟩)
  simp [insert, hany]

end Delta

namespace SHAMap

open SHAMapAbstractNode

/-! ## The model -/

/-- What `walkBranch` and `compare` thread through: the differences found and `maxCount`. -/
structure DeltaState where
  differences : Delta
  maxCount : Int

/-- `differences.insert (...)`, then `if (--maxCount <= 0) return false`: whether to go on. -/
def record (k : UInt256) (v : DeltaItem) (s : DeltaState) : Bool × DeltaState :=
  (decide (0 < s.maxCount - 1), ⟨s.differences.insert k v, s.maxCount - 1⟩)

/-- The `DeltaRef` `walkBranch` builds of an item of the branch's map and one of the other:
`isFirstMap` says which of the two is ours. -/
def deltaRef (isFirstMap : Bool) (item other : Option SHAMapItem) : DeltaItem :=
  if isFirstMap then (item, other) else (other, item)

/-- `walkBranch` at a leaf. `emptyBranch` is set when there is no other item or it has been met: the
leaf is then unmatched, as is a leaf of another key; a leaf of the other item's key is a difference
if its data differ, and meeting it sets `emptyBranch`. -/
def walkLeaf (otherMapItem : Option SHAMapItem) (isFirstMap : Bool) (item : SHAMapItem)
    (emptyBranch : Bool) (s : DeltaState) : Bool × Bool × DeltaState :=
  match otherMapItem, emptyBranch with
  | some other, false =>
    if item.tag ≠ other.tag then
      let r := record item.tag (deltaRef isFirstMap (some item) none) s
      (r.1, false, r.2)
    else if item.data ≠ other.data then
      let r := record item.tag (deltaRef isFirstMap (some item) (some other)) s
      (r.1, true, r.2)
    else (true, true, s)
  | _, _ =>
    let r := record item.tag (deltaRef isFirstMap (some item) none) s
    (r.1, emptyBranch, r.2)

/-- What an inner node pushes: its branches from the first, so the last is on top. -/
def pushBranches (node : SHAMapAbstractNode) : List SHAMapAbstractNode :=
  (((List.finRange 16).filter fun i => !node.isEmptyBranch i).map node.getChild).reverse

/-- One pass of `walkBranch`'s loop: an inner node pushes its branches, a leaf is handled by
`walkLeaf`. A slot holding nothing is never pushed. -/
def walkStep (otherMapItem : Option SHAMapItem) (isFirstMap : Bool) (node : SHAMapAbstractNode)
    (st : Bool × DeltaState) : Except String (Bool × (Bool × DeltaState) × List SHAMapAbstractNode) :=
  match node with
  | .leaf item _ =>
    let r := walkLeaf otherMapItem isFirstMap item st.1 st.2
    .ok (r.1, (r.2.1, r.2.2), [])
  | node => .ok (true, st, pushBranches node)

/-- The nodes of a subtree, a slot holding nothing counting as one: the passes a loop over it needs. -/
def nodeCount : SHAMapAbstractNode → Nat
  | .inner ch => 1 + ((List.finRange 16).map fun i => nodeCount (ch i)).sum
  | .innerV2 _ _ ch => 1 + ((List.finRange 16).map fun i => nodeCount (ch i)).sum
  | _ => 1

/-- The end of `walkBranch`: the other item is a difference if no leaf had its key. -/
def walkEnd (otherMapItem : Option SHAMapItem) (isFirstMap : Bool) : Bool × Bool × DeltaState → Bool × DeltaState
  | (false, _, s) => (false, s)
  | (true, emptyBranch, s) =>
    match otherMapItem, emptyBranch with
    | some other, false => record other.tag (deltaRef isFirstMap none (some other)) s
    | _, _ => (true, s)

/-- `SHAMap::walkBranch`: the differences between a branch of one map and an empty branch or a single
item of the other; `false` once `maxCount` runs out. -/
def walkBranch (node : SHAMapAbstractNode) (otherMapItem : Option SHAMapItem) (isFirstMap : Bool)
    (s : DeltaState) : Except String (Bool × DeltaState) :=
  (Worklist.run (walkStep otherMapItem isFirstMap) nodeCount [node] (otherMapItem.isNone, s)).map
    fun r => walkEnd otherMapItem isFirstMap (r.1, r.2.1, r.2.2)

/-- `compare` on two leaves: one difference for one key, two for two. -/
def compareLeaves (ours other : SHAMapItem) (s : DeltaState) : Bool × DeltaState :=
  if ours.tag = other.tag then
    if ours.data ≠ other.data then record ours.tag (some ours, some other) s else (true, s)
  else
    let r := record ours.tag (some ours, none) s
    if r.1 then record other.tag (none, some other) r.2 else r

variable (sha512Half : Blob → UInt256)

/-- `compare` on two inner nodes, through the branches `is` from the first: a branch of different
hashes that only one side has is walked, and the pair is pushed where both have one. `pushed` is
what was pushed so far, the last on top. -/
def compareBranches (ours other : SHAMapAbstractNode) :
    List (Fin 16) → DeltaState → List (SHAMapAbstractNode × SHAMapAbstractNode) →
      Except String (Bool × DeltaState × List (SHAMapAbstractNode × SHAMapAbstractNode))
  | [], s, pushed => .ok (true, s, pushed)
  | i :: is, s, pushed =>
    if (ours.getChild i).getNodeHash sha512Half ≠ (other.getChild i).getNodeHash sha512Half then
      if other.isEmptyBranch i then
        walkBranch (ours.getChild i) none true s >>= fun r =>
          if r.1 then compareBranches ours other is r.2 pushed else .ok (false, r.2, pushed)
      else if ours.isEmptyBranch i then
        walkBranch (other.getChild i) none false s >>= fun r =>
          if r.1 then compareBranches ours other is r.2 pushed else .ok (false, r.2, pushed)
      else compareBranches ours other is s ((ours.getChild i, other.getChild i) :: pushed)
    else compareBranches ours other is s pushed

/-- One pass of `compare`'s loop, on a pair of nodes at one place in the two maps. A null node
throws `SHAMapMissingNode`. -/
def compareStep (pair : SHAMapAbstractNode × SHAMapAbstractNode) (s : DeltaState) :
    Except String (Bool × DeltaState × List (SHAMapAbstractNode × SHAMapAbstractNode)) :=
  match pair with
  | (.empty, _) => .error "SHAMapMissingNode"
  | (_, .empty) => .error "SHAMapMissingNode"
  | (.leaf ours _, .leaf other _) =>
    let r := compareLeaves ours other s
    .ok (r.1, r.2, [])
  | (ourNode, .leaf other _) => (walkBranch ourNode (some other) true s).map fun r => (r.1, r.2, [])
  | (.leaf ours _, otherNode) => (walkBranch otherNode (some ours) false s).map fun r => (r.1, r.2, [])
  | (ourNode, otherNode) => compareBranches sha512Half ourNode otherNode (List.finRange 16) s []

/-- The passes `compare`'s loop needs for a pair: the nodes below our side of it. -/
def pairCount (pair : SHAMapAbstractNode × SHAMapAbstractNode) : Nat := nodeCount pair.1

/-- `SHAMap::compare`: the differences between two maps added to `differences`, up to `maxCount`;
`true` when they are all there. Maps of one hash have none. -/
def compare (m otherMap : SHAMap) (differences : Delta) (maxCount : Int) : Except String (Bool × Delta) :=
  if m.getHash sha512Half = otherMap.getHash sha512Half then .ok (true, differences)
  else
    (Worklist.run (compareStep sha512Half) pairCount [(m.root, otherMap.root)] ⟨differences, maxCount⟩).map
      fun r => (r.1, r.2.differences)

/-! ## Recording a list of differences -/

/-- Recording differences in order, stopping when `maxCount` runs out. -/
def recordAll : List (UInt256 × DeltaItem) → DeltaState → Bool × DeltaState
  | [], s => (true, s)
  | e :: es, s =>
    let r := record e.1 e.2 s
    if r.1 then recordAll es r.2 else r

/-- Recording `l₁ ++ l₂` records `l₁`, then `l₂` if that went on. -/
theorem recordAll_append (l₁ l₂ : List (UInt256 × DeltaItem)) (s : DeltaState) :
    recordAll (l₁ ++ l₂) s = (let r := recordAll l₁ s; if r.1 then recordAll l₂ r.2 else r) := by
  induction l₁ generalizing s with
  | nil => rfl
  | cons e es ih =>
    simp only [List.cons_append, recordAll]
    split
    · exact ih _
    · simp [*]

/-! ## Walking a branch -/

/-- The items `walkBranch` meets below a node, in order: its stack takes the branches of an inner
node from the last. -/
def walkOrder : SHAMapAbstractNode → List SHAMapItem
  | .empty => []
  | .leaf it _ => [it]
  | .inner ch => (List.finRange 16).reverse.flatMap fun i => walkOrder (ch i)
  | .innerV2 _ _ ch => (List.finRange 16).reverse.flatMap fun i => walkOrder (ch i)

/-- `walkLeaf` over items in order, stopping when `maxCount` runs out. -/
def walkLeaves (otherMapItem : Option SHAMapItem) (isFirstMap : Bool) :
    List SHAMapItem → Bool × DeltaState → Bool × Bool × DeltaState
  | [], st => (true, st)
  | it :: its, st =>
    let r := walkLeaf otherMapItem isFirstMap it st.1 st.2
    if r.1 then walkLeaves otherMapItem isFirstMap its (r.2.1, r.2.2) else r

theorem walkLeaves_append (o : Option SHAMapItem) (f : Bool) (l₁ l₂ : List SHAMapItem)
    (st : Bool × DeltaState) :
    walkLeaves o f (l₁ ++ l₂) st =
      (let r := walkLeaves o f l₁ st; if r.1 then walkLeaves o f l₂ (r.2.1, r.2.2) else r) := by
  induction l₁ generalizing st with
  | nil => rfl
  | cons it its ih =>
    simp only [List.cons_append, walkLeaves]
    split
    · exact ih _
    · simp [*]

theorem nodeCount_pos (t : SHAMapAbstractNode) : 0 < nodeCount t := by
  cases t <;> simp [nodeCount]

/-- The branches of an inner node count less than the node. -/
theorem sum_nodeCount_filter_lt (ch : Fin 16 → SHAMapAbstractNode) (p : Fin 16 → Bool) :
    (((List.finRange 16).filter p).map fun i => nodeCount (ch i)).sum < nodeCount (.inner ch) := by
  have hle : (((List.finRange 16).filter p).map fun i => nodeCount (ch i)).sum ≤
      ((List.finRange 16).map fun i => nodeCount (ch i)).sum :=
    List.Sublist.sum_le_sum (List.filter_sublist.map _) (fun _ _ => Nat.zero_le _)
  simp only [nodeCount]
  omega

/-- A node that is not inner pushes nothing. -/
theorem pushBranches_of_isInner_eq_false {t : SHAMapAbstractNode} (ht : t.isInner = false) :
    pushBranches t = [] := by
  cases t <;> simp_all [pushBranches, isEmptyBranch, getChild, isEmpty, isInner]

theorem sum_nodeCount_pushBranches (t : SHAMapAbstractNode) :
    ((pushBranches t).map nodeCount).sum < nodeCount t := by
  cases t with
  | inner ch =>
    simpa [pushBranches, List.map_reverse, List.sum_reverse, List.map_map, Function.comp_def] using
      sum_nodeCount_filter_lt ch fun i => !(SHAMapAbstractNode.inner ch).isEmptyBranch i
  | innerV2 d c ch =>
    have hcount : nodeCount (.innerV2 d c ch) = nodeCount (.inner ch) := rfl
    simpa [pushBranches, List.map_reverse, List.sum_reverse, List.map_map, Function.comp_def, hcount] using
      sum_nodeCount_filter_lt ch fun i => !(SHAMapAbstractNode.innerV2 d c ch).isEmptyBranch i
  | empty => rw [pushBranches_of_isInner_eq_false rfl]; simp [nodeCount]
  | leaf it ty => rw [pushBranches_of_isInner_eq_false rfl]; simp [nodeCount]

theorem walkStep_shrinks (o : Option SHAMapItem) (f : Bool) : Worklist.Shrinks (walkStep o f) nodeCount := by
  intro node st st' pushed h
  cases node
  case leaf it ty =>
    simp only [walkStep, Except.ok.injEq, Prod.mk.injEq] at h
    rw [← h.2.2]
    simp [nodeCount]
  all_goals
    simp only [walkStep, Except.ok.injEq, Prod.mk.injEq] at h
    rw [← h.2.2]
    exact sum_nodeCount_pushBranches _

theorem flatMap_filter_of_nil {α β : Type} {l : List α} {p : α → Bool} {f : α → List β}
    (h : ∀ a, p a = false → f a = []) : (l.filter p).flatMap f = l.flatMap f := by
  induction l with
  | nil => rfl
  | cons a l ih =>
    cases hp : p a
    · simp [hp, h a hp, ih]
    · simp [hp, ih]

/-- The items met below the branches a node pushes are the items met below its branches, from the
last: a slot holding nothing has none. -/
theorem flatMap_walkOrder_pushBranches (t : SHAMapAbstractNode) :
    (pushBranches t).flatMap walkOrder = (List.finRange 16).reverse.flatMap fun i => walkOrder (t.getChild i) := by
  rw [pushBranches, ← List.map_reverse, ← List.filter_reverse, List.flatMap_map]
  refine flatMap_filter_of_nil fun i hi => ?_
  rw [Bool.not_eq_false', isEmptyBranch, SHAMapAbstractNode.isEmpty_iff] at hi
  simp [hi, walkOrder]

/-- **The walk is a recursion.** `walkBranch`'s loop on a node meets the items below it in
`walkOrder`. By induction on the node: the branches an inner node pushes are run one after another
(`Worklist.run_cons`), the last first. -/
theorem run_walkStep (o : Option SHAMapItem) (f : Bool) :
    ∀ (t : SHAMapAbstractNode) (st : Bool × DeltaState),
      Worklist.run (walkStep o f) nodeCount [t] st = .ok (walkLeaves o f (walkOrder t) st) := by
  have hs := walkStep_shrinks o f
  -- a stack of nodes, each of which meets its items, meets them one node after another
  have hlist : ∀ (L : List SHAMapAbstractNode),
      (∀ t ∈ L, ∀ st, Worklist.run (walkStep o f) nodeCount [t] st = .ok (walkLeaves o f (walkOrder t) st)) →
      ∀ st, Worklist.run (walkStep o f) nodeCount L st = .ok (walkLeaves o f (L.flatMap walkOrder) st) := by
    intro L
    induction L with
    | nil => intro _ st; rfl
    | cons t L ih =>
      intro hL st
      rw [Worklist.run_cons hs nodeCount_pos, hL t List.mem_cons_self, List.flatMap_cons, walkLeaves_append]
      generalize walkLeaves o f (walkOrder t) st = r
      obtain ⟨ok, eb, s'⟩ := r
      cases ok with
      | true => exact ih (fun t ht => hL t (List.mem_cons_of_mem _ ht)) (eb, s')
      | false => rfl
  -- an inner node pushes its branches and goes on
  have hinner : ∀ t : SHAMapAbstractNode, t.isInner = true →
      (∀ i st, Worklist.run (walkStep o f) nodeCount [t.getChild i] st =
        .ok (walkLeaves o f (walkOrder (t.getChild i)) st)) →
      ∀ st, Worklist.run (walkStep o f) nodeCount [t] st =
        .ok (walkLeaves o f ((List.finRange 16).reverse.flatMap fun i => walkOrder (t.getChild i)) st) := by
    intro t ht hch st
    have hstep : walkStep o f t st = .ok (true, st, pushBranches t) := by
      cases t <;> first | rfl | cases ht
    rw [Worklist.run_singleton hs nodeCount_pos, hstep, ← flatMap_walkOrder_pushBranches]
    refine hlist _ (fun c hc => ?_) st
    obtain ⟨i, -, rfl⟩ : ∃ i, _ ∧ t.getChild i = c := by
      simpa [pushBranches] using hc
    exact hch i
  intro t
  induction t with
  | empty => intro st; rfl
  | leaf it ty =>
    intro st
    rw [Worklist.run_singleton hs nodeCount_pos]
    simp only [walkStep, walkOrder, walkLeaves]
    generalize walkLeaf o f it st.1 st.2 = r
    obtain ⟨ok, eb, s'⟩ := r
    cases ok <;> rfl
  | inner ch ih => exact hinner (.inner ch) rfl ih
  | innerV2 d c ch ih => exact hinner (.innerV2 d c ch) rfl ih

/-- `walkBranch` meets the items below its node in `walkOrder`, and then checks the other item. -/
theorem walkBranch_eq (t : SHAMapAbstractNode) (o : Option SHAMapItem) (f : Bool) (s : DeltaState) :
    walkBranch t o f s = .ok (walkEnd o f (walkLeaves o f (walkOrder t) (o.isNone, s))) := by
  rw [walkBranch, run_walkStep]
  rfl

/-- The difference of an item the other side does not have. -/
def unmatched (isFirstMap : Bool) (it : SHAMapItem) : UInt256 × DeltaItem :=
  (it.tag, deltaRef isFirstMap (some it) none)

/-- The differences `walkBranch` records at an item against the other side's item. -/
def walkEntry (other : SHAMapItem) (isFirstMap : Bool) (it : SHAMapItem) : List (UInt256 × DeltaItem) :=
  if it.tag ≠ other.tag then [unmatched isFirstMap it]
  else if it.data ≠ other.data then [(it.tag, deltaRef isFirstMap (some it) (some other))]
  else []

/-- The differences `walkBranch` records for the items it meets, in order: each item against the
other side's, and then the other item if none had its key. -/
def walkEntries (otherMapItem : Option SHAMapItem) (isFirstMap : Bool) (its : List SHAMapItem) :
    List (UInt256 × DeltaItem) :=
  match otherMapItem with
  | none => its.map (unmatched isFirstMap)
  | some other =>
    its.flatMap (walkEntry other isFirstMap) ++
      if other.tag ∈ its.map SHAMapItem.tag then [] else [(other.tag, deltaRef isFirstMap none (some other))]

/-- Once the other item is met, or with none, every item is unmatched. -/
theorem walkLeaves_of_unmatched {o : Option SHAMapItem} {f emptyBranch : Bool}
    (h : o = none ∨ emptyBranch = true) : ∀ (its : List SHAMapItem) (s : DeltaState),
      walkLeaves o f its (emptyBranch, s) =
        ((recordAll (its.map (unmatched f)) s).1, emptyBranch, (recordAll (its.map (unmatched f)) s).2)
  | [], s => rfl
  | it :: its, s => by
    have hleaf : walkLeaf o f it emptyBranch s =
        ((record it.tag (deltaRef f (some it) none) s).1, emptyBranch, (record it.tag (deltaRef f (some it) none) s).2) := by
      rcases h with rfl | rfl
      · rfl
      · cases o <;> rfl
    simp only [walkLeaves, hleaf, List.map_cons, recordAll, unmatched]
    split
    · exact walkLeaves_of_unmatched h its _
    · rfl

theorem recordAll_singleton (e : UInt256 × DeltaItem) (s : DeltaState) : recordAll [e] s = record e.1 e.2 s := by
  simp only [recordAll]
  generalize record e.1 e.2 s = r
  obtain ⟨ok, s'⟩ := r
  cases ok <;> rfl

/-- A walk that met the other item, or had none, ends where its loop did. -/
theorem walkEnd_of_unmatched {o : Option SHAMapItem} {f emptyBranch : Bool} (h : o = none ∨ emptyBranch = true)
    (ok : Bool) (s : DeltaState) : walkEnd o f (ok, emptyBranch, s) = (ok, s) := by
  rcases h with rfl | rfl <;> cases ok <;> first | rfl | cases o <;> rfl

theorem flatMap_walkEntry_of_ne {other : SHAMapItem} {f : Bool} :
    ∀ {its : List SHAMapItem}, (∀ x ∈ its, x.tag ≠ other.tag) → its.flatMap (walkEntry other f) = its.map (unmatched f)
  | [], _ => rfl
  | x :: its, h => by
    rw [List.flatMap_cons, List.map_cons, walkEntry, if_pos (h x List.mem_cons_self),
      flatMap_walkEntry_of_ne fun y hy => h y (List.mem_cons_of_mem _ hy)]
    rfl

theorem walkEntries_cons_of_ne {other it : SHAMapItem} {f : Bool} (its : List SHAMapItem)
    (h : it.tag ≠ other.tag) :
    walkEntries (some other) f (it :: its) = unmatched f it :: walkEntries (some other) f its := by
  simp [walkEntries, walkEntry, h, Ne.symm h]

theorem walkLeaf_other_key {other it : SHAMapItem} {f : Bool} (s : DeltaState) (h : it.tag ≠ other.tag) :
    walkLeaf (some other) f it false s = (let r := record it.tag (deltaRef f (some it) none) s; (r.1, false, r.2)) := by
  simp [walkLeaf, h]

theorem walkLeaf_same_key {other it : SHAMapItem} {f : Bool} (s : DeltaState) (h : it.tag = other.tag) :
    walkLeaf (some other) f it false s =
      if it.data ≠ other.data then
        (let r := record it.tag (deltaRef f (some it) (some other)) s; (r.1, true, r.2))
      else (true, true, s) := by
  simp [walkLeaf, h]

/-- **The walk against one item.** The items the walk meets have distinct keys, so the other item's
key is met at most once; before it the walk records each item as unmatched, at it the item if its
data differ, after it every item as unmatched, and at the end the other item if it was never met. -/
theorem walkEnd_walkLeaves_some (other : SHAMapItem) (f : Bool) : ∀ (its : List SHAMapItem) (s : DeltaState),
    (its.map SHAMapItem.tag).Nodup →
      walkEnd (some other) f (walkLeaves (some other) f its (false, s)) = recordAll (walkEntries (some other) f its) s
  | [], s, _ => by
    simp only [walkLeaves, walkEnd, walkEntries, List.flatMap_nil, List.map_nil, List.not_mem_nil,
      if_false, List.nil_append]
    exact (recordAll_singleton (other.tag, deltaRef f none (some other)) s).symm
  | it :: its, s, hnd => by
    rw [List.map_cons, List.nodup_cons] at hnd
    simp only [walkLeaves]
    by_cases htag : it.tag = other.tag
    · -- the item of the other's key: the rest have other keys, so they are unmatched
      have hne : ∀ x ∈ its, x.tag ≠ other.tag := fun x hx hx' =>
        hnd.1 (List.mem_map.mpr ⟨x, hx, hx'.trans htag.symm⟩)
      have hentries : walkEntries (some other) f (it :: its) = walkEntry other f it ++ its.map (unmatched f) := by
        simp [walkEntries, flatMap_walkEntry_of_ne hne, htag]
      rw [hentries, recordAll_append, walkLeaf_same_key s htag]
      by_cases hdata : it.data = other.data
      · have hentry : walkEntry other f it = [] := by simp [walkEntry, htag, hdata]
        simp only [hdata, ne_eq, not_true_eq_false, hentry, recordAll, ↓reduceIte]
        rw [walkLeaves_of_unmatched (Or.inr rfl), walkEnd_of_unmatched (Or.inr rfl)]
      · have hentry : walkEntry other f it = [(it.tag, deltaRef f (some it) (some other))] := by
          simp [walkEntry, htag, hdata]
        simp only [hdata, ne_eq, not_false_eq_true, if_true, hentry, recordAll_singleton]
        cases record it.tag (deltaRef f (some it) (some other)) s with
        | mk ok s' =>
          cases ok with
          | true =>
            simp only [↓reduceIte]
            rw [walkLeaves_of_unmatched (Or.inr rfl), walkEnd_of_unmatched (Or.inr rfl)]
          | false => rfl
    · -- an item of another key is unmatched, and the other item is still to be met
      rw [walkEntries_cons_of_ne its htag, walkLeaf_other_key s htag]
      simp only [recordAll, unmatched]
      by_cases hok : (record it.tag (deltaRef f (some it) none) s).1 = true
      · simp only [hok, ↓reduceIte]
        exact walkEnd_walkLeaves_some other f its _ hnd.2
      · rw [Bool.not_eq_true] at hok
        simp only [hok, Bool.false_eq_true, ↓reduceIte]
        exact Prod.ext hok.symm rfl

/-- **`walkBranch` records `walkEntries`.** Against one item the items met need distinct keys. -/
theorem walkBranch_eq_recordAll (t : SHAMapAbstractNode) (o : Option SHAMapItem) (f : Bool) (s : DeltaState)
    (hnd : o.isSome → ((walkOrder t).map SHAMapItem.tag).Nodup) :
    walkBranch t o f s = .ok (recordAll (walkEntries o f (walkOrder t)) s) := by
  rw [walkBranch_eq]
  cases o with
  | none =>
    rw [Option.isNone_none, walkLeaves_of_unmatched (Or.inl rfl), walkEnd_of_unmatched (Or.inl rfl)]
    rfl
  | some other =>
    rw [Option.isNone_some, walkEnd_walkLeaves_some other f _ s (hnd rfl)]

/-! ## Comparing two trees -/

/-- The differences `compare` records for two leaves. -/
def leafPairEntries (ours other : SHAMapItem) : List (UInt256 × DeltaItem) :=
  if ours.tag = other.tag then
    if ours.data ≠ other.data then [(ours.tag, (some ours, some other))] else []
  else [(ours.tag, (some ours, none)), (other.tag, (none, some other))]

theorem compareLeaves_eq (ours other : SHAMapItem) (s : DeltaState) :
    compareLeaves ours other s = recordAll (leafPairEntries ours other) s := by
  unfold compareLeaves leafPairEntries
  split_ifs
  · exact (recordAll_singleton (ours.tag, (some ours, some other)) s).symm
  · rfl
  · rw [recordAll.eq_2, recordAll_singleton]

/-- What `compare` records at branch `i` of two inner nodes as it goes through them: the walk of a
branch of different hashes that only one side has. -/
def branchWalk (ours other : SHAMapAbstractNode) (i : Fin 16) : List (UInt256 × DeltaItem) :=
  if (ours.getChild i).getNodeHash sha512Half ≠ (other.getChild i).getNodeHash sha512Half then
    if other.isEmptyBranch i then walkEntries none true (walkOrder (ours.getChild i))
    else if ours.isEmptyBranch i then walkEntries none false (walkOrder (other.getChild i))
    else []
  else []

/-- Whether `compare` pushes the pair of branches `i`: their hashes differ and both sides have one. -/
def branchPushed (ours other : SHAMapAbstractNode) (i : Fin 16) : Bool :=
  decide ((ours.getChild i).getNodeHash sha512Half ≠ (other.getChild i).getNodeHash sha512Half) &&
    !other.isEmptyBranch i && !ours.isEmptyBranch i

/-- The pairs `compare` pushes for two inner nodes, the last on top. -/
def pushedPairs (ours other : SHAMapAbstractNode) (is : List (Fin 16)) :
    List (SHAMapAbstractNode × SHAMapAbstractNode) :=
  ((is.filter (branchPushed sha512Half ours other)).map fun i => (ours.getChild i, other.getChild i)).reverse

/-- `compareBranches` goes on with the rest of the branches after a walk that went on. -/
theorem compareBranches_after_walk {ours other : SHAMapAbstractNode} {is : List (Fin 16)}
    {pushed : List (SHAMapAbstractNode × SHAMapAbstractNode)} (E : List (UInt256 × DeltaItem)) (s : DeltaState)
    (ih : ∀ s', ∃ pushed', compareBranches sha512Half ours other is s' pushed =
      .ok ((recordAll (is.flatMap (branchWalk sha512Half ours other)) s').1,
        (recordAll (is.flatMap (branchWalk sha512Half ours other)) s').2, pushed') ∧
      ((recordAll (is.flatMap (branchWalk sha512Half ours other)) s').1 = true →
        pushed' = pushedPairs sha512Half ours other is ++ pushed)) :
    ∃ pushed', (Except.ok (recordAll E s) >>= fun r =>
        if r.1 then compareBranches sha512Half ours other is r.2 pushed else .ok (false, r.2, pushed)) =
      .ok ((recordAll (E ++ is.flatMap (branchWalk sha512Half ours other)) s).1,
        (recordAll (E ++ is.flatMap (branchWalk sha512Half ours other)) s).2, pushed') ∧
      ((recordAll (E ++ is.flatMap (branchWalk sha512Half ours other)) s).1 = true →
        pushed' = pushedPairs sha512Half ours other is ++ pushed) := by
  rw [Except.ok_bind, recordAll_append]
  by_cases hok : (recordAll E s).1 = true
  · simp only [hok, ↓reduceIte]
    exact ih _
  · rw [Bool.not_eq_true] at hok
    simp only [hok, Bool.false_eq_true, ↓reduceIte]
    exact ⟨pushed, rfl, fun h => absurd h (by simp)⟩

/-- **The branches of two inner nodes.** `compareBranches` records the walks of the branches in
order, and pushes the pairs both sides have, the last on top. By induction on the branches. -/
theorem compareBranches_eq (ours other : SHAMapAbstractNode) :
    ∀ (is : List (Fin 16)) (s : DeltaState) (pushed : List (SHAMapAbstractNode × SHAMapAbstractNode)),
      ∃ pushed', compareBranches sha512Half ours other is s pushed =
        .ok ((recordAll (is.flatMap (branchWalk sha512Half ours other)) s).1,
          (recordAll (is.flatMap (branchWalk sha512Half ours other)) s).2, pushed') ∧
        ((recordAll (is.flatMap (branchWalk sha512Half ours other)) s).1 = true →
          pushed' = pushedPairs sha512Half ours other is ++ pushed)
  | [], s, pushed => ⟨pushed, rfl, fun _ => rfl⟩
  | i :: is, s, pushed => by
    rw [List.flatMap_cons]
    have hpairs : ∀ b : Bool, branchPushed sha512Half ours other i = b →
        pushedPairs sha512Half ours other (i :: is) =
          pushedPairs sha512Half ours other is ++ if b then [(ours.getChild i, other.getChild i)] else [] := by
      intro b hb
      cases b <;> simp [pushedPairs, hb]
    by_cases hh : (ours.getChild i).getNodeHash sha512Half ≠ (other.getChild i).getNodeHash sha512Half
    · by_cases ho : other.isEmptyBranch i = true
      · -- our branch alone: walked
        have hw : branchWalk sha512Half ours other i = walkEntries none true (walkOrder (ours.getChild i)) := by
          simp [branchWalk, hh, ho]
        rw [hpairs false (by simp [branchPushed, ho]), hw]
        simp only [compareBranches, hh, ho, ne_eq, not_false_eq_true, ↓reduceIte,
          walkBranch_eq_recordAll _ none true s (by simp), Bool.false_eq_true, List.append_nil]
        exact compareBranches_after_walk sha512Half _ s fun s' => compareBranches_eq ours other is s' pushed
      · by_cases hu : ours.isEmptyBranch i = true
        · -- the other's branch alone: walked
          have hw : branchWalk sha512Half ours other i = walkEntries none false (walkOrder (other.getChild i)) := by
            simp [branchWalk, hh, ho, hu]
          rw [hpairs false (by simp [branchPushed, hu]), hw]
          simp only [compareBranches, hh, ho, hu, ne_eq, not_false_eq_true, ↓reduceIte, Bool.false_eq_true,
            walkBranch_eq_recordAll _ none false s (by simp), List.append_nil]
          exact compareBranches_after_walk sha512Half _ s fun s' => compareBranches_eq ours other is s' pushed
        · -- both sides have the branch: the pair is pushed
          have hw : branchWalk sha512Half ours other i = [] := by simp [branchWalk, hh, ho, hu]
          rw [hpairs true (by simp [branchPushed, hh, ho, hu]), hw, List.nil_append]
          simp only [compareBranches, hh, ho, hu, ne_eq, not_false_eq_true, ↓reduceIte, Bool.false_eq_true]
          obtain ⟨p', hp', hp''⟩ := compareBranches_eq ours other is s ((ours.getChild i, other.getChild i) :: pushed)
          exact ⟨p', hp', fun h => by rw [hp'' h]; simp⟩
    · -- branches of one hash are skipped
      have hw : branchWalk sha512Half ours other i = [] := by simp [branchWalk, hh]
      rw [hpairs false (by simp [branchPushed, hh]), hw, List.nil_append]
      simp only [compareBranches, hh, ↓reduceIte, Bool.false_eq_true, List.append_nil]
      exact compareBranches_eq ours other is s pushed

/-- What `compare` records at a leaf of ours against the other side's node. -/
def leafEntries (ours : SHAMapItem) (other : SHAMapAbstractNode) : List (UInt256 × DeltaItem) :=
  match other with
  | .empty => []
  | .leaf it _ => leafPairEntries ours it
  | other => walkEntries (some ours) false (walkOrder other)

/-- What `compare` records at an inner node of ours against the other side's node, given what it
records at each pair of branches it pushes. -/
def innerEntries (ours other : SHAMapAbstractNode) (sub : Fin 16 → List (UInt256 × DeltaItem)) :
    List (UInt256 × DeltaItem) :=
  match other with
  | .empty => []
  | .leaf it _ => walkEntries (some it) true (walkOrder ours)
  | other =>
    (List.finRange 16).flatMap (branchWalk sha512Half ours other) ++
      ((List.finRange 16).filter (branchPushed sha512Half ours other)).reverse.flatMap sub

/-- **What `compare` records at a pair of nodes**, as a recursion: the loop's stack handles a pair
with all it pushes before the pairs below it. -/
def cmpEntries : SHAMapAbstractNode → SHAMapAbstractNode → List (UInt256 × DeltaItem)
  | .empty, _ => []
  | .leaf ours _, other => leafEntries ours other
  | .inner ch, other => innerEntries sha512Half (.inner ch) other fun i => cmpEntries (ch i) (other.getChild i)
  | .innerV2 d c ch, other =>
    innerEntries sha512Half (.innerV2 d c ch) other fun i => cmpEntries (ch i) (other.getChild i)

/-- The items a walk meets are the items below the node. -/
theorem walkOrder_perm : ∀ t : SHAMapAbstractNode, (walkOrder t).Perm (t.leaves.map Prod.fst)
  | .empty => by simp [walkOrder]
  | .leaf it ty => by simp [walkOrder]
  | .inner ch => by
    have hch := fun i => walkOrder_perm (ch i)
    calc walkOrder (.inner ch) = (List.finRange 16).reverse.flatMap fun i => walkOrder (ch i) := rfl
      List.Perm _ ((List.finRange 16).flatMap fun i => walkOrder (ch i)) := (List.reverse_perm _).flatMap_right _
      List.Perm _ ((List.finRange 16).flatMap fun i => (ch i).leaves.map Prod.fst) :=
        List.Perm.flatMap_left _ fun i _ => hch i
      _ = (SHAMapAbstractNode.inner ch).leaves.map Prod.fst := by simp [leaves, List.map_flatMap]
  | .innerV2 d c ch => by
    have hch := fun i => walkOrder_perm (ch i)
    calc walkOrder (.innerV2 d c ch) = (List.finRange 16).reverse.flatMap fun i => walkOrder (ch i) := rfl
      List.Perm _ ((List.finRange 16).flatMap fun i => walkOrder (ch i)) := (List.reverse_perm _).flatMap_right _
      List.Perm _ ((List.finRange 16).flatMap fun i => (ch i).leaves.map Prod.fst) :=
        List.Perm.flatMap_left _ fun i _ => hch i
      _ = (SHAMapAbstractNode.innerV2 d c ch).leaves.map Prod.fst := by simp [leaves, List.map_flatMap]

theorem nodup_walkOrder {t : SHAMapAbstractNode} (h : t.keys.Nodup) : ((walkOrder t).map SHAMapItem.tag).Nodup :=
  ((walkOrder_perm t).map _).nodup_iff.mpr (by simpa [keys, List.map_map, Function.comp_def] using h)

theorem keys_getChild_sublist (t : SHAMapAbstractNode) (i : Fin 16) : (t.getChild i).keys.Sublist t.keys := by
  have hsub : ∀ ch : Fin 16 → SHAMapAbstractNode,
      (ch i).keys.Sublist (((List.finRange 16).flatMap fun j => (ch j).leaves).map fun x => x.1.tag) := by
    intro ch
    rw [List.map_flatMap, List.flatMap_def]
    exact List.sublist_flatten_of_mem (List.mem_map_of_mem (List.mem_finRange i))
  cases t with
  | inner ch => exact hsub ch
  | innerV2 d c ch => exact hsub ch
  | empty => simp [getChild, keys]
  | leaf it ty => simp [getChild, keys]

theorem Nodup.getChild {t : SHAMapAbstractNode} (h : t.keys.Nodup) (i : Fin 16) : (t.getChild i).keys.Nodup :=
  h.sublist (keys_getChild_sublist t i)

theorem compareBranches_pushed {ours other : SHAMapAbstractNode} {s s' : DeltaState}
    {pushed : List (SHAMapAbstractNode × SHAMapAbstractNode)}
    (h : compareBranches sha512Half ours other (List.finRange 16) s [] = .ok (true, s', pushed)) :
    pushed = pushedPairs sha512Half ours other (List.finRange 16) := by
  obtain ⟨p', hp, hp'⟩ := compareBranches_eq sha512Half ours other (List.finRange 16) s []
  rw [hp] at h
  simp only [Except.ok.injEq, Prod.mk.injEq] at h
  rw [← h.2.2, hp' h.1, List.append_nil]

/-- A pass of `compare` that goes on pushes nothing, or the pairs of two inner nodes. -/
theorem compareStep_pushed {a b : SHAMapAbstractNode} {s s' : DeltaState}
    {pushed : List (SHAMapAbstractNode × SHAMapAbstractNode)}
    (h : compareStep sha512Half (a, b) s = .ok (true, s', pushed)) :
    pushed = [] ∨ pushed = pushedPairs sha512Half a b (List.finRange 16) := by
  cases a <;> cases b <;> simp only [compareStep, reduceCtorEq] at h
  all_goals first
    | (left; simp [walkBranch_eq, Except.map] at h; obtain ⟨-, -, rfl⟩ := h; rfl)
    | exact Or.inr (compareBranches_pushed sha512Half h)

/-- Only an inner node has branches to push. -/
theorem branchPushed_of_isInner_eq_false {a : SHAMapAbstractNode} (ha : a.isInner = false)
    (b : SHAMapAbstractNode) (i : Fin 16) : branchPushed sha512Half a b i = false := by
  cases a <;> simp_all [branchPushed, isEmptyBranch, getChild, isEmpty, isInner]

/-- The pairs `compare` pushes count less than our node. -/
theorem sum_pairCount_pushedPairs (a b : SHAMapAbstractNode) :
    ((pushedPairs sha512Half a b (List.finRange 16)).map pairCount).sum < nodeCount a := by
  have hsum : ∀ ch : Fin 16 → SHAMapAbstractNode, (∀ i, a.getChild i = ch i) →
      ((pushedPairs sha512Half a b (List.finRange 16)).map pairCount).sum =
        (((List.finRange 16).filter (branchPushed sha512Half a b)).map fun i => nodeCount (ch i)).sum := by
    intro ch hch
    simp [pushedPairs, pairCount, List.map_reverse, List.sum_reverse, List.map_map, Function.comp_def, hch]
  cases ha : a.isInner with
  | false =>
    have hnil : (List.finRange 16).filter (branchPushed sha512Half a b) = [] :=
      List.filter_eq_nil_iff.mpr fun i _ => by rw [branchPushed_of_isInner_eq_false sha512Half ha]; simp
    simpa [pushedPairs, hnil] using nodeCount_pos a
  | true =>
    cases a with
    | inner ch =>
      rw [hsum ch fun i => rfl]
      exact sum_nodeCount_filter_lt ch _
    | innerV2 d c ch =>
      rw [hsum ch fun i => rfl]
      exact sum_nodeCount_filter_lt ch _
    | empty | leaf => cases ha

theorem compareStep_shrinks : Worklist.Shrinks (compareStep sha512Half) pairCount := by
  rintro ⟨a, b⟩ s s' pushed h
  rcases compareStep_pushed sha512Half h with rfl | rfl
  · exact nodeCount_pos a
  · exact sum_pairCount_pushedPairs sha512Half a b

theorem pairCount_pos (p : SHAMapAbstractNode × SHAMapAbstractNode) : 0 < pairCount p := nodeCount_pos p.1

/-- A pass that records a list of differences and pushes nothing runs as that list. -/
theorem run_of_compareStep_nil {p : SHAMapAbstractNode × SHAMapAbstractNode} {s : DeltaState}
    {E : List (UInt256 × DeltaItem)}
    (h : compareStep sha512Half p s = .ok ((recordAll E s).1, (recordAll E s).2, [])) :
    Worklist.run (compareStep sha512Half) pairCount [p] s = .ok (recordAll E s) := by
  rw [Worklist.run_singleton (compareStep_shrinks sha512Half) pairCount_pos, h, Except.ok_bind]
  by_cases hok : (recordAll E s).1 = true
  · simp only [hok, ↓reduceIte]
    exact congrArg Except.ok (Prod.ext hok.symm rfl)
  · rw [Bool.not_eq_true] at hok
    simp only [hok, Bool.false_eq_true, ↓reduceIte]
    exact congrArg Except.ok (Prod.ext hok.symm rfl)

/-- A stack of pairs, each of which records its differences, records them one pair after another. -/
theorem run_pairs : ∀ (L : List (SHAMapAbstractNode × SHAMapAbstractNode)),
    (∀ p ∈ L, ∀ s, Worklist.run (compareStep sha512Half) pairCount [p] s = .ok (recordAll (cmpEntries sha512Half p.1 p.2) s)) →
    ∀ s, Worklist.run (compareStep sha512Half) pairCount L s =
      .ok (recordAll (L.flatMap fun p => cmpEntries sha512Half p.1 p.2) s)
  | [], _, s => rfl
  | p :: L, hL, s => by
    rw [Worklist.run_cons (compareStep_shrinks sha512Half) pairCount_pos, hL p List.mem_cons_self,
      List.flatMap_cons, recordAll_append]
    by_cases hok : (recordAll (cmpEntries sha512Half p.1 p.2) s).1 = true
    · simp only [Worklist.andThen, Except.ok_bind, hok, ↓reduceIte]
      exact run_pairs L (fun q hq => hL q (List.mem_cons_of_mem _ hq)) _
    · rw [Bool.not_eq_true] at hok
      simp only [Worklist.andThen, Except.ok_bind, hok, Bool.false_eq_true, ↓reduceIte]
      rfl

/-- Two inner nodes: `compare` records the walks of their branches, then the pairs it pushed. -/
theorem run_inner {a b : SHAMapAbstractNode} (ha : a.isInner = true) (hb : b.isInner = true)
    (hch : ∀ i, branchPushed sha512Half a b i = true → ∀ s,
      Worklist.run (compareStep sha512Half) pairCount [(a.getChild i, b.getChild i)] s =
        .ok (recordAll (cmpEntries sha512Half (a.getChild i) (b.getChild i)) s)) (s : DeltaState) :
    Worklist.run (compareStep sha512Half) pairCount [(a, b)] s =
      .ok (recordAll ((List.finRange 16).flatMap (branchWalk sha512Half a b) ++
        ((List.finRange 16).filter (branchPushed sha512Half a b)).reverse.flatMap
          fun i => cmpEntries sha512Half (a.getChild i) (b.getChild i)) s) := by
  have hstep : compareStep sha512Half (a, b) s = compareBranches sha512Half a b (List.finRange 16) s [] := by
    cases a <;> cases b <;> simp_all [isInner, compareStep]
  obtain ⟨p', hp, hp'⟩ := compareBranches_eq sha512Half a b (List.finRange 16) s []
  rw [Worklist.run_singleton (compareStep_shrinks sha512Half) pairCount_pos, hstep, hp, Except.ok_bind,
    recordAll_append]
  by_cases hok : (recordAll ((List.finRange 16).flatMap (branchWalk sha512Half a b)) s).1 = true
  · simp only [hok, ↓reduceIte]
    rw [hp' hok, List.append_nil, run_pairs sha512Half _ ?_]
    · rw [pushedPairs, ← List.map_reverse, List.flatMap_map]
    · intro q hq
      obtain ⟨i, hi, rfl⟩ : ∃ i, branchPushed sha512Half a b i = true ∧ (a.getChild i, b.getChild i) = q := by
        simpa [pushedPairs] using hq
      exact hch i hi
  · rw [Bool.not_eq_true] at hok
    simp only [hok, Bool.false_eq_true, ↓reduceIte]
    exact congrArg Except.ok (Prod.ext hok.symm rfl)

/-- An inner node of ours against the other side's node, given the recursion for its branches. -/
theorem run_inner_node {a : SHAMapAbstractNode} (ha : a.isInner = true) (hna : a.keys.Nodup)
    (ih : ∀ i b, a.getChild i ≠ .empty → b ≠ .empty → (a.getChild i).keys.Nodup → b.keys.Nodup → ∀ s,
      Worklist.run (compareStep sha512Half) pairCount [(a.getChild i, b)] s =
        .ok (recordAll (cmpEntries sha512Half (a.getChild i) b) s))
    {b : SHAMapAbstractNode} (hb : b ≠ .empty) (hnb : b.keys.Nodup) (s : DeltaState) :
    Worklist.run (compareStep sha512Half) pairCount [(a, b)] s =
      .ok (recordAll (innerEntries sha512Half a b fun i => cmpEntries sha512Half (a.getChild i) (b.getChild i)) s) := by
  -- a pushed pair has a node on both sides
  have hch : ∀ i, branchPushed sha512Half a b i = true → ∀ s,
      Worklist.run (compareStep sha512Half) pairCount [(a.getChild i, b.getChild i)] s =
        .ok (recordAll (cmpEntries sha512Half (a.getChild i) (b.getChild i)) s) := by
    intro i hi
    simp only [branchPushed, Bool.and_eq_true, Bool.not_eq_true', isEmptyBranch, isEmpty_eq_false_iff] at hi
    exact ih i (b.getChild i) hi.2 hi.1.2 (Nodup.getChild hna i) (Nodup.getChild hnb i)
  cases b with
  | empty => exact absurd rfl hb
  | leaf y ty =>
    have hstep : compareStep sha512Half (a, .leaf y ty) s = (walkBranch a (some y) true s).map fun r => (r.1, r.2, []) := by
      cases a <;> simp_all [isInner, compareStep]
    refine run_of_compareStep_nil sha512Half ?_
    rw [hstep, walkBranch_eq_recordAll _ _ _ s fun _ => nodup_walkOrder hna]
    rfl
  | inner chb => exact run_inner sha512Half ha rfl hch s
  | innerV2 d c chb => exact run_inner sha512Half ha rfl hch s

/-- **The loop of `compare` is a recursion.** On a pair of nodes that are not null, with distinct
keys below each, the loop records `cmpEntries`. By induction on our node: a leaf against a leaf
records its pair, a leaf against an inner node is a walk, and two inner nodes record their walks and
then run the pairs they pushed (`run_inner`). -/
theorem compare_run : ∀ (a b : SHAMapAbstractNode), a ≠ .empty → b ≠ .empty → a.keys.Nodup → b.keys.Nodup →
    ∀ s, Worklist.run (compareStep sha512Half) pairCount [(a, b)] s = .ok (recordAll (cmpEntries sha512Half a b) s) := by
  intro a
  induction a with
  | empty => intro b ha; exact absurd rfl ha
  | leaf x ty =>
    intro b _ hb _ hnb s
    cases b with
    | empty => exact absurd rfl hb
    | leaf y ty' =>
      refine run_of_compareStep_nil sha512Half ?_
      simp only [compareStep, compareLeaves_eq]
      rfl
    | inner chb =>
      refine run_of_compareStep_nil sha512Half ?_
      simp only [compareStep, walkBranch_eq_recordAll _ _ _ s fun _ => nodup_walkOrder hnb]
      rfl
    | innerV2 d c chb =>
      refine run_of_compareStep_nil sha512Half ?_
      simp only [compareStep, walkBranch_eq_recordAll _ _ _ s fun _ => nodup_walkOrder hnb]
      rfl
  | inner ch ih =>
    intro b _ hb hna hnb s
    exact run_inner_node sha512Half rfl hna ih hb hnb s
  | innerV2 d c ch ih =>
    intro b _ hb hna hnb s
    exact run_inner_node sha512Half rfl hna ih hb hnb s

end SHAMap

end Ripple
