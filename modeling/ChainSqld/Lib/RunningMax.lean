import Mathlib.Order.BoundedOrder.Lattice
import Mathlib.Data.List.Basic

/-!
# The last entry of greatest weight

A scan over weighted entries that keeps an entry whenever its weight reaches the threshold, and
raises the threshold to that weight, ends on the last entry of greatest weight if that weight
reaches the initial threshold, and keeps nothing otherwise. A flag raised whenever a kept weight
also reaches a second bar says, at the end, whether the greatest weight reaches both.

* `scanned_foldl`: what a scan has done after any prefix (`Scanned`);
* `foldl_step_of_lt`, `foldl_step_of_le`: the two outcomes of a whole scan;
* `maxCount`, `latestWith`: the largest number of times an element occurs in a list, and the
  greatest element occurring a given number of times (`count_le_maxCount`,
  `exists_count_eq_maxCount`, `latestWith_spec`);
* `foldl_step_counts`: a scan over a table of counts sorted by key ends on the latest element of
  the greatest count.
-/

set_option autoImplicit false

namespace RunningMax

/-- The state of a scan: the entry kept, the threshold, and the flag. -/
structure Scan (α β : Type) where
  kept : α
  thresh : β
  reached : Bool
deriving DecidableEq

section Scanning

variable {α β : Type} [LinearOrder β] (bar : β)

/-- One entry: kept, its weight the new threshold, when the weight reaches the threshold; the flag
goes up when the weight also reaches `bar`. -/
def step (s : Scan α β) (e : α × β) : Scan α β :=
  if s.thresh ≤ e.2 then ⟨e.1, e.2, s.reached || decide (bar ≤ e.2)⟩ else s

/-- What a scan from `s₀` has done after the entries `p`: every weight is at most the threshold,
which is at least the initial one; and either no weight reached the initial threshold and the
state is the initial one, or the kept entry occurs in `p` with its weight as the threshold, every
entry after it is below, and the flag is up exactly when that weight reaches `bar` or it was up
from the start. -/
def Scanned (s₀ : Scan α β) (p : List (α × β)) (s : Scan α β) : Prop :=
  (∀ e ∈ p, e.2 ≤ s.thresh) ∧ s₀.thresh ≤ s.thresh ∧
    ((s = s₀ ∧ ∀ e ∈ p, e.2 < s₀.thresh) ∨
      ∃ pre post, p = pre ++ (s.kept, s.thresh) :: post ∧ (∀ e ∈ post, e.2 < s.thresh) ∧
        s.reached = (s₀.reached || decide (bar ≤ s.thresh)))

variable {bar}

theorem scanned_nil (s₀ : Scan α β) : Scanned bar s₀ [] s₀ :=
  ⟨fun _ h => absurd h List.not_mem_nil, le_rfl, Or.inl ⟨rfl, fun _ h => absurd h List.not_mem_nil⟩⟩

/-- One step keeps `Scanned`: a kept entry is the last, its weight the greatest so far; an entry
below the threshold joins the entries after the kept one. -/
theorem Scanned.step {s₀ s : Scan α β} {p : List (α × β)} (h : Scanned bar s₀ p s) (e : α × β) :
    Scanned bar s₀ (p ++ [e]) (step bar s e) := by
  obtain ⟨hle, h0, hcase⟩ := h
  unfold RunningMax.step
  split
  · rename_i hke
    refine ⟨fun x hx => ?_, h0.trans hke, Or.inr ⟨p, [], by simp, fun _ h => absurd h List.not_mem_nil, ?_⟩⟩
    · rcases List.mem_append.mp hx with hx | hx
      · exact (hle x hx).trans hke
      · rw [List.mem_singleton.mp hx]
    · rcases hcase with ⟨rfl, -⟩ | ⟨-, -, -, -, hr⟩
      · rfl
      · -- a weight kept before that reached `bar` is below this one
        simp only [hr]
        by_cases hb : bar ≤ s.thresh
        · simp [hb, hb.trans hke]
        · simp [hb]
  · rename_i hke
    have hlt : e.2 < s.thresh := lt_of_not_ge hke
    have hnew : ∀ x ∈ [e], x.2 < s.thresh := fun x hx => List.mem_singleton.mp hx ▸ hlt
    refine ⟨fun x hx => ?_, h0, ?_⟩
    · rcases List.mem_append.mp hx with hx | hx
      · exact hle x hx
      · exact (hnew x hx).le
    · rcases hcase with ⟨rfl, hall⟩ | ⟨pre, post, hp, hpost, hr⟩
      · refine Or.inl ⟨rfl, fun x hx => ?_⟩
        rcases List.mem_append.mp hx with hx | hx
        · exact hall x hx
        · exact hnew x hx
      · refine Or.inr ⟨pre, post ++ [e], by rw [hp]; simp, fun x hx => ?_, hr⟩
        rcases List.mem_append.mp hx with hx | hx
        · exact hpost x hx
        · exact hnew x hx

/-- The scan continued over more entries, by induction on them. -/
theorem Scanned.foldl {s₀ s : Scan α β} {p : List (α × β)} (h : Scanned bar s₀ p s) :
    ∀ l : List (α × β), Scanned bar s₀ (p ++ l) (l.foldl (RunningMax.step bar) s)
  | [] => by simpa using h
  | e :: l => by
    have hl := (h.step e).foldl l
    rwa [List.append_assoc, List.singleton_append] at hl

/-- **A whole scan.** -/
theorem scanned_foldl (s₀ : Scan α β) (l : List (α × β)) : Scanned bar s₀ l (l.foldl (step bar) s₀) :=
  (scanned_nil s₀).foldl l

/-- No weight reaches the threshold: the scan keeps nothing. -/
theorem foldl_step_of_lt {s₀ : Scan α β} {l : List (α × β)} (h : ∀ e ∈ l, e.2 < s₀.thresh) :
    l.foldl (step bar) s₀ = s₀ := by
  obtain ⟨-, h0, hcase⟩ := @scanned_foldl _ _ _ bar s₀ l
  rcases hcase with ⟨heq, -⟩ | ⟨pre, post, hp, -, -⟩
  · exact heq
  · -- the kept entry would be an entry reaching the initial threshold
    have hmem := List.mem_append_right pre
      (List.mem_cons_self (a := ((l.foldl (step bar) s₀).kept, (l.foldl (step bar) s₀).thresh)) (l := post))
    rw [← hp] at hmem
    exact absurd h0 (not_le.mpr (h _ hmem))

/-- **Some weight reaches the threshold**: the scan ends on an entry whose weight is the greatest
and after which every weight is smaller, the flag up exactly when that weight reaches `bar`. -/
theorem foldl_step_of_le {s₀ : Scan α β} {l : List (α × β)} {e : α × β} (he : e ∈ l) (h : s₀.thresh ≤ e.2) :
    ∃ pre post, l = pre ++ ((l.foldl (step bar) s₀).kept, (l.foldl (step bar) s₀).thresh) :: post ∧
      (∀ x ∈ l, x.2 ≤ (l.foldl (step bar) s₀).thresh) ∧ (∀ x ∈ post, x.2 < (l.foldl (step bar) s₀).thresh) ∧
      (l.foldl (step bar) s₀).reached = (s₀.reached || decide (bar ≤ (l.foldl (step bar) s₀).thresh)) := by
  obtain ⟨hle, -, hcase⟩ := @scanned_foldl _ _ _ bar s₀ l
  rcases hcase with ⟨-, hall⟩ | ⟨pre, post, hp, hpost, hr⟩
  · exact absurd h (not_le.mpr (hall e he))
  · exact ⟨pre, post, hp, hle, hpost, hr⟩

end Scanning

/-! ## The most frequent elements of a list -/

section Frequency

variable {α : Type} [LinearOrder α]

/-- The largest number of times an element occurs in `V`, zero for the empty list. -/
def maxCount (V : List α) : Nat := V.foldr (fun t m => max (V.count t) m) 0

/-- The fold of `maxCount` over a part `W` of the list bounds the counts of `W` and, for `W`
non-empty, is one of them. -/
theorem foldr_max_count (V : List α) : ∀ W : List α,
    (∀ t ∈ W, V.count t ≤ W.foldr (fun t m => max (V.count t) m) 0) ∧
      (W ≠ [] → ∃ t ∈ W, V.count t = W.foldr (fun t m => max (V.count t) m) 0)
  | [] => ⟨fun _ h => absurd h List.not_mem_nil, fun h => absurd rfl h⟩
  | t :: W => by
    obtain ⟨hle, hex⟩ := foldr_max_count V W
    simp only [List.foldr_cons]
    refine ⟨fun x hx => ?_, fun _ => ?_⟩
    · rcases List.mem_cons.mp hx with rfl | hx
      · exact le_max_left _ _
      · exact (hle x hx).trans (le_max_right _ _)
    · rcases le_total (W.foldr (fun t m => max (V.count t) m) 0) (V.count t) with hlt | hlt
      · exact ⟨t, List.mem_cons_self, (max_eq_left hlt).symm⟩
      · -- the rest holds a count at least as large as that of `t`
        by_cases hW : W = []
        · subst hW
          exact ⟨t, List.mem_cons_self, by simp⟩
        · obtain ⟨x, hx, hxc⟩ := hex hW
          exact ⟨x, List.mem_cons_of_mem t hx, by rw [max_eq_right hlt, hxc]⟩

theorem count_le_maxCount {V : List α} {t : α} (ht : t ∈ V) : V.count t ≤ maxCount V :=
  (foldr_max_count V V).1 t ht

theorem exists_count_eq_maxCount {V : List α} (hV : V ≠ []) : ∃ t ∈ V, V.count t = maxCount V :=
  (foldr_max_count V V).2 hV

/-- In a list sorted by key, an entry with a key above that of `x` comes after `x`. -/
theorem mem_post_of_lt {β : Type} {l pre post : List (α × β)} (hl : l.Pairwise fun a b => a.1 < b.1)
    {x y : α × β} (hp : l = pre ++ x :: post) (hy : y ∈ l) (hxy : x.1 < y.1) : y ∈ post := by
  rw [hp] at hl hy
  obtain ⟨-, -, hpre⟩ := List.pairwise_append.mp hl
  rcases List.mem_append.mp hy with hy | hy
  · exact absurd (hpre y hy x List.mem_cons_self) (not_lt.mpr hxy.le)
  · rcases List.mem_cons.mp hy with rfl | hy
    · exact absurd hxy (lt_irrefl _)
    · exact hy

variable [OrderBot α]

/-- The greatest element of `V` occurring `n` times, `⊥` when there is none. -/
def latestWith (V : List α) (n : Nat) : α := V.foldr (fun t acc => if V.count t = n then max t acc else acc) ⊥

/-- Where no element of `W` occurs `n` times the fold of `latestWith` over `W` is `⊥`. -/
theorem foldr_latestWith_of_none (V : List α) (n : Nat) :
    ∀ W : List α, (∀ t ∈ W, V.count t ≠ n) →
      W.foldr (fun t acc => if V.count t = n then max t acc else acc) ⊥ = ⊥
  | [] => fun _ => rfl
  | t :: W => fun h => by
    rw [List.foldr_cons, if_neg (h t List.mem_cons_self),
      foldr_latestWith_of_none V n W fun x hx => h x (List.mem_cons_of_mem t hx)]

/-- The fold of `latestWith` over a part `W` of the list is at least every element of `W` occurring
`n` times in `V`, and is one of them when there is one. -/
theorem foldr_latestWith (V : List α) (n : Nat) : ∀ W : List α,
    (∀ t ∈ W, V.count t = n → t ≤ W.foldr (fun t acc => if V.count t = n then max t acc else acc) ⊥) ∧
      ((∃ t ∈ W, V.count t = n) →
        W.foldr (fun t acc => if V.count t = n then max t acc else acc) ⊥ ∈ W ∧
          V.count (W.foldr (fun t acc => if V.count t = n then max t acc else acc) ⊥) = n)
  | [] => ⟨fun _ h => absurd h List.not_mem_nil, fun ⟨_, h, _⟩ => absurd h List.not_mem_nil⟩
  | t :: W => by
    obtain ⟨hle, hex⟩ := foldr_latestWith V n W
    simp only [List.foldr_cons]
    by_cases ht : V.count t = n
    · rw [if_pos ht]
      refine ⟨fun x hx hxn => ?_, fun _ => ?_⟩
      · rcases List.mem_cons.mp hx with rfl | hx
        · exact le_max_left _ _
        · exact (hle x hx hxn).trans (le_max_right _ _)
      · -- the greater of `t` and the rest's answer, which is `⊥` or occurs `n` times
        rcases le_total (W.foldr (fun t acc => if V.count t = n then max t acc else acc) ⊥) t with hlt | hlt
        · rw [max_eq_left hlt]
          exact ⟨List.mem_cons_self, ht⟩
        · rw [max_eq_right hlt]
          by_cases hW : ∃ x ∈ W, V.count x = n
          · exact ⟨List.mem_cons_of_mem t (hex hW).1, (hex hW).2⟩
          · -- no element of the rest qualifies, so its answer is `⊥`, and `t` is `⊥` too
            have hbot := foldr_latestWith_of_none V n W fun x hx hxn => hW ⟨x, hx, hxn⟩
            have htb : t = ⊥ := le_bot_iff.mp (hbot ▸ hlt)
            rw [hbot, ← htb]
            exact ⟨List.mem_cons_self, ht⟩
    · rw [if_neg ht]
      refine ⟨fun x hx hxn => ?_, fun ⟨x, hx, hxn⟩ => ?_⟩
      · rcases List.mem_cons.mp hx with rfl | hx
        · exact absurd hxn ht
        · exact hle x hx hxn
      · rcases List.mem_cons.mp hx with rfl | hx
        · exact absurd hxn ht
        · exact ⟨List.mem_cons_of_mem t (hex ⟨x, hx, hxn⟩).1, (hex ⟨x, hx, hxn⟩).2⟩

/-- **The greatest element occurring `n` times**: when some element of `V` occurs `n` times,
`latestWith V n` is one, and every other is below it. -/
theorem latestWith_spec {V : List α} {n : Nat} (h : ∃ t ∈ V, V.count t = n) :
    latestWith V n ∈ V ∧ V.count (latestWith V n) = n ∧ ∀ t ∈ V, V.count t = n → t ≤ latestWith V n :=
  ⟨((foldr_latestWith V n V).2 h).1, ((foldr_latestWith V n V).2 h).2, (foldr_latestWith V n V).1⟩

/-! ## Scanning a table of counts -/

/-- **The scan of a table of counts.** Over a table that lists, in increasing order of key, each
element of `V` with its count, a scan from threshold `τ` ends on the latest element of the greatest
count `M` when `M` reaches `τ`, and keeps `⊥` otherwise; the flag is up exactly when `M` reaches
both `τ` and `bar`. -/
theorem foldl_step_counts {V : List α} (hV : V ≠ []) {l : List (α × Int)} (hl : l.Pairwise fun a b => a.1 < b.1)
    (hmem : ∀ e, e ∈ l ↔ e.1 ∈ V ∧ e.2 = V.count e.1) (τ bar : Int) :
    (l.foldl (step bar) ⟨⊥, τ, false⟩).kept = (if τ ≤ maxCount V then latestWith V (maxCount V) else ⊥) ∧
      ((l.foldl (step bar) ⟨⊥, τ, false⟩).reached = true ↔ τ ≤ maxCount V ∧ bar ≤ maxCount V) := by
  obtain ⟨t₀, ht₀, hc₀⟩ := exists_count_eq_maxCount hV
  have he₀ : (t₀, (maxCount V : Int)) ∈ l := (hmem _).mpr ⟨ht₀, by rw [hc₀]⟩
  by_cases hτ : τ ≤ maxCount V
  · obtain ⟨pre, post, hp, hle, hpost, hr⟩ := @foldl_step_of_le α Int _ bar ⟨⊥, τ, false⟩ l _ he₀ hτ
    set s := l.foldl (step bar) ⟨⊥, τ, false⟩
    have hks : (s.kept, s.thresh) ∈ l := by
      rw [hp]
      exact List.mem_append_right pre List.mem_cons_self
    obtain ⟨hkV, hkc⟩ := (hmem _).mp hks
    simp only at hkV hkc
    -- the threshold ends at the greatest count, so the kept element has that count
    have hthresh : s.thresh = maxCount V :=
      le_antisymm (hkc ▸ Int.ofNat_le.mpr (count_le_maxCount hkV)) (hle _ he₀)
    have hkM : V.count s.kept = maxCount V := by
      rw [hthresh] at hkc
      exact_mod_cast hkc.symm
    -- an element of that count above the kept one would come after it, below the threshold
    have hlatest : ∀ t ∈ V, V.count t = maxCount V → t ≤ s.kept := by
      intro t ht htc
      by_contra hlt
      have htl : (t, (maxCount V : Int)) ∈ l := (hmem _).mpr ⟨ht, by rw [htc]⟩
      have htpost := mem_post_of_lt hl hp htl (lt_of_not_ge hlt)
      exact absurd (hpost _ htpost) (by rw [hthresh]; exact lt_irrefl _)
    obtain ⟨hLV, hLc, hLmax⟩ := latestWith_spec ⟨t₀, ht₀, hc₀⟩
    refine ⟨?_, ?_⟩
    · rw [if_pos hτ]
      exact le_antisymm (hLmax _ hkV hkM) (hlatest _ hLV hLc)
    · rw [hr, hthresh]
      simp [hτ]
  · -- no count reaches the threshold: the scan keeps its start
    have hall : ∀ e ∈ l, e.2 < τ := by
      intro e he
      obtain ⟨heV, hec⟩ := (hmem e).mp he
      rw [hec]
      exact lt_of_le_of_lt (Int.ofNat_le.mpr (count_le_maxCount heV)) (lt_of_not_ge hτ)
    rw [foldl_step_of_lt hall, if_neg hτ]
    simp [hτ]

end Frequency

end RunningMax
