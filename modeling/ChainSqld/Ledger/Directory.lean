import Mathlib.Data.List.Sort
import Mathlib.Logic.Function.Basic

/-!
# Directories

A directory (an account's owner directory, or one quality of an order book) is a chain of pages
in the ledger. Page `0` is the root, `keylet::page(directory, n)` names page `n`, and each page
holds up to `dirNodeMaxEntries` keys (`sfIndexes`) and the numbers of the next and the previous
page (`sfIndexNext`, `sfIndexPrevious`; an absent field reads as `0`).

The model is the directory's part of the view: the page the view holds under each number.
`ApplyView::dirAdd` and `ApplyView::dirRemove` peek a page, set its fields and update it. Two
names for one page (the root and the last page, or the previous and the next page) are one
object, so each change is made to the page as the view holds it at that moment (`modifyPage`).
A `LogicError` is an `error` carrying its text.
-/

set_option autoImplicit false

namespace Ripple

/-- `dirNodeMaxEntries`. -/
def dirNodeMaxEntries : Nat := 32

/-- `dirNodeMaxPages`. -/
def dirNodeMaxPages : Nat := 262144

/-- The root page's number. -/
def rootPage : Nat := 0

/-- The fields of a directory page that the directory code reads and writes. -/
structure DirPage (α : Type) where
  indexes : List α
  indexNext : Nat
  indexPrevious : Nat
deriving Repr, DecidableEq

/-- The pages of one directory, by page number. -/
abbrev Dir (α : Type) := Nat → Option (DirPage α)

namespace Dir

variable {α : Type}

/-- No page at all. -/
def empty : Dir α := fun _ => none

/-- `insert` or `update` of a page. -/
def setPage (d : Dir α) (n : Nat) (p : DirPage α) : Dir α := Function.update d n (some p)

/-- `erase` of a page. -/
def erasePage (d : Dir α) (n : Nat) : Dir α := Function.update d n none

/-- `peek` the page `n`, change it, `update` it. -/
def modifyPage (d : Dir α) (n : Nat) (f : DirPage α → DirPage α) : Dir α :=
  match d n with
  | some p => d.setPage n (f p)
  | none => d

@[simp] theorem setPage_self (d : Dir α) (n : Nat) (p : DirPage α) : d.setPage n p n = some p :=
  Function.update_self ..

theorem setPage_ne {d : Dir α} {m n : Nat} (h : m ≠ n) (p : DirPage α) : d.setPage n p m = d m :=
  Function.update_of_ne h ..

@[simp] theorem erasePage_self (d : Dir α) (n : Nat) : d.erasePage n n = none :=
  Function.update_self ..

theorem erasePage_ne {d : Dir α} {m n : Nat} (h : m ≠ n) : d.erasePage n m = d m :=
  Function.update_of_ne h ..

theorem modifyPage_apply (d : Dir α) (n : Nat) (f : DirPage α → DirPage α) (m : Nat) :
    d.modifyPage n f m = if m = n then (d m).map f else d m := by
  by_cases hm : m = n
  · subst hm
    cases hp : d m <;> simp [modifyPage, hp]
  · cases hp : d n <;> simp [modifyPage, hp, hm, setPage_ne hm]

@[simp] theorem modifyPage_self (d : Dir α) (n : Nat) (f : DirPage α → DirPage α) :
    d.modifyPage n f n = (d n).map f := by
  simp [modifyPage_apply]

theorem modifyPage_ne {d : Dir α} {m n : Nat} (h : m ≠ n) (f : DirPage α → DirPage α) :
    d.modifyPage n f m = d m := by
  simp [modifyPage_apply, h]

end Dir

open Dir

section Ops

variable {α : Type} [LinearOrder α]

/-- The keys of the last page once `key` is added: at the end when the order is preserved, and
otherwise sorted into place (`std::sort`, then `std::lower_bound`). Adding a key twice is a
`LogicError`. -/
def insertIndex (preserveOrder : Bool) (key : α) (indexes : List α) : Except String (List α) :=
  if preserveOrder then
    if key ∈ indexes then .error "dirInsert: double insertion"
    else .ok (indexes ++ [key])
  else
    let sorted := indexes.insertionSort (· ≤ ·)
    let below := sorted.takeWhile (· < key)
    let pos := sorted.dropWhile (· < key)
    if pos.head? = some key then .error "dirInsert: double insertion"
    else .ok (below ++ key :: pos)

/-- `ApplyView::dirAdd`: the page the key went to, or `none` when the directory has no page
left. A missing root is made; otherwise the key goes to the last page, or to a new page after it
when that one is full. -/
def dirAdd (preserveOrder : Bool) (key : α) (d : Dir α) : Except String (Option Nat × Dir α) :=
  match d rootPage with
  | none => .ok (some 0, d.setPage rootPage ⟨[key], 0, 0⟩)
  | some root =>
    let page := root.indexPrevious
    match (if page = 0 then some root else d page) with
    | none => .error "Directory chain: root back-pointer broken."
    | some node =>
      if node.indexes.length < dirNodeMaxEntries then
        match insertIndex preserveOrder key node.indexes with
        | .error e => .error e
        | .ok indexes => .ok (some page, d.setPage page { node with indexes })
      else if dirNodeMaxPages ≤ page + 1 then .ok (none, d)
      else
        let newPage := page + 1
        let d := (d.modifyPage page fun p => { p with indexNext := newPage }).modifyPage rootPage
          fun r => { r with indexPrevious := newPage }
        .ok (some newPage, d.setPage newPage ⟨[key], 0, if newPage ≠ 1 then newPage - 1 else 0⟩)

/-- The root page of `dirRemove` left empty: a legacy empty last page is dropped, and the root
goes too unless `keepRoot` or other pages remain. -/
def dirRemoveRoot (page prevPage nextPage : Nat) (keepRoot : Bool) (d : Dir α) :
    Except String (Bool × Dir α) :=
  if nextPage = page ∧ prevPage ≠ page then .error "Directory chain: fwd link broken"
  else if prevPage = page ∧ nextPage ≠ page then .error "Directory chain: rev link broken"
  else
    match dropLegacyLastPage page prevPage nextPage d with
    | .error e => .error e
    | .ok (prevPage, nextPage, d) =>
      if keepRoot then .ok (true, d)
      else if nextPage = page ∧ prevPage = page then .ok (true, d.erasePage page)
      else .ok (true, d)
where
  /-- Older code could leave the last page empty; when it is the only page after the root, it
  is erased and the root links to itself. Returns the root's links afterwards. -/
  dropLegacyLastPage (page prevPage nextPage : Nat) (d : Dir α) : Except String (Nat × Nat × Dir α) :=
    if nextPage = prevPage ∧ nextPage ≠ page then
      match d nextPage with
      | none => .error "Directory chain: fwd link broken."
      | some last =>
        if last.indexes.isEmpty then
          let d := d.modifyPage page fun n => { n with indexNext := page, indexPrevious := page }
          .ok (page, page, d.erasePage nextPage)
        else .ok (prevPage, nextPage, d)
    else .ok (prevPage, nextPage, d)

/-- A page after the root that `dirRemove` left empty: it is unlinked and erased, a legacy empty
last page after it goes too, and the root goes when it is empty, the only page left, and not
kept. -/
def dirRemovePage (page prevPage nextPage : Nat) (keepRoot : Bool) (d : Dir α) :
    Except String (Bool × Dir α) :=
  if nextPage = page then .error "Directory chain: fwd link broken"
  else if prevPage = page then .error "Directory chain: rev link broken"
  else
    match d prevPage with
    | none => .error "Directory chain: fwd link broken."
    | some _ =>
      let d := d.modifyPage prevPage fun p => { p with indexNext := nextPage }
      match d nextPage with
      | none => .error "Directory chain: rev link broken."
      | some _ =>
        let d := (d.modifyPage nextPage fun p => { p with indexPrevious := prevPage }).erasePage page
        match dropLegacyNextPage prevPage nextPage d with
        | .error e => .error e
        | .ok (nextPage, d) =>
          if !keepRoot ∧ nextPage = rootPage ∧ prevPage = rootPage then
            match d prevPage with
            | some prev => if prev.indexes.isEmpty then .ok (true, d.erasePage prevPage) else .ok (true, d)
            | none => .ok (true, d)
          else .ok (true, d)
where
  /-- When the page after the removed one is an empty last page, it is erased and the previous
  page becomes the last. Returns the next page's number afterwards. -/
  dropLegacyNextPage (prevPage nextPage : Nat) (d : Dir α) : Except String (Nat × Dir α) :=
    match d nextPage with
    | some next =>
      if nextPage ≠ rootPage ∧ next.indexNext = rootPage ∧ next.indexes.isEmpty then
        let d := (d.erasePage nextPage).modifyPage prevPage fun p => { p with indexNext := rootPage }
        match d rootPage with
        | none => .error "Directory chain: root link broken."
        | some _ => .ok (rootPage, d.modifyPage rootPage fun r => { r with indexPrevious := prevPage })
      else .ok (nextPage, d)
    | none => .ok (nextPage, d)

/-- `ApplyView::dirRemove`: `false` when the page or the key on it is missing. A page left empty
is unlinked as above. -/
def dirRemove (page : Nat) (key : α) (keepRoot : Bool) (d : Dir α) : Except String (Bool × Dir α) :=
  match d page with
  | none => .ok (false, d)
  | some node =>
    if key ∉ node.indexes then .ok (false, d)
    else
      let entries := node.indexes.erase key
      let d := d.setPage page { node with indexes := entries }
      if !entries.isEmpty then .ok (true, d)
      else if page = rootPage then dirRemoveRoot page node.indexPrevious node.indexNext keepRoot d
      else dirRemovePage page node.indexPrevious node.indexNext keepRoot d

end Ops

section Read

variable {α : Type}

/-- `dirIsEmpty`: no root, or an empty root with no next page. -/
def dirIsEmpty (d : Dir α) : Bool :=
  match d rootPage with
  | none => true
  | some root => if !root.indexes.isEmpty then false else root.indexNext == 0

/-- `forEachItem`: the keys of each page from `pos` on, following `sfIndexNext` until it is `0` or
names no page; `fuel` bounds the pages visited. -/
def forEachItem (fuel : Nat) (d : Dir α) (pos : Nat) : List α :=
  match fuel with
  | 0 => []
  | fuel + 1 =>
    match d pos with
    | none => []
    | some sle => sle.indexes ++ if sle.indexNext = 0 then [] else forEachItem fuel d sle.indexNext

/-- `cdirNext`: the entry at `uDirEntry` of `node`, or the first entry of a later page, with the
page and position to go on from; `fuel` bounds the pages skipped. -/
def cdirNext (fuel : Nat) (d : Dir α) (node : DirPage α) (uDirEntry : Nat) :
    Option (α × DirPage α × Nat) :=
  match fuel with
  | 0 => none
  | fuel + 1 =>
    if h : uDirEntry < node.indexes.length then some (node.indexes[uDirEntry], node, uDirEntry + 1)
    else if node.indexNext = 0 then none
    else
      match d node.indexNext with
      | none => none
      | some next => cdirNext fuel d next 0

/-- `cdirFirst`: `cdirNext` from the start of the root. -/
def cdirFirst (fuel : Nat) (d : Dir α) : Option (α × DirPage α × Nat) :=
  match d rootPage with
  | none => none
  | some root => cdirNext fuel d root 0

/-- The entries a `cdirFirst`/`cdirNext` loop visits, at most `steps` of them. -/
def cdirEntries (fuel : Nat) (d : Dir α) : Nat → Option (α × DirPage α × Nat) → List α
  | _, none => []
  | 0, some _ => []
  | steps + 1, some (key, node, uDirEntry) => key :: cdirEntries fuel d steps (cdirNext fuel d node uDirEntry)

end Read

end Ripple
