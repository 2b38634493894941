import Mathlib.Data.List.DropRight

/-!
# Lists that are edited

A list with a cursor (`Zipper`): what is in front of it, the nearest
element first, and what is behind it. Every operation looks at the
cursor only. A list is completed to the longest prefix that several
others share (`longestPrefix`), which is known by its own prefixes: they
are those that all of the lists have (`prefix_longestPrefix_iff`).
-/

namespace Yapas

/-- `before` is in reverse. -/
structure Zipper (α : Type) where
  before : List α
  behind : List α

namespace Zipper

variable {α : Type}

def empty : Zipper α := ⟨[], []⟩

/-- The cursor is at the end. -/
def ofList (l : List α) : Zipper α := ⟨l.reverse, []⟩

def toList (z : Zipper α) : List α := z.before.reverse ++ z.behind

def insert (z : Zipper α) (a : α) : Zipper α := ⟨a :: z.before, z.behind⟩

/-- The element in front of the cursor is taken out. -/
def delete (z : Zipper α) : Zipper α := ⟨z.before.tail, z.behind⟩

def left : Zipper α → Zipper α
  | ⟨[], behind⟩ => ⟨[], behind⟩
  | ⟨a :: before, behind⟩ => ⟨before, a :: behind⟩

def right : Zipper α → Zipper α
  | ⟨before, []⟩ => ⟨before, []⟩
  | ⟨before, a :: behind⟩ => ⟨a :: before, behind⟩

@[simp] theorem toList_empty : (empty : Zipper α).toList = [] := rfl

@[simp] theorem toList_ofList (l : List α) : (ofList l).toList = l := by
  rw [toList, ofList, List.reverse_reverse, List.append_nil]

@[simp] theorem toList_insert (z : Zipper α) (a : α) :
    (z.insert a).toList = z.before.reverse ++ a :: z.behind := by
  rw [toList, insert, List.reverse_cons, List.append_assoc, List.singleton_append]

end Zipper

/-! ## What several lists begin with -/

section CommonPrefix

variable {α : Type} [DecidableEq α]

def commonPrefix : List α → List α → List α
  | x :: xs, y :: ys => if x = y then x :: commonPrefix xs ys else []
  | _, _ => []

def longestPrefix : List (List α) → List α
  | [] => []
  | t :: ts => ts.foldl commonPrefix t

theorem prefix_commonPrefix_iff : ∀ {q xs ys : List α},
    q <+: commonPrefix xs ys ↔ q <+: xs ∧ q <+: ys
  | [], _, _ => by simp
  | _ :: _, [], _ => by simp [commonPrefix]
  | _ :: _, _ :: _, [] => by simp [commonPrefix]
  | a :: q, x :: xs, y :: ys => by
      rw [commonPrefix, List.cons_prefix_cons, List.cons_prefix_cons]
      split
      · rename_i hxy
        rw [List.cons_prefix_cons, prefix_commonPrefix_iff, hxy]
        constructor
        · rintro ⟨ha, hxs, hys⟩
          exact ⟨⟨ha, hxs⟩, ha, hys⟩
        · rintro ⟨⟨ha, hxs⟩, -, hys⟩
          exact ⟨ha, hxs, hys⟩
      · rename_i hxy
        refine iff_of_false (fun h => absurd (List.prefix_nil.mp h) (List.cons_ne_nil a q)) ?_
        rintro ⟨⟨rfl, -⟩, rfl, -⟩
        exact hxy rfl

theorem prefix_longestPrefix_iff {q t : List α} {ts : List (List α)} :
    q <+: longestPrefix (t :: ts) ↔ ∀ u ∈ t :: ts, q <+: u := by
  rw [longestPrefix]
  induction ts generalizing t with
  | nil => simp
  | cons u ts ih =>
      rw [List.foldl_cons, ih, List.forall_mem_cons, List.forall_mem_cons, List.forall_mem_cons,
        prefix_commonPrefix_iff, and_assoc]

end CommonPrefix

end Yapas
