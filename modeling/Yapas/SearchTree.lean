import Mathlib.Data.List.Basic
import Mathlib.Data.List.Induction
import Mathlib.Data.List.Nodup

/-!
# Search trees and partial orders

Insertion into a binary search tree, as the sets of the C++ library do
it: on the way down only `less k x` is asked, for the new key `k` and the
key `x` of each node, and at the end whether the key in front of the new
place is less than the new one. The tree may be balanced in any way that
keeps its keys in order.

The order need not be total. A key goes in exactly when it can be
compared with all that are there (`mem_add_iff`). So a sequence of keys
is kept whole, in whatever order it comes, exactly when any two of them
can be compared (`build_keeps_iff`).
-/

namespace Yapas

variable {α : Type}

inductive Tree (α : Type) where
  | leaf
  | node (left : Tree α) (key : α) (right : Tree α)

namespace Tree

/-- The keys in order. -/
def toList : Tree α → List α
  | leaf => []
  | node left key right => left.toList ++ key :: right.toList

/-- Insertion of `k`, unless the key in front of its place is not less.
That is `pred`, the last one after which the way down went right. -/
def insert (less : α → α → Bool) (k : α) : Tree α → Option α → Option (Tree α)
  | leaf, pred => if pred.all (less · k) then some (node leaf k leaf) else none
  | node left key right, pred =>
      if less k key then
        (insert less k left pred).map fun left => node left key right
      else
        (insert less k right (some key)).map fun right => node left key right

/-- The search of a set: the first key that is not less than `k`, unless
`k` is less than that. -/
def find (less : α → α → Bool) (k : α) : Tree α → Option α → Option α
  | leaf, found => found.filter (!less k ·)
  | node left key right, found =>
      if less key k then find less k right found else find less k left (some key)

end Tree

/-- A way to balance a tree. -/
structure Balance (α : Type) where
  apply : Tree α → Tree α
  toList_apply : ∀ t, (apply t).toList = t.toList

/-- `insert` of a set: a tree that has the key already stays. -/
def add (balance : Balance α) (less : α → α → Bool) (t : Tree α) (k : α) : Tree α :=
  ((t.insert less k none).map balance.apply).getD t

def build (balance : Balance α) (less : α → α → Bool) (ks : List α) : Tree α :=
  ks.foldl (add balance less) .leaf

variable {balance : Balance α} {less : α → α → Bool} {t : Tree α} {k : α} {ks : List α}

theorem build_concat :
    build balance less (ks ++ [k]) = add balance less (build balance less ks) k :=
  List.foldl_concat _ _ _ _

/-! ## One insertion -/

/-- `less` is transitive on these keys. -/
def TransOn (less : α → α → Bool) (ks : List α) : Prop :=
  ∀ x ∈ ks, ∀ y ∈ ks, ∀ z ∈ ks, less x y → less y z → less x z

theorem TransOn.mono {ks' : List α} (h : TransOn less ks') (hsub : ks ⊆ ks') : TransOn less ks :=
  fun x hx y hy z hz => h x (hsub hx) y (hsub hy) z (hsub hz)

/-- The way down splits the keys: `k` is not less than those before its
place, and less than those behind it. -/
theorem Tree.insert_eq : ∀ {t : Tree α} (pred : Option α),
    t.toList.Pairwise (fun x y => less x y) → TransOn less (k :: t.toList) →
    ∃ before after, t.toList = before ++ after ∧ (∀ x ∈ before, ¬ less k x) ∧
      (∀ x ∈ after, less k x) ∧
      (t.insert less k pred).map toList
        = if (before.getLast?.or pred).all (less · k) then some (before ++ k :: after) else none
  | leaf, pred, _, _ => by
      refine ⟨[], [], rfl, List.forall_mem_nil _, List.forall_mem_nil _, ?_⟩
      rw [insert, List.getLast?_nil, Option.none_or, apply_ite (Option.map toList)]
      rfl
  | node left key right, pred, hsorted, htrans => by
      rw [toList] at hsorted htrans
      obtain ⟨hleft, hright, hacross⟩ := List.pairwise_append.mp hsorted
      obtain ⟨hkey, hright⟩ := List.pairwise_cons.mp hright
      by_cases hless : less k key
      · obtain ⟨before, after, heq, hbefore, hafter, hinsert⟩ := insert_eq pred hleft
          (htrans.mono (List.cons_subset_cons k (List.subset_append_left _ _)))
        refine ⟨before, after ++ key :: right.toList, ?_, hbefore, ?_, ?_⟩
        · rw [toList, heq, List.append_assoc]
        · refine List.forall_mem_append.mpr ⟨hafter, List.forall_mem_cons.mpr ⟨hless, ?_⟩⟩
          intro x hx
          exact htrans k (by simp) key (by simp) x (by simp [hx]) hless (hkey x hx)
        · have hnode := congrArg (Option.map (· ++ key :: right.toList)) hinsert
          rw [apply_ite (Option.map _), Option.map_some, List.append_assoc] at hnode
          rw [insert, if_pos hless, ← List.cons_append, ← Option.map_none, ← hnode,
            Option.map_map, Option.map_map]
          rfl
      · obtain ⟨before, after, heq, hbefore, hafter, hinsert⟩ := insert_eq (some key) hright
          (htrans.mono (List.cons_subset_cons k
            (List.Subset.trans (List.subset_cons_self _ _) (List.subset_append_right _ _))))
        refine ⟨left.toList ++ key :: before, after, ?_, ?_, hafter, ?_⟩
        · rw [toList, heq, List.append_assoc, List.cons_append]
        · refine List.forall_mem_append.mpr ⟨?_, List.forall_mem_cons.mpr ⟨hless, hbefore⟩⟩
          intro x hx hk
          -- `x` is less than the key, and the new one would be less than `x`
          exact hless (htrans k (by simp) x (by simp [hx]) key (by simp) hk
            (hacross x hx key List.mem_cons_self))
        · have hlast : ((left.toList ++ key :: before).getLast?.or pred)
              = before.getLast?.or (some key) := by
            rw [List.getLast?_append, List.getLast?_cons]
            cases before.getLast? <;> rfl
          have hnode := congrArg (Option.map (left.toList ++ key :: ·)) hinsert
          rw [apply_ite (Option.map _), Option.map_some] at hnode
          rw [insert, if_neg hless, hlast, List.append_assoc, List.cons_append, ← Option.map_none,
            ← hnode, Option.map_map, Option.map_map]
          rfl

/-- The last of sorted keys is the greatest. -/
theorem last_less_iff (hsorted : ks.Pairwise fun x y => less x y)
    (htrans : TransOn less (k :: ks)) :
    ks.getLast?.all (less · k) = true ↔ ∀ x ∈ ks, less x k := by
  obtain rfl | ⟨before, last, rfl⟩ := List.eq_nil_or_concat' ks
  · exact ⟨fun _ => List.forall_mem_nil _, fun _ => rfl⟩
  obtain ⟨-, -, hbefore⟩ := List.pairwise_append.mp hsorted
  rw [List.getLast?_concat, Option.all_some]
  constructor
  · intro hlast x hx
    rcases List.mem_append.mp hx with hx | hx
    · exact htrans x (by simp [hx]) last (by simp) k (by simp)
        (hbefore x hx last (List.mem_singleton_self last)) hlast
    · rw [List.mem_singleton.mp hx]
      exact hlast
  · exact fun h => h last (by simp)

/-- The two can be compared. -/
def Comparable (less : α → α → Bool) (x y : α) : Prop := less x y ∨ less y x

section Sorted

variable (hsorted : t.toList.Pairwise fun x y => less x y) (htrans : TransOn less (k :: t.toList))

include hsorted htrans

/-- The key goes to its place when it can be compared with all that are
there, and otherwise the tree stays. -/
theorem add_eq (balance : Balance α) :
    (∃ before after, t.toList = before ++ after ∧ (∀ x ∈ before, less x k) ∧
      (∀ x ∈ after, less k x) ∧ (add balance less t k).toList = before ++ k :: after) ∨
    (¬ (∀ x ∈ t.toList, Comparable less x k) ∧ add balance less t k = t) := by
  obtain ⟨before, after, heq, hbefore, hafter, hinsert⟩ := Tree.insert_eq none hsorted htrans
  rw [heq] at hsorted htrans
  have hlast : before.getLast?.all (less · k) = true ↔ ∀ x ∈ before, less x k :=
    last_less_iff (List.pairwise_append.mp hsorted).1
      (htrans.mono (List.cons_subset_cons k (List.subset_append_left _ _)))
  rw [Option.or_none] at hinsert
  by_cases hless : ∀ x ∈ before, less x k
  · rw [if_pos (hlast.mpr hless), Option.map_eq_some_iff] at hinsert
    obtain ⟨t', ht', hlist⟩ := hinsert
    refine Or.inl ⟨before, after, heq, hless, hafter, ?_⟩
    rw [add, ht', Option.map_some, Option.getD_some, balance.toList_apply, hlist]
  · rw [if_neg (fun h => hless (hlast.mp h)), Option.map_eq_none_iff] at hinsert
    refine Or.inr ⟨fun hall => hless fun x hx => ?_, ?_⟩
    · exact (hall x (heq ▸ List.mem_append_left after hx)).resolve_right (hbefore x hx)
    · rw [add, hinsert, Option.map_none, Option.getD_none]

/-- The keys stay in order. -/
theorem add_sorted : (add balance less t k).toList.Pairwise fun x y => less x y := by
  rcases add_eq hsorted htrans balance with ⟨before, after, heq, hbefore, hafter, hadd⟩ | ⟨-, hadd⟩
  · rw [heq] at hsorted
    obtain ⟨hsorted, hsorted', hacross⟩ := List.pairwise_append.mp hsorted
    rw [hadd]
    refine List.pairwise_append.mpr ⟨hsorted, List.pairwise_cons.mpr ⟨hafter, hsorted'⟩, ?_⟩
    exact fun x hx => List.forall_mem_cons.mpr ⟨hbefore x hx, hacross x hx⟩
  · rwa [hadd]

/-- What is there stays, and the key goes in when it can be compared
with all of it. -/
theorem mem_add_iff {x : α} : x ∈ (add balance less t k).toList
    ↔ x ∈ t.toList ∨ x = k ∧ ∀ y ∈ t.toList, Comparable less y k := by
  rcases add_eq hsorted htrans balance with
    ⟨before, after, heq, hbefore, hafter, hadd⟩ | ⟨hnot, hadd⟩
  · have hall : ∀ y ∈ t.toList, Comparable less y k := by
      rw [heq]
      exact List.forall_mem_append.mpr
        ⟨fun y hy => Or.inl (hbefore y hy), fun y hy => Or.inr (hafter y hy)⟩
    rw [hadd, and_iff_left hall, heq, List.mem_append, List.mem_append, List.mem_cons]
    tauto
  · rw [hadd, or_iff_left fun h => hnot h.2]

end Sorted

/-! ## A sequence of insertions -/

/-- The tree is in order, and has no keys but those that were added. -/
theorem build_inv (balance : Balance α) : ∀ {ks : List α}, TransOn less ks →
    (build balance less ks).toList.Pairwise (fun x y => less x y) ∧
      (build balance less ks).toList ⊆ ks := by
  intro ks
  induction ks using List.reverseRecOn with
  | nil => exact fun _ => ⟨List.Pairwise.nil, List.Subset.refl _⟩
  | append_singleton ks k ih =>
      intro htrans
      obtain ⟨hsorted, hsub⟩ := ih (htrans.mono (List.subset_append_left _ _))
      have htrans' : TransOn less (k :: (build balance less ks).toList) :=
        htrans.mono (List.cons_subset.mpr
          ⟨List.mem_concat_self, List.Subset.trans hsub (List.subset_append_left _ _)⟩)
      rw [build_concat]
      refine ⟨add_sorted hsorted htrans', fun x hx => ?_⟩
      rcases (mem_add_iff hsorted htrans').mp hx with hx | ⟨rfl, -⟩
      · exact List.mem_append_left _ (hsub hx)
      · exact List.mem_concat_self

/-- All of the keys are kept exactly when any two can be compared. -/
theorem build_keeps_iff (balance : Balance α) : ∀ {ks : List α}, ks.Nodup → TransOn less ks →
    ((∀ k ∈ ks, k ∈ (build balance less ks).toList) ↔ ks.Pairwise (Comparable less)) := by
  intro ks
  induction ks using List.reverseRecOn with
  | nil => exact fun _ _ => iff_of_true (List.forall_mem_nil _) List.Pairwise.nil
  | append_singleton ks k ih =>
      intro hnodup htrans
      obtain ⟨hnodup, -, hnew⟩ := List.nodup_append.mp hnodup
      have htrans' := htrans.mono (List.subset_append_left ks [k])
      obtain ⟨hsorted, hsub⟩ := build_inv balance htrans'
      have hmem : ∀ {x}, x ∈ (build balance less (ks ++ [k])).toList
          ↔ x ∈ (build balance less ks).toList
            ∨ x = k ∧ ∀ y ∈ (build balance less ks).toList, Comparable less y k := by
        intro x
        rw [build_concat]
        exact mem_add_iff hsorted
          (htrans.mono (List.cons_subset.mpr
            ⟨List.mem_concat_self, List.Subset.trans hsub (List.subset_append_left _ _)⟩))
      rw [List.pairwise_append, ← ih hnodup htrans', List.forall_mem_append,
        List.forall_mem_singleton, hmem]
      constructor
      · rintro ⟨hkeeps, hk⟩
        have hkeeps : ∀ x ∈ ks, x ∈ (build balance less ks).toList := fun x hx =>
          (hmem.mp (hkeeps x hx)).resolve_right fun h => hnew x hx k (List.mem_singleton_self k) h.1
        have hall := (hk.resolve_left fun h => hnew k (hsub h) k (List.mem_singleton_self k) rfl).2
        exact ⟨hkeeps, List.pairwise_singleton _ k, fun x hx =>
          List.forall_mem_singleton.mpr (hall x (hkeeps x hx))⟩
      · rintro ⟨hkeeps, -, hall⟩
        exact ⟨fun x hx => hmem.mpr (Or.inl (hkeeps x hx)), Or.inr ⟨rfl, fun y hy =>
          hall y (hsub hy) k (List.mem_singleton_self k)⟩⟩

/-! ## The search -/

theorem Tree.find_eq : ∀ {t : Tree α} (found : Option α),
    t.toList.Pairwise (fun x y => less x y) → TransOn less (k :: t.toList) →
    t.find less k found = ((t.toList.find? (!less · k)).or found).filter (!less k ·)
  | leaf, found, _, _ => by rw [find, toList, List.find?_nil, Option.none_or]
  | node left key right, found, hsorted, htrans => by
      rw [toList] at hsorted htrans
      obtain ⟨hleft, hright, hacross⟩ := List.pairwise_append.mp hsorted
      obtain ⟨hkey, hright⟩ := List.pairwise_cons.mp hright
      rw [find, toList, List.find?_append]
      by_cases hless : less key k
      · have hnone : left.toList.find? (!less · k) = none := by
          refine List.find?_eq_none.mpr fun x hx => ?_
          have hxk : less x k := htrans x (by simp [hx]) key (by simp) k (by simp)
            (hacross x hx key List.mem_cons_self) hless
          rw [hxk]
          exact Bool.false_ne_true
        rw [if_pos hless, hnone, Option.none_or, List.find?_cons_of_neg (by simp [hless])]
        exact find_eq found hright (htrans.mono (List.cons_subset_cons k
          (List.Subset.trans (List.subset_cons_self _ _) (List.subset_append_right _ _))))
      · rw [if_neg hless, List.find?_cons_of_pos (by simp [hless]), Option.or_assoc]
        exact find_eq (some key) hleft
          (htrans.mono (List.cons_subset_cons k (List.subset_append_left _ _)))

/-- A key is found that `k` cannot be compared with, if there is one. -/
theorem Tree.find_spec (hsorted : t.toList.Pairwise fun x y => less x y)
    (htrans : TransOn less (k :: t.toList)) :
    (∃ x ∈ t.toList, ¬ Comparable less x k ∧ t.find less k none = some x) ∨
    ((∀ x ∈ t.toList, Comparable less x k) ∧ t.find less k none = none) := by
  rw [find_eq none hsorted htrans, Option.or_none]
  cases hfirst : t.toList.find? (!less · k) with
  | none =>
      refine Or.inr ⟨fun x hx => Or.inl ?_, rfl⟩
      simpa using List.find?_eq_none.mp hfirst x hx
  | some x =>
      obtain ⟨hx, before, after, heq, hbefore⟩ := List.find?_eq_some_iff_append.mp hfirst
      rw [heq] at hsorted htrans ⊢
      by_cases hk : less k x
      · obtain ⟨-, hafter, -⟩ := List.pairwise_append.mp hsorted
        refine Or.inr
          ⟨List.forall_mem_append.mpr ⟨?_, List.forall_mem_cons.mpr ⟨Or.inr hk, ?_⟩⟩, ?_⟩
        · exact fun y hy => Or.inl (by simpa using hbefore y hy)
        · intro y hy
          exact Or.inr (htrans k (by simp) x (by simp) y (by simp [hy]) hk
            ((List.pairwise_cons.mp hafter).1 y hy))
        · rw [Option.filter_some, if_neg (by simp [hk])]
      · refine Or.inl ⟨x, by simp, fun h => h.elim (by simpa using hx) hk, ?_⟩
        rw [Option.filter_some, if_pos (by simp [hk])]

/-! ## Keys that were there before -/

theorem Tree.find_mem : ∀ {t : Tree α} {found : Option α} {x : α},
    t.find less k found = some x → x ∈ t.toList ∨ found = some x
  | .leaf, _, _, h => Or.inr (Option.eq_some_of_filter_eq_some h)
  | .node _ _ _, _, _, h => by
      rw [Tree.find] at h
      rw [Tree.toList, List.mem_append, List.mem_cons]
      split at h
      · rcases find_mem h with hmem | hfound
        · exact Or.inl (Or.inr (Or.inr hmem))
        · exact Or.inr hfound
      · rcases find_mem h with hmem | hkey
        · exact Or.inl (Or.inl hmem)
        · exact Or.inl (Or.inr (Or.inl (Option.some.inj hkey).symm))

theorem Tree.insert_subset : ∀ {t t' : Tree α} {pred : Option α},
    t.insert less k pred = some t' → t'.toList ⊆ k :: t.toList
  | .leaf, _, pred, h => by
      rw [Tree.insert] at h
      split at h
      · obtain rfl := Option.some.inj h
        exact List.Subset.refl _
      · cases h
  | .node left key right, _, pred, h => by
      rw [Tree.insert] at h
      intro x hx
      rw [Tree.toList, List.mem_cons, List.mem_append, List.mem_cons]
      split at h
      · obtain ⟨left', hleft, rfl⟩ := Option.map_eq_some_iff.mp h
        rw [Tree.toList, List.mem_append, List.mem_cons] at hx
        rcases hx with hx | hx
        · rcases List.mem_cons.mp (insert_subset hleft hx) with hk | hx
          · exact Or.inl hk
          · exact Or.inr (Or.inl hx)
        · exact Or.inr (Or.inr hx)
      · obtain ⟨right', hright, rfl⟩ := Option.map_eq_some_iff.mp h
        rw [Tree.toList, List.mem_append, List.mem_cons] at hx
        rcases hx with hx | hx | hx
        · exact Or.inr (Or.inl hx)
        · exact Or.inr (Or.inr (Or.inl hx))
        · rcases List.mem_cons.mp (insert_subset hright hx) with hk | hx
          · exact Or.inl hk
          · exact Or.inr (Or.inr (Or.inr hx))

theorem add_subset (balance : Balance α) : (add balance less t k).toList ⊆ k :: t.toList := by
  rw [add]
  cases hinsert : t.insert less k none with
  | none => exact List.subset_cons_self _ _
  | some t' =>
      show (balance.apply t').toList ⊆ _
      rw [balance.toList_apply]
      exact Tree.insert_subset hinsert

theorem build_subset (balance : Balance α) : (build balance less ks).toList ⊆ ks := by
  induction ks using List.reverseRecOn with
  | nil => exact List.Subset.refl _
  | append_singleton ks k ih =>
      rw [build_concat]
      intro x hx
      rcases List.mem_cons.mp (add_subset balance hx) with rfl | hx
      · exact List.mem_append_right ks List.mem_cons_self
      · exact List.mem_append_left [k] (ih hx)

end Yapas
