import Mathlib.Data.List.Basic

/-!
# Lists of keyed values

A list of values under keys, in which a key may stand more than once or
not at all, and the updates of it. An update touches the values of its
own key only, so what a sequence of them leaves of a key is a matter of
the updates of that key (`valuesOf_applyAll`). Behind the last `define`
of a key it has one value, as often as it stands (`valuesOf_define`).
-/

namespace Yapas

variable {κ ν : Type} [DecidableEq κ]

def valuesOf (k : κ) (kvs : List (κ × ν)) : List ν := (kvs.filter (·.1 = k)).map Prod.snd

/-- Every value of the key is replaced. -/
def assignAll (k : κ) (v : ν) (kvs : List (κ × ν)) : List (κ × ν) :=
  kvs.map fun kv => if kv.1 = k then (k, v) else kv

def eraseAll (k : κ) (kvs : List (κ × ν)) : List (κ × ν) := kvs.filter (·.1 ≠ k)

inductive Update (κ ν : Type) where
  | assign (k : κ) (v : ν)
  | define (k : κ) (v : ν)
  | erase (k : κ)

namespace Update

def key : Update κ ν → κ
  | assign k _ => k
  | define k _ => k
  | erase k => k

/-- The key is added by `define` only, at the end, and if it is not
there. -/
def apply : Update κ ν → List (κ × ν) → List (κ × ν)
  | assign k v, kvs => assignAll k v kvs
  | define k v, kvs => if (valuesOf k kvs).isEmpty then kvs ++ [(k, v)] else assignAll k v kvs
  | erase k, kvs => eraseAll k kvs

/-- What becomes of the values of its key. -/
def applyValues : Update κ ν → List ν → List ν
  | assign _ v, vs => vs.map fun _ => v
  | define _ v, vs => if vs.isEmpty then [v] else vs.map fun _ => v
  | erase _, _ => []

end Update

variable {k : κ} {kvs : List (κ × ν)}

theorem valuesOf_cons (k : κ) (kv : κ × ν) (kvs : List (κ × ν)) :
    valuesOf k (kv :: kvs) = if kv.1 = k then kv.2 :: valuesOf k kvs else valuesOf k kvs := by
  by_cases hk : kv.1 = k
  · simp [valuesOf, hk]
  · simp [valuesOf, hk]

theorem valuesOf_concat (k : κ) (kvs : List (κ × ν)) (kv : κ × ν) :
    valuesOf k (kvs ++ [kv])
      = if kv.1 = k then valuesOf k kvs ++ [kv.2] else valuesOf k kvs := by
  by_cases hk : kv.1 = k
  · simp [valuesOf, hk]
  · simp [valuesOf, hk]

theorem length_valuesOf (k : κ) (kvs : List (κ × ν)) :
    (valuesOf k kvs).length = kvs.countP (·.1 = k) := by
  rw [valuesOf, List.length_map, List.countP_eq_length_filter]

theorem valuesOf_assignAll (k k' : κ) (v : ν) (kvs : List (κ × ν)) :
    valuesOf k (assignAll k' v kvs)
      = if k' = k then (valuesOf k kvs).map fun _ => v else valuesOf k kvs := by
  induction kvs with
  | nil => simp [assignAll, valuesOf]
  | cons kv kvs ih =>
      rw [assignAll, List.map_cons, ← assignAll, valuesOf_cons, valuesOf_cons, ih]
      by_cases hk' : kv.1 = k'
      · rw [if_pos hk', hk']
        split <;> rfl
      · rw [if_neg hk']
        by_cases hk : kv.1 = k
        · rw [if_pos hk, if_pos hk, if_neg (fun h => hk' (hk.trans h.symm)),
            if_neg (fun h => hk' (hk.trans h.symm))]
        · rw [if_neg hk, if_neg hk]

theorem assignAll_of_valuesOf_nil (h : valuesOf k kvs = []) (v : ν) : assignAll k v kvs = kvs := by
  have hnone := List.filter_eq_nil_iff.mp (List.map_eq_nil_iff.mp h)
  calc
    assignAll k v kvs = kvs.map id :=
      List.map_congr_left fun kv hkv => if_neg (by simpa using hnone kv hkv)
    _ = kvs := List.map_id kvs

theorem valuesOf_eraseAll (k k' : κ) (kvs : List (κ × ν)) :
    valuesOf k (eraseAll k' kvs) = if k' = k then [] else valuesOf k kvs := by
  rw [valuesOf, eraseAll, List.filter_filter]
  by_cases hk : k' = k
  · rw [if_pos hk, List.map_eq_nil_iff, List.filter_eq_nil_iff]
    intro kv _
    simp [hk]
  · rw [if_neg hk, valuesOf]
    congr 1
    refine List.filter_congr fun kv _ => ?_
    by_cases hkv : kv.1 = k
    · simp [hkv, Ne.symm hk]
    · simp [hkv]

/-- An update leaves the values of the other keys alone. -/
theorem valuesOf_apply (k : κ) (u : Update κ ν) (kvs : List (κ × ν)) :
    valuesOf k (u.apply kvs)
      = if u.key = k then u.applyValues (valuesOf k kvs) else valuesOf k kvs := by
  cases u with
  | assign k' v => exact valuesOf_assignAll k k' v kvs
  | erase k' => exact valuesOf_eraseAll k k' kvs
  | define k' v =>
      rw [Update.apply, Update.key]
      by_cases hk : k' = k
      · subst hk
        rw [if_pos rfl, Update.applyValues]
        split
        · rename_i hempty
          rw [valuesOf_concat, if_pos rfl, List.isEmpty_iff.mp hempty, List.nil_append]
        · rw [valuesOf_assignAll, if_pos rfl]
      · rw [if_neg hk]
        split
        · rw [valuesOf_concat, if_neg hk]
        · rw [valuesOf_assignAll, if_neg hk]

theorem valuesOf_applyAll (k : κ) (us : List (Update κ ν)) (kvs : List (κ × ν)) :
    valuesOf k (us.foldl (fun kvs u => u.apply kvs) kvs)
      = (us.filter (·.key = k)).foldl (fun vs u => u.applyValues vs) (valuesOf k kvs) := by
  induction us generalizing kvs with
  | nil => rfl
  | cons u us ih =>
      rw [List.foldl_cons, ih, valuesOf_apply]
      by_cases hk : u.key = k
      · rw [if_pos hk, List.filter_cons_of_pos (by simpa using hk), List.foldl_cons]
      · rw [if_neg hk, List.filter_cons_of_neg (by simpa using hk)]

/-- No update of the key comes behind its `define`. -/
theorem valuesOf_define (k : κ) (v : ν) {us : List (Update κ ν)} (hus : ∀ u ∈ us, u.key ≠ k)
    (before : List (Update κ ν)) (kvs : List (κ × ν)) :
    ∃ n, valuesOf k ((before ++ .define k v :: us).foldl (fun kvs u => u.apply kvs) kvs)
      = List.replicate (n + 1) v := by
  have hnone : us.filter (·.key = k) = [] :=
    List.filter_eq_nil_iff.mpr fun u hu => by simpa using hus u hu
  rw [valuesOf_applyAll, List.filter_append, List.filter_cons_of_pos (by simp [Update.key]),
    hnone, List.foldl_append, List.foldl_cons, List.foldl_nil]
  cases (before.filter (·.key = k)).foldl (fun vs u => u.applyValues vs) (valuesOf k kvs) with
  | nil => exact ⟨0, rfl⟩
  | cons w ws =>
      refine ⟨ws.length, ?_⟩
      rw [Update.applyValues, if_neg (by simp), List.map_const', List.length_cons]

end Yapas
