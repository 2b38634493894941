import Mathlib.Data.Fintype.BigOperators
import Mathlib.Data.List.Induction

/-!
# Interleavings

Parties that run side by side, each through a list of events of its own.
An interleaving is what is seen of all of them up to some moment: events
labelled with their party, every one the next of its party. The order of
the parties is free, and a party may fall behind or never start.

`Exclusive` says that no resource is used by two parties. Over all
interleavings it is a property of the local lists alone
(`exclusive_iff`): one that breaks it is found by letting the parties
run one after the other.
-/

namespace Yapas

variable {ι ε κ : Type} [DecidableEq ι]

/-- The events of one party. -/
def eventsOf (i : ι) (trace : List (ι × ε)) : List ε := (trace.filter (·.1 = i)).map Prod.snd

inductive Interleaving (locals : ι → List ε) : List (ι × ε) → Prop
  | nil : Interleaving locals []
  | step {trace : List (ι × ε)} {i : ι} {e : ε} (before : Interleaving locals trace)
      (next : eventsOf i trace ++ [e] <+: locals i) : Interleaving locals (trace ++ [(i, e)])

theorem eventsOf_append (i : ι) (es fs : List (ι × ε)) :
    eventsOf i (es ++ fs) = eventsOf i es ++ eventsOf i fs := by
  rw [eventsOf, List.filter_append, List.map_append]
  rfl

theorem eventsOf_self (i : ι) (es : List ε) : eventsOf i (es.map (Prod.mk i)) = es := by
  induction es with
  | nil => rfl
  | cons e es ih =>
      rw [List.map_cons, ← List.singleton_append, eventsOf_append, ih]
      simp [eventsOf]

theorem eventsOf_other {i j : ι} (h : j ≠ i) (es : List ε) :
    eventsOf i (es.map (Prod.mk j)) = [] := by
  simp [eventsOf, h]

/-- What counts in all parties together. -/
theorem sum_countP_eventsOf [Fintype ι] (p : ε → Bool) (trace : List (ι × ε)) :
    ∑ i, (eventsOf i trace).countP p = trace.countP fun e => p e.2 := by
  induction trace with
  | nil => simp [eventsOf]
  | cons e trace ih =>
      have hone : ∀ i, (eventsOf i (e :: trace)).countP p
          = (eventsOf i trace).countP p + if e.1 = i then (if p e.2 then 1 else 0) else 0 := by
        intro i
        by_cases hi : e.1 = i
        · simp [eventsOf, hi, List.countP_cons]
        · simp [eventsOf, hi]
      rw [List.countP_cons, ← ih, Finset.sum_congr rfl fun i _ => hone i, Finset.sum_add_distrib,
        Finset.sum_ite_eq, if_pos (Finset.mem_univ _)]

namespace Interleaving

variable {locals : ι → List ε} {trace : List (ι × ε)} {i : ι}

/-- Whatever happens is an event of its party. -/
theorem mem (h : Interleaving locals trace) {e : ε} (he : (i, e) ∈ trace) : e ∈ locals i := by
  induction h with
  | nil => cases he
  | step before next ih =>
      rcases List.mem_append.mp he with he | he
      · exact ih he
      · obtain ⟨rfl, rfl⟩ := Prod.mk.inj (List.mem_singleton.mp he)
        exact next.subset (List.mem_append_right _ List.mem_cons_self)

/-- What is seen of a party is the beginning of its list. -/
theorem eventsOf_prefix (h : Interleaving locals trace) (i : ι) :
    eventsOf i trace <+: locals i := by
  induction h with
  | nil => exact List.nil_prefix
  | @step trace j e before next ih =>
      rw [eventsOf_append]
      by_cases hij : j = i
      · subst hij
        simpa [eventsOf] using next
      · simpa [eventsOf, hij] using ih

/-- A party that has not started runs as far as it likes. -/
theorem run (h : Interleaving locals trace) (hidle : eventsOf i trace = []) {es : List ε}
    (hes : es <+: locals i) : Interleaving locals (trace ++ es.map (Prod.mk i)) := by
  induction es using List.reverseRecOn with
  | nil => simpa using h
  | append_singleton es e ih =>
      have hbefore := ih ((List.prefix_append es [e]).trans hes)
      have hown : eventsOf i (trace ++ es.map (Prod.mk i)) = es := by
        rw [eventsOf_append, hidle, eventsOf_self, List.nil_append]
      rw [List.map_append, ← List.append_assoc]
      refine .step hbefore ?_
      rwa [hown]

end Interleaving

/-- Two parties, one after the other. -/
theorem interleaving_pair (locals : ι → List ε) {i j : ι} (hij : i ≠ j) :
    Interleaving locals ((locals i).map (Prod.mk i) ++ (locals j).map (Prod.mk j)) := by
  have hfirst : Interleaving locals ((locals i).map (Prod.mk i)) :=
    Interleaving.run .nil rfl (List.prefix_refl _)
  exact hfirst.run (eventsOf_other hij _) (List.prefix_refl _)

/-! ## Resources -/

/-- No resource is used by two parties. -/
def Exclusive (uses : ε → Option κ) (trace : List (ι × ε)) : Prop :=
  ∀ i j e e' r, (i, e) ∈ trace → (j, e') ∈ trace → uses e = some r → uses e' = some r → i = j

omit [DecidableEq ι] in
theorem not_exclusive_pair {locals : ι → List ε} {uses : ε → Option κ} {i j : ι} {r : κ}
    (hij : i ≠ j) (hi : ∃ e ∈ locals i, uses e = some r) (hj : ∃ e ∈ locals j, uses e = some r) :
    ¬ Exclusive uses ((locals i).map (Prod.mk i) ++ (locals j).map (Prod.mk j)) := by
  obtain ⟨e, he, hr⟩ := hi
  obtain ⟨e', he', hr'⟩ := hj
  intro h
  exact hij (h i j e e' r (List.mem_append_left _ (List.mem_map_of_mem he))
    (List.mem_append_right _ (List.mem_map_of_mem he')) hr hr')

theorem exclusive_iff {locals : ι → List ε} {uses : ε → Option κ} :
    (∀ trace, Interleaving locals trace → Exclusive uses trace) ↔
      ∀ i j r, (∃ e ∈ locals i, uses e = some r) → (∃ e ∈ locals j, uses e = some r) → i = j := by
  constructor
  · intro h i j r hi hj
    by_contra hij
    exact not_exclusive_pair hij hi hj (h _ (interleaving_pair locals hij))
  · intro h trace htrace i j e e' r he he' hr hr'
    exact h i j r ⟨e, htrace.mem he, hr⟩ ⟨e', htrace.mem he', hr'⟩

end Yapas
