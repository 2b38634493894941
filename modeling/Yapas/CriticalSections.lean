import Mathlib.Algebra.GroupWithZero.Nat
import Mathlib.Logic.Relation
import Yapas.Interleaving

/-!
# Critical sections

Threads that share a state and change it only while they hold one lock.
A thread runs through a list of operations, and `body` says what the
steps of an operation are; between any two of them the other threads may
go on as far as the lock lets them.

An operation is as good as a single step: whatever has happened, the
state once the lock is free again is that of an interleaving of whole
operations (`run_serialised`), and at any moment before it is that of
whole operations and of the first steps of one more (`run_underway`).
Nobody ever waits for ever, since some thread can always go on
(`exists_step`) and every step brings the end nearer by one
(`Step.measure`).
-/

namespace Yapas

/-- The state, who holds the lock and the steps it still has to do, and
the operations each thread has still to begin. -/
structure Locked (ι ω σ : Type) where
  state : σ
  held : Option (ι × List (σ → σ))
  todo : ι → List ω

namespace Locked

variable {ι ω σ : Type} [DecidableEq ι]

def start (programs : ι → List ω) (x : σ) : Locked ι ω σ := ⟨x, none, programs⟩

/-- One step of some thread. -/
inductive Step (body : ι → ω → List (σ → σ)) : Locked ι ω σ → Locked ι ω σ → Prop
  | lock {c : Locked ι ω σ} {i : ι} {o : ω} {os : List ω} (free : c.held = none)
      (next : c.todo i = o :: os) :
      Step body c { c with held := some (i, body i o), todo := Function.update c.todo i os }
  | work {c : Locked ι ω σ} {i : ι} {f : σ → σ} {fs : List (σ → σ)}
      (held : c.held = some (i, f :: fs)) :
      Step body c { c with state := f c.state, held := some (i, fs) }
  | unlock {c : Locked ι ω σ} {i : ι} (held : c.held = some (i, [])) :
      Step body c { c with held := none }

def Run (body : ι → ω → List (σ → σ)) : Locked ι ω σ → Locked ι ω σ → Prop :=
  Relation.ReflTransGen (Step body)

/-- All threads are through. -/
structure Finished (c : Locked ι ω σ) : Prop where
  free : c.held = none
  through : ∀ i, c.todo i = []

/-! ## Operations are atomic -/

def perform (fs : List (σ → σ)) (x : σ) : σ := fs.foldl (fun x f => f x) x

/-- Whole operations, one after the other. -/
def performAll (body : ι → ω → List (σ → σ)) (trace : List (ι × ω)) (x : σ) : σ :=
  trace.foldl (fun x e => perform (body e.1 e.2) x) x

/-- The state once the lock is free again. -/
def settled (c : Locked ι ω σ) : σ :=
  perform ((c.held.map Prod.snd).getD []) c.state

/-- The state is that of whole operations in the order of `trace`, which
has those each thread has begun. -/
structure Serialised (body : ι → ω → List (σ → σ)) (programs : ι → List ω) (x : σ)
    (trace : List (ι × ω)) (c : Locked ι ω σ) : Prop where
  order : ∀ i, eventsOf i trace ++ c.todo i = programs i
  settled_eq : c.settled = performAll body trace x

variable {body : ι → ω → List (σ → σ)} {programs : ι → List ω} {x : σ} {c c' : Locked ι ω σ}

omit [DecidableEq ι] in
theorem performAll_append (body : ι → ω → List (σ → σ)) (trace trace' : List (ι × ω)) (x : σ) :
    performAll body (trace ++ trace') x = performAll body trace' (performAll body trace x) :=
  List.foldl_append

/-! ## An operation on its way -/

/-- The operations of `trace` have been done as a whole, and the steps
`done` of the one `now`, whose thread holds the lock. -/
structure Underway (body : ι → ω → List (σ → σ)) (programs : ι → List ω) (x : σ)
    (trace : List (ι × ω)) (now : Option (ι × ω)) (done : List (σ → σ)) (c : Locked ι ω σ) :
    Prop where
  order : ∀ i, eventsOf i (trace ++ now.toList) ++ c.todo i = programs i
  holder : c.held.map Prod.fst = now.map Prod.fst
  steps : (now.elim [] fun e => body e.1 e.2) = done ++ (c.held.map Prod.snd).getD []
  state_eq : c.state = perform done (performAll body trace x)

omit [DecidableEq ι] in
theorem perform_append (fs fs' : List (σ → σ)) (x : σ) :
    perform (fs ++ fs') x = perform fs' (perform fs x) := List.foldl_append

omit [DecidableEq ι] in
theorem performAll_now (body : ι → ω → List (σ → σ)) (trace : List (ι × ω))
    (now : Option (ι × ω)) (x : σ) : performAll body (trace ++ now.toList) x
      = perform (now.elim [] fun e => body e.1 e.2) (performAll body trace x) := by
  cases now with
  | none =>
      rw [Option.toList_none, List.append_nil]
      rfl
  | some e => exact performAll_append body trace [e] x

theorem Underway.step {trace : List (ι × ω)} {now : Option (ι × ω)} {done : List (σ → σ)}
    (h : Underway body programs x trace now done c) (hstep : Step body c c') :
    ∃ trace' now' done', Underway body programs x trace' now' done' c' := by
  obtain ⟨horder, hholder, hsteps, hstate⟩ := h
  cases hstep with
  | @lock i o os free next =>
      rw [free] at hholder hsteps
      obtain rfl : now = none := Option.map_eq_none_iff.mp hholder.symm
      obtain ⟨rfl, -⟩ := List.append_eq_nil_iff.mp hsteps.symm
      refine ⟨trace, some (i, o), [], fun j => ?_, rfl, rfl, hstate⟩
      show _ ++ Function.update c.todo i os j = _
      rw [eventsOf_append, ← horder j, eventsOf_append]
      by_cases hj : j = i
      · subst hj
        rw [Function.update_self, next]
        simp [eventsOf]
      · rw [Function.update_of_ne hj]
        simp [eventsOf, Ne.symm hj]
  | @work i f fs held =>
      rw [held] at hholder hsteps
      refine ⟨trace, now, done ++ [f], horder, hholder, ?_, ?_⟩
      · rw [hsteps, List.append_assoc]
        rfl
      · rw [perform_append, ← hstate]
        rfl
  | @unlock i held =>
      rw [held] at hsteps
      have hdone : (now.elim [] fun e => body e.1 e.2) = done := hsteps.trans (List.append_nil done)
      refine ⟨trace ++ now.toList, none, [], fun j => ?_, rfl, rfl, ?_⟩
      · rw [Option.toList_none, List.append_nil]
        exact horder j
      · rw [performAll_now, hdone]
        exact hstate

theorem run_underway (h : Run body (start programs x) c) :
    ∃ trace now done, Underway body programs x trace now done c := by
  induction h with
  | refl => exact ⟨[], none, [], fun _ => rfl, rfl, rfl, rfl⟩
  | tail _ hstep ih =>
      obtain ⟨trace, now, done, h⟩ := ih
      exact h.step hstep

theorem run_serialised (h : Run body (start programs x) c) :
    ∃ trace, Serialised body programs x trace c := by
  obtain ⟨trace, now, done, horder, -, hsteps, hstate⟩ := run_underway h
  refine ⟨trace ++ now.toList, horder, ?_⟩
  rw [settled, hstate, ← perform_append, ← hsteps, performAll_now]

/-- At the end all operations have been done, each of them at once. -/
theorem run_finished (h : Run body (start programs x) c) (hdone : c.Finished) :
    ∃ trace, (∀ i, eventsOf i trace = programs i) ∧ c.state = performAll body trace x := by
  obtain ⟨trace, horder, hsettled⟩ := run_serialised h
  refine ⟨trace, fun i => ?_, ?_⟩
  · rw [← horder i, hdone.through i, List.append_nil]
  · rw [← hsettled, settled, hdone.free]
    rfl

/-! ## What every step keeps -/

/-- The steps to be done by the thread that holds the lock are steps of
an operation. -/
theorem held_of_run (h : Run body (start programs x) c) :
    ∀ held ∈ c.held, ∃ o, held.2 ⊆ body held.1 o := by
  obtain ⟨trace, now, done, -, hholder, hsteps, -⟩ := run_underway h
  intro held hheld
  rw [hheld] at hholder hsteps
  obtain ⟨⟨i, o⟩, rfl, rfl⟩ := Option.map_eq_some_iff.mp hholder.symm
  have hbody : body held.1 o = done ++ held.2 := hsteps
  exact ⟨o, fun f hf => hbody ▸ List.mem_append_right done hf⟩

/-- What every step of an operation keeps holds from any moment on at
which it does. -/
theorem run_invariant {P : σ → Prop} (hbody : ∀ i o, ∀ f ∈ body i o, ∀ x, P x → P (f x))
    (hrun : Run body (start programs x) c) (hc : P c.state) (h : Run body c c') : P c'.state := by
  induction h with
  | refl => exact hc
  | tail hmore hstep ih =>
      cases hstep with
      | lock free next => exact ih
      | @work i f fs held =>
          obtain ⟨o, ho⟩ := held_of_run (hrun.trans hmore) _ held
          exact hbody i o f (ho List.mem_cons_self) _ ih
      | unlock held => exact ih

/-! ## All threads come to their end -/

theorem exists_step (body : ι → ω → List (σ → σ)) (h : ¬ c.Finished) : ∃ c', Step body c c' := by
  cases hheld : c.held with
  | some held =>
      obtain ⟨i, fs⟩ := held
      cases fs with
      | nil => exact ⟨_, .unlock hheld⟩
      | cons f fs => exact ⟨_, .work hheld⟩
  | none =>
      obtain ⟨i, hi⟩ : ∃ i, c.todo i ≠ [] := by
        by_contra hnot
        exact h ⟨hheld, fun i => by_contra fun hi => hnot ⟨i, hi⟩⟩
      obtain ⟨o, os, hnext⟩ := List.exists_cons_of_ne_nil hi
      exact ⟨_, .lock hheld hnext⟩

variable [Fintype ι]

/-- The steps that are still to be done: those of an operation, and two
for the lock. -/
def measure (body : ι → ω → List (σ → σ)) (c : Locked ι ω σ) : Nat :=
  (c.held.elim 0 fun held => held.2.length + 1)
    + ∑ i, ((c.todo i).map fun o => (body i o).length + 2).sum

theorem Step.measure (h : Step body c c') : measure body c' + 1 = measure body c := by
  cases h with
  | @lock i o os free next =>
      have hothers : ∀ j ∈ Finset.univ.erase i,
          ((Function.update c.todo i os j).map fun o => (body j o).length + 2).sum
            = ((c.todo j).map fun o => (body j o).length + 2).sum := fun j hj => by
        rw [Function.update_of_ne (Finset.ne_of_mem_erase hj)]
      simp only [Locked.measure, free, Option.elim]
      rw [← Finset.add_sum_erase _ _ (Finset.mem_univ i),
        ← Finset.add_sum_erase _ _ (Finset.mem_univ i), Finset.sum_congr rfl hothers,
        Function.update_self, next, List.map_cons, List.sum_cons]
      omega
  | work held =>
      simp only [Locked.measure, held, Option.elim, List.length_cons]
      omega
  | unlock held =>
      simp only [Locked.measure, held, Option.elim, List.length_nil]
      omega

theorem exists_finished (body : ι → ω → List (σ → σ)) (c : Locked ι ω σ) :
    ∃ c', Run body c c' ∧ c'.Finished := by
  induction hn : measure body c generalizing c with
  | zero =>
      refine ⟨c, .refl, by_contra fun hnot => ?_⟩
      obtain ⟨c', hstep⟩ := exists_step body hnot
      have := hstep.measure
      omega
  | succ n ih =>
      by_cases hdone : c.Finished
      · exact ⟨c, .refl, hdone⟩
      obtain ⟨c₁, hstep⟩ := exists_step body hdone
      obtain ⟨c', hrun, hdone'⟩ := ih c₁ (by have := hstep.measure; omega)
      exact ⟨c', hrun.head hstep, hdone'⟩

end Locked

end Yapas
