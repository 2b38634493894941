import Mathlib.Data.List.Basic

/-!
# The statistics queue

`StatisticsQueue`, a ring buffer that is only ever written to: `insert`
goes one slot forward and overwrites what is there, `get` goes back from
the slot written last. Seen from outside it is a window on the values
inserted, the latest first (`Window`). A fresh queue starts at slot 0,
so the first value goes to slot 1, and slot 0 is filled when the slots
wrap around. `clean` zeroes as many slots as are filled, from slot 0 on, and
so misses the latest value until the queue is full (`clean_erases_iff`).

The members are `int`s; a sum that leaves the range of an `int` wraps
here, as it does on the machine, while C++ leaves it open. Only with more
than 2^30 slots there is one, in `get`, and its difference wraps back:
what is said of so large a queue rests on the wrap.
-/

namespace Yapas

/-- The value of an `int` expression. -/
def int32 (x : Int) : Int := x.bmod 4294967296

theorem int32_eq {x : Int} (hlo : -2147483648 ≤ x) (hhi : x < 2147483648) : int32 x = x :=
  Int.bmod_eq_of_le_mul_two (by omega) (by omega)

/-- A sum that wrapped takes part in a difference as if it had not. -/
theorem int32_sub_int32 (x y : Int) : int32 (int32 x - y) = int32 (x - y) :=
  Int.bmod_sub_bmod

structure StatisticsQueue (α : Type) where
  v : List α
  current : Int
  size : Int
  max : Int

namespace StatisticsQueue

variable {α : Type}

/-- A constructed queue on the slots `new T[qmax]` returned. -/
def new (slots : List α) : StatisticsQueue α := ⟨slots, 0, 0, slots.length⟩

def isFull (q : StatisticsQueue α) : Bool := q.size = q.max

def isEmpty (q : StatisticsQueue α) : Bool := q.size = 0

/-- The slot an index stands for; `none` is outside the array. -/
def slot (q : StatisticsQueue α) (idx : Int) : Option Nat :=
  if 0 ≤ idx ∧ idx < q.v.length then some idx.toNat else none

/-- `none` is a write outside the array. -/
def insert (q : StatisticsQueue α) (t : α) : Option (StatisticsQueue α) :=
  let size := if q.isFull then q.size else int32 (q.size + 1)
  let current := if int32 (q.current + 1) = q.max then 0 else int32 (q.current + 1)
  (q.slot current).map fun i => { q with v := q.v.set i t, current, size }

/-- What the pointer points to, `none` for the null pointer; the outer
`none` is a pointer outside the array. -/
def load (q : StatisticsQueue α) (idx : Int) : Option (Option α) :=
  (q.slot idx).map fun i => q.v[i]?

/-- `get()`. -/
def getLatest (q : StatisticsQueue α) : Option (Option α) :=
  if q.isEmpty then some none else q.load q.current

/-- `get(offset)`. -/
def get (q : StatisticsQueue α) (offset : Int) : Option (Option α) :=
  if offset < q.size then
    if q.current < offset then q.load (int32 (int32 (q.max + q.current) - offset))
    else q.load (int32 (q.current - offset))
  else some none

/-- `memset` of the first `_size` slots, where `zero` is the value of
which all bytes are 0; `none` is a write outside the array. -/
def clean (zero : α) (q : StatisticsQueue α) : Option (StatisticsQueue α) :=
  if 0 ≤ q.size ∧ q.size ≤ q.v.length then
    some { q with v := List.replicate q.size.toNat zero ++ q.v.drop q.size.toNat }
  else none

def insertAll (q : StatisticsQueue α) (ts : List α) : Option (StatisticsQueue α) :=
  ts.foldlM insert q

/-! ## The window -/

/-- The slot `k` steps back from slot `c`. -/
def back (max c k : Nat) : Nat := if c < k then max + c - k else c - k

/-- The queue shows the values `recent`, the latest first, as far as
they are in the window. -/
structure Window (q : StatisticsQueue α) (max : Nat) (recent : List α) (c : Nat) : Prop where
  max_eq : q.max = max
  length_eq : q.v.length = max
  current_eq : q.current = c
  current_lt : c < max
  size_eq : q.size = min recent.length max
  slots : ∀ k, k < recent.length → k < max → q.v[back max c k]? = recent[k]?

theorem window_new {slots : List α} (hmax : 1 ≤ slots.length) :
    (new slots).Window slots.length [] 0 := by
  constructor
  · rfl
  · rfl
  · rfl
  · exact hmax
  · simp [new]
  · intro k hk
    cases hk

theorem slot_eq {q : StatisticsQueue α} {i : Nat} (h : i < q.v.length) : q.slot i = some i := by
  rw [slot, if_pos ⟨by omega, by omega⟩, Int.toNat_natCast]

/-- The slot after slot `c`. -/
def next (max c : Nat) : Nat := if c + 1 = max then 0 else c + 1

theorem next_lt {max c : Nat} (h : c < max) : next max c < max := by
  unfold next
  split <;> omega

/-- One step back from the next slot leads to where one was. -/
theorem back_next {max c k : Nat} (hk : k + 1 < max) :
    back max (next max c) (k + 1) = back max c k ∧ back max c k ≠ next max c := by
  unfold back next
  split <;> split <;> split <;> omega

theorem Window.insert {q : StatisticsQueue α} {max : Nat} {recent : List α} {c : Nat}
    (h : q.Window max recent c) (hint : max < 2147483648) (t : α) :
    ∃ q', q.insert t = some q' ∧ q'.Window max (t :: recent) (next max c) := by
  obtain ⟨hmax, hlen, hcur, hlt, hsize, hslots⟩ := h
  have hcurrent : (if int32 (q.current + 1) = q.max then 0 else int32 (q.current + 1))
      = (next max c : Int) := by
    rw [hcur, hmax, int32_eq (by omega) (by omega), next]
    split <;> split <;> omega
  have hsize' : (if q.isFull then q.size else int32 (q.size + 1))
      = (min (t :: recent).length max : Nat) := by
    rw [isFull, hsize, hmax, List.length_cons]
    simp only [decide_eq_true_eq]
    split
    · omega
    · rw [int32_eq (by omega) (by omega)]
      omega
  have hnext := next_lt hlt
  refine ⟨⟨q.v.set (next max c) t, next max c, (min (t :: recent).length max : Nat), max⟩, ?_, ?_⟩
  · simp only [StatisticsQueue.insert]
    rw [hcurrent, hsize', slot_eq (by omega), Option.map_some, hmax]
  · constructor
    · rfl
    · exact List.length_set.trans hlen
    · rfl
    · exact hnext
    · simp
    · intro k hk hkmax
      cases k with
      | zero =>
          have hhere : back max (next max c) 0 = next max c := if_neg (Nat.not_lt_zero _)
          rw [hhere, List.getElem?_set_self (by omega), List.getElem?_cons_zero]
      | succ k =>
          -- the values before `t` are in their slots still, one step further back
          obtain ⟨hback, hne⟩ := back_next (c := c) hkmax
          rw [hback, List.getElem?_set_ne hne.symm, List.getElem?_cons_succ]
          rw [List.length_cons] at hk
          exact hslots k (by omega) (by omega)

theorem Window.insertAll {max : Nat} (hint : max < 2147483648) : ∀ {q : StatisticsQueue α}
    {recent : List α} {c : Nat} (ts : List α), q.Window max recent c →
    ∃ q' c', q.insertAll ts = some q' ∧ q'.Window max (ts.reverse ++ recent) c'
  | q, recent, c, [], h => ⟨q, c, rfl, h⟩
  | q, recent, c, t :: ts, h => by
      obtain ⟨q₁, hq₁, hwindow⟩ := h.insert hint t
      obtain ⟨q', c', hq', hwindow'⟩ := Window.insertAll hint ts hwindow
      refine ⟨q', c', ?_, by simpa using hwindow'⟩
      rw [StatisticsQueue.insertAll, List.foldlM_cons, hq₁]
      exact hq'

theorem Window.load {q : StatisticsQueue α} {max : Nat} {recent : List α} {c : Nat}
    (h : q.Window max recent c) {k : Nat} (hk : k < recent.length) (hkmax : k < max) :
    q.load (back max c k) = some recent[k]? := by
  have hlt := h.current_lt
  have hback : back max c k < max := by
    unfold back
    split <;> omega
  rw [StatisticsQueue.load, slot_eq (by rw [h.length_eq]; exact hback), Option.map_some,
    h.slots k hk hkmax]

theorem Window.get {q : StatisticsQueue α} {max : Nat} {recent : List α} {c : Nat}
    (h : q.Window max recent c) (hint : max < 2147483648) (k : Nat) :
    q.get k = some (if (k : Int) < q.size then recent[k]? else none) := by
  rw [StatisticsQueue.get]
  by_cases hk : (k : Int) < q.size
  · rw [if_pos hk, if_pos hk]
    have hsize := h.size_eq
    have hlt := h.current_lt
    rw [← h.load (by omega) (by omega), h.current_eq, h.max_eq, back, int32_sub_int32]
    by_cases hc : c < k
    · rw [if_pos hc, if_pos (by omega), int32_eq (by omega) (by omega)]
      congr 1
      omega
    · rw [if_neg hc, if_neg (by omega), int32_eq (by omega) (by omega)]
      congr 1
      omega
  · rw [if_neg hk, if_neg hk]

theorem Window.getLatest {q : StatisticsQueue α} {max : Nat} {recent : List α} {c : Nat}
    (h : q.Window max recent c) (hint : max < 2147483648) : q.getLatest = q.get 0 := by
  have hlt := h.current_lt
  have hsize := h.size_eq
  have hcur := h.current_eq
  rw [StatisticsQueue.getLatest, StatisticsQueue.get, isEmpty]
  by_cases hempty : q.size = 0
  · rw [if_pos (decide_eq_true hempty), if_neg (by omega)]
  · rw [if_neg (by simpa using hempty), if_pos (by omega), if_neg (by omega), Int.sub_zero,
      int32_eq (by omega) (by omega)]

/-- After any number of insertions into a fresh queue, an access is
inside the array and shows the value inserted that many steps before the
latest, as long as it is among the last `max`. -/
theorem insertAll_window (slots : List α) (hmax : 1 ≤ slots.length)
    (hint : slots.length < 2147483648) (ts : List α) :
    ∃ q, (new slots).insertAll ts = some q
      ∧ q.size = min ts.length slots.length
      ∧ (∀ k : Nat, q.get k = some (if (k : Int) < q.size then ts.reverse[k]? else none))
      ∧ q.getLatest = q.get 0 := by
  obtain ⟨q, c, hq, hwindow⟩ := (window_new hmax).insertAll hint ts
  rw [List.append_nil] at hwindow
  refine ⟨q, hq, ?_, hwindow.get hint, hwindow.getLatest hint⟩
  rw [hwindow.size_eq, List.length_reverse]

theorem insertAll_window_wrapped :
    ∃ q, (new [0, 0]).insertAll [5, 6, 7] = some q ∧ q.size = 2 ∧ q.get 1 = some (some 6) := by
  obtain ⟨q, hq, hsize, hget, -⟩ := insertAll_window [0, 0] (by decide) (by decide) [5, 6, 7]
  have hsize' : q.size = 2 := hsize
  refine ⟨q, hq, hsize', ?_⟩
  have hone := hget 1
  rw [hsize'] at hone
  exact hone

/-! ## Cleaning -/

inductive Op (α : Type) where
  | insert (t : α)
  | clean

def apply (zero : α) (q : StatisticsQueue α) : Op α → Option (StatisticsQueue α)
  | .insert t => q.insert t
  | .clean => q.clean zero

def run (zero : α) (q : StatisticsQueue α) (ops : List (Op α)) : Option (StatisticsQueue α) :=
  ops.foldlM (apply zero) q

/-- Until the queue is full the latest value is in the slot whose number
is the size. -/
structure Filled (q : StatisticsQueue α) (max : Nat) (recent : List α) (c : Nat) : Prop extends
    q.Window max recent c where
  filled : recent.length < max → c = recent.length

/-- What the window shows after `clean`. -/
def erased (zero : α) (max : Nat) (recent : List α) : List α :=
  if recent.length < max then recent.take 1 ++ List.replicate (recent.length - 1) zero
  else List.replicate recent.length zero

theorem length_erased (zero : α) (max : Nat) (recent : List α) :
    (erased zero max recent).length = recent.length := by
  rw [erased]
  split
  · rw [List.length_append, List.length_take, List.length_replicate]
    omega
  · exact List.length_replicate

theorem getElem?_erased {zero : α} {max k : Nat} {recent : List α} (hk : k < recent.length) :
    (erased zero max recent)[k]?
      = if recent.length < max ∧ k = 0 then recent[0]? else some zero := by
  rw [erased]
  by_cases hroom : recent.length < max
  · cases recent with
    | nil => cases hk
    | cons t recent =>
        cases k with
        | zero =>
            rw [if_pos hroom, if_pos ⟨hroom, rfl⟩]
            rfl
        | succ k =>
            rw [if_pos hroom, if_neg (fun h => Nat.succ_ne_zero k h.2)]
            exact List.getElem?_replicate_of_lt (Nat.lt_of_succ_lt_succ hk)
  · rw [if_neg hroom, if_neg (fun h => hroom h.1), List.getElem?_replicate_of_lt hk]

/-- The slots after a `memset` of the first `n`. -/
theorem getElem?_cleaned {zero : α} {v : List α} {n : Nat} (i : Nat) :
    (List.replicate n zero ++ v.drop n)[i]? = if i < n then some zero else v[i]? := by
  split
  · rename_i hlt
    rw [List.getElem?_append_left (by rwa [List.length_replicate]),
      List.getElem?_replicate_of_lt hlt]
  · rename_i hge
    have hle : n ≤ i := Nat.le_of_not_lt hge
    rw [List.getElem?_append_right (by rwa [List.length_replicate]), List.length_replicate,
      List.getElem?_drop, Nat.add_sub_cancel' hle]

theorem Filled.insert {q : StatisticsQueue α} {max : Nat} {recent : List α} {c : Nat}
    (h : q.Filled max recent c) (hint : max < 2147483648) (t : α) :
    ∃ q' c', q.insert t = some q' ∧ q'.Filled max (t :: recent) c' := by
  obtain ⟨q', hq', hwindow⟩ := h.toWindow.insert hint t
  refine ⟨q', _, hq', hwindow, fun hlt => ?_⟩
  rw [List.length_cons] at hlt ⊢
  rw [next, h.filled (by omega), if_neg (by omega)]

theorem Filled.clean {q : StatisticsQueue α} {max : Nat} {recent : List α} {c : Nat}
    (h : q.Filled max recent c) (zero : α) :
    ∃ q', q.clean zero = some q' ∧ q'.size = q.size
      ∧ q'.Filled max (erased zero max recent) c := by
  obtain ⟨⟨hmax, hlen, hcur, hlt, hsize, hslots⟩, hfilled⟩ := h
  have hpos : 0 ≤ q.size ∧ q.size ≤ q.v.length := by omega
  have hnat : q.size.toNat = min recent.length max := by omega
  refine ⟨_, if_pos hpos, rfl, ⟨hmax, ?_, hcur, hlt, ?_, ?_⟩, ?_⟩
  · rw [List.length_append, List.length_replicate, List.length_drop]
    omega
  · rw [length_erased]
    exact hsize
  · intro k hk hkmax
    rw [length_erased] at hk
    rw [getElem?_cleaned, getElem?_erased hk, hnat]
    by_cases hroom : recent.length < max
    · have hback : back max c k = recent.length - k := by
        rw [back, hfilled hroom, if_neg (by omega)]
      by_cases hzero : k = 0
      · -- the slot of the latest value is the first one that is left
        subst hzero
        rw [if_neg (by omega), if_pos ⟨hroom, rfl⟩, hslots 0 hk hkmax]
      · rw [if_pos (by omega), if_neg (fun h => hzero h.2)]
    · have hback : back max c k < max := by
        rw [back]
        split <;> omega
      rw [if_pos (by omega), if_neg (fun h => hroom h.1)]
  · intro hroom
    rw [length_erased] at hroom ⊢
    exact hfilled hroom

theorem Filled.run {max : Nat} (hint : max < 2147483648) (zero : α) :
    ∀ {q : StatisticsQueue α} {recent : List α} {c : Nat} (ops : List (Op α)),
    q.Filled max recent c → ∃ q' recent' c', q.run zero ops = some q' ∧ q'.Filled max recent' c'
  | q, recent, c, [], h => ⟨q, recent, c, rfl, h⟩
  | q, recent, c, op :: ops, h => by
      obtain ⟨q₁, recent₁, c₁, hq₁, h₁⟩ : ∃ q₁ recent₁ c₁, q.apply zero op = some q₁
          ∧ q₁.Filled max recent₁ c₁ := by
        cases op with
        | insert t =>
            obtain ⟨q₁, c₁, hq₁, h₁⟩ := h.insert hint t
            exact ⟨q₁, _, c₁, hq₁, h₁⟩
        | clean =>
            obtain ⟨q₁, hq₁, -, h₁⟩ := h.clean zero
            exact ⟨q₁, _, c, hq₁, h₁⟩
      obtain ⟨q', recent', c', hq', h'⟩ := Filled.run hint zero ops h₁
      refine ⟨q', recent', c', ?_, h'⟩
      rw [StatisticsQueue.run, List.foldlM_cons, hq₁]
      exact hq'

theorem erased_zero_iff {zero : α} {max : Nat} {recent : List α} :
    (∀ k, k < min recent.length max → (erased zero max recent)[k]? = some zero)
      ↔ recent.length = 0 ∨ max ≤ recent.length ∨ recent[0]? = some zero := by
  have hshown : ∀ k, k < min recent.length max →
      ((erased zero max recent)[k]? = some zero
        ↔ (recent.length < max ∧ k = 0 → recent[0]? = some zero)) := by
    intro k hk
    rw [getElem?_erased (by omega)]
    split
    · rename_i h
      exact (imp_iff_right h).symm
    · rename_i h
      exact iff_of_true rfl fun h' => absurd h' h
  rw [forall₂_congr hshown]
  constructor
  · intro h
    by_contra hnot
    rw [not_or, not_or] at hnot
    exact hnot.2.2 (h 0 (by omega) ⟨by omega, rfl⟩)
  · rintro (hnone | hfull | hzero) k hk ⟨hroom, -⟩
    · omega
    · omega
    · exact hzero

/-- After any number of insertions and cleanings `clean` leaves nothing
but zero to be seen exactly when the queue is empty or full, or the
latest value is zero already. -/
theorem clean_erases_iff (zero : α) (slots : List α) (hmax : 1 ≤ slots.length)
    (hint : slots.length < 2147483648) (ops : List (Op α)) :
    ∃ q q', (new slots).run zero ops = some q ∧ q.clean zero = some q' ∧
      ((∀ k : Nat, (k : Int) < q'.size → q'.get k = some (some zero))
        ↔ q.isEmpty ∨ q.isFull ∨ q.getLatest = some (some zero)) := by
  have hnew : (new slots).Filled slots.length [] 0 := ⟨window_new hmax, fun _ => rfl⟩
  obtain ⟨q, recent, c, hq, h⟩ := hnew.run hint zero ops
  obtain ⟨q', hq', hsize', h'⟩ := h.clean zero
  refine ⟨q, q', hq, hq', ?_⟩
  have hsize := h.size_eq
  have hshown : (∀ k : Nat, (k : Int) < q'.size → q'.get k = some (some zero))
      ↔ ∀ k, k < min recent.length slots.length →
        (erased zero slots.length recent)[k]? = some zero := by
    refine forall_congr' fun k => ?_
    rw [hsize', hsize]
    refine ⟨fun hk hlt => ?_, fun hk hlt => ?_⟩
    · have hget := hk (by omega)
      rw [h'.toWindow.get hint, hsize', hsize, if_pos (by omega)] at hget
      exact Option.some.inj hget
    · rw [h'.toWindow.get hint, hsize', hsize, if_pos hlt, hk (by omega)]
  have hempty : q.isEmpty ↔ recent.length = 0 := by
    rw [isEmpty, decide_eq_true_eq]
    omega
  have hfull : q.isFull ↔ slots.length ≤ recent.length := by
    rw [isFull, decide_eq_true_eq, h.max_eq]
    omega
  rw [hshown, erased_zero_iff, hempty, hfull]
  by_cases hzero : recent.length = 0
  · simp [hzero]
  · have hlatest : q.getLatest = some recent[0]? := by
      rw [h.toWindow.getLatest hint]
      exact (h.toWindow.get hint 0).trans (by rw [if_pos (by omega)])
    rw [hlatest, Option.some_inj]

theorem clean_erases_full : ∃ q q', (new [0, 0]).run 0 [.insert 5, .clean, .insert 6] = some q
    ∧ q.clean 0 = some q' ∧ q'.get 0 = some (some 0) ∧ q'.get 1 = some (some 0) := by
  obtain ⟨q, q', hq, hq', hiff⟩ :=
    clean_erases_iff 0 [0, 0] (by decide) (by decide) [.insert 5, .clean, .insert 6]
  obtain ⟨q₁, q₁', hq₁, hq₁', hfull, hsize⟩ : ∃ q₁ q₁',
      (new [0, 0]).run 0 [.insert 5, .clean, .insert 6] = some q₁ ∧ q₁.clean 0 = some q₁'
        ∧ q₁.isFull ∧ q₁'.size = 2 := ⟨_, _, rfl, rfl, rfl, rfl⟩
  obtain rfl : q = q₁ := Option.some.inj (hq.symm.trans hq₁)
  obtain rfl : q' = q₁' := Option.some.inj (hq'.symm.trans hq₁')
  have hzero := hiff.mpr (Or.inr (Or.inl hfull))
  rw [hsize] at hzero
  exact ⟨q, q', hq, hq', hzero 0 (by decide), hzero 1 (by decide)⟩

/-- One value in three slots is still there after `clean`. -/
theorem clean_keeps_latest : ∃ q q', (new [0, 0, 0]).run 0 [.insert 5] = some q
    ∧ q.clean 0 = some q' ∧ 0 < q'.size ∧ q'.get 0 = some (some 5) :=
  ⟨_, _, rfl, rfl, by decide, rfl⟩

end StatisticsQueue

end Yapas
