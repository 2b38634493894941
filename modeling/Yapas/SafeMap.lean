import Mathlib.Data.Char
import Mathlib.Data.List.DropRight
import Mathlib.Data.List.Lex
import Yapas.CriticalSections
import Yapas.SearchTree
import Yapas.StatisticsQueue
import Yapas.Text

/-!
# The map with a lock

`Counter` of `safe_map.cc`, and the threads that its `main` starts: each
inserts its numbers under their names, clears the map once on the way,
and counts.

All of it is done under the lock, and what the threads do is atomic then.
So no count is lost (`test_counter`), and although the threads run over
each other, and clear away what others have inserted, the map is the same
at the end of every run: it has the numbers behind the clearing
(`test_map`). Every thread that clears inserts those again, and nobody
inserts another one after the last clearing.
-/

namespace Yapas

/-- The map and the counter, and the register in which each thread counts
up. -/
structure Counter (ι K V : Type) where
  map : Tree (K × V)
  counter : Int
  register : ι → Int

namespace Counter

/-- What is done with the lock held. -/
inductive Op (K V : Type) where
  | insert (key : K) (v : V)
  | clear
  | increment
  deriving DecidableEq

section Operations

variable {ι K V : Type} [DecidableEq ι] [LinearOrder K]

def new (register : ι → Int) : Counter ι K V := ⟨.leaf, 0, register⟩

/-- The order of a map's entries. -/
def keyLess (x y : K × V) : Bool := decide (x.1 < y.1)

/-- The steps of `insert`, of `clear` and of one `counter_++` of `add`. -/
def body (balance : Balance (K × V)) (i : ι) : Op K V → List (Counter ι K V → Counter ι K V)
  | .insert key v => [fun s => { s with map := Yapas.add balance keyLess s.map (key, v) }]
  | .clear => [fun s => { s with map := .leaf }]
  | .increment => [
      fun s => { s with register := Function.update s.register i s.counter },
      fun s => { s with counter := int32 (s.register i + 1) }]

/-- `add`. -/
def addTimes (n : Nat) : List (Op K V) := List.replicate n .increment

end Operations

/-- `snprintf` with `ID_%d`. -/
def name (i : Nat) : Text := "ID_".toList ++ decimal i

/-- What a thread does. -/
def test (rounds cleared additions : Nat) : List (Op Text Int) :=
  (List.range rounds).flatMap (fun i =>
    .insert (name i) i :: if i = cleared then [.clear] else []) ++ addTimes additions

/-! ## What the operations make of the map and of the counter -/

section Effects

variable {ι K V : Type} [DecidableEq ι] [LinearOrder K]

/-- What an operation makes of the map. -/
def mapAfter (balance : Balance (K × V)) (t : Tree (K × V)) : Op K V → Tree (K × V)
  | .insert key v => Yapas.add balance keyLess t (key, v)
  | .clear => .leaf
  | .increment => t

def isIncrement : Op K V → Bool
  | .increment => true
  | _ => false

variable (balance : Balance (K × V)) (trace : List (ι × Op K V)) (s : Counter ι K V)

theorem performAll_map : (Locked.performAll (body balance) trace s).map
    = (trace.map Prod.snd).foldl (mapAfter balance) s.map := by
  induction trace generalizing s with
  | nil => rfl
  | cons e trace ih =>
      rw [Locked.performAll, List.foldl_cons, ← Locked.performAll, ih, List.map_cons,
        List.foldl_cons]
      obtain ⟨i, o⟩ := e
      cases o <;> rfl

theorem performAll_counter (n : Int) (h : s.counter = int32 n) :
    (Locked.performAll (body balance) trace s).counter
      = int32 (n + trace.countP fun e => isIncrement e.2) := by
  induction trace generalizing s n with
  | nil => simpa [Locked.performAll] using h
  | cons e trace ih =>
      obtain ⟨i, o⟩ := e
      rw [Locked.performAll, List.foldl_cons, ← Locked.performAll, List.countP_cons]
      cases o with
      | insert key v => exact ih _ n h
      | clear => exact ih _ n h
      | increment =>
          have hnext : (Locked.perform (body balance i (.increment : Op K V)) s).counter
              = int32 (n + 1) := by
            show int32 (Function.update s.register i s.counter i + 1) = _
            rw [Function.update_self, h, int32, int32, int32, Int.bmod_add_bmod]
          rw [ih _ (n + 1) hnext]
          congr 1
          simp [isIncrement]
          omega

/-- What was in the map before it is cleared makes no difference. -/
theorem mapAfter_clear (t : Tree (K × V)) (ops ops' : List (Op K V)) :
    (ops ++ .clear :: ops').foldl (mapAfter balance) t = ops'.foldl (mapAfter balance) .leaf := by
  rw [List.foldl_append, List.foldl_cons]
  rfl

theorem keyLess_trans (xs : List (K × V)) : TransOn keyLess xs := by
  intro x _ y _ z _ hxy hyz
  rw [keyLess, decide_eq_true_iff] at hxy hyz ⊢
  exact hxy.trans hyz

theorem comparable_keyLess_iff {x y : K × V} : Comparable keyLess x y ↔ x.1 ≠ y.1 := by
  rw [Comparable, keyLess, keyLess, decide_eq_true_iff, decide_eq_true_iff, ne_iff_lt_or_gt]

/-- The map is in order, and has what was inserted, when every key comes
with one value only. -/
theorem mapAfter_inserts {ops : List (Op K V)} (hclear : .clear ∉ ops)
    (hvalue : ∀ key v v', .insert key v ∈ ops → .insert key v' ∈ ops → v = v') :
    (ops.foldl (mapAfter balance) .leaf).toList.Pairwise (fun x y => keyLess x y) ∧
      ∀ x, x ∈ (ops.foldl (mapAfter balance) .leaf).toList ↔ .insert x.1 x.2 ∈ ops := by
  induction ops using List.reverseRecOn with
  | nil => exact ⟨List.Pairwise.nil, fun x => iff_of_false List.not_mem_nil List.not_mem_nil⟩
  | append_singleton ops o ih =>
      obtain ⟨hsorted, hmem⟩ := ih (fun h => hclear (List.mem_append_left _ h))
        fun key v v' h h' =>
          hvalue key v v' (List.mem_append_left _ h) (List.mem_append_left _ h')
      rw [List.foldl_concat]
      cases o with
      | clear => exact absurd List.mem_concat_self hclear
      | increment =>
          refine ⟨hsorted, fun x => (hmem x).trans ?_⟩
          simp
      | insert key v =>
          refine ⟨add_sorted hsorted (keyLess_trans _), fun x => ?_⟩
          rw [mapAfter, mem_add_iff hsorted (keyLess_trans _), hmem, List.mem_append,
            List.mem_singleton, Op.insert.injEq]
          constructor
          · rintro (hx | ⟨rfl, -⟩)
            · exact Or.inl hx
            · exact Or.inr ⟨rfl, rfl⟩
          · rintro (hx | ⟨hkey, hv⟩)
            · exact Or.inl hx
            have hx : x = (key, v) := Prod.ext hkey hv
            by_cases hall : ∀ y ∈ (ops.foldl (mapAfter balance) .leaf).toList,
                Comparable keyLess y (key, v)
            · exact Or.inr ⟨hx, hall⟩
            -- the key is there already, and with the same value
            obtain ⟨y, hy, hnot⟩ : ∃ y ∈ (ops.foldl (mapAfter balance) .leaf).toList,
                ¬ Comparable keyLess y (key, v) := by simpa using hall
            rw [comparable_keyLess_iff, not_not] at hnot
            have hold := (hmem y).mp hy
            rw [hnot] at hold
            have hsame : y.2 = v := hvalue key y.2 v (List.mem_append_left _ hold)
              List.mem_concat_self
            rw [hsame] at hold
            exact Or.inl (hx ▸ hold)

end Effects

/-! ## The threads -/

/-- A thread's inserting behind its clearing. -/
def reinserts (rounds cleared : Nat) : List (Op Text Int) :=
  (List.range' (cleared + 1) (rounds - cleared - 1)).map fun j => .insert (name j) j

theorem decimal_injective : Function.Injective decimal :=
  Function.LeftInverse.injective (g := fun s => Nat.ofDigitChars 10 s 0)
    fun _ => Nat.ofDigitChars_ten_toDigits

theorem name_injective : Function.Injective name := fun _ _ h =>
  decimal_injective (List.append_cancel_left h)

variable {rounds cleared additions : Nat}

theorem countP_test :
    (test rounds cleared additions).countP isIncrement = additions := by
  have hrounds : (List.range rounds).countP (fun _ => false) = 0 := by simp
  rw [test, List.countP_append, List.countP_flatMap, addTimes, List.countP_replicate]
  have hnone : ∀ i : Nat, ((Op.insert (name i) (i : Int) ::
      if i = cleared then [.clear] else []).countP isIncrement) = 0 := by
    intro i
    by_cases hi : i = cleared
    · rw [if_pos hi]; rfl
    · rw [if_neg hi]; rfl
  simp [Function.comp_def, hnone, isIncrement]

/-- Each thread clears the map once. -/
theorem test_split (additions : Nat) (h : cleared < rounds) : ∃ before,
    test rounds cleared additions
      = before ++ .clear :: (reinserts rounds cleared ++ addTimes additions) := by
  have hrange : List.range rounds = List.range cleared
      ++ cleared :: List.range' (cleared + 1) (rounds - cleared - 1) := by
    rw [List.range_eq_range', List.range_eq_range', ← List.range'_succ,
      show rounds - cleared - 1 + 1 = rounds - cleared by omega]
    have := List.range'_append_1 (s := 0) (m := cleared) (n := rounds - cleared)
    rw [Nat.zero_add, show cleared + (rounds - cleared) = rounds by omega] at this
    exact this.symm
  have hbehind : ∀ js : List Nat, (∀ j ∈ js, j ≠ cleared) →
      (js.flatMap fun j => (.insert (name j) j : Op Text Int) ::
        if j = cleared then [.clear] else []) = js.map fun j => .insert (name j) j := by
    intro js hjs
    rw [List.map_eq_flatMap]
    exact List.flatMap_congr fun j hj => by rw [if_neg (hjs j hj)]
  refine ⟨(List.range cleared).map (fun j => .insert (name j) j)
    ++ [.insert (name cleared) cleared], ?_⟩
  rw [test, hrange, List.flatMap_append, List.flatMap_cons, if_pos rfl,
    hbehind _ (fun j hj => (List.mem_range.mp hj).ne),
    hbehind _ (fun j hj => by have := List.mem_range'_1.mp hj; omega), reinserts]
  simp

theorem insert_mem_reinserts {key : Text} {v : Int} :
    .insert key v ∈ reinserts rounds cleared ++ addTimes additions
      ↔ ∃ j : Nat, cleared < j ∧ j < rounds ∧ key = name j ∧ v = j := by
  simp only [reinserts, addTimes, List.mem_append, List.mem_map, List.mem_range'_1,
    List.mem_replicate, Op.insert.injEq, reduceCtorEq, and_false, or_false]
  constructor
  · rintro ⟨j, hj, rfl, rfl⟩
    exact ⟨j, by omega, by omega, rfl, rfl⟩
  · rintro ⟨j, hlo, hhi, rfl, rfl⟩
    exact ⟨j, by omega, rfl, rfl⟩

theorem clear_not_mem_reinserts : .clear ∉ reinserts rounds cleared ++ addTimes additions := by
  simp [reinserts, addTimes]

/-- The end of a list that does not reach the last `x`. -/
theorem suffix_behind {α : Type} {x : α} {as bs cs ds : List α} (h : as ++ bs = cs ++ x :: ds)
    (hx : x ∉ bs) : bs <:+ ds := by
  have hbs : bs <:+ cs ++ x :: ds := ⟨as, h⟩
  rcases List.suffix_or_suffix_of_suffix hbs (List.suffix_append cs (x :: ds)) with hs | hs
  · rcases List.suffix_cons_iff.mp hs with rfl | hs
    · exact absurd List.mem_cons_self hx
    · exact hs
  · exact absurd (hs.subset List.mem_cons_self) hx

theorem exists_last {α : Type} {p : α → Bool} {xs : List α} (h : ∃ x ∈ xs, p x) :
    ∃ before x after, xs = before ++ x :: after ∧ p x ∧ ∀ y ∈ after, ¬ p y := by
  cases hfind : xs.reverse.find? p with
  | none =>
      obtain ⟨x, hx, hp⟩ := h
      exact absurd hp (List.find?_eq_none.mp hfind x (List.mem_reverse.mpr hx))
  | some x =>
      obtain ⟨hp, after, before, heq, hafter⟩ := List.find?_eq_some_iff_append.mp hfind
      refine ⟨before.reverse, x, after.reverse, ?_, hp, fun y hy => ?_⟩
      · rw [← List.reverse_reverse xs, heq]
        simp
      · simpa using hafter y (List.mem_reverse.mp hy)

/-- However the threads are mixed, what is inserted behind the last
clearing is what every thread inserts behind its own. -/
theorem last_clear {n : Nat} (hn : 0 < n) (h : cleared < rounds)
    {trace : List (Fin n × Op Text Int)}
    (horder : ∀ i, eventsOf i trace = test rounds cleared additions) :
    ∃ before after, trace.map Prod.snd = before ++ .clear :: after ∧
      ∀ o, o ∈ after ↔ o ∈ reinserts rounds cleared ++ addTimes additions := by
  obtain ⟨front, hsplit⟩ := test_split additions h
  have hsome : ∃ e ∈ trace, decide (e.2 = Op.clear) = true := by
    have hmem : Op.clear ∈ eventsOf ⟨0, hn⟩ trace := by rw [horder, hsplit]; simp
    obtain ⟨e, he, heq⟩ := List.mem_map.mp hmem
    exact ⟨e, (List.mem_filter.mp he).1, decide_eq_true heq⟩
  obtain ⟨before, ⟨i, o⟩, after, rfl, ho, hafter⟩ := exists_last hsome
  obtain rfl : o = .clear := of_decide_eq_true ho
  have hnot : ∀ j, Op.clear ∉ eventsOf j after := by
    intro j hj
    obtain ⟨e, he, heq⟩ := List.mem_map.mp hj
    exact hafter e (List.mem_filter.mp he).1 (decide_eq_true heq)
  have hcut : ∀ j, eventsOf j (before ++ [(i, .clear)]) ++ eventsOf j after
      = front ++ .clear :: (reinserts rounds cleared ++ addTimes additions) := by
    intro j
    rw [← eventsOf_append, List.append_assoc, List.singleton_append, horder, hsplit]
  refine ⟨before.map Prod.snd, after.map Prod.snd, by rw [List.map_append]; rfl, fun o => ?_⟩
  constructor
  · intro hmem
    obtain ⟨⟨j, o⟩, he, rfl⟩ := List.mem_map.mp hmem
    -- no thread is further behind its clearing than it has come
    exact (suffix_behind (hcut j) (hnot j)).subset
      (List.mem_map.mpr ⟨_, List.mem_filter.mpr ⟨he, by simp⟩, rfl⟩)
  · intro hmem
    -- the thread that cleared last has done all that is behind it
    have hown : front ++ [.clear] ++ (reinserts rounds cleared ++ addTimes additions)
        = eventsOf i before ++ .clear :: eventsOf i after := by
      rw [List.append_assoc, List.singleton_append, ← hcut i, eventsOf_append]
      simp [eventsOf]
    have hall := (suffix_behind hown clear_not_mem_reinserts).subset hmem
    obtain ⟨e, he, rfl⟩ := List.mem_map.mp hall
    exact List.mem_map_of_mem (List.mem_filter.mp he).1

section Test

variable {n : Nat} (balance : Balance (Text × Int)) (register : Fin n → Int)
variable {c : Locked (Fin n) (Op Text Int) (Counter (Fin n) Text Int)}

/-- No count is lost, whatever the order in which the threads go on. -/
theorem test_counter (hrun : Locked.Run (body balance)
      (Locked.start (fun _ => test rounds cleared additions) (new register)) c)
    (hdone : c.Finished) : c.state.counter = int32 (n * additions) := by
  obtain ⟨trace, horder, hstate⟩ := Locked.run_finished hrun hdone
  have hall : trace.countP (fun e => isIncrement e.2) = n * additions := by
    rw [← sum_countP_eventsOf, Finset.sum_congr rfl fun i _ => by rw [horder, countP_test],
      Finset.sum_const, Finset.card_univ, Fintype.card_fin, Nat.nsmul_eq_mul]
  rw [hstate, performAll_counter balance trace (new register) 0 rfl, hall, Int.zero_add,
    Int.natCast_mul]

/-- The ten threads of `main`. -/
theorem test_counter_main : ∃ c : Locked (Fin 10) (Op Text Int) (Counter (Fin 10) Text Int),
    Locked.Run (body ⟨id, fun _ => rfl⟩)
      (Locked.start (fun _ => test 10000 5000 10000) (new fun _ => 0)) c ∧
      c.Finished ∧ c.state.counter = 100000 := by
  obtain ⟨c, hrun, hdone⟩ := Locked.exists_finished (body ⟨id, fun _ => rfl⟩)
    (Locked.start (fun _ : Fin 10 => test 10000 5000 10000) (new fun _ => 0))
  exact ⟨c, hrun, hdone, (test_counter _ _ hrun hdone).trans (int32_eq (by decide) (by decide))⟩

/-- At the end the map has the numbers behind the clearing, in the order
of their names, although every thread has cleared it on its way. -/
theorem test_map (hn : 0 < n) (hcleared : cleared < rounds) (hrun : Locked.Run (body balance)
      (Locked.start (fun _ => test rounds cleared additions) (new register)) c)
    (hdone : c.Finished) :
    c.state.map.toList.Pairwise (fun x y => keyLess x y) ∧
      c.state.map.toList.Perm
        ((List.range' (cleared + 1) (rounds - cleared - 1)).map fun j => (name j, (j : Int))) := by
  obtain ⟨trace, horder, hstate⟩ := Locked.run_finished hrun hdone
  obtain ⟨before, after, hops, hafter⟩ := last_clear hn hcleared horder
  have hclear : .clear ∉ after := fun h => clear_not_mem_reinserts ((hafter _).mp h)
  have hvalue : ∀ key v v', .insert key v ∈ after → .insert key v' ∈ after → v = v' := by
    intro key v v' h h'
    obtain ⟨j, -, -, rfl, rfl⟩ := insert_mem_reinserts.mp ((hafter _).mp h)
    obtain ⟨j', -, -, hname, rfl⟩ := insert_mem_reinserts.mp ((hafter _).mp h')
    rw [name_injective hname]
  obtain ⟨hsorted, hmem⟩ := mapAfter_inserts balance hclear hvalue
  have hmap : c.state.map = after.foldl (mapAfter balance) .leaf := by
    rw [hstate, performAll_map, hops, mapAfter_clear]
  rw [hmap]
  refine ⟨hsorted, (List.perm_ext_iff_of_nodup ?_ ?_).mpr fun x => ?_⟩
  · exact hsorted.imp fun hless heq => by simp [keyLess, heq] at hless
  · exact List.Nodup.map (fun i j h => name_injective (congrArg Prod.fst h)) List.nodup_range'
  · rw [hmem, hafter, insert_mem_reinserts, List.mem_map]
    constructor
    · rintro ⟨j, hlo, hhi, hkey, hv⟩
      exact ⟨j, List.mem_range'_1.mpr (by omega), Prod.ext hkey.symm hv.symm⟩
    · rintro ⟨j, hj, rfl⟩
      have := List.mem_range'_1.mp hj
      exact ⟨j, by omega, by omega, rfl, rfl⟩

theorem test_map_main : ∃ c : Locked (Fin 10) (Op Text Int) (Counter (Fin 10) Text Int),
    Locked.Run (body ⟨id, fun _ => rfl⟩)
      (Locked.start (fun _ => test 10000 5000 10000) (new fun _ => 0)) c ∧
      c.Finished ∧ c.state.map.toList.length = 4999 := by
  obtain ⟨c, hrun, hdone⟩ := Locked.exists_finished (body ⟨id, fun _ => rfl⟩)
    (Locked.start (fun _ : Fin 10 => test 10000 5000 10000) (new fun _ => 0))
  have hperm := (test_map _ _ (by decide) (by decide) hrun hdone).2
  refine ⟨c, hrun, hdone, hperm.length_eq.trans ?_⟩
  rw [List.length_map, List.length_range']

end Test

end Counter

end Yapas
