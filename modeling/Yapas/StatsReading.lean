import Yapas.ProtocolStats

/-!
# Reading the statistics of a running port

`GetProtocolStats` reads row after row while the other cores go on
counting, and nothing holds them. The rows it adds up belong to different
moments, so the table may never have been as they are. The sum is right
all the same: each addition counts by one, and a sum between that of the
first moment and that of the last was the total at some moment between
them (`getProtocolStats_moment`).

The loads are relaxed. They do not have to give the newest value of a
row, but one it has had since the reading began.
-/

namespace Yapas

namespace StatsTable

/-- Calls of `UpdateProtocolStats`, one after the other. -/
def updates (stats : StatsTable) (us : List (Protocol × Nat)) : Option StatsTable :=
  us.foldlM (fun stats u => stats.updateProtocolStats u.1 u.2) stats

/-- `GetProtocolStats` has added up the first `i` rows to `ret`, while
the calls `us` have made `stats` of the table. -/
inductive Reading (start : StatsTable) (q : Protocol) :
    List (Protocol × Nat) → StatsTable → Nat → UInt64 → Prop
  | begin : Reading start q [] start 0 0
  | count {us : List (Protocol × Nat)} {stats stats' : StatsTable} {i : Nat} {ret : UInt64}
      {q' : Protocol} {l : Nat} (before : Reading start q us stats i ret)
      (update_eq : stats.updateProtocolStats q' l = some stats') :
      Reading start q (us ++ [(q', l)]) stats' i ret
  | load {us pre : List (Protocol × Nat)} {stats old : StatsTable} {i : Nat} {ret : UInt64}
      (before : Reading start q us stats i ret) (row : i < maxLcores)
      (since : pre <+: us) (old_eq : start.updates pre = some old) :
      Reading start q us stats (i + 1) (ret + old[i].counter q)

/-- The call counts for the protocol, in one of the first `i` rows. -/
def countsIn (q : Protocol) (i : Nat) (u : Protocol × Nat) : Bool := decide (u.1 = q ∧ u.2 < i)

theorem countP_countsIn_succ (q : Protocol) (i : Nat) (us : List (Protocol × Nat)) :
    us.countP (countsIn q (i + 1)) = us.countP (countsIn q i) + us.count (q, i) := by
  induction us with
  | nil => rfl
  | cons u us ih =>
      obtain ⟨q', l⟩ := u
      rw [List.countP_cons, List.countP_cons, List.count_cons, ih]
      simp only [countsIn, decide_eq_true_eq, beq_iff_eq, Prod.mk.injEq]
      by_cases hq : q' = q
      · simp only [hq, true_and]
        split <;> split <;> split <;> omega
      · simp [hq]

theorem exists_prefix_countP {α : Type} {p : α → Bool} : ∀ {xs : List α} {n : Nat},
    n ≤ xs.countP p → ∃ pre, pre <+: xs ∧ pre.countP p = n
  | _, 0, _ => ⟨[], List.nil_prefix, rfl⟩
  | x :: xs, n + 1, h => by
      rw [List.countP_cons] at h
      by_cases hx : p x = true
      · rw [if_pos hx] at h
        obtain ⟨pre, hpre, hcount⟩ := exists_prefix_countP (Nat.le_of_succ_le_succ h)
        exact ⟨x :: pre, List.prefix_cons_inj x |>.mpr hpre, by
          rw [List.countP_cons, hcount, if_pos hx]⟩
      · rw [if_neg hx] at h
        obtain ⟨pre, hpre, hcount⟩ := exists_prefix_countP h
        exact ⟨x :: pre, List.prefix_cons_inj x |>.mpr hpre, by
          rw [List.countP_cons, hcount, if_neg hx]⟩

/-! ## The tables along the calls -/

variable {stats stats' : StatsTable} {us : List (Protocol × Nat)} {q : Protocol}

theorem updates_append (stats : StatsTable) (us us' : List (Protocol × Nat)) :
    stats.updates (us ++ us') = (stats.updates us).bind (·.updates us') :=
  List.foldlM_append

theorem updates_of_prefix {pre : List (Protocol × Nat)} (h : stats.updates us = some stats')
    (hpre : pre <+: us) : ∃ old, stats.updates pre = some old := by
  obtain ⟨post, rfl⟩ := hpre
  rw [updates_append] at h
  obtain ⟨old, hold, -⟩ := Option.bind_eq_some_iff.mp h
  exact ⟨old, hold⟩

theorem updates_concat {q' : Protocol} {l : Nat}
    (h : stats.updates (us ++ [(q', l)]) = some stats') :
    ∃ before, stats.updates us = some before ∧ before.updateProtocolStats q' l = some stats' := by
  rw [updates_append] at h
  obtain ⟨before, hbefore, h⟩ := Option.bind_eq_some_iff.mp h
  refine ⟨before, hbefore, ?_⟩
  rw [updates, List.foldlM_cons] at h
  obtain ⟨after, hafter, h⟩ := Option.bind_eq_some_iff.mp h
  rwa [← Option.some.inj h]

theorem counter_updates (hq : q ≠ .unknown) {l : Nat} (hl : l < maxLcores)
    (h : stats.updates us = some stats') :
    stats'[l].counter q = stats[l].counter q + UInt64.ofNat (us.count (q, l)) := by
  induction us using List.reverseRecOn generalizing stats' with
  | nil =>
      obtain rfl := Option.some.inj h
      simp
  | append_singleton us u ih =>
      obtain ⟨before, hbefore, hupdate⟩ := updates_concat h
      rw [counter_update hupdate hq hl, ih hbefore, List.count_append, List.count_singleton,
        UInt64.ofNat_add, UInt64.add_assoc]
      congr 1
      simp only [beq_iff_eq, Prod.ext_iff]
      split <;> rfl

theorem foldl_add_start (x : UInt64) : ∀ (xs : List UInt64) (a : UInt64),
    xs.foldl (· + ·) (a + x) = xs.foldl (· + ·) a + x
  | [], _ => rfl
  | y :: ys, a => by
      rw [List.foldl_cons, List.foldl_cons, ← foldl_add_start x ys, UInt64.add_assoc,
        UInt64.add_assoc, UInt64.add_comm x y]

/-- An addition to one of the numbers is an addition to their sum. -/
theorem foldl_add_set (x : UInt64) : ∀ {xs : List UInt64} {i : Nat} (a : UInt64)
    (hi : i < xs.length), (xs.set i (xs[i] + x)).foldl (· + ·) a = xs.foldl (· + ·) a + x
  | y :: ys, 0, a, _ => by
      rw [List.set_cons_zero, List.foldl_cons, List.foldl_cons, ← foldl_add_start,
        List.getElem_cons_zero, UInt64.add_assoc]
  | y :: ys, i + 1, a, hi => foldl_add_set x (a + y) (Nat.lt_of_succ_lt_succ hi)

theorem getProtocolStats_update_self {l : Nat} (hq : q ≠ .unknown)
    (h : stats.updateProtocolStats q l = some stats') :
    l < maxLcores ∧ stats'.getProtocolStats q = stats.getProtocolStats q + 1 := by
  obtain ⟨hl, rfl⟩ := (updateProtocolStats_eq_some hq).mp h
  have hl' : l < (stats.counters q).length := by rwa [length_counters]
  have hset : counters (stats.set l (stats[l].fetchAdd q)) q
      = (stats.counters q).set l ((stats.counters q)[l] + 1) := by
    rw [counters, Vector.toList_set, List.map_set, ProtocolStats.counter_fetchAdd_self _ hq,
      counters_getElem stats q hl' hl]
    rfl
  refine ⟨hl, ?_⟩
  rw [getProtocolStats_eq, getProtocolStats_eq, hset, foldl_add_set]

/-- The total counts the calls. -/
theorem getProtocolStats_updates (hq : q ≠ .unknown) (h : stats.updates us = some stats') :
    stats'.getProtocolStats q
      = stats.getProtocolStats q + UInt64.ofNat (us.countP (countsIn q maxLcores)) := by
  induction us using List.reverseRecOn generalizing stats' with
  | nil =>
      obtain rfl := Option.some.inj h
      simp
  | append_singleton us u ih =>
      obtain ⟨q', l⟩ := u
      obtain ⟨before, hbefore, hupdate⟩ := updates_concat h
      rw [List.countP_append, UInt64.ofNat_add, ← UInt64.add_assoc, ← ih hbefore]
      by_cases hqq : q' = q
      · subst hqq
        obtain ⟨hl, htotal⟩ := getProtocolStats_update_self hq hupdate
        rw [htotal, List.countP_singleton, if_pos (by simp [countsIn, hl])]
        rfl
      · rw [getProtocolStats_update hupdate (Ne.symm hqq), List.countP_singleton,
          if_neg (by simp [countsIn, hqq])]
        simp

/-! ## What is read -/

/-- What has been read so far are the rows of the beginning and some of
the calls for them. -/
theorem Reading.seen {start : StatsTable} {i : Nat} {ret : UInt64} (hq : q ≠ .unknown)
    (h : Reading start q us stats i ret) :
    start.updates us = some stats ∧ i ≤ maxLcores ∧
      ∃ n, n ≤ us.countP (countsIn q i) ∧
        ret = ((start.counters q).take i).foldl (· + ·) 0 + UInt64.ofNat n := by
  induction h with
  | begin => exact ⟨rfl, Nat.zero_le _, 0, Nat.zero_le _, rfl⟩
  | @count us stats stats' i ret q' l before update_eq ih =>
      obtain ⟨hstats, hi, n, hn, hret⟩ := ih
      refine ⟨?_, hi, n, hn.trans ?_, hret⟩
      · rw [updates_append, hstats, Option.bind_some, updates, List.foldlM_cons]
        simp only [update_eq]
        rfl
      · rw [List.countP_append]
        exact Nat.le_add_right _ _
  | @load us pre stats old i ret before row since old_eq ih =>
      obtain ⟨hstats, hi, n, hn, hret⟩ := ih
      have hcount : pre.count (q, i) ≤ us.count (q, i) := since.sublist.count_le _
      have hi' : i < (start.counters q).length := by rwa [length_counters]
      refine ⟨hstats, row, n + pre.count (q, i), ?_, ?_⟩
      · rw [countP_countsIn_succ]
        exact Nat.add_le_add hn hcount
      · rw [hret, counter_updates hq row old_eq, List.take_succ_eq_append_getElem hi',
          List.foldl_concat, counters_getElem start q hi' row, UInt64.ofNat_add]
        ac_rfl

/-- A reading comes to its end, whatever has been counted. -/
theorem Reading.exists_end {start : StatsTable} {i : Nat} {ret : UInt64} (hq : q ≠ .unknown)
    (h : Reading start q us stats i ret) : ∃ ret', Reading start q us stats maxLcores ret' := by
  obtain ⟨hstats, hi, -⟩ := h.seen hq
  induction hn : maxLcores - i generalizing i ret with
  | zero =>
      obtain rfl : i = maxLcores := by omega
      exact ⟨ret, h⟩
  | succ n ih =>
      have hrow : i < maxLcores := by omega
      exact ih (.load h hrow (List.prefix_refl us) hstats) hrow (by omega)

/-- The sum is what the total was at some moment of the reading. -/
theorem getProtocolStats_moment {start : StatsTable} {ret : UInt64} (hq : q ≠ .unknown)
    (h : Reading start q us stats maxLcores ret) :
    ∃ pre old, pre <+: us ∧ start.updates pre = some old ∧ ret = old.getProtocolStats q := by
  obtain ⟨hstats, -, n, hn, hret⟩ := h.seen hq
  obtain ⟨pre, hpre, hcount⟩ := exists_prefix_countP hn
  obtain ⟨old, hold⟩ := updates_of_prefix hstats hpre
  refine ⟨pre, old, hpre, hold, ?_⟩
  have hall : (start.counters q).take maxLcores = start.counters q :=
    List.take_of_length_le (length_counters start q).le
  rw [getProtocolStats_updates hq hold, hcount, hret, hall, ← getProtocolStats_eq]

/-- Two cores count while the rows are read. -/
theorem getProtocolStats_moment_two : ∃ stats ret,
    Reading zero .http [(.http, 0), (.http, 15)] stats maxLcores ret ∧
      ∃ pre old, pre <+: [(.http, 0), (.http, 15)] ∧ zero.updates pre = some old ∧
        ret = old.getProtocolStats .http := by
  obtain ⟨_, hfirst⟩ : ∃ ret, Reading zero .http [] zero 1 ret :=
    ⟨_, .load .begin (by decide) (List.prefix_refl _) rfl⟩
  obtain ⟨stats, h0⟩ : ∃ stats, zero.updateProtocolStats .http 0 = some stats := ⟨_, rfl⟩
  obtain ⟨stats', h15⟩ : ∃ stats', stats.updateProtocolStats .http 15 = some stats' := ⟨_, rfl⟩
  obtain ⟨ret, hread⟩ := Reading.exists_end (by decide) (.count (.count hfirst h0) h15)
  exact ⟨_, ret, hread, getProtocolStats_moment (by decide) hread⟩

end StatsTable

end Yapas
