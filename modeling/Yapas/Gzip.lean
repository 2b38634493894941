import Mathlib.Algebra.GroupWithZero.Nat
import Mathlib.Order.Monotone.Defs
import Yapas.ShortWrites

/-!
# Compressing piece by piece

`GzipHelper`. What zlib does is not under its control: a call of
`deflate` comes with its result, which is how much it consumed and
produced and what it returned.

The output window begins at `m_size` and is as long as the storage of
`m_data`, because `m_data.size()` stays 0 while only `m_size` goes on. So
the first window is inside and every later one reaches beyond the end
(`calls_inside_iff`). And a call of `deflate` that stops because the
window is full returns `Z_OK`: the rest of the chunk is never offered
again. With what zlib promises of a stream it can be told from the chunks
whether that may happen (`consumed_iff`).
-/

namespace Yapas

def zOk : Int := 0

def zStreamEnd : Int := 1

def zBufError : Int := -5

/-- The result of a call of `deflate`. -/
structure Deflated where
  consumed : Nat
  produced : Nat
  err : Int

/-- The results of the calls that `compressFinish` makes. -/
structure Finished where
  setHeader : Int
  deflated : Deflated
  deflateEnd : Int

/-- The size and the capacity of `m_data`, `m_size`, and of the stream
`total_out` and all that has been consumed. -/
structure GzipHelper where
  size : Nat
  capacity : Nat
  mSize : Nat
  totalOut : Nat
  consumed : List UInt8

namespace GzipHelper

def new : GzipHelper := ⟨0, 0, 0, 0, []⟩

/-- The return value and the new state, where `deflateInit2_` returns
`err`. -/
def compressInit (compressBound : Nat → Nat) (err : Int) (g : GzipHelper) : Int × GzipHelper :=
  if err ≠ zOk then (err, g)
  else (0, { g with capacity := max g.capacity (compressBound (1 <<< 10)), totalOut := 0 })

/-- `avail_out`, a `uInt`. -/
def availOut (g : GzipHelper) : Nat := (g.capacity - g.size) % 4294967296

/-- `deflate`, where `avail_in` is the length of the chunk. -/
def deflate (g : GzipHelper) (source : List UInt8) (r : Deflated) : GzipHelper :=
  { g with
    totalOut := (g.totalOut + r.produced) % 18446744073709551616
    consumed := g.consumed ++ source.take r.consumed }

def compressUpdate (g : GzipHelper) (source : List UInt8) (r : Deflated) : Int × GzipHelper :=
  let g := g.deflate source r
  if r.err ≠ zOk then (r.err, g) else (0, { g with mSize := g.totalOut })

def compressFinish (g : GzipHelper) (source : List UInt8) (r : Finished) : Int × GzipHelper :=
  if r.setHeader ≠ zOk then (r.setHeader, g)
  else
    let g := g.deflate source r.deflated
    if r.deflated.err ≠ zStreamEnd then
      (if r.deflated.err = zOk then zBufError else r.deflated.err, g)
    else if r.deflateEnd ≠ zOk then (r.deflateEnd, g)
    else (0, { g with mSize := g.totalOut })

/-- What the updates return, and the state behind them. -/
def updates (g : GzipHelper) : List (List UInt8 × Deflated) → List Int × GzipHelper
  | [] => ([], g)
  | u :: us =>
      let r := g.compressUpdate u.1 u.2
      let rs := updates r.2 us
      (r.1 :: rs.1, rs.2)

/-! ## The output window -/

/-- The output window that `deflate` is offered is inside the storage. -/
def Inside (g : GzipHelper) : Prop := g.mSize + g.availOut ≤ g.capacity

instance (g : GzipHelper) : Decidable g.Inside := inferInstanceAs (Decidable (_ ≤ _))

/-- The states in which `deflate` is called. `compressFinish` does not
call it if the header cannot be set. -/
def calls (fin : Finished) (g : GzipHelper) : List (List UInt8 × Deflated) → List GzipHelper
  | [] => if fin.setHeader = zOk then [g] else []
  | u :: us => g :: calls fin (g.compressUpdate u.1 u.2).2 us

/-- What the calls have produced. -/
def produced (us : List (List UInt8 × Deflated)) : Nat := (us.map (·.2.produced)).sum

/-- What an update leaves as it is, and what the next window begins at. -/
theorem compressUpdate_spec (g : GzipHelper) (source : List UInt8) (r : Deflated) :
    ∃ g', (g.compressUpdate source r).2 = g' ∧ g'.size = g.size ∧ g'.capacity = g.capacity
      ∧ g'.totalOut = (g.totalOut + r.produced) % 18446744073709551616
      ∧ g'.consumed = g.consumed ++ source.take r.consumed
      ∧ g'.mSize = if r.err = zOk then g'.totalOut else g.mSize := by
  refine ⟨_, rfl, ?_⟩
  rw [compressUpdate]
  by_cases herr : r.err = zOk
  · simp [herr, deflate]
  · simp [herr, deflate]

theorem availOut_compressUpdate (g : GzipHelper) (source : List UInt8) (r : Deflated) :
    (g.compressUpdate source r).2.availOut = g.availOut := by
  obtain ⟨g', hg', hsize, hcapacity, -⟩ := g.compressUpdate_spec source r
  rw [hg', availOut, availOut, hsize, hcapacity]

theorem forall_split_cons {β : Type} {u : β} {us : List β} {P : List β → β → List β → Prop} :
    (∀ before w after, u :: us = before ++ w :: after → P before w after)
      ↔ P [] u us ∧ ∀ before w after, us = before ++ w :: after → P (u :: before) w after := by
  constructor
  · intro h
    refine ⟨h [] u us rfl, fun before w after hsplit => h (u :: before) w after ?_⟩
    rw [hsplit, List.cons_append]
  · rintro ⟨hhead, htail⟩ before w after hsplit
    cases before with
    | nil =>
        obtain ⟨rfl, rfl⟩ := List.cons.inj hsplit
        exact hhead
    | cons w' before =>
        obtain ⟨rfl, hrest⟩ := List.cons.inj hsplit
        exact htail before w after hrest

/-- What is produced up to an update that succeeds is no longer than the
storage is larger than the window, if another call follows. -/
def StaysInside (fin : Finished) (g : GzipHelper) (us : List (List UInt8 × Deflated)) : Prop :=
  ∀ before u after, us = before ++ u :: after → after ≠ [] ∨ fin.setHeader = zOk →
    u.2.err = zOk →
    (g.totalOut + produced (before ++ [u])) % 18446744073709551616 + g.availOut ≤ g.capacity

theorem head_mem_calls {fin : Finished} (g : GzipHelper) {us : List (List UInt8 × Deflated)}
    (h : us ≠ [] ∨ fin.setHeader = zOk) : g ∈ calls fin g us := by
  cases us with
  | nil =>
      rw [calls, if_pos (h.resolve_left fun hne => hne rfl)]
      exact List.mem_cons_self
  | cons u us => exact List.mem_cons_self

theorem staysInside_nil (fin : Finished) (g : GzipHelper) : StaysInside fin g [] :=
  fun before u after hsplit => by simp at hsplit

/-- The window moves only in an update that succeeds. -/
theorem compressUpdate_inside_iff {g : GzipHelper} (hg : g.Inside) (source : List UInt8)
    (r : Deflated) : (g.compressUpdate source r).2.Inside
      ↔ (r.err = zOk → (g.totalOut + r.produced) % 18446744073709551616 + g.availOut
        ≤ g.capacity) := by
  have havail := g.availOut_compressUpdate source r
  obtain ⟨g', hg', -, hcapacity, htotal, -, hm⟩ := g.compressUpdate_spec source r
  rw [hg'] at havail ⊢
  rw [Inside, hm, havail, hcapacity, ← htotal]
  by_cases herr : r.err = zOk
  · rw [if_pos herr]
    exact (imp_iff_right herr).symm
  · rw [if_neg herr]
    exact iff_of_true hg fun h => absurd h herr

theorem staysInside_cons (fin : Finished) {g : GzipHelper} (hg : g.Inside)
    (u : List UInt8 × Deflated) (us : List (List UInt8 × Deflated)) :
    StaysInside fin g (u :: us)
      ↔ (us ≠ [] ∨ fin.setHeader = zOk → (g.compressUpdate u.1 u.2).2.Inside)
        ∧ StaysInside fin (g.compressUpdate u.1 u.2).2 us := by
  rw [StaysInside, forall_split_cons, compressUpdate_inside_iff hg]
  have havail := g.availOut_compressUpdate u.1 u.2
  obtain ⟨g', hg', -, hcapacity, htotal, -, -⟩ := g.compressUpdate_spec u.1 u.2
  rw [hg'] at havail ⊢
  rw [StaysInside]
  refine and_congr Iff.rfl (forall₃_congr fun before w after => ?_)
  have hsum : (g'.totalOut + produced (before ++ [w])) % 18446744073709551616
      = (g.totalOut + produced (u :: before ++ [w])) % 18446744073709551616 := by
    rw [htotal, Nat.mod_add_mod, Nat.add_assoc]
    rfl
  rw [hsum, havail, hcapacity]

theorem calls_inside_iff_of_inside (fin : Finished) : ∀ {g : GzipHelper}
    (us : List (List UInt8 × Deflated)), g.Inside →
    ((∀ g' ∈ calls fin g us, g'.Inside) ↔ StaysInside fin g us)
  | g, [], hg => by
      refine iff_of_true (fun g' hg' => ?_) (staysInside_nil fin g)
      rw [calls] at hg'
      split at hg'
      · rwa [List.mem_singleton.mp hg']
      · cases hg'
  | g, u :: us, hg => by
      rw [calls, List.forall_mem_cons, and_iff_right hg, staysInside_cons fin hg]
      by_cases hin : (g.compressUpdate u.1 u.2).2.Inside
      · rw [calls_inside_iff_of_inside fin us hin]
        exact (and_iff_right fun _ => hin).symm
      by_cases hnext : us ≠ [] ∨ fin.setHeader = zOk
      · exact iff_of_false (fun h => hin (h _ (head_mem_calls _ hnext)))
          fun h => hin (h.1 hnext)
      · -- no call follows that would use the window
        rw [not_or, not_not] at hnext
        obtain ⟨rfl, hheader⟩ := hnext
        rw [calls, if_neg hheader]
        refine iff_of_true (fun _ h => by cases h) ⟨fun hnext => ?_, staysInside_nil fin _⟩
        exact absurd hnext (not_or.mpr ⟨not_not_intro rfl, hheader⟩)

/-- A helper on which `compressInit` succeeded. -/
def initialised (compressBound : Nat → Nat) : GzipHelper := (compressInit compressBound zOk new).2

theorem initialised_inside (compressBound : Nat → Nat) : (initialised compressBound).Inside := by
  have hmod := Nat.mod_le (initialised compressBound).capacity 4294967296
  rw [Inside, availOut]
  show 0 + (initialised compressBound).capacity % 4294967296 ≤ _
  omega

/-- Every window is inside the storage exactly when nothing has been
produced yet by an update that succeeds and that another call follows;
the room that a storage of 2^32 bytes or more leaves may be used. -/
theorem calls_inside_iff (compressBound : Nat → Nat) (fin : Finished)
    (us : List (List UInt8 × Deflated)) :
    (∀ g ∈ calls fin (initialised compressBound) us, g.Inside)
      ↔ ∀ before u after, us = before ++ u :: after → after ≠ [] ∨ fin.setHeader = zOk →
        u.2.err = zOk →
        produced (before ++ [u]) % 18446744073709551616 + compressBound 1024 % 4294967296
          ≤ compressBound 1024 := by
  have hcapacity : (initialised compressBound).capacity = compressBound 1024 :=
    Nat.max_eq_right (Nat.zero_le _)
  have h := calls_inside_iff_of_inside fin us (initialised_inside compressBound)
  rw [StaysInside, availOut, hcapacity] at h
  simpa [initialised, compressInit, new] using h

/-- The storage is in the range of a `uInt`: then the windows are inside
exactly while `total_out` stays 0. -/
theorem calls_inside_iff_zero {compressBound : Nat → Nat}
    (hbound : compressBound 1024 < 4294967296) (fin : Finished)
    (us : List (List UInt8 × Deflated)) :
    (∀ g ∈ calls fin (initialised compressBound) us, g.Inside)
      ↔ ∀ before u after, us = before ++ u :: after → after ≠ [] ∨ fin.setHeader = zOk →
        u.2.err = zOk → produced (before ++ [u]) % 18446744073709551616 = 0 := by
  have hcapacity : (initialised compressBound).capacity = compressBound 1024 :=
    Nat.max_eq_right (Nat.zero_le _)
  have htotal : (initialised compressBound).totalOut = 0 := rfl
  rw [calls_inside_iff_of_inside fin us (initialised_inside compressBound), StaysInside]
  refine forall₃_congr fun before u after => forall₃_congr fun _ _ _ => ?_
  have hroom : (initialised compressBound).availOut = compressBound 1024 := by
    rw [availOut, hcapacity]
    exact Nat.mod_eq_of_lt hbound
  rw [htotal, Nat.zero_add, hroom, hcapacity]
  omega

/-- `compressBound` of zlib. -/
def zlibBound (n : Nat) : Nat := n + n / 4096 + n / 16384 + n / 33554432 + 13

/-- The first update produces the ten bytes of the header. -/
theorem not_inside_second : ∃ g ∈ calls ⟨zOk, ⟨0, 20, zStreamEnd⟩, zOk⟩ (initialised zlibBound)
    [([49, 58, 32, 10], ⟨4, 10, zOk⟩), ([50, 32, 10], ⟨3, 0, zOk⟩)], ¬g.Inside := by
  refine ⟨((initialised zlibBound).compressUpdate [49, 58, 32, 10] ⟨4, 10, zOk⟩).2, ?_, by decide⟩
  exact List.mem_cons_of_mem _ List.mem_cons_self

/-! ## The input -/

/-- What a stream has taken in and given out, and what waits in its own
buffer. -/
structure ZStream where
  totalIn : Nat
  totalOut : Nat
  pending : Nat

/-- What every call of `deflate` keeps to. -/
structure Flows (z : ZStream) (source : List UInt8) (availOut : Nat) (r : Deflated)
    (z' : ZStream) : Prop where
  consumed : r.consumed ≤ source.length
  produced : r.produced ≤ availOut
  totalIn : z'.totalIn = z.totalIn + r.consumed
  totalOut : z'.totalOut = z.totalOut + r.produced
  kept : z.pending ≤ r.produced + z'.pending

/-- `Z_NO_FLUSH`: it goes on until there is no more input or no more room,
and what waits is given out while there is room. `Z_OK` means that there
was something to do. Of so many bytes it makes `bound` at most, without
the trailer. -/
structure Updates (bound : Nat → Nat) (z : ZStream) (source : List UInt8) (availOut : Nat)
    (r : Deflated) (z' : ZStream) : Prop extends Flows z source availOut r z' where
  bounded : z'.totalOut + z'.pending ≤ bound z'.totalIn
  flushed : r.err = zOk → 0 < z'.pending → r.produced = availOut
  stops : r.err = zOk → r.consumed = source.length ∨ r.produced = availOut
  progress : r.err = zOk → 0 < r.consumed + r.produced

/-- `Z_FINISH`: at the end of the stream all of the input has been taken
in, and all of the output has been given out, the trailer too. -/
structure Finishes (bound : Nat → Nat) (z : ZStream) (source : List UInt8) (availOut : Nat)
    (r : Deflated) (z' : ZStream) : Prop extends Flows z source availOut r z' where
  bounded : z'.totalOut + z'.pending ≤ bound z'.totalIn + 8
  streamEnd : r.err = zStreamEnd →
    r.consumed = source.length ∧ z'.pending = 0 ∧ z.pending + 8 ≤ r.produced

/-- The stream from update to update. The room is the same for each
(`availOut_compressUpdate`). -/
def Flow (bound : Nat → Nat) (room : Nat) :
    ZStream → List (List UInt8 × Deflated) → ZStream → Prop
  | z, [], z' => z' = z
  | z, u :: us, z' => ∃ z₁, Updates bound z u.1 room u.2 z₁ ∧ Flow bound room z₁ us z'

/-- A helper on which `compressInit` succeeded. `m_data` is public, so it
may have been given a size and a capacity before. -/
def ready (compressBound : Nat → Nat) (size capacity : Nat) : GzipHelper :=
  (compressInit compressBound zOk ⟨size, capacity, 0, 0, []⟩).2

/-- A run over these chunks in which every call returns 0. -/
structure Returns0 (bound : Nat → Nat) (g : GzipHelper) (chunks : List (List UInt8))
    (last : List UInt8) (us : List (List UInt8 × Deflated)) (fin : Finished) : Prop where
  chunks : us.map (·.1) = chunks
  stream : ∃ z z', Flow bound g.availOut ⟨0, 0, 0⟩ us z
    ∧ Finishes bound z last g.availOut fin.deflated z'
  updates : ∀ ret ∈ (g.updates us).1, ret = 0
  finish : ((g.updates us).2.compressFinish last fin).1 = 0

/-- What `deflate` has consumed in all. -/
def consumedBy (g : GzipHelper) (last : List UInt8) (us : List (List UInt8 × Deflated))
    (fin : Finished) : List UInt8 := ((g.updates us).2.compressFinish last fin).2.consumed

/-- The chunks, each with how much of it is consumed. -/
def consumedOf (us : List (List UInt8 × Deflated)) : List (List UInt8 × Nat) :=
  us.map fun u => (u.1, u.2.consumed)

theorem given_consumedOf (us : List (List UInt8 × Deflated)) :
    given (consumedOf us) = (us.map (·.1)).flatten := by
  rw [given, consumedOf, List.flatMap_map, List.flatMap_def]

theorem updates_consumed : ∀ (g : GzipHelper) (us : List (List UInt8 × Deflated)),
    (g.updates us).2.consumed = g.consumed ++ through (consumedOf us)
  | g, [] => (List.append_nil _).symm
  | g, u :: us => by
      obtain ⟨g', hg', -, -, -, hconsumed, -⟩ := g.compressUpdate_spec u.1 u.2
      show ((g.compressUpdate u.1 u.2).2.updates us).2.consumed = _
      rw [hg', updates_consumed g' us, hconsumed, List.append_assoc]
      rfl

theorem updates_ok_iff : ∀ {g : GzipHelper} {us : List (List UInt8 × Deflated)},
    (∀ ret ∈ (g.updates us).1, ret = 0) ↔ ∀ u ∈ us, u.2.err = zOk
  | _, [] => iff_of_true (fun _ h => absurd h List.not_mem_nil) fun _ h => absurd h List.not_mem_nil
  | g, u :: us => by
      show (∀ ret ∈ (g.compressUpdate u.1 u.2).1 :: ((g.compressUpdate u.1 u.2).2.updates us).1,
        ret = 0) ↔ _
      rw [List.forall_mem_cons, List.forall_mem_cons, updates_ok_iff]
      refine and_congr_left fun _ => ?_
      rw [compressUpdate]
      by_cases herr : u.2.err = zOk
      · rw [if_neg (not_not_intro herr)]
        exact iff_of_true rfl herr
      · rw [if_pos herr]
        exact iff_of_false herr herr

theorem compressFinish_ok {g : GzipHelper} {source : List UInt8} {r : Finished}
    (h : (g.compressFinish source r).1 = 0) : r.setHeader = zOk ∧ r.deflated.err = zStreamEnd
      ∧ (g.compressFinish source r).2.consumed = g.consumed ++ source.take r.deflated.consumed := by
  rw [compressFinish] at h ⊢
  by_cases hheader : r.setHeader = zOk
  · rw [if_neg (not_not_intro hheader)] at h ⊢
    by_cases herr : r.deflated.err = zStreamEnd
    · refine ⟨hheader, herr, ?_⟩
      simp only [herr, ne_eq, not_true_eq_false, if_false]
      split <;> rfl
    · simp only [ne_eq, herr, not_false_eq_true, if_true] at h
      split at h
      · exact absurd h (by decide)
      · rename_i hnot
        exact absurd h hnot
  · rw [if_pos hheader] at h
    exact absurd h hheader

section Streams

variable {bound : Nat → Nat} {room : Nat}

/-- An update that takes in the whole chunk, and nothing waits behind it. -/
theorem updates_whole {i o w n : Nat} {c : List UInt8} (hkept : w ≤ n) (hroom : n ≤ room)
    (hfit : o + n ≤ bound (i + c.length)) (hprogress : 0 < c.length + n) :
    Updates bound ⟨i, o, w⟩ c room ⟨c.length, n, zOk⟩ ⟨i + c.length, o + n, 0⟩ where
  consumed := Nat.le_refl c.length
  produced := hroom
  totalIn := rfl
  totalOut := rfl
  kept := hkept
  bounded := hfit
  flushed _ hpending := absurd hpending (Nat.lt_irrefl 0)
  stops _ := Or.inl rfl
  progress _ := hprogress

/-- An update that stops because the window is full. -/
theorem updates_full {i o w k w' : Nat} {c : List UInt8} (hroom : 0 < room) (hk : k ≤ c.length)
    (hkept : w ≤ room + w') (hfit : o + room + w' ≤ bound (i + k)) :
    Updates bound ⟨i, o, w⟩ c room ⟨k, room, zOk⟩ ⟨i + k, o + room, w'⟩ where
  consumed := hk
  produced := Nat.le_refl room
  totalIn := rfl
  totalOut := rfl
  kept := hkept
  bounded := hfit
  flushed _ _ := rfl
  stops _ := Or.inr rfl
  progress _ := Nat.add_pos_right k hroom

theorem produced_append (us vs : List (List UInt8 × Deflated)) :
    produced (us ++ vs) = produced us + produced vs := by
  rw [produced, produced, produced, List.map_append, List.sum_append]

theorem produced_cons (u : List UInt8 × Deflated) (us : List (List UInt8 × Deflated)) :
    produced (u :: us) = u.2.produced + produced us := by
  rw [produced, produced, List.map_cons, List.sum_cons]

theorem flow_append : ∀ {z z' : ZStream} {us vs : List (List UInt8 × Deflated)},
    Flow bound room z (us ++ vs) z' ↔ ∃ z₁, Flow bound room z us z₁ ∧ Flow bound room z₁ vs z'
  | z, z', [], vs => ⟨fun h => ⟨z, rfl, h⟩, fun ⟨_, h, h'⟩ => h ▸ h'⟩
  | z, z', u :: us, vs => by
      constructor
      · rintro ⟨z₁, hu, hrest⟩
        obtain ⟨z₂, hus, hvs⟩ := flow_append.mp hrest
        exact ⟨z₂, ⟨z₁, hu, hus⟩, hvs⟩
      · rintro ⟨z₂, ⟨z₁, hu, hus⟩, hvs⟩
        exact ⟨z₁, hu, flow_append.mpr ⟨z₂, hus, hvs⟩⟩

/-- What a stream gives out is within the bound of what it has taken in,
and every empty chunk has made it give out something. -/
theorem flow_spec (hbound : Monotone bound) : ∀ {z z' : ZStream}
    {us : List (List UInt8 × Deflated)}, Flow bound room z us z' → (∀ u ∈ us, u.2.err = zOk) →
    z.totalOut ≤ bound z.totalIn →
    z'.totalOut ≤ bound z'.totalIn ∧ z'.totalOut = z.totalOut + produced us
      ∧ z'.totalIn = z.totalIn + (through (consumedOf us)).length
      ∧ (us.map (·.1)).count [] ≤ produced us ∧ ∀ u ∈ us, u.2.produced ≤ room
  | z, _, [], rfl, _, hz => ⟨hz, rfl, rfl, Nat.le_refl 0, fun _ h => absurd h List.not_mem_nil⟩
  | z, z', u :: us, ⟨z₁, hu, hus⟩, hok, hz => by
      rw [List.forall_mem_cons] at hok
      have hz₁ : z₁.totalOut ≤ bound z₁.totalIn := (Nat.le_add_right _ _).trans hu.bounded
      obtain ⟨hz', hout, hin, hcount, hroom⟩ := flow_spec hbound hus hok.2 hz₁
      have htake : (u.1.take u.2.consumed).length = u.2.consumed :=
        (List.length_take).trans (Nat.min_eq_left hu.consumed)
      refine ⟨hz', ?_, ?_, ?_, List.forall_mem_cons.mpr ⟨hu.produced, hroom⟩⟩
      · rw [hout, hu.totalOut, produced_cons, Nat.add_assoc]
      · show _ = z.totalIn + (u.1.take u.2.consumed ++ through (consumedOf us)).length
        rw [List.length_append, htake, hin, hu.totalIn, Nat.add_assoc]
      · rw [List.map_cons, List.count_cons, produced_cons]
        have hprogress := hu.progress hok.1
        have hconsumed := hu.consumed
        split
        · rename_i hempty
          rw [beq_iff_eq.mp hempty, List.length_nil] at hconsumed
          omega
        · omega

end Streams

/-- A window can be filled before the last byte of the chunks has been
taken in: `bound` of the others is enough, with a byte for each empty
chunk, on which nothing is done otherwise. -/
structure Fills (bound : Nat → Nat) (room : Nat) (chunks : List (List UInt8)) : Prop where
  trailer : 8 ≤ room
  full : room + chunks.count [] ≤ bound (chunks.flatten.length - 1)
  some : chunks.flatten ≠ []
  goes : ∀ before after, chunks = before ++ [] :: after →
    before.count [] + 1 ≤ bound before.flatten.length

section Runs

variable {bound : Nat → Nat} {g : GzipHelper} {chunks : List (List UInt8)} {last : List UInt8}
  {us : List (List UInt8 × Deflated)} {fin : Finished}

/-- If every call returns 0, all has been consumed that was handed over
with the last call. -/
theorem consumedBy_eq_iff (hg : g.consumed = []) (h : Returns0 bound g chunks last us fin) :
    consumedBy g last us fin = chunks.flatten ++ last
      ↔ ∀ u ∈ us, u.1.length ≤ u.2.consumed := by
  obtain ⟨z, z', -, hfinishes⟩ := h.stream
  obtain ⟨-, hend, hconsumed⟩ := compressFinish_ok h.finish
  have hlast : last.take fin.deflated.consumed = last :=
    List.take_of_length_le (Nat.le_of_eq (hfinishes.streamEnd hend).1.symm)
  rw [consumedBy, hconsumed, hlast, updates_consumed, hg, List.nil_append,
    List.append_cancel_right_eq, ← h.chunks, ← given_consumedOf, through_eq_iff, consumedOf,
    List.forall_mem_map]

/-- What is given out before a chunk is dropped, and behind it. -/
theorem produced_of_dropped (hbound : Monotone bound) (h : Returns0 bound g chunks last us fin)
    {u : List UInt8 × Deflated} (hu : u ∈ us) (hdropped : u.2.consumed < u.1.length) :
    g.availOut + chunks.count [] ≤ produced us := by
  obtain ⟨z, z', hflow, -⟩ := h.stream
  have hok := updates_ok_iff.mp h.updates
  obtain ⟨before, after, rfl⟩ := List.append_of_mem hu
  obtain ⟨z₁, hbefore, z₂, hupdates, hafter⟩ := flow_append.mp hflow
  rw [List.forall_mem_append, List.forall_mem_cons] at hok
  obtain ⟨hbefore', -, -, hcount, -⟩ := flow_spec hbound hbefore hok.1 (Nat.zero_le _)
  obtain ⟨-, -, -, hcount', -⟩ := flow_spec hbound hafter hok.2.2
    ((Nat.le_add_right _ _).trans hupdates.bounded)
  have hfull : u.2.produced = g.availOut :=
    (hupdates.stops hok.2.1).resolve_left (Nat.ne_of_lt hdropped)
  have hne : u.1 ≠ [] := fun hnil => by
    rw [hnil] at hdropped
    exact absurd hdropped (Nat.not_lt_zero _)
  rw [← h.chunks, List.map_append, List.map_cons, List.count_append,
    List.count_cons_of_ne (fun heq => hne heq), produced_append, produced_cons, hfull]
  omega

theorem fills_of_dropped (hbound : Monotone bound) (h : Returns0 bound g chunks last us fin)
    {u : List UInt8 × Deflated} (hu : u ∈ us) (hdropped : u.2.consumed < u.1.length) :
    Fills bound g.availOut chunks := by
  have hproduced := produced_of_dropped hbound h hu hdropped
  obtain ⟨z, z', hflow, hfinishes⟩ := h.stream
  have hok := updates_ok_iff.mp h.updates
  obtain ⟨hz, hout, hin, -, -⟩ := flow_spec hbound hflow hok (Nat.zero_le _)
  have hlt : (through (consumedOf us)).length < chunks.flatten.length := by
    rw [← h.chunks, ← given_consumedOf]
    refine Nat.lt_of_le_of_ne (length_through_le _) fun hlen => ?_
    have hwhole := through_eq_iff.mp
      ((through_sublist (consumedOf us)).eq_of_length hlen) _ (List.mem_map.mpr ⟨u, hu, rfl⟩)
    exact Nat.not_le_of_lt hdropped hwhole
  rw [Nat.zero_add] at hout hin
  refine ⟨?_, ?_, fun hnil => ?_, fun before after hsplit => ?_⟩
  · have hend := hfinishes.streamEnd (compressFinish_ok h.finish).2.1
    have hroom := hfinishes.produced
    omega
  · have hle : bound z.totalIn ≤ bound (chunks.flatten.length - 1) := hbound (by omega)
    omega
  · rw [hnil] at hlt
    exact absurd hlt (Nat.not_lt_zero _)
  · -- the stream behind that empty chunk
    rw [← h.chunks] at hsplit
    obtain ⟨us₁, us₂, rfl, hus₁, hus₂⟩ := List.map_eq_append_iff.mp hsplit
    obtain ⟨w, us₃, rfl, hw, -⟩ := List.map_eq_cons_iff.mp hus₂
    rw [List.append_cons] at hflow hok
    obtain ⟨z₁, hflow₁, -⟩ := flow_append.mp hflow
    obtain ⟨hz₁, hout₁, hin₁, hcount₁, -⟩ := flow_spec hbound hflow₁
      (fun u hu => hok u (List.mem_append_left _ hu)) (Nat.zero_le _)
    have hlen := length_through_le (consumedOf (us₁ ++ [w]))
    rw [given_consumedOf, List.map_append, List.map_singleton, hw, hus₁, List.flatten_append,
      List.flatten_singleton, List.append_nil] at hlen
    rw [List.map_append, List.map_singleton, hw, hus₁, List.count_append,
      List.count_singleton_self] at hcount₁
    rw [Nat.zero_add] at hout₁ hin₁
    have hle : bound z₁.totalIn ≤ bound before.flatten.length := hbound (by omega)
    omega

/-- While the windows are inside, `total_out` does not wrap. -/
theorem produced_inside (hheader : fin.setHeader = zOk) : ∀ {g : GzipHelper}
    {us : List (List UInt8 × Deflated)}, (∀ u ∈ us, u.2.err = zOk) →
    (∀ u ∈ us, u.2.produced ≤ g.availOut) → g.mSize = g.totalOut →
    g.capacity < 18446744073709551616 → (∀ g' ∈ calls fin g us, g'.Inside) →
    g.totalOut + produced us + g.availOut ≤ g.capacity
  | g, [], _, _, hm, _, h => by
      have hin := h g (head_mem_calls g (Or.inr hheader))
      rw [Inside, hm] at hin
      exact hin
  | g, u :: us, hok, hroom, hm, hcapacity, h => by
      have hin := h g (head_mem_calls g (Or.inr hheader))
      rw [List.forall_mem_cons] at hok hroom
      rw [calls, List.forall_mem_cons] at h
      have havail := g.availOut_compressUpdate u.1 u.2
      obtain ⟨g', hg', -, hcap, htotal, -, hm'⟩ := g.compressUpdate_spec u.1 u.2
      rw [hg'] at h havail
      rw [if_pos hok.1] at hm'
      have hrest := produced_inside hheader hok.2 (havail ▸ hroom.2) hm' (hcap ▸ hcapacity) h.2
      rw [Inside, hm] at hin
      rw [Nat.mod_eq_of_lt (by omega)] at htotal
      rw [hcap, havail, htotal] at hrest
      rw [produced_cons]
      omega

end Runs

/-- Results with which the last byte of the chunks is dropped, where the
window is filled. -/
def filling (room : Nat) : List (List UInt8) → List (List UInt8 × Deflated)
  | [] => []
  | c :: cs =>
      (c, if c = [] then ⟨0, 1, zOk⟩
        else if cs.flatten = [] then ⟨c.length - 1, room, zOk⟩
        else ⟨c.length, 0, zOk⟩) :: filling room cs

theorem filling_chunks (room : Nat) : ∀ cs : List (List UInt8), (filling room cs).map (·.1) = cs
  | [] => rfl
  | c :: cs => congrArg (c :: ·) (filling_chunks room cs)

theorem filling_ok (room : Nat) : ∀ cs : List (List UInt8), ∀ u ∈ filling room cs, u.2.err = zOk
  | [] => fun _ h => absurd h List.not_mem_nil
  | c :: cs => by
      rw [filling, List.forall_mem_cons]
      refine ⟨?_, filling_ok room cs⟩
      dsimp only
      split
      · rfl
      split <;> rfl

section Filling

variable {bound : Nat → Nat} {room : Nat}

theorem flow_filling_empty (hroom : 1 ≤ room) : ∀ {i o : Nat} {cs : List (List UInt8)},
    cs.flatten = [] → o + cs.count [] ≤ bound i →
    Flow bound room ⟨i, o, 0⟩ (filling room cs) ⟨i, o + cs.count [], 0⟩
  | i, o, [], _, _ => rfl
  | i, o, c :: cs, hempty, hfit => by
      rw [List.flatten_cons, List.append_eq_nil_iff] at hempty
      obtain ⟨rfl, hempty⟩ := hempty
      rw [List.count_cons_self] at hfit ⊢
      refine ⟨⟨i, o + 1, 0⟩, ?_, ?_⟩
      · rw [if_pos rfl]
        exact updates_whole (c := []) (Nat.zero_le 1) hroom
          (show o + 1 ≤ bound i by omega) Nat.one_pos
      · have h := flow_filling_empty hroom (i := i) (o := o + 1) hempty (by omega)
        rwa [Nat.add_right_comm, Nat.add_assoc] at h

/-- `filling` is what zlib may do, if the window can be filled. -/
theorem flow_filling (hbound : Monotone bound) (hroom : 1 ≤ room) : ∀ {i o : Nat}
    {cs : List (List UInt8)}, cs.flatten ≠ [] →
    room + o + cs.count [] ≤ bound (i + cs.flatten.length - 1) → o ≤ bound i →
    (∀ before after, cs = before ++ [] :: after →
      o + before.count [] + 1 ≤ bound (i + before.flatten.length)) →
    Flow bound room ⟨i, o, 0⟩ (filling room cs)
      ⟨i + cs.flatten.length - 1, room + o + cs.count [], 0⟩
  | i, o, [], hsome, _, _, _ => absurd rfl hsome
  | i, o, [] :: cs, hsome, hfull, hfit, hgoes => by
      rw [List.count_cons_self] at hfull ⊢
      have hnext := hgoes [] cs rfl
      refine ⟨⟨i, o + 1, 0⟩, ?_, ?_⟩
      · rw [if_pos rfl]
        exact updates_whole (c := []) (Nat.zero_le 1) hroom hnext Nat.one_pos
      · have hsome' : cs.flatten ≠ [] := hsome
        have h := flow_filling hbound hroom (i := i) (o := o + 1) hsome'
          (by rw [List.flatten_cons, List.nil_append] at hfull; omega) hnext
          (fun before after hsplit => by
            have hgo := hgoes ([] :: before) after (congrArg ([] :: ·) hsplit)
            rw [List.count_cons_self, List.flatten_cons, List.nil_append] at hgo
            omega)
        rw [show room + (o + 1) + cs.count [] = room + o + (cs.count [] + 1) by omega] at h
        exact h
  | i, o, (b :: c) :: cs, hsome, hfull, hfit, hgoes => by
      rw [List.count_cons_of_ne (List.cons_ne_nil b c)] at hfull ⊢
      rw [List.flatten_cons, List.length_append] at hfull ⊢
      by_cases hrest : cs.flatten = []
      · -- the last chunk that is not empty
        rw [hrest, List.length_nil, Nat.add_zero] at hfull ⊢
        rw [Nat.add_comm room o] at hfull ⊢
        refine ⟨⟨i + c.length, o + room, 0⟩, ?_, flow_filling_empty hroom hrest hfull⟩
        rw [if_neg (List.cons_ne_nil b c), if_pos hrest]
        exact updates_full hroom (Nat.le_succ c.length) (Nat.zero_le _)
          ((Nat.le_add_right _ _).trans hfull)
      · refine ⟨⟨i + (b :: c).length, o, 0⟩, ?_, ?_⟩
        · rw [if_neg (List.cons_ne_nil b c), if_neg hrest]
          exact updates_whole (Nat.le_refl 0) (Nat.zero_le room)
            (hfit.trans (hbound (Nat.le_add_right _ _))) (Nat.succ_pos _)
        · rw [← Nat.add_assoc] at hfull ⊢
          refine flow_filling hbound hroom hrest hfull
            (hfit.trans (hbound (Nat.le_add_right _ _))) fun before after hsplit => ?_
          have hgo := hgoes ((b :: c) :: before) after (congrArg ((b :: c) :: ·) hsplit)
          rwa [List.count_cons_of_ne (List.cons_ne_nil b c), List.flatten_cons,
            List.length_append, ← Nat.add_assoc] at hgo

end Filling

/-- The end of the stream, which takes the last chunk and writes the
trailer. -/
def finished (last : List UInt8) : Finished := ⟨zOk, ⟨last.length, 8, zStreamEnd⟩, zOk⟩

theorem compressFinish_finished (g : GzipHelper) (last : List UInt8) :
    (g.compressFinish last (finished last)).1 = 0 := rfl

/-- Where a window can be filled there is a run that drops a byte. -/
theorem exists_dropped {bound : Nat → Nat} (hbound : Monotone bound) {g : GzipHelper}
    (hg : g.consumed = []) {chunks : List (List UInt8)} (h : Fills bound g.availOut chunks)
    (last : List UInt8) : ∃ us fin, Returns0 bound g chunks last us fin
      ∧ consumedBy g last us fin ≠ chunks.flatten ++ last
      ∧ produced us = g.availOut + chunks.count [] := by
  have hroom : 1 ≤ g.availOut := Nat.le_trans (by decide) h.trailer
  have hflow : Flow bound g.availOut ⟨0, 0, 0⟩ (filling g.availOut chunks)
      ⟨chunks.flatten.length - 1, g.availOut + chunks.count [], 0⟩ := by
    have h' := flow_filling hbound hroom (i := 0) (o := 0) h.some
    simp only [Nat.zero_add, Nat.add_zero] at h'
    exact h' h.full (Nat.zero_le _) h.goes
  have hok := filling_ok g.availOut chunks
  obtain ⟨hz, hout, hin, -, -⟩ := flow_spec hbound hflow hok (Nat.zero_le _)
  have hrun : Returns0 bound g chunks last (filling g.availOut chunks) (finished last) := by
    refine ⟨filling_chunks _ _, ⟨_, ⟨chunks.flatten.length - 1 + last.length,
      g.availOut + chunks.count [] + 8, 0⟩, hflow, ?_⟩, updates_ok_iff.mpr hok, rfl⟩
    refine ⟨⟨Nat.le_refl _, h.trailer, rfl, rfl, Nat.zero_le _⟩, ?_,
      fun _ => ⟨rfl, rfl, Nat.le_refl 8⟩⟩
    exact Nat.add_le_add_right (h.full.trans (hbound (Nat.le_add_right _ _))) 8
  refine ⟨_, _, hrun, fun hall => ?_, ?_⟩
  · -- the stream has taken in a byte less
    have hwhole := (consumedBy_eq_iff hg hrun).mp hall
    have hthrough : through (consumedOf (filling g.availOut chunks))
        = given (consumedOf (filling g.availOut chunks)) :=
      through_eq_iff.mpr (List.forall_mem_map.mpr hwhole)
    have hlen := List.length_pos_of_ne_nil h.some
    rw [hthrough, given_consumedOf, filling_chunks] at hin
    have hin' : chunks.flatten.length - 1 = 0 + chunks.flatten.length := hin
    omega
  · have hout' : g.availOut + chunks.count [] = 0 + produced (filling g.availOut chunks) := hout
    rw [hout', Nat.zero_add]

theorem availOut_le (g : GzipHelper) : g.availOut ≤ g.capacity :=
  (Nat.mod_le _ _).trans (Nat.sub_le _ _)

/-- If every call returns 0, all that was handed over has been consumed,
whatever zlib does, exactly when no window can be filled before the last
byte of the updates' chunks has been taken in. Where only runs count whose
windows are inside the storage, it is enough that two windows do not fit
in it. -/
theorem consumed_iff {bound : Nat → Nat} (hbound : Monotone bound) (compressBound : Nat → Nat)
    {size capacity : Nat}
    (hcapacity : (ready compressBound size capacity).capacity < 18446744073709551616)
    (chunks : List (List UInt8)) (last : List UInt8) :
    ((∀ us fin, Returns0 bound (ready compressBound size capacity) chunks last us fin →
        consumedBy (ready compressBound size capacity) last us fin = chunks.flatten ++ last)
      ↔ ¬Fills bound (ready compressBound size capacity).availOut chunks)
    ∧ ((∀ us fin, Returns0 bound (ready compressBound size capacity) chunks last us fin →
        (∀ g ∈ calls fin (ready compressBound size capacity) us, g.Inside) →
        consumedBy (ready compressBound size capacity) last us fin = chunks.flatten ++ last)
      ↔ ¬(Fills bound (ready compressBound size capacity).availOut chunks
        ∧ 2 * (ready compressBound size capacity).availOut + chunks.count []
          ≤ (ready compressBound size capacity).capacity)) := by
  have hm : (ready compressBound size capacity).mSize = 0 := rfl
  have htotal : (ready compressBound size capacity).totalOut = 0 := rfl
  have hconsumed : (ready compressBound size capacity).consumed = [] := rfl
  generalize ready compressBound size capacity = g at hcapacity hm htotal hconsumed ⊢
  have hinside : g.Inside := by
    rw [Inside, hm, Nat.zero_add]
    exact g.availOut_le
  refine ⟨⟨fun h hfills => ?_, fun h us fin hrun => ?_⟩,
    ⟨fun h hfills => ?_, fun h us fin hrun hcalls => ?_⟩⟩
  · obtain ⟨us, fin, hrun, hdropped, -⟩ := exists_dropped hbound hconsumed hfills last
    exact hdropped (h us fin hrun)
  · rw [consumedBy_eq_iff hconsumed hrun]
    intro u hu
    by_contra hlt
    exact h (fills_of_dropped hbound hrun hu (Nat.lt_of_not_le hlt))
  · obtain ⟨us, fin, hrun, hdropped, hproduced⟩ := exists_dropped hbound hconsumed hfills.1 last
    refine hdropped (h us fin hrun ((calls_inside_iff_of_inside fin us hinside).mpr ?_))
    intro before u after hsplit _ _
    rw [hsplit, List.append_cons, produced_append] at hproduced
    have hmod := Nat.mod_le (g.totalOut + produced (before ++ [u])) 18446744073709551616
    have hfit := hfills.2
    omega
  · rw [consumedBy_eq_iff hconsumed hrun]
    intro u hu
    by_contra hlt
    have hdropped := Nat.lt_of_not_le hlt
    have hproduced := produced_of_dropped hbound hrun hu hdropped
    obtain ⟨z, z', hflow, -⟩ := hrun.stream
    have hok := updates_ok_iff.mp hrun.updates
    obtain ⟨-, -, -, -, hroom⟩ := flow_spec hbound hflow hok (Nat.zero_le _)
    have hfit := produced_inside (compressFinish_ok hrun.finish).1 hok hroom (hm.trans htotal.symm)
      hcapacity hcalls
    exact h ⟨fills_of_dropped hbound hrun hu hdropped, by omega⟩

/-- `deflateBound` of zlib for a gzip stream, without the trailer. -/
def zlibDeflateBound (n : Nat) : Nat := n + n / 4096 + n / 16384 + n / 33554432 + 17

theorem zlibDeflateBound_mono : Monotone zlibDeflateBound := fun m n h => by
  rw [zlibDeflateBound, zlibDeflateBound]
  omega

/-- The three lines with which the helper is tried out. -/
def lines : List (List UInt8 × Deflated) :=
  [([49, 58, 32, 10], ⟨4, 10, zOk⟩), ([50, 32, 10], ⟨3, 0, zOk⟩), ([51, 32, 10], ⟨3, 0, zOk⟩)]

theorem not_fills_lines :
    ¬Fills zlibDeflateBound (ready zlibBound 0 0).availOut (lines.map (·.1)) := fun h =>
  absurd h.full (by decide)

theorem lines_returns0 : Returns0 zlibDeflateBound (ready zlibBound 0 0) (lines.map (·.1)) []
    lines ⟨zOk, ⟨0, 20, zStreamEnd⟩, zOk⟩ := by
  refine ⟨rfl, ⟨⟨10, 10, 0⟩, ⟨10, 30, 0⟩, ⟨⟨4, 10, 0⟩, ?_, ⟨7, 10, 0⟩, ?_, ⟨10, 10, 0⟩, ?_, rfl⟩,
    ?_⟩, by decide, rfl⟩
  · exact updates_whole (by decide) (by decide) (by decide) (by decide)
  · exact updates_whole (by decide) (by decide) (by decide) (by decide)
  · exact updates_whole (by decide) (by decide) (by decide) (by decide)
  · exact ⟨⟨by decide, by decide, rfl, rfl, by decide⟩, by decide, fun _ => by decide⟩

theorem consumed_lines :
    consumedBy (ready zlibBound 0 0) [] lines ⟨zOk, ⟨0, 20, zStreamEnd⟩, zOk⟩
      = [49, 58, 32, 10, 50, 32, 10, 51, 32, 10] := by
  have hall := (consumed_iff zlibDeflateBound_mono zlibBound (by decide) (lines.map (·.1)) []).1.mpr
    not_fills_lines
  exact hall _ _ lines_returns0

/-- 5000000 times the same letter. -/
def letters : List UInt8 := List.replicate 5000000 97

theorem length_letters : letters.length = 5000000 := List.length_replicate

/-- `deflate` takes in 4227072 of the letters, fills the window and stops.
What else it has made of them fills two more windows and a part of the
next; only then is a line taken in again. -/
def lettersThenLines : List (List UInt8 × Deflated) :=
  [(letters, ⟨4227072, 1037, zOk⟩), ([49, 58, 32, 10], ⟨0, 1037, zOk⟩),
    ([50, 32, 10], ⟨0, 1037, zOk⟩), ([51, 32, 10], ⟨3, 1009, zOk⟩)]

def lettersEnd : Finished := ⟨zOk, ⟨0, 18, zStreamEnd⟩, zOk⟩

theorem letters_returns0 {g : GzipHelper} (hroom : g.availOut = 1037) :
    Returns0 zlibDeflateBound g (lettersThenLines.map (·.1)) [] lettersThenLines lettersEnd := by
  refine ⟨rfl, ⟨⟨4227075, 4120, 0⟩, ⟨4227075, 4138, 0⟩, ?_, ?_⟩, ?_, rfl⟩
  · rw [hroom]
    refine ⟨⟨4227072, 1037, 3083⟩, ?_, ⟨4227072, 2074, 2046⟩, ?_, ⟨4227072, 3111, 1009⟩, ?_,
      ⟨4227075, 4120, 0⟩, ?_, rfl⟩
    · refine updates_full (by decide) ?_ (by decide) (by decide)
      rw [length_letters]
      decide
    · exact updates_full (by decide) (by decide) (by decide) (by decide)
    · exact updates_full (by decide) (by decide) (by decide) (by decide)
    · exact updates_whole (by decide) (by decide) (by decide) (by decide)
  · rw [hroom]
    exact ⟨⟨by decide, by decide, rfl, rfl, by decide⟩, by decide, fun _ => by decide⟩
  · rw [updates_ok_iff]
    simp only [lettersThenLines, List.forall_mem_cons, List.not_mem_nil, false_imp_iff,
      implies_true, and_self]

/-- With the storage of `compressInit`, and with a larger one in which all
the windows are. -/
theorem not_consumed_letters :
    (Returns0 zlibDeflateBound (ready zlibBound 0 0) (lettersThenLines.map (·.1)) []
        lettersThenLines lettersEnd
      ∧ consumedBy (ready zlibBound 0 0) [] lettersThenLines lettersEnd
        ≠ (lettersThenLines.map (·.1)).flatten ++ [])
    ∧ Returns0 zlibDeflateBound (ready zlibBound 8192 9229) (lettersThenLines.map (·.1)) []
        lettersThenLines lettersEnd
      ∧ (∀ g ∈ calls lettersEnd (ready zlibBound 8192 9229) lettersThenLines, g.Inside)
      ∧ consumedBy (ready zlibBound 8192 9229) [] lettersThenLines lettersEnd
        ≠ (lettersThenLines.map (·.1)).flatten ++ [] := by
  have hnot : ∀ g : GzipHelper, g.consumed = [] → g.availOut = 1037 →
      consumedBy g [] lettersThenLines lettersEnd ≠ (lettersThenLines.map (·.1)).flatten ++ [] := by
    intro g hg hroom hall
    rw [consumedBy_eq_iff hg (letters_returns0 hroom)] at hall
    have hwhole : letters.length ≤ 4227072 := hall _ List.mem_cons_self
    rw [length_letters] at hwhole
    exact absurd hwhole (by decide)
  have hroom : (ready zlibBound 0 0).availOut = 1037 := by decide
  have hroom' : (ready zlibBound 8192 9229).availOut = 1037 := by decide
  refine ⟨⟨letters_returns0 hroom, hnot _ rfl hroom⟩, letters_returns0 hroom', ?_,
    hnot _ rfl hroom'⟩
  exact List.forall_mem_cons.mpr ⟨by decide, List.forall_mem_cons.mpr ⟨by decide,
    List.forall_mem_cons.mpr ⟨by decide, List.forall_mem_cons.mpr ⟨by decide,
      List.forall_mem_singleton.mpr (by decide)⟩⟩⟩⟩

end GzipHelper

end Yapas
