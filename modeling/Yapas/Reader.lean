import Mathlib.Data.List.Basic

/-!
# Byte readers with a footprint

A `Reader` inspects a buffer one byte at a time. Running it yields the
offsets it inspected, in order, next to its result; the result is
`none` when an inspected offset lies past the end of the buffer.

Every reader carries the proof that it depends on the bytes it
inspected and on nothing else (`run_congr`), so the frame rule is
available for each of them at once: a reader that stays `Within` the
first `n` bytes gives the same answer whatever follows them
(`result_of_take_eq`).
-/

namespace Yapas

/-- A computation that inspects bytes of a buffer. -/
structure Reader (α : Type) where
  run : List UInt8 → List Nat × Option α
  run_congr : ∀ {b b' : List UInt8},
    (∀ i ∈ (run b).1, b[i]? = b'[i]?) → run b' = run b

namespace Reader

variable {α β : Type}

/-- The offsets inspected, in order. -/
def reads (p : Reader α) (b : List UInt8) : List Nat := (p.run b).1

/-- The value computed, `none` after an inspection past the end. -/
def result (p : Reader α) (b : List UInt8) : Option α := (p.run b).2

/-- Every inspected offset lies below `n`. -/
def Within (p : Reader α) (n : Nat) (b : List UInt8) : Prop :=
  ∀ i ∈ p.reads b, i < n

instance (p : Reader α) (n : Nat) (b : List UInt8) : Decidable (p.Within n b) :=
  inferInstanceAs (Decidable (∀ i ∈ p.reads b, i < n))

/-! ## The operations -/

/-- Inspect one byte. -/
def byte (i : Nat) : Reader UInt8 where
  run b := ([i], b[i]?)
  run_congr h := by rw [h i (List.mem_singleton.mpr rfl)]

/-- Give up without a result. -/
def fail : Reader α where
  run _ := ([], none)
  run_congr _ := rfl

protected def pure (a : α) : Reader α where
  run _ := ([], some a)
  run_congr _ := rfl

/-- Run `p`, and where it yields a value run `f` on it. -/
def bindRun (p : Reader α) (f : α → Reader β) (b : List UInt8) :
    List Nat × Option β :=
  match p.result b with
  | none => (p.reads b, none)
  | some a => (p.reads b ++ (f a).reads b, (f a).result b)

protected def bind (p : Reader α) (f : α → Reader β) : Reader β where
  run := bindRun p f
  run_congr {b b'} h := by
    unfold bindRun at *
    have key : p.run b' = p.run b := by
      refine p.run_congr fun i hi => h i ?_
      cases p.result b with
      | none => exact hi
      | some a => exact List.mem_append_left _ hi
    have hreads : p.reads b' = p.reads b := congrArg Prod.fst key
    have hresult : p.result b' = p.result b := congrArg Prod.snd key
    rw [hreads, hresult]
    cases hp : p.result b with
    | none => rfl
    | some a =>
        rw [hp] at h
        have hf : (f a).run b' = (f a).run b :=
          (f a).run_congr fun i hi => h i (List.mem_append_right _ hi)
        simp only [reads, result, hf]

instance : Monad Reader where
  pure := Reader.pure
  bind := Reader.bind

/-! ## What a composed reader inspects and yields -/

@[simp] theorem result_byte (i : Nat) (b : List UInt8) :
    (byte i).result b = b[i]? := rfl

@[simp] theorem reads_byte (i : Nat) (b : List UInt8) :
    (byte i).reads b = [i] := rfl

@[simp] theorem result_fail (b : List UInt8) :
    (fail : Reader α).result b = none := rfl

@[simp] theorem reads_fail (b : List UInt8) :
    (fail : Reader α).reads b = [] := rfl

@[simp] theorem result_pure (a : α) (b : List UInt8) :
    (pure a : Reader α).result b = some a := rfl

@[simp] theorem reads_pure (a : α) (b : List UInt8) :
    (pure a : Reader α).reads b = [] := rfl

@[simp] theorem result_bind (p : Reader α) (f : α → Reader β) (b : List UInt8) :
    (p >>= f).result b = (p.result b).bind fun a => (f a).result b := by
  show (bindRun p f b).2 = _
  unfold bindRun
  cases p.result b <;> rfl

theorem reads_bind_some {p : Reader α} {b : List UInt8} {a : α}
    (h : p.result b = some a) (f : α → Reader β) :
    (p >>= f).reads b = p.reads b ++ (f a).reads b := by
  show (bindRun p f b).1 = _
  simp only [bindRun, h]

theorem reads_bind_none {p : Reader α} {b : List UInt8}
    (h : p.result b = none) (f : α → Reader β) :
    (p >>= f).reads b = p.reads b := by
  show (bindRun p f b).1 = _
  simp only [bindRun, h]

/-! ## Staying within a bound -/

@[simp] theorem within_byte (i n : Nat) (b : List UInt8) :
    (byte i).Within n b ↔ i < n := by
  simp [Within]

@[simp] theorem within_pure (a : α) (n : Nat) (b : List UInt8) :
    (pure a : Reader α).Within n b := by
  simp [Within]

@[simp] theorem within_fail (n : Nat) (b : List UInt8) :
    (fail : Reader α).Within n b := by
  simp [Within]

/-- The rule of composition: the first reader stays within the bound,
and so does the second on whatever the first yields. -/
theorem within_bind {p : Reader α} {f : α → Reader β} {n : Nat} {b : List UInt8} :
    (p >>= f).Within n b ↔
      p.Within n b ∧ ∀ a, p.result b = some a → (f a).Within n b := by
  cases h : p.result b with
  | none =>
      simp only [Within, reads_bind_none h]
      simp
  | some a =>
      simp only [Within, reads_bind_some h, List.mem_append]
      constructor
      · intro hw
        refine ⟨fun i hi => hw i (Or.inl hi), fun a' ha' i hi => ?_⟩
        obtain rfl := Option.some.inj ha'
        exact hw i (Or.inr hi)
      · rintro ⟨hp, hf⟩ i (hi | hi)
        · exact hp i hi
        · exact hf a rfl i hi

/-! ## Readers that fail only by leaving the buffer -/

/-- On this buffer the reader either stays inside it and yields a value,
or leaves it and yields none. -/
def Strict (p : Reader α) (b : List UInt8) : Prop :=
  (p.result b).isSome ↔ p.Within b.length b

theorem strict_byte (i : Nat) (b : List UInt8) : (byte i).Strict b := by
  simp [Strict]

theorem strict_pure (a : α) (b : List UInt8) :
    (pure a : Reader α).Strict b := by
  simp [Strict]

theorem Strict.bind {p : Reader α} {f : α → Reader β} {b : List UInt8}
    (hp : p.Strict b) (hf : ∀ a, p.result b = some a → (f a).Strict b) :
    (p >>= f).Strict b := by
  unfold Strict at *
  rw [within_bind, result_bind, ← hp]
  cases h : p.result b with
  | none => simp
  | some a => simpa using hf a h

/-- Strict, and no offset inspected lies in front of `off`. -/
def StrictFrom (p : Reader α) (off : Nat) (b : List UInt8) : Prop :=
  p.Strict b ∧ ∀ i ∈ p.reads b, off ≤ i

theorem strictFrom_byte {i off : Nat} (h : off ≤ i) (b : List UInt8) :
    (byte i).StrictFrom off b :=
  ⟨strict_byte i b, fun _ hi => List.mem_singleton.mp hi ▸ h⟩

theorem strictFrom_pure (a : α) (off : Nat) (b : List UInt8) :
    (pure a : Reader α).StrictFrom off b :=
  ⟨strict_pure a b, fun _ hi => absurd hi List.not_mem_nil⟩

theorem StrictFrom.bind {p : Reader α} {f : α → Reader β} {off : Nat} {b : List UInt8}
    (hp : p.StrictFrom off b) (hf : ∀ a, p.result b = some a → (f a).StrictFrom off b) :
    (p >>= f).StrictFrom off b := by
  refine ⟨hp.1.bind fun a ha => (hf a ha).1, ?_⟩
  cases h : p.result b with
  | none =>
      rw [reads_bind_none h]
      exact hp.2
  | some a =>
      rw [reads_bind_some h]
      intro i hi
      rcases List.mem_append.mp hi with hi | hi
      · exact hp.2 i hi
      · exact (hf a h).2 i hi

theorem StrictFrom.mono {p : Reader α} {off off' : Nat} {b : List UInt8}
    (h : p.StrictFrom off b) (hle : off' ≤ off) : p.StrictFrom off' b :=
  ⟨h.1, fun i hi => Nat.le_trans hle (h.2 i hi)⟩

/-! ## Big-endian fields -/

/-- A 16-bit field in network byte order. -/
def be16 (i : Nat) : Reader Nat := do
  let hi ← byte i
  let lo ← byte (i + 1)
  pure (256 * hi.toNat + lo.toNat)

/-- The value of the field at `i`, where both its bytes are there. -/
def be16At (b : List UInt8) (i : Nat) : Option Nat :=
  b[i]?.bind fun hi => b[i + 1]?.map fun lo => 256 * hi.toNat + lo.toNat

@[simp] theorem result_be16 (i : Nat) (b : List UInt8) :
    (be16 i).result b = be16At b i := by
  simp only [be16, result_bind, result_byte, result_pure, be16At]
  cases b[i]? with
  | none => rfl
  | some hi => cases b[i + 1]? <;> rfl

theorem strict_be16 (i : Nat) (b : List UInt8) : (be16 i).Strict b :=
  (strict_byte i b).bind fun _ _ =>
    (strict_byte (i + 1) b).bind fun _ _ => strict_pure _ b

theorem strictFrom_be16 {i off : Nat} (h : off ≤ i) (b : List UInt8) :
    (be16 i).StrictFrom off b :=
  (strictFrom_byte h b).bind fun _ _ =>
    (strictFrom_byte (Nat.le_succ_of_le h) b).bind fun _ _ => strictFrom_pure _ off b

theorem be16At_eq_none {b : List UInt8} {i : Nat} (h : b.length ≤ i + 1) :
    be16At b i = none := by
  unfold be16At
  rw [List.getElem?_eq_none (by omega : b.length ≤ i + 1)]
  cases b[i]? <;> rfl

theorem be16At_drop (b : List UInt8) (off i : Nat) :
    be16At b (off + i) = be16At (b.drop off) i := by
  rw [be16At, be16At, List.getElem?_drop, List.getElem?_drop, Nat.add_assoc]

/-! ## The frame rule -/

/-- A reader that stays within the first `n` bytes of one buffer runs
alike on every buffer that begins with the same `n` bytes. -/
theorem run_of_take_eq {p : Reader α} {n : Nat} {b b' : List UInt8}
    (hw : p.Within n b) (h : b.take n = b'.take n) : p.run b' = p.run b := by
  refine p.run_congr fun i hi => ?_
  have hin : i < n := hw i hi
  have hget : (b.take n)[i]? = (b'.take n)[i]? := by rw [h]
  rwa [List.getElem?_take_of_lt hin, List.getElem?_take_of_lt hin] at hget

theorem result_of_take_eq {p : Reader α} {n : Nat} {b b' : List UInt8}
    (hw : p.Within n b) (h : b.take n = b'.take n) :
    p.result b' = p.result b := by
  unfold result
  rw [run_of_take_eq hw h]

theorem within_of_take_eq {p : Reader α} {n : Nat} {b b' : List UInt8}
    (hw : p.Within n b) (h : b.take n = b'.take n) : p.Within n b' := by
  unfold Within reads
  rw [run_of_take_eq hw h]
  exact hw

end Reader

end Yapas
