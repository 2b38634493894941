import Mathlib.Data.List.Induction

/-!
# Procedures

A procedure over a state returns a value or stops, and either way
leaves a state behind: what it did before it stopped is not undone.

`Meets P p Q E` is the triple for it. From a state with `P` the
procedure returns with `Q` or stops with `E`; both exits are named, so
a rule for a loop can say what holds when an iteration stops midway
(`Meets.foldlM`). The loop's invariant speaks of the part of the list
that has been worked off.
-/

namespace Yapas

/-- A procedure; `none` is where it stopped. -/
def Proc (σ α : Type) : Type := σ → Option α × σ

namespace Proc

variable {σ α β τ : Type}

protected def pure (a : α) : Proc σ α := fun s => (some a, s)

protected def bind (p : Proc σ α) (f : α → Proc σ β) : Proc σ β := fun s =>
  match p s with
  | (some a, s') => f a s'
  | (none, s') => (none, s')

instance : Monad (Proc σ) where
  pure := Proc.pure
  bind := Proc.bind

/-- Stop here. -/
def stop : Proc σ α := fun s => (none, s)

def get : Proc σ σ := fun s => (some s, s)

def modify (f : σ → σ) : Proc σ Unit := fun s => (some (), f s)

/-- Go on with a value that may be missing. -/
def ofOption : Option α → Proc σ α
  | some a => Proc.pure a
  | none => stop

@[simp] theorem pure_run (a : α) (s : σ) : (pure a : Proc σ α) s = (some a, s) := rfl

@[simp] theorem get_run (s : σ) : (get : Proc σ σ) s = (some s, s) := rfl

@[simp] theorem modify_run (f : σ → σ) (s : σ) : modify f s = (some (), f s) := rfl

@[simp] theorem ofOption_some_run (a : α) (s : σ) : ofOption (some a) s = (some a, s) := rfl

@[simp] theorem ofOption_none_run (s : σ) : (ofOption none : Proc σ α) s = (none, s) := rfl

@[simp] theorem ofOption_some_bind (a : α) (f : α → Proc σ β) : (ofOption (some a) >>= f) = f a :=
  rfl

@[simp] theorem ofOption_none_bind (f : α → Proc σ β) : (ofOption none >>= f) = stop := rfl

theorem bind_run {p : Proc σ α} {s s' : σ} {a : α} (h : p s = (some a, s'))
    (f : α → Proc σ β) : (p >>= f) s = f a s' := by
  show Proc.bind p f s = _
  rw [Proc.bind, h]

theorem bind_stop {p : Proc σ α} {s s' : σ} (h : p s = (none, s')) (f : α → Proc σ β) :
    (p >>= f) s = (none, s') := by
  show Proc.bind p f s = _
  rw [Proc.bind, h]

/-! ## The triple -/

/-- From a state with `P`, return with `Q` or stop with `E`. -/
def Meets (P : σ → Prop) (p : Proc σ α) (Q : α → σ → Prop) (E : σ → Prop) : Prop :=
  ∀ s, P s → (∀ a s', p s = (some a, s') → Q a s') ∧ ∀ s', p s = (none, s') → E s'

variable {P P' : σ → Prop} {p : Proc σ α} {Q : α → σ → Prop} {E : σ → Prop}

theorem Meets.of_run (h : ∀ s, P s → ∃ a s', p s = (some a, s') ∧ Q a s') : Meets P p Q E := by
  intro s hs
  obtain ⟨a, s', hp, hQ⟩ := h s hs
  refine ⟨fun a' s'' h' => ?_, fun s'' h' => ?_⟩
  · rw [hp] at h'
    obtain ⟨ha, rfl⟩ := Prod.mk.inj h'
    obtain rfl := Option.some.inj ha
    exact hQ
  · rw [hp] at h'
    cases h'

theorem Meets.of_stop (h : ∀ s, P s → ∃ s', p s = (none, s') ∧ E s') : Meets P p Q E := by
  intro s hs
  obtain ⟨s', hp, hE⟩ := h s hs
  refine ⟨fun a' s'' h' => ?_, fun s'' h' => ?_⟩
  · rw [hp] at h'
    cases h'
  · rw [hp] at h'
    obtain ⟨-, rfl⟩ := Prod.mk.inj h'
    exact hE

/-- What holds where the program returns and where it stops. -/
theorem Meets.ends {I : σ → Prop} (h : Meets P p (fun _ => I) I) {s s' : σ} {o : Option α}
    (hs : P s) (hrun : p s = (o, s')) : I s' := by
  obtain ⟨hreturn, hstop⟩ := h s hs
  cases o with
  | some a => exact hreturn a s' hrun
  | none => exact hstop s' hrun

theorem Meets.pure {a : α} (h : ∀ s, P s → Q a s) : Meets P (pure a) Q E :=
  .of_run fun s hs => ⟨a, s, rfl, h s hs⟩

theorem Meets.bind {R : β → σ → Prop} {f : α → Proc σ β} (hp : Meets P p Q E)
    (hf : ∀ a, Meets (Q a) (f a) R E) : Meets P (p >>= f) R E := by
  intro s hs
  obtain ⟨hret, hstop⟩ := hp s hs
  match h : p s with
  | (some a, s') =>
      rw [bind_run h]
      exact hf a s' (hret a s' h)
  | (none, s') =>
      rw [bind_stop h]
      refine ⟨fun b s'' h' => ?_, fun s'' h' => ?_⟩
      · cases h'
      · obtain ⟨-, rfl⟩ := Prod.mk.inj h'
        exact hstop s' h

theorem Meets.weaken {Q' : α → σ → Prop} {E' : σ → Prop} (h : Meets P p Q E)
    (hP : ∀ s, P' s → P s) (hQ : ∀ a s, Q a s → Q' a s) (hE : ∀ s, E s → E' s) :
    Meets P' p Q' E' := by
  intro s hs
  obtain ⟨hret, hstop⟩ := h s (hP s hs)
  exact ⟨fun a s' h' => hQ a s' (hret a s' h'), fun s' h' => hE s' (hstop s' h')⟩

/-- The loop from the middle of the list on. -/
theorem Meets.foldlM_from {I : List τ → β → σ → Prop} {f : β → τ → Proc σ β} :
    ∀ {done xs : List τ} {b : β},
      (∀ pre x post b, xs = pre ++ x :: post →
        Meets (I (done ++ pre) b) (f b x) (I (done ++ pre ++ [x])) E) →
      Meets (I done b) (xs.foldlM f b) (I (done ++ xs)) E
  | done, [], b, _ => by
      rw [List.append_nil]
      exact Meets.pure fun _ h => h
  | done, x :: xs, b, hf => by
      rw [List.foldlM_cons]
      refine Meets.bind (Q := I (done ++ [x])) ?_ fun b' => ?_
      · simpa using hf [] x xs b rfl
      · have hrest : Meets (I (done ++ [x]) b') (xs.foldlM f b') (I (done ++ [x] ++ xs)) E := by
          refine Meets.foldlM_from fun pre y post c hxs => ?_
          simpa using hf (x :: pre) y post c (by rw [hxs]; rfl)
        simpa using hrest

/-- A loop, with an invariant about the part of the list behind it. -/
theorem Meets.foldlM {I : List τ → β → σ → Prop} {f : β → τ → Proc σ β} {xs : List τ} {b : β}
    (hf : ∀ pre x post b, xs = pre ++ x :: post →
      Meets (I pre b) (f b x) (I (pre ++ [x])) E) :
    Meets (I [] b) (xs.foldlM f b) (I xs) E :=
  Meets.foldlM_from hf

/-! ## Logs -/

section Log

variable {ε : Type} {log : σ → List ε} {C : ε → Prop}

/-- Return or stop, the procedure adds to the log, and only events with
`C`. -/
def Adds (log : σ → List ε) (C : ε → Prop) (p : Proc σ α) : Prop :=
  ∀ s, ∃ es, log (p s).2 = log s ++ es ∧ ∀ e ∈ es, C e

theorem Adds.mono {C' : ε → Prop} (h : Adds log C p) (hC : ∀ e, C e → C' e) :
    Adds log C' p := by
  intro s
  obtain ⟨es, hes, hall⟩ := h s
  exact ⟨es, hes, fun e he => hC e (hall e he)⟩

theorem Adds.none (h : ∀ s, log (p s).2 = log s) : Adds log C p :=
  fun s => ⟨[], by rw [h, List.append_nil], by simp⟩

theorem Adds.pure {a : α} : Adds log C (pure a) := .none fun _ => rfl

theorem Adds.ofOption : ∀ o : Option α, Adds log C (ofOption o)
  | some _ => .none fun _ => rfl
  | .none => .none fun _ => rfl

theorem Adds.bind {f : α → Proc σ β} (hp : Adds log C p) (hf : ∀ a, Adds log C (f a)) :
    Adds log C (p >>= f) := by
  intro s
  obtain ⟨es, hes, hC⟩ := hp s
  match h : p s with
  | (some a, s') =>
      rw [h] at hes
      obtain ⟨fs, hfs, hC'⟩ := hf a s'
      rw [bind_run h]
      refine ⟨es ++ fs, by rw [hfs, hes, List.append_assoc], fun e he => ?_⟩
      rcases List.mem_append.mp he with he | he
      · exact hC e he
      · exact hC' e he
  | (.none, s') =>
      rw [h] at hes
      rw [bind_stop h]
      exact ⟨es, hes, hC⟩

theorem Adds.foldlM {f : β → τ → Proc σ β} (hf : ∀ b x, Adds log C (f b x)) :
    ∀ (xs : List τ) (b : β), Adds log C (xs.foldlM f b)
  | [], b => .pure
  | x :: xs, b => by
      rw [List.foldlM_cons]
      exact (hf b x).bind fun b' => Adds.foldlM hf xs b'

/-- A property of the log that each of the events keeps. -/
theorem Adds.meets {I : List ε → Prop} (h : Adds log C p)
    (hstep : ∀ es e, I es → C e → I (es ++ [e])) :
    Meets (fun s => I (log s)) p (fun _ s => I (log s)) fun s => I (log s) := by
  intro s hs
  obtain ⟨es, hes, hC⟩ := h s
  have hall : I (log (p s).2) := by
    rw [hes]
    clear hes
    induction es using List.reverseRecOn with
    | nil => rwa [List.append_nil]
    | append_singleton es e ih =>
        rw [← List.append_assoc]
        refine hstep _ e (ih fun e' he' => hC e' ?_) (hC e ?_)
        · exact List.mem_append_left _ he'
        · exact List.mem_append_right _ List.mem_cons_self
  refine ⟨fun a s' h' => ?_, fun s' h' => ?_⟩
  · rwa [h'] at hall
  · rwa [h'] at hall

end Log

end Proc

end Yapas
