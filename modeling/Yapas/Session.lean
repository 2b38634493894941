import Mathlib.Data.List.Basic

/-!
# Sessions

A program that is called again and again, with a state that it leaves to
its next call: `session` has what the calls give out, one after the other,
and the state at the end. Two programs that agree on every call agree on
every session (`session_refines`).
-/

namespace Yapas

variable {σ τ α β : Type}

def session (step : σ → α → β × σ) : σ → List α → List β × σ
  | s, [] => ([], s)
  | s, a :: as =>
      let (b, s) := step s a
      let (bs, s) := session step s as
      (b :: bs, s)

theorem session_cons (step : σ → α → β × σ) (s : σ) (a : α) (as : List α) :
    session step s (a :: as)
      = ((step s a).1 :: (session step (step s a).2 as).1, (session step (step s a).2 as).2) :=
  rfl

/-- The state at the end. -/
theorem session_snd (step : σ → α → β × σ) : ∀ (s : σ) (as : List α),
    (session step s as).2 = as.foldl (fun s a => (step s a).2) s
  | _, [] => rfl
  | s, a :: as => by
      rw [session_cons, List.foldl_cons]
      exact session_snd step _ as

theorem session_snd_append (step : σ → α → β × σ) (s : σ) (as as' : List α) :
    (session step s (as ++ as')).2 = (session step (session step s as).2 as').2 := by
  rw [session_snd, session_snd, session_snd, List.foldl_append]

/-- `R` connects the states, whenever the calls are those that are
`allowed`. -/
theorem session_refines {step : σ → α → β × σ} {step' : τ → α → β × τ} {R : σ → τ → Prop}
    {allowed : α → Prop} (hstep : ∀ s t a, R s t → allowed a →
      (step s a).1 = (step' t a).1 ∧ R (step s a).2 (step' t a).2) :
    ∀ {s : σ} {t : τ} (as : List α), R s t → (∀ a ∈ as, allowed a) →
      (session step s as).1 = (session step' t as).1
        ∧ R (session step s as).2 (session step' t as).2
  | _, _, [], hR, _ => ⟨rfl, hR⟩
  | s, t, a :: as, hR, hall => by
      obtain ⟨ha, has⟩ := List.forall_mem_cons.mp hall
      obtain ⟨hout, hnext⟩ := hstep s t a hR ha
      obtain ⟨houts, hend⟩ := session_refines hstep as hnext has
      refine ⟨?_, hend⟩
      rw [session_cons, session_cons, hout, houts]

end Yapas
