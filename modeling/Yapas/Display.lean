import Yapas.Editor
import Yapas.Terminal

/-!
# The editor shows what it holds

The editor draws by counting: it clears a line with blanks and
backspaces, and moves the cursor by writing over what is there. Every
key draws the line that the editor holds after it (`draws_effect`), so
that the line on the terminal is the one that is edited.
-/

namespace Yapas

open Screen (Draws draws_nil draws_newline draws_backspace draws_backspaces draws_put draws_text
  draws_line)

theorem plain_isPrint : Screen.Plain isPrint := ⟨rfl, rfl⟩

namespace CmdLine

/-! ## What is written, drawn -/

section Drawing

variable {x y : Text}

theorem draws_rub (z : Text) :
    Draws isPrint x z (List.replicate z.length ' ' ++ List.replicate z.length '\x08') x [] := by
  have hblank : Draws isPrint x z (List.replicate z.length ' ')
      (x ++ List.replicate z.length ' ') (z.drop (List.replicate z.length ' ').length) :=
    draws_text plain_isPrint fun c hc => by
      rw [List.eq_of_mem_replicate hc]
      rfl
  have hback : Draws isPrint (x ++ List.replicate z.length ' ') []
      (List.replicate (List.replicate z.length ' ').length '\x08') x
      (List.replicate z.length ' ' ++ []) := draws_backspaces _
  rw [List.length_replicate] at hblank hback
  rw [List.drop_length] at hblank
  rw [List.append_nil] at hback
  exact (hblank.append hback).blanks

/-- The prompt is all that a cleared line shows. -/
theorem draws_cleared (p a b : Text) :
    Draws isPrint (p ++ a) b (cleared a.length b.length) p [] := by
  have hback : Draws isPrint (p ++ a) [] (List.replicate a.length '\x08') p (a ++ []) :=
    draws_backspaces a
  rw [List.append_nil] at hback
  rw [cleared, List.append_assoc (List.replicate a.length '\x08')]
  exact (draws_rub b).append (hback.append (draws_rub a))

theorem draws_redrawn (p a b : Text) {a' b' : Text} (h : Printable (a' ++ b')) :
    Draws isPrint (p ++ a) b (redrawn a b a' b') (p ++ a') b' := by
  have htext := draws_text (x := p) (y := []) plain_isPrint h
  have hback : Draws isPrint (p ++ a' ++ b') [] (List.replicate b'.length '\x08') (p ++ a')
      (b' ++ []) := draws_backspaces b'
  rw [List.drop_nil, ← List.append_assoc] at htext
  rw [List.append_nil] at hback
  exact ((draws_cleared p a b).append htext).append hback

theorem draws_listing : ∀ {above x y : Text}, Listing above →
    ∃ x' y', Draws isPrint x y above x' y'
  | [], x, y, _ => ⟨x, y, draws_nil⟩
  | c :: above, x, y, h => by
      have hrest : Listing above := fun d hd => h d (List.mem_cons_of_mem c hd)
      rcases h c List.mem_cons_self with hc | rfl
      · obtain ⟨x', y', hdraws⟩ := draws_listing (x := x ++ [c]) (y := y.drop 1) hrest
        exact ⟨x', y', (draws_put plain_isPrint hc).append hdraws⟩
      · obtain ⟨x', y', hdraws⟩ := draws_listing (x := []) (y := []) hrest
        exact ⟨x', y', draws_newline.append hdraws⟩

/-- The caller answers a command with the prompt. -/
theorem draws_effect {prompt a b a' b' w res : Text} (hp : Printable prompt)
    (h : Effect prompt a b a' b' w res) :
    Draws isPrint (prompt ++ a) b (w ++ if res = [] then [] else prompt) (prompt ++ a') b' := by
  cases h with
  | none => exact draws_nil
  | redraw _ _ h =>
      rw [if_pos rfl, List.append_nil]
      exact draws_redrawn prompt a b h
  | left a b c =>
      rw [← List.append_assoc]
      exact draws_backspace c
  | right a b hc =>
      rw [← List.append_assoc]
      exact draws_put plain_isPrint hc
  | anew _ _ habove hprint =>
      rename_i above
      obtain ⟨x', y', hlisting⟩ := draws_listing (x := prompt ++ a) (y := b) habove
      have hline : Draws isPrint [] [] (prompt ++ a') (prompt ++ a') [] :=
        draws_line plain_isPrint (hp.append hprint)
      have hdraws := hlisting.append (draws_newline.append hline)
      rw [if_pos rfl, List.append_nil, List.append_assoc, List.cons_append]
      exact hdraws
  | enter _ _ hne =>
      have hprompt : Draws isPrint [] [] prompt prompt [] := draws_line plain_isPrint hp
      rw [if_neg hne, List.append_nil]
      exact draws_newline.append hprompt

end Drawing

/-! ## Runs -/

/-- One round of the caller: a command that is not empty is answered by
the prompt. -/
def round (s : CmdLine) (k : Key) : Option CmdLine :=
  (s.readLine k).map fun r => if r.2 = [] then r.1 else r.1.writeLine r.1.prompt

def rounds (s : CmdLine) : List Key → Option CmdLine
  | [] => some s
  | k :: keys => (s.round k).bind fun s => rounds s keys

/-- The terminal shows the prompt and the line, and its cursor stands
where the next key is put. -/
structure ShownOn (prompt : Text) (s : CmdLine) (t : Screen) : Prop where
  line : ∀ i, t.cells i = (prompt ++ s.cmd).getD i ' '
  cursor : (t.col : Int) = prompt.length + s.mIndex

/-- What has been written so far draws the line. -/
structure Drawn (prompt : Text) (s : CmdLine) : Prop where
  sound : s.Sound
  prompt_eq : s.prompt = prompt
  drawn : ∃ a b, s.AtCursor a b ∧ Draws isPrint [] [] s.out (prompt ++ a) b

section Rounds

variable {prompt : Text}

theorem new_drawn {hints : List Text} (h : ∀ t ∈ hints, Printable t) (hp : Printable prompt)
    (lastKey : Int) : Drawn prompt (new prompt hints lastKey) where
  sound := new_sound h prompt lastKey
  prompt_eq := rfl
  drawn := by
    have hprompt : Draws isPrint [] [] prompt prompt [] := draws_line plain_isPrint hp
    refine ⟨[], [], ⟨rfl, rfl⟩, ?_⟩
    rwa [List.append_nil]

/-- The step: a round draws the line it leaves. -/
theorem round_drawn (hp : Printable prompt) {s : CmdLine} (h : Drawn prompt s) (k : Key) :
    ∃ s', s.round k = some s' ∧ Drawn prompt s' := by
  obtain ⟨hs, hprompt, a, b, hcursor, hdrawn⟩ := h
  obtain ⟨s', res, hread, hsound', hprompt', a', b', w, hcursor', hout, heffect⟩ :=
    readLine_keeps hs hcursor k
  rw [hprompt] at hprompt' heffect
  have hnext := hdrawn.append (draws_effect hp heffect)
  rw [← List.append_assoc, ← hout] at hnext
  rw [round, hread]
  by_cases hres : res = []
  · rw [if_pos hres, List.append_nil] at hnext
    exact ⟨s', congrArg some (if_pos hres), hsound', hprompt', a', b', hcursor', hnext⟩
  · rw [if_neg hres, ← hprompt'] at hnext
    have hsound : (s'.writeLine s'.prompt).Sound :=
      hsound'.line hsound'.curr hsound'.cmd hsound'.index
    refine ⟨s'.writeLine s'.prompt, congrArg some (if_neg hres), hsound, hprompt', a', b',
      ⟨hcursor'.cmd, hcursor'.index⟩, ?_⟩
    rw [← hprompt']
    exact hnext

theorem rounds_drawn (hp : Printable prompt) {s : CmdLine} (h : Drawn prompt s)
    (keys : List Key) : ∃ s', s.rounds keys = some s' ∧ Drawn prompt s' := by
  induction keys generalizing s with
  | nil => exact ⟨s, rfl, h⟩
  | cons k keys ih =>
      obtain ⟨s', hround, h'⟩ := round_drawn hp h k
      rw [rounds, hround, Option.bind_some]
      exact ih h'

theorem Drawn.shownOn {s : CmdLine} (h : Drawn prompt s) :
    ∃ t, Screen.fresh.feed isPrint s.out = some t ∧ ShownOn prompt s t := by
  obtain ⟨-, -, a, b, hcursor, hdrawn⟩ := h
  obtain ⟨t, hfeed, ht⟩ := hdrawn Screen.fresh Screen.reads_fresh
  refine ⟨t, hfeed, fun i => ?_, ?_⟩
  · rw [ht.cells, hcursor.cmd, List.append_assoc]
  · rw [ht.col, hcursor.index, List.length_append]
    exact Int.natCast_add _ _

/-- Whatever keys are pressed, the terminal shows the line that is
edited. -/
theorem rounds_shownOn {hints : List Text} (h : ∀ t ∈ hints, Printable t) (hp : Printable prompt)
    (lastKey : Int) (keys : List Key) :
    ∃ s t, (new prompt hints lastKey).rounds keys = some s
      ∧ Screen.fresh.feed isPrint s.out = some t ∧ ShownOn prompt s t := by
  obtain ⟨s, hrun, hs⟩ := rounds_drawn hp (new_drawn h hp lastKey) keys
  obtain ⟨t, hfeed, ht⟩ := hs.shownOn
  exact ⟨s, t, hrun, hfeed, ht⟩

theorem rounds_shownOn_testHints : (∀ t ∈ testHints, Printable t) ∧ Printable testPrompt ∧
    ∃ s t, (new testPrompt testHints 0).rounds testKeys = some s
      ∧ Screen.fresh.feed isPrint s.out = some t ∧ ShownOn testPrompt s t :=
  ⟨testHints_printable, testPrompt_printable,
    rounds_shownOn testHints_printable testPrompt_printable 0 testKeys⟩

end Rounds

end CmdLine

end Yapas
