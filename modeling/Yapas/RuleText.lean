import Yapas.Actions

/-!
# Rule texts

The documented form of the right-hand side of a rule (`RuleText`): each
action is written as it is and ends in a semicolon, and only behind a
DROP may anything follow. `parseActions` takes keywords for what they
are wherever it looks for a push or an output, but it finds a DROP
anywhere in an action's text, and it stops without a word at what
follows the last semicolon. These are the only two ways in which an
accepted text is not of the documented form (`ruleText_iff`).
-/

namespace Yapas

/-! ## The documented form -/

/-- `action_type`. -/
inductive ActionType
  | drop
  | pushVlan
  | pushMpls
  | output
  deriving DecidableEq, Repr

def Action.type : Action → ActionType
  | .drop => .drop
  | .pushVlan _ => .pushVlan
  | .pushMpls _ => .pushMpls
  | .output _ => .output

/-- An action's text: DROP, or a keyword, arguments and a closing
parenthesis. -/
def ActionType.Written : ActionType → Text → Prop
  | .drop, s => s = dropPrefix
  | .pushVlan, s => ∃ args, s = pushVlanPrefix ++ args ++ [')']
  | .pushMpls, s => ∃ args, s = pushMplsPrefix ++ args ++ [')']
  | .output, s => ∃ args, s = outputPrefix ++ args ++ [')']

/-- A right-hand side and the actions written in it, up to the first
DROP. -/
inductive RuleText : Text → List ActionType → Prop
  | nil : RuleText [] []
  | drop (rest : Text) : RuleText (dropPrefix ++ ';' :: rest) [.drop]
  | cons {type : ActionType} {s rest : Text} {types : List ActionType} :
      type ≠ .drop → type.Written s → ';' ∉ s → RuleText rest types →
      RuleText (s ++ ';' :: rest) (type :: types)

/-! ## The texts between the semicolons -/

/-- The texts that end in a semicolon, and what follows the last. -/
def actionTexts : Text → List Text × Text
  | [] => ([], [])
  | c :: s =>
      let (texts, tail) := actionTexts s
      if c = ';' then ([] :: texts, tail)
      else match texts with
        | [] => ([], c :: tail)
        | t :: texts => ((c :: t) :: texts, tail)

theorem actionTexts_append : ∀ {s : Text} (rest : Text), ';' ∉ s →
    actionTexts (s ++ ';' :: rest) = (s :: (actionTexts rest).1, (actionTexts rest).2)
  | [], rest, _ => by
      rw [List.nil_append, actionTexts]
      exact if_pos rfl
  | c :: s, rest, h => by
      rw [List.mem_cons, not_or] at h
      rw [List.cons_append, actionTexts, actionTexts_append rest h.2]
      exact if_neg (Ne.symm h.1)

theorem actionTexts_of_not_mem : ∀ {s : Text}, ';' ∉ s → actionTexts s = ([], s)
  | [], _ => rfl
  | c :: s, h => by
      rw [List.mem_cons, not_or] at h
      rw [actionTexts, actionTexts_of_not_mem h.2]
      exact if_neg (Ne.symm h.1)

/-- Each action of an accepted list is the one its text is read as. -/
theorem parseActionsLoop_getElem? {nbPorts : UInt8} :
    ∀ {fuel : Nat} {s : Text} {actions : List Action} {i : Nat} {t : Text} {a : Action},
      parseActionsLoop nbPorts fuel s = some actions → (actionTexts s).1[i]? = some t →
      actions[i]? = some a → parseAction nbPorts t = some a
  | 0, _, _, _, _, _, h, _, _ => by cases h
  | fuel + 1, s, actions, i, t, a, h, ht, ha => by
      rcases parseActionsLoop_cases h with ⟨hcut, rfl⟩ | ⟨s', rest, hcut, hcase⟩
      · cases ha
      · obtain ⟨rfl, hs⟩ := cut_eq_some.mp hcut
        rw [actionTexts_append rest hs] at ht
        rcases hcase with ⟨hdrop, rfl⟩ | ⟨b, tl, -, hb, htl, rfl⟩
        · cases i with
          | zero =>
              obtain rfl := Option.some.inj ht
              obtain rfl := Option.some.inj ha
              exact hdrop
          | succ i => cases ha
        · cases i with
          | zero =>
              obtain rfl := Option.some.inj ht
              obtain rfl := Option.some.inj ha
              exact hb
          | succ i => exact parseActionsLoop_getElem? htl ht ha

/-- The first action text with a DROP in it is DROP, and where there is
none nothing follows the last semicolon. -/
def ReadOut (s : Text) : Prop :=
  match (actionTexts s).1.find? (contains dropPrefix) with
  | some t => t = dropPrefix
  | none => (actionTexts s).2 = []

instance (s : Text) : Decidable (ReadOut s) := by
  unfold ReadOut
  split <;> infer_instance

theorem readOut_cons {s rest : Text} (hs : ';' ∉ s) (hdrop : contains dropPrefix s = false) :
    ReadOut (s ++ ';' :: rest) ↔ ReadOut rest := by
  rw [ReadOut, actionTexts_append rest hs, List.find?_cons_of_neg (by rw [hdrop]; exact nofun)]
  rfl

theorem readOut_drop {s rest : Text} (hs : ';' ∉ s) (hdrop : contains dropPrefix s = true) :
    ReadOut (s ++ ';' :: rest) ↔ s = dropPrefix := by
  rw [ReadOut, actionTexts_append rest hs, List.find?_cons_of_pos hdrop]

theorem readOut_last {s : Text} (hs : ';' ∉ s) : ReadOut s ↔ s = [] := by
  rw [ReadOut, actionTexts_of_not_mem hs]
  rfl

/-! ## One action -/

theorem arguments_eq_some {keyword s args : Text} (hkeyword : keyword.getLast? ≠ some ')')
    (h : arguments keyword s = some args) : s = keyword ++ args ++ [')'] := by
  rw [arguments] at h
  split at h
  · cases h
  rename_i hshape
  rw [not_or, not_not, not_not] at hshape
  obtain ⟨htake, hlast⟩ := hshape
  obtain ⟨body, rfl⟩ := List.getLast?_eq_some_iff.mp hlast
  obtain rfl := Option.some.inj h
  have hlen : keyword.length ≤ body.length := by
    by_contra hlt
    have hwhole : (body ++ [')']).take keyword.length = body ++ [')'] := by
      refine List.take_of_length_le ?_
      rw [List.length_append, List.length_singleton]
      omega
    rw [← htake, hwhole] at hkeyword
    exact hkeyword hlast
  rw [List.take_append_of_le_length hlen] at htake
  have hsplit : body = keyword ++ body.drop keyword.length := by
    conv_lhs => rw [← List.take_append_drop keyword.length body, htake]
  have hargs : ((body ++ [')']).drop keyword.length).take
      ((body ++ [')']).length - keyword.length - 1) = body.drop keyword.length := by
    rw [List.drop_append_of_le_length hlen]
    refine List.take_left' ?_
    rw [List.length_append, List.length_drop, List.length_singleton]
    omega
  rw [hargs, ← hsplit]

/-- Without a DROP in it, an accepted text is the action it is taken
for, from its keyword to its closing parenthesis. -/
theorem parseAction_written {nbPorts : UInt8} {s : Text} {a : Action}
    (h : parseAction nbPorts s = some a) :
    (contains dropPrefix s = true ∧ a = .drop)
      ∨ contains dropPrefix s = false ∧ a ≠ .drop ∧ a.type.Written s := by
  rw [parseAction] at h
  split at h
  · rename_i hdrop
    exact Or.inl ⟨hdrop, (Option.some.inj h).symm⟩
  rename_i hdrop
  refine Or.inr ⟨Bool.eq_false_iff.mpr hdrop, ?_⟩
  split at h
  · simp only [Option.bind_eq_bind, Option.bind_eq_some_iff, Option.pure_def,
      Option.some.injEq] at h
    obtain ⟨args, hargs, fields, -, rfl⟩ := h
    exact ⟨nofun, args, arguments_eq_some (by decide) hargs⟩
  · split at h
    · simp only [Option.bind_eq_bind, Option.bind_eq_some_iff, Option.pure_def,
        Option.some.injEq] at h
      obtain ⟨args, hargs, fields, -, rfl⟩ := h
      exact ⟨nofun, args, arguments_eq_some (by decide) hargs⟩
    · split at h
      · simp only [Option.bind_eq_bind, Option.bind_eq_some_iff, Option.pure_def,
          Option.some.injEq] at h
        obtain ⟨args, hargs, portId, -, -, -, rfl⟩ := h
        exact ⟨nofun, args, arguments_eq_some (by decide) hargs⟩
      · cases h

/-! ## The whole text -/

/-- A text of the documented form is cut where its first action ends. -/
theorem ruleText_cons {s rest : Text} {type : ActionType} {types : List ActionType}
    (hs : ';' ∉ s) (htype : type ≠ .drop) :
    RuleText (s ++ ';' :: rest) (type :: types)
      ↔ type.Written s ∧ RuleText rest types := by
  constructor
  · intro h
    generalize htext : s ++ ';' :: rest = text at h
    cases h with
    | drop => exact absurd rfl htype
    | cons hne hwritten hno hrest =>
        have hcut := (cut_append rest hs).symm.trans
          ((congrArg (cut ';') htext).trans (cut_append _ hno))
        obtain ⟨rfl, rfl⟩ := Prod.mk.inj (Option.some.inj hcut)
        exact ⟨hwritten, hrest⟩
  · rintro ⟨hwritten, hrest⟩
    exact RuleText.cons htype hwritten hs hrest

theorem ruleText_drop {s rest : Text} (hs : ';' ∉ s) :
    RuleText (s ++ ';' :: rest) [.drop] ↔ s = dropPrefix := by
  constructor
  · intro h
    generalize htext : s ++ ';' :: rest = text at h
    cases h with
    | drop rest' =>
        have hcut := (cut_append rest hs).symm.trans
          ((congrArg (cut ';') htext).trans (cut_append rest' (by decide)))
        exact (Prod.mk.inj (Option.some.inj hcut)).1
    | cons hne => exact absurd rfl hne
  · rintro rfl
    exact RuleText.drop rest

theorem ruleText_nil {s : Text} : RuleText s [] ↔ s = [] := by
  constructor
  · rintro ⟨⟩
    rfl
  · rintro rfl
    exact RuleText.nil

theorem parseActionsLoop_ruleText {nbPorts : UInt8} :
    ∀ {fuel : Nat} {s : Text} {actions : List Action},
      parseActionsLoop nbPorts fuel s = some actions →
      (RuleText s (actions.map Action.type) ↔ ReadOut s)
  | 0, _, _, h => by cases h
  | fuel + 1, s, actions, h => by
      rcases parseActionsLoop_cases h with
        ⟨hcut, rfl⟩ | ⟨t, rest, hcut, hcase⟩
      · rw [List.map_nil, ruleText_nil, readOut_last (cut_eq_none.mp hcut)]
      · obtain ⟨rfl, ht⟩ := cut_eq_some.mp hcut
        rcases hcase with ⟨hdrop, rfl⟩ | ⟨a, tl, hne, ha, htl, rfl⟩
        · rcases parseAction_written hdrop with ⟨hcontains, -⟩ | ⟨-, hnot, -⟩
          · exact (ruleText_drop ht).trans (readOut_drop ht hcontains).symm
          · exact absurd rfl hnot
        · rcases parseAction_written ha with ⟨-, rfl⟩ | ⟨hcontains, -, hwritten⟩
          · exact absurd rfl hne
          have htype : a.type ≠ .drop := by
            cases a with
            | drop => exact absurd rfl hne
            | pushVlan _ | pushMpls _ | output _ => exact nofun
          rw [List.map_cons, ruleText_cons ht htype, and_iff_right hwritten,
            readOut_cons ht hcontains]
          exact parseActionsLoop_ruleText htl

/-- An accepted text has the documented form, with the actions it is
read as, exactly when it is read to its end and its DROP is one. -/
theorem ruleText_iff {nbPorts : UInt8} {s : Text} {actions : List Action}
    (h : parseActions nbPorts s = some actions) :
    RuleText s (actions.map Action.type) ↔ ReadOut s :=
  parseActionsLoop_ruleText (parseActions_eq_some.mp h).1

theorem ruleText_twoOutputs :
    RuleText "OUTPUT(2);OUTPUT(1);".toList [.output, .output] := by
  have hparse : parseActions 2 "OUTPUT(2);OUTPUT(1);".toList = some [.output 1, .output 0] := by
    decide +kernel
  exact (ruleText_iff hparse).mpr (by decide +kernel)

/-- The second output has no semicolon and is dropped without a word,
and a text that is no action at all is a DROP. -/
theorem not_ruleText_openEnd :
    (parseActions 2 "OUTPUT(2);OUTPUT(1)".toList = some [.output 1]
        ∧ ¬ RuleText "OUTPUT(2);OUTPUT(1)".toList [.output])
      ∧ parseActions 2 "NODROPS;".toList = some [.drop]
      ∧ ¬ RuleText "NODROPS;".toList [.drop] := by
  refine ⟨⟨by decide +kernel, fun h => ?_⟩, by decide +kernel, fun h => ?_⟩
  · have hsplit : "OUTPUT(2);OUTPUT(1)".toList
        = "OUTPUT(2)".toList ++ ';' :: "OUTPUT(1)".toList := rfl
    rw [hsplit, ruleText_cons (by decide) (by decide), ruleText_nil] at h
    exact absurd h.2 (by decide)
  · have hsplit : "NODROPS;".toList = "NODROPS".toList ++ ';' :: [] := rfl
    rw [hsplit, ruleText_drop (by decide)] at h
    exact absurd h (by decide)

end Yapas
