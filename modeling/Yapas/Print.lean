import Mathlib.Data.List.Nodup
import Yapas.Actions
import Yapas.Lookup

/-!
# Printing a rule table

The documented syntax of the rule file, as a printer, and the parser
run on what it prints.

A table maps pairs of a port number and a protocol to action lists; the
ranges of all its fields are part of its types, so a table that the
file format has no words for cannot be built. A rule is printed as a
list of tokens, and a line spells the tokens with any number of spaces
in front of, between and behind them (`Spaced`).

On the way to the round trip each parser meets its own printer:
`parseAction_push` and `parseAction_port` for one action,
`parseActions_tokens` for a list, `lineEntry_spelled` for a line.
-/

namespace Yapas

/-! ## Tables -/

/-- A port number as the file gives it, counted from one. -/
structure PortNumber (nbPorts : UInt8) where
  number : Nat
  pos : 1 ≤ number
  le : number ≤ nbPorts.toNat
  deriving DecidableEq

namespace PortNumber

variable {nbPorts : UInt8}

/-- The port's id, counted from zero. -/
def id (n : PortNumber nbPorts) : UInt8 := UInt8.ofNat (n.number - 1)

theorem toNat_id (n : PortNumber nbPorts) : n.id.toNat + 1 = n.number := by
  rw [id, toNat_portId n.le, Nat.sub_add_cancel n.pos]

theorem id_injective {n n' : PortNumber nbPorts} (h : n.id = n'.id) : n = n' := by
  have hn := n.toNat_id
  rw [h, n'.toNat_id] at hn
  cases n
  cases n'
  cases hn
  rfl

end PortNumber

structure VlanFields where
  tpid : Nat
  pcp : Nat
  cfi : Nat
  vid : Nat
  tpid_eq : tpid = 33024 ∨ tpid = 34984
  pcp_le : pcp ≤ 7
  cfi_le : cfi ≤ 1
  vid_pos : 1 ≤ vid
  vid_le : vid ≤ 4094

structure MplsFields where
  label : Nat
  cos : Nat
  s : Nat
  ttl : Nat
  label_lt : label < 2 ^ 20
  cos_le : cos ≤ 7
  s_le : s ≤ 1
  ttl_le : ttl ≤ 255

/-- The word a tag's fields make, in host order. -/
def VlanFields.word (v : VlanFields) : UInt32 :=
  UInt32.ofNat v.tpid <<< 16 ||| UInt32.ofNat v.pcp <<< 13 ||| UInt32.ofNat v.cfi <<< 12
    ||| UInt32.ofNat v.vid

def MplsFields.word (m : MplsFields) : UInt32 :=
  UInt32.ofNat m.label <<< 12 ||| UInt32.ofNat m.cos <<< 9 ||| UInt32.ofNat m.s <<< 8
    ||| UInt32.ofNat m.ttl

inductive Push
  | vlan (v : VlanFields)
  | mpls (m : MplsFields)

/-- What a rule does with a packet. -/
inductive RuleActions (nbPorts : UInt8)
  | drop
  | forward (pushes : List Push) (outputs : List (PortNumber nbPorts))
      (nonempty : pushes ≠ [] ∨ outputs ≠ [])

structure Rule (nbPorts : UInt8) where
  port : PortNumber nbPorts
  protocol : Protocol
  actions : RuleActions nbPorts

/-- Rules for pairs of a port and a protocol, none of them twice. -/
structure Table (nbPorts : UInt8) where
  rules : List (Rule nbPorts)
  distinct : (rules.map fun r => (r.port, r.protocol)).Nodup

/-- The actions a rule stands for, as the table of the program holds
them. -/
def Push.action : Push → Action
  | .vlan v => .pushVlan (Word.bswap v.word)
  | .mpls m => .pushMpls (Word.bswap m.word)

def RuleActions.actions {nbPorts : UInt8} : RuleActions nbPorts → List Action
  | .drop => [.drop]
  | .forward pushes outputs _ =>
      pushes.map Push.action ++ outputs.map fun n => .output n.id

def Rule.key {nbPorts : UInt8} (r : Rule nbPorts) : UInt16 := ruleKey r.port.id r.protocol

/-! ## Tokens -/

def fieldTokens : List Nat → List Text
  | [] => []
  | [n] => [decimal n]
  | n :: ns => decimal n :: [','] :: fieldTokens ns

/-- `KEYWORD(field,...,field);`, the keyword without its parenthesis. -/
def callTokens (keyword : Text) (fields : List Nat) : List Text :=
  keyword :: ['('] :: fieldTokens fields ++ [[')'], [';']]

def pushVlanName : Text := ['P', 'U', 'S', 'H', '-', 'V', 'L', 'A', 'N']

def pushMplsName : Text := ['P', 'U', 'S', 'H', '-', 'M', 'P', 'L', 'S']

def outputName : Text := ['O', 'U', 'T', 'P', 'U', 'T']

def Push.tokens : Push → List Text
  | .vlan v => callTokens pushVlanName [v.tpid, v.pcp, v.cfi, v.vid]
  | .mpls m => callTokens pushMplsName [m.label, m.cos, m.s, m.ttl]

def PortNumber.tokens {nbPorts : UInt8} (n : PortNumber nbPorts) : List Text :=
  callTokens outputName [n.number]

def RuleActions.tokens {nbPorts : UInt8} : RuleActions nbPorts → List Text
  | .drop => [dropPrefix, [';']]
  | .forward pushes outputs _ =>
      pushes.flatMap Push.tokens ++ outputs.flatMap PortNumber.tokens

def Rule.tokens {nbPorts : UInt8} (r : Rule nbPorts) : List Text :=
  decimal r.port.number :: [','] :: r.protocol.name :: [':'] :: r.actions.tokens

/-- `line` is the tokens in order, with any number of spaces around
each. -/
inductive Spaced : List Text → Text → Prop
  | nil (n : Nat) : Spaced [] (List.replicate n ' ')
  | cons (n : Nat) (token : Text) {tokens : List Text} {line : Text} :
      Spaced tokens line →
      Spaced (token :: tokens) (List.replicate n ' ' ++ token ++ line)

/-- A text a token may be: it has no space and no newline in it. -/
def plain (t : Text) : Bool := t.all fun c => c != ' ' && c != '\n'

theorem plain_iff {t : Text} : plain t = true ↔ ∀ c ∈ t, c ≠ ' ' ∧ c ≠ '\n' := by
  simp [plain, List.all_eq_true]

theorem filter_token {t : Text} (h : plain t = true) : t.filter (· != ' ') = t :=
  List.filter_eq_self.mpr fun c hc => by simpa using (plain_iff.mp h c hc).1

theorem Spaced.filter {tokens : List Text} {line : Text} (h : Spaced tokens line)
    (hplain : ∀ t ∈ tokens, plain t = true) :
    line.filter (· != ' ') = tokens.flatten := by
  have hspaces : ∀ n, (List.replicate n ' ').filter (· != ' ') = [] := by simp
  induction h with
  | nil n => exact hspaces n
  | cons n token hrest ih =>
      rw [List.filter_append, List.filter_append, hspaces, List.nil_append,
        filter_token (hplain token (by simp)), ih fun t ht => hplain t (by simp [ht]),
        List.flatten_cons]

theorem Spaced.newline_not_mem {tokens : List Text} {line : Text} (h : Spaced tokens line)
    (hplain : ∀ t ∈ tokens, plain t = true) : '\n' ∉ line := by
  induction h with
  | nil n => simp
  | cons n token hrest ih =>
      have htoken : '\n' ∉ token := fun hmem =>
        (plain_iff.mp (hplain token (by simp)) _ hmem).2 rfl
      simp [htoken, ih fun t ht => hplain t (by simp [ht])]

/-! ## Fields and words, read back -/

theorem toUInt32_ofNat16 {n : Nat} (h : n < 2 ^ 16) :
    (UInt16.ofNat n).toUInt32 = UInt32.ofNat n := by
  rw [← UInt32.toNat_inj, UInt16.toNat_toUInt32, UInt16.toNat_ofNat', UInt32.toNat_ofNat',
    Nat.mod_eq_of_lt h, Nat.mod_eq_of_lt (by omega)]

theorem toUInt32_ofNat8 {n : Nat} (h : n < 2 ^ 8) : (UInt8.ofNat n).toUInt32 = UInt32.ofNat n := by
  rw [← UInt32.toNat_inj, UInt8.toNat_toUInt32, UInt8.toNat_ofNat', UInt32.toNat_ofNat',
    Nat.mod_eq_of_lt h, Nat.mod_eq_of_lt (by omega)]

theorem VlanFields.tpid_lt (v : VlanFields) : v.tpid < 2 ^ 16 := by
  rcases v.tpid_eq with h | h <;> omega

/-- The parser packs the fields in the opposite order. -/
theorem or_reverse (a b c d : UInt32) : a ||| b ||| c ||| d = d ||| c ||| b ||| a := by
  ac_rfl

theorem VlanFields.vlanTag_eq (v : VlanFields) :
    vlanTag (UInt16.ofNat v.tpid) (UInt8.ofNat v.pcp) (UInt8.ofNat v.cfi) (UInt16.ofNat v.vid)
      = v.word := by
  have := v.pcp_le
  have := v.cfi_le
  have := v.vid_le
  rw [vlanTag, toUInt32_ofNat16 v.tpid_lt, toUInt32_ofNat8 (by omega), toUInt32_ofNat8 (by omega),
    toUInt32_ofNat16 (by omega), word, or_reverse]

theorem MplsFields.mplsLabel_eq (m : MplsFields) :
    mplsLabel (UInt32.ofNat m.label) (UInt8.ofNat m.cos) (UInt8.ofNat m.s) (UInt8.ofNat m.ttl)
      = m.word := by
  have := m.cos_le
  have := m.s_le
  have := m.ttl_le
  rw [mplsLabel, toUInt32_ofNat8 (by omega), toUInt32_ofNat8 (by omega),
    toUInt32_ofNat8 (by omega), word, or_reverse]

/-- The fields of a call, separated by commas. -/
def fieldsText (fields : List Nat) : Text := (fieldTokens fields).flatten

theorem fieldsText_one (a : Nat) : fieldsText [a] = decimal a := by
  simp [fieldsText, fieldTokens]

theorem fieldsText_four (a b c d : Nat) : fieldsText [a, b, c, d]
    = decimal a ++ ',' :: (decimal b ++ ',' :: (decimal c ++ ',' :: decimal d)) := by
  simp [fieldsText, fieldTokens]

theorem cut_decimal (n : Nat) (s : Text) : cut ',' (decimal n ++ ',' :: s) = some (decimal n, s) :=
  cut_append s (not_mem_decimal (by decide) n)

theorem parseVlanData_fieldsText (v : VlanFields) :
    parseVlanData (fieldsText [v.tpid, v.pcp, v.cfi, v.vid])
      = some (UInt16.ofNat v.tpid, UInt8.ofNat v.pcp, UInt8.ofNat v.cfi, UInt16.ofNat v.vid) := by
  have h1 := v.tpid_lt
  have h2 := v.pcp_le
  have h3 := v.cfi_le
  have h4 := v.vid_le
  have h5 := v.vid_pos
  have htpid : UInt16.ofNat v.tpid = 0x8100 ∨ UInt16.ofNat v.tpid = 0x88a8 := by
    rcases v.tpid_eq with h | h
    · exact Or.inl (by rw [h]; rfl)
    · exact Or.inr (by rw [h]; rfl)
  have hpcp : UInt8.ofNat v.pcp ≤ 7 := by
    rw [UInt8.le_iff_toNat_le, UInt8.toNat_ofNat', Nat.mod_eq_of_lt (by omega)]
    exact h2
  have hcfi : UInt8.ofNat v.cfi ≤ 1 := by
    rw [UInt8.le_iff_toNat_le, UInt8.toNat_ofNat', Nat.mod_eq_of_lt (by omega)]
    exact h3
  have hvid : ¬(UInt16.ofNat v.vid = 0 ∨ 4094 < UInt16.ofNat v.vid) := by
    rw [← UInt16.toNat_inj, UInt16.lt_iff_toNat_lt, UInt16.toNat_ofNat',
      Nat.mod_eq_of_lt (by omega)]
    simp only [UInt16.toNat_zero, UInt16.reduceToNat]
    omega
  simp only [parseVlanData, fieldsText_four, cut_decimal, Option.bind_eq_bind, Option.bind_some,
    parseInt_decimal (show v.tpid < 2 ^ 64 by omega),
    parseInt_decimal (show v.pcp < 2 ^ 64 by omega),
    parseInt_decimal (show v.cfi < 2 ^ 64 by omega),
    parseInt_decimal (show v.vid < 2 ^ 64 by omega)]
  simp [guard, htpid, hpcp, hcfi, hvid]

theorem parseMplsData_fieldsText (m : MplsFields) :
    parseMplsData (fieldsText [m.label, m.cos, m.s, m.ttl])
      = some (UInt32.ofNat m.label, UInt8.ofNat m.cos, UInt8.ofNat m.s, UInt8.ofNat m.ttl) := by
  have h1 := m.label_lt
  have h2 := m.cos_le
  have h3 := m.s_le
  have h4 := m.ttl_le
  have hcos : UInt8.ofNat m.cos ≤ 7 := by
    rw [UInt8.le_iff_toNat_le, UInt8.toNat_ofNat', Nat.mod_eq_of_lt (by omega)]
    exact h2
  have hs : UInt8.ofNat m.s ≤ 1 := by
    rw [UInt8.le_iff_toNat_le, UInt8.toNat_ofNat', Nat.mod_eq_of_lt (by omega)]
    exact h3
  simp only [parseMplsData, fieldsText_four, cut_decimal, Option.bind_eq_bind, Option.bind_some,
    parseInt_decimal (show m.label < 2 ^ 64 by omega),
    parseInt_decimal (show m.cos < 2 ^ 64 by omega),
    parseInt_decimal (show m.s < 2 ^ 64 by omega),
    parseInt_decimal (show m.ttl < 2 ^ 64 by omega)]
  simp [guard, hcos, hs]

/-! ## One action -/

/-- What the tokens of a call spell, up to the semicolon. -/
def callText (keyword : Text) (fields : List Nat) : Text :=
  keyword ++ ['('] ++ fieldsText fields ++ [')']

theorem flatten_callTokens (keyword : Text) (fields : List Nat) :
    (callTokens keyword fields).flatten = callText keyword fields ++ [';'] := by
  simp [callTokens, callText, fieldsText]

theorem mem_fieldTokens {c : Char} : ∀ {fields : List Nat} {t : Text},
    t ∈ fieldTokens fields → c ∈ t → c.isDigit = true ∨ c = ','
  | [], _, ht, _ => by cases ht
  | [n], t, ht, hc => by
      obtain rfl := List.mem_singleton.mp ht
      exact Or.inl (decimal_isDigit hc)
  | n :: n' :: ns, t, ht, hc => by
      rw [fieldTokens, List.mem_cons, List.mem_cons] at ht
      rcases ht with rfl | rfl | ht
      · exact Or.inl (decimal_isDigit hc)
      · exact Or.inr (List.mem_singleton.mp hc)
      · exact mem_fieldTokens ht hc
      · exact fun h => by cases h

/-- A character that is no digit and no punctuation is in a call only if
it is in its keyword. -/
theorem not_mem_callText {c : Char} {keyword : Text} (hk : c ∉ keyword)
    (hp : c ∉ ['(', ',', ')']) (hd : c.isDigit = false) (fields : List Nat) :
    c ∉ callText keyword fields := by
  simp only [List.mem_cons, List.not_mem_nil, or_false, not_or] at hp
  have hfields : c ∉ fieldsText fields := by
    intro hmem
    obtain ⟨t, ht, hc⟩ := List.mem_flatten.mp hmem
    rcases mem_fieldTokens ht hc with h | h
    · rw [hd] at h
      cases h
    · exact hp.2.1 h
  simp [callText, hk, hfields, hp.1, hp.2.2]

theorem arguments_append (keyword body : Text) :
    arguments keyword (keyword ++ body ++ [')']) = some body := by
  have htake : (keyword ++ body ++ [')']).take keyword.length = keyword := by
    rw [List.append_assoc, List.take_left]
  have hbody : ((keyword ++ body ++ [')']).drop keyword.length).take
      ((keyword ++ body ++ [')']).length - keyword.length - 1) = body := by
    rw [List.append_assoc, List.drop_left]
    refine List.take_left' ?_
    simp only [List.length_append, List.length_cons, List.length_nil]
    omega
  rw [arguments, htake, hbody]
  simp

def Push.text : Push → Text
  | .vlan v => callText pushVlanName [v.tpid, v.pcp, v.cfi, v.vid]
  | .mpls m => callText pushMplsName [m.label, m.cos, m.s, m.ttl]

def PortNumber.text {nbPorts : UInt8} (n : PortNumber nbPorts) : Text :=
  callText outputName [n.number]

theorem contains_keyword (keyword : Text) (fields : List Nat) :
    contains (keyword ++ ['(']) (callText keyword fields) = true := by
  rw [callText, List.append_assoc]
  exact contains_of_prefix _ _

/-! A call contains no keyword that has a letter of its own. -/

theorem contains_drop {keyword : Text} (hk : 'D' ∉ keyword) (fields : List Nat) :
    contains dropPrefix (callText keyword fields) = false :=
  contains_eq_false_of_not_mem (c := 'D') (by decide)
    (not_mem_callText hk (by decide) rfl fields)

theorem contains_pushVlan {keyword : Text} (hk : 'V' ∉ keyword) (fields : List Nat) :
    contains pushVlanPrefix (callText keyword fields) = false :=
  contains_eq_false_of_not_mem (c := 'V') (by decide)
    (not_mem_callText hk (by decide) rfl fields)

theorem contains_pushMpls {keyword : Text} (hk : 'M' ∉ keyword) (fields : List Nat) :
    contains pushMplsPrefix (callText keyword fields) = false :=
  contains_eq_false_of_not_mem (c := 'M') (by decide)
    (not_mem_callText hk (by decide) rfl fields)

theorem parseAction_push (nbPorts : UInt8) : ∀ p : Push,
    parseAction nbPorts p.text = some p.action
  | .vlan v => by
      have hdrop : contains dropPrefix (Push.vlan v).text = false :=
        contains_drop (by decide) _
      have hvlan : contains pushVlanPrefix (Push.vlan v).text = true :=
        contains_keyword pushVlanName _
      have hargs : arguments pushVlanPrefix (Push.vlan v).text
          = some (fieldsText [v.tpid, v.pcp, v.cfi, v.vid]) :=
        arguments_append (pushVlanName ++ ['(']) _
      simp only [parseAction, hdrop, hvlan, hargs, Bool.false_eq_true, if_false, if_true,
        Option.bind_eq_bind, Option.bind_some, parseVlanData_fieldsText, v.vlanTag_eq]
      rfl
  | .mpls m => by
      have hdrop : contains dropPrefix (Push.mpls m).text = false :=
        contains_drop (by decide) _
      have hvlan : contains pushVlanPrefix (Push.mpls m).text = false :=
        contains_pushVlan (by decide) _
      have hmpls : contains pushMplsPrefix (Push.mpls m).text = true :=
        contains_keyword pushMplsName _
      have hargs : arguments pushMplsPrefix (Push.mpls m).text
          = some (fieldsText [m.label, m.cos, m.s, m.ttl]) :=
        arguments_append (pushMplsName ++ ['(']) _
      simp only [parseAction, hdrop, hvlan, hmpls, hargs, Bool.false_eq_true, if_false, if_true,
        Option.bind_eq_bind, Option.bind_some, parseMplsData_fieldsText, m.mplsLabel_eq]
      rfl

theorem parseAction_port {nbPorts : UInt8} (n : PortNumber nbPorts) :
    parseAction nbPorts n.text = some (.output n.id) := by
  have hdrop : contains dropPrefix n.text = false :=
    contains_drop (by decide) _
  have hvlan : contains pushVlanPrefix n.text = false :=
    contains_pushVlan (by decide) _
  have hmpls : contains pushMplsPrefix n.text = false :=
    contains_pushMpls (by decide) _
  have houtput : contains outputPrefix n.text = true := contains_keyword outputName _
  have hargs : arguments outputPrefix n.text = some (fieldsText [n.number]) :=
    arguments_append (outputName ++ ['(']) _
  have hlt : n.number < 2 ^ 64 := by
    have := n.le
    have := nbPorts.toNat_lt
    omega
  have hvalid : portIdIsValid nbPorts n.number = true := portIdIsValid_iff.mpr ⟨n.pos, n.le⟩
  simp only [parseAction, hdrop, hvlan, hmpls, houtput, hargs, Bool.false_eq_true, if_false,
    if_true, Option.bind_eq_bind, Option.bind_some, fieldsText_one, parseInt_decimal hlt]
  simp [guard, hvalid, PortNumber.id]

/-! ## Lists of actions -/

/-- The loop reads one action after the other, each up to its
semicolon. -/
theorem parseActionsLoop_items {nbPorts : UInt8} :
    ∀ {items : List (Text × Action)} {fuel : Nat}, items.length < fuel →
      (∀ i ∈ items, ';' ∉ i.1 ∧ i.2 ≠ .drop ∧ parseAction nbPorts i.1 = some i.2) →
      parseActionsLoop nbPorts fuel (items.flatMap fun i => i.1 ++ [';'])
        = some (items.map Prod.snd)
  | [], fuel + 1, _, _ => rfl
  | i :: items, fuel + 1, hfuel, hitems => by
      obtain ⟨hsemi, hne, haction⟩ := hitems i (by simp)
      have ih := parseActionsLoop_items (Nat.lt_of_succ_lt_succ hfuel)
        fun j hj => hitems j (List.mem_cons_of_mem i hj)
      have hcut : cut ';' ((i :: items).flatMap fun i => i.1 ++ [';'])
          = some (i.1, items.flatMap fun i => i.1 ++ [';']) := by
        rw [List.flatMap_cons, List.append_assoc]
        exact cut_append _ hsemi
      rw [parseActionsLoop, hcut]
      simp only [haction, ih, List.map_cons, Option.map_some]

def RuleActions.items {nbPorts : UInt8} : RuleActions nbPorts → List (Text × Action)
  | .drop => [(dropPrefix, .drop)]
  | .forward pushes outputs _ =>
      pushes.map (fun p => (p.text, p.action)) ++ outputs.map fun n => (n.text, .output n.id)

theorem RuleActions.flatten_tokens {nbPorts : UInt8} : ∀ r : RuleActions nbPorts,
    r.tokens.flatten = r.items.flatMap fun i => i.1 ++ [';']
  | .drop => rfl
  | .forward pushes outputs _ => by
      have hpush : ∀ p : Push, p.tokens.flatten = p.text ++ [';'] := by
        intro p
        cases p <;> exact flatten_callTokens _ _
      have houtput : ∀ n : PortNumber nbPorts, n.tokens.flatten = n.text ++ [';'] :=
        fun n => flatten_callTokens _ _
      rw [tokens, items, List.flatMap_append, List.flatMap_map, List.flatMap_map]
      simp only [List.flatten_append, List.flatMap_def, List.flatten_flatten, List.map_map,
        Function.comp_def, hpush, houtput]

theorem RuleActions.map_items {nbPorts : UInt8} : ∀ r : RuleActions nbPorts,
    r.items.map Prod.snd = r.actions
  | .drop => rfl
  | .forward pushes outputs _ => by simp [items, actions, Function.comp_def]

theorem RuleActions.actions_ne_nil {nbPorts : UInt8} : ∀ r : RuleActions nbPorts,
    r.actions ≠ []
  | .drop => List.cons_ne_nil _ _
  | .forward pushes outputs h => by
      rcases h with h | h <;> simp [actions, h]

theorem RuleActions.actions_pairwise {nbPorts : UInt8} : ∀ r : RuleActions nbPorts,
    r.actions.Pairwise fun a b => a.priority ≤ b.priority
  | .drop => List.pairwise_singleton _ _
  | .forward pushes outputs _ => by
      have hpush : ∀ p : Push, p.action.priority = 1 := by
        intro p
        cases p <;> rfl
      have houtput : ∀ n : PortNumber nbPorts, (Action.output n.id).priority = 2 := fun _ => rfl
      simp [actions, List.pairwise_append, List.pairwise_map, hpush, houtput,
        List.pairwise_of_forall]

theorem semicolon_not_mem_call {keyword : Text} (hk : ';' ∉ keyword) (fields : List Nat) :
    ';' ∉ callText keyword fields :=
  not_mem_callText hk (by decide) rfl fields

theorem parseActions_tokens {nbPorts : UInt8} (r : RuleActions nbPorts) :
    parseActions nbPorts r.tokens.flatten = some r.actions := by
  refine parseActions_eq_some.mpr ⟨?_, r.actions_ne_nil, r.actions_pairwise⟩
  cases r with
  | drop => rfl
  | forward pushes outputs h =>
      rw [RuleActions.flatten_tokens, ← RuleActions.map_items]
      refine parseActionsLoop_items (Nat.lt_succ_of_le ?_) ?_
      · -- an item is no shorter than its semicolon
        generalize (RuleActions.forward pushes outputs h).items = items
        induction items with
        | nil => exact Nat.le_refl _
        | cons i items ih =>
            simp only [List.flatMap_cons, List.length_append, List.length_cons, List.length_nil]
            omega
      · intro i hi
        rcases List.mem_append.mp hi with hi | hi
        · obtain ⟨p, -, rfl⟩ := List.mem_map.mp hi
          refine ⟨?_, ?_, parseAction_push nbPorts p⟩
          · cases p <;> exact semicolon_not_mem_call (by decide) _
          · cases p <;> simp [Push.action]
        · obtain ⟨n, -, rfl⟩ := List.mem_map.mp hi
          exact ⟨semicolon_not_mem_call (by decide) _, by simp, parseAction_port n⟩

/-! ## Lines -/

theorem plain_decimal (n : Nat) : plain (decimal n) = true := by
  refine plain_iff.mpr fun c hc => ?_
  have hd := decimal_isDigit hc
  exact ⟨isDigit_ne hd (by decide), isDigit_ne hd (by decide)⟩

theorem plain_fieldTokens {fields : List Nat} {t : Text} (ht : t ∈ fieldTokens fields) :
    plain t = true := by
  refine plain_iff.mpr fun c hc => ?_
  rcases mem_fieldTokens ht hc with hd | rfl
  · exact ⟨isDigit_ne hd (by decide), isDigit_ne hd (by decide)⟩
  · decide

theorem plain_callTokens {keyword : Text} (hk : plain keyword = true) (fields : List Nat) :
    ∀ t ∈ callTokens keyword fields, plain t = true := by
  intro t ht
  simp only [callTokens, List.cons_append, List.mem_cons, List.mem_append, List.not_mem_nil,
    or_false] at ht
  rcases ht with rfl | rfl | ht | rfl | rfl
  · exact hk
  · decide
  · exact plain_fieldTokens ht
  · decide
  · decide

theorem plain_tokens {nbPorts : UInt8} (r : Rule nbPorts) :
    ∀ t ∈ r.tokens, plain t = true := by
  intro t ht
  simp only [Rule.tokens, List.mem_cons] at ht
  rcases ht with rfl | rfl | rfl | rfl | ht
  · exact plain_decimal _
  · decide
  · cases r.protocol <;> decide
  · decide
  · match r.actions, ht with
    | .drop, ht =>
        simp only [RuleActions.tokens, List.mem_cons, List.not_mem_nil, or_false] at ht
        rcases ht with rfl | rfl <;> decide
    | .forward pushes outputs _, ht =>
        rcases List.mem_append.mp ht with ht | ht
        · obtain ⟨p, -, ht⟩ := List.mem_flatMap.mp ht
          cases p <;> exact plain_callTokens (by decide) _ t ht
        · obtain ⟨n, -, ht⟩ := List.mem_flatMap.mp ht
          exact plain_callTokens (by decide) _ t ht

/-- A line that spells a rule names its port and protocol, in front of
its actions. -/
theorem names_spelled {nbPorts : UInt8} {r : Rule nbPorts} {line : Text}
    (h : Spaced r.tokens line) :
    Names line r.port.id r.protocol r.actions.tokens.flatten := by
  have hlt : r.port.number < 2 ^ 64 := by
    have := r.port.le
    have := nbPorts.toNat_lt
    omega
  have hcolon : ':' ∉ decimal r.port.number ++ ',' :: r.protocol.name := by
    have hname : ':' ∉ r.protocol.name := by cases r.protocol <;> decide
    simp [not_mem_decimal (c := ':') (by decide), hname]
  refine ⟨decimal r.port.number ++ ',' :: r.protocol.name, decimal r.port.number, ?_,
    cut_decimal _ _, ?_⟩
  · rw [h.filter (plain_tokens r), ← cut_append _ hcolon]
    simp [Rule.tokens]
  · rw [parseInt_decimal hlt, r.port.toNat_id]

theorem lineEntry_spelled {nbPorts : UInt8} {r : Rule nbPorts} {line : Text}
    (h : Spaced r.tokens line) : LineEntry nbPorts line (r.key, r.actions.actions) := by
  have hport : r.port.id.toNat < nbPorts.toNat := by
    have := r.port.toNat_id
    have := r.port.le
    omega
  exact ⟨_, parseLine_eq_some.mpr ⟨_, _, hport, names_spelled h, rfl⟩,
    parseActions_tokens r.actions⟩

/-! ## Files -/

/-- The lines of a file, the last of them ended or not. -/
def FileOf (lines : List Text) (contents : Text) : Prop :=
  contents = lines.flatMap (· ++ ['\n']) ∨ contents = ['\n'].intercalate lines

theorem getlines_fileOf : ∀ {lines : List Text} {contents : Text}, FileOf lines contents →
    (∀ l ∈ lines, l ≠ [] ∧ '\n' ∉ l) → getlines contents = lines
  | [], _, h, _ => by
      rcases h with rfl | rfl <;> rfl
  | [l], _, h, hl => by
      obtain ⟨hne, hnl⟩ := hl l (by simp)
      rcases h with rfl | rfl
      · rw [List.flatMap_singleton, getlines_cons [] hnl]
        rfl
      · rw [List.intercalate_singleton]
        exact getlines_last hne hnl
  | l :: l' :: lines, _, h, hl => by
      have ih : ∀ {c}, FileOf (l' :: lines) c → getlines c = l' :: lines :=
        fun hc => getlines_fileOf hc fun k hk => hl k (by simp [hk])
      rcases h with rfl | rfl
      · rw [List.flatMap_cons, List.append_assoc]
        exact (getlines_cons _ (hl l (by simp)).2).trans (congrArg _ (ih (Or.inl rfl)))
      · rw [List.intercalate_cons_cons, List.append_assoc]
        exact (getlines_cons _ (hl l (by simp)).2).trans (congrArg _ (ih (Or.inr rfl)))

theorem rule_key_nodup {nbPorts : UInt8} (t : Table nbPorts) : (t.rules.map Rule.key).Nodup := by
  have hmap : t.rules.map Rule.key
      = (t.rules.map fun r => (r.port, r.protocol)).map fun pq => ruleKey pq.1.id pq.2 := by
    rw [List.map_map]
    rfl
  rw [hmap]
  refine List.Nodup.map (fun pq pq' h => ?_) t.distinct
  obtain ⟨hport, hprotocol⟩ := ruleKey_injective h
  exact Prod.ext (PortNumber.id_injective hport) hprotocol

/-- The entries the program makes of a table. -/
def Table.entries {nbPorts : UInt8} (t : Table nbPorts) : List (UInt16 × List Action) :=
  t.rules.map fun r => (r.key, r.actions.actions)

def Table.toRules {nbPorts : UInt8} (t : Table nbPorts) : Rules where
  entries := t.entries.reverse
  nodup := by
    rw [List.map_reverse, Table.entries, List.map_map]
    exact (List.reverse_perm _).nodup_iff.mpr (rule_key_nodup t)

theorem Spaced.ne_nil {token : Text} {tokens : List Text} {line : Text} (hne : token ≠ [])
    (h : Spaced (token :: tokens) line) : line ≠ [] := by
  cases h with
  | cons n _ hrest => simp [hne]

/-- Read back, a table written one rule a line, in any order and with
any spacing, is the table. -/
theorem initialize_spelled {nbPorts : UInt8} (t : Table nbPorts) {lines : List Text}
    {contents : Text}
    (hlines : List.Forall₂ (fun r line => Spaced (Rule.tokens r) line) t.rules lines)
    (hfile : FileOf lines contents) :
    ∃ rules, configInitialize nbPorts (some contents) = some rules
      ∧ (∀ r ∈ t.rules,
          getActions rules (ruleKey r.port.id r.protocol) = some r.actions.actions)
      ∧ ∀ (p : UInt8) (q : Protocol), (∀ r ∈ t.rules, ¬(r.port.id = p ∧ r.protocol = q)) →
          getActions rules (ruleKey p q) = none := by
  have hgood : ∀ l ∈ lines, l ≠ [] ∧ '\n' ∉ l := by
    intro l hl
    obtain ⟨r, -, hr⟩ := exists_mem_left hlines l hl
    exact ⟨hr.ne_nil Nat.toDigits_ne_nil, hr.newline_not_mem (plain_tokens r)⟩
  have hentries : List.Forall₂ (LineEntry nbPorts) lines t.entries := by
    rw [Table.entries, List.forall₂_map_right_iff]
    exact (hlines.imp fun r line h => lineEntry_spelled h).flip
  have hinit : configInitialize nbPorts (some contents) = some t.toRules :=
    initialize_eq_some.mpr ⟨t.entries, (getlines_fileOf hfile hgood).symm ▸ hentries, rfl⟩
  refine ⟨t.toRules, hinit, fun r hr => ?_, fun p q hno => ?_⟩
  · refine Rules.find_eq_some.mpr (List.mem_reverse.mpr ?_)
    exact List.mem_map_of_mem (f := fun r : Rule nbPorts => (r.key, r.actions.actions)) hr
  · refine Rules.find_eq_none.mpr fun hmem => ?_
    obtain ⟨e, he, hkey⟩ := List.mem_map.mp hmem
    obtain ⟨r, hr, rfl⟩ := List.mem_map.mp (List.mem_reverse.mp he)
    exact hno r hr (ruleKey_injective hkey)

def blockHttp : Rule 2 := ⟨⟨1, by decide, by decide⟩, .http, .drop⟩

/-- A label and a tag pushed, then two outputs; and a block. -/
def smallTable : Table 2 where
  rules :=
    [⟨⟨2, by decide, by decide⟩, .rtp,
        .forward [.mpls ⟨100, 3, 1, 64, by decide, by decide, by decide, by decide⟩,
            .vlan ⟨33024, 3, 1, 100, by decide, by decide, by decide, by decide, by decide⟩]
          [⟨1, by decide, by decide⟩, ⟨2, by decide, by decide⟩] (by simp)⟩,
      blockHttp]
  distinct := by decide

/-- Its tokens with a blank in front of each, its lines without a last
newline. -/
def blankBefore (tokens : List Text) : Text := tokens.flatMap fun t => ' ' :: t

theorem spaced_blankBefore : ∀ tokens : List Text, Spaced tokens (blankBefore tokens)
  | [] => .nil 0
  | token :: tokens => .cons 1 token (spaced_blankBefore tokens)

theorem initialize_smallTable : ∃ rules,
    configInitialize 2 (some (['\n'].intercalate
      (smallTable.rules.map fun r => blankBefore r.tokens))) = some rules
    ∧ getActions rules (ruleKey 0 .http) = some [.drop]
    ∧ getActions rules (ruleKey 1 .http) = none := by
  have hlines : List.Forall₂ (fun r line => Spaced (Rule.tokens r) line) smallTable.rules
      (smallTable.rules.map fun r => blankBefore r.tokens) :=
    .cons (spaced_blankBefore _) (.cons (spaced_blankBefore _) .nil)
  obtain ⟨rules, hinit, hfound, hnone⟩ := initialize_spelled smallTable hlines (Or.inr rfl)
  have hdrop := hfound blockHttp (by simp [smallTable])
  exact ⟨rules, hinit, hdrop, hnone 1 .http (by decide)⟩

end Yapas
