import Mathlib.Data.List.Forall2
import Yapas.Config

/-!
# Rule lookup

What a table holds, and what the packet loop finds in it.

`initializeLines_eq_some` is all that later modules need of the loop
over the lines: the table it builds holds one entry for each line, in
reverse order, and it builds one whenever every line can be read and no
key comes twice. The key of a line is `ruleKey` of the port and the
protocol its left part names, however these are spelled, and the packet
loop asks for `ruleKey` of the port a packet came from and the protocol
it was classified as; the packing is injective, so a line is reached
through its own name and no other.
-/

namespace Yapas

/-! ## Keys -/

/-- `port_id | (protocol << 8)`. -/
def ruleKey (portId : UInt8) (protocol : Protocol) : UInt16 :=
  portId.toUInt16 ||| protocol.code.toUInt16 <<< 8

theorem Protocol.code_lt (q : Protocol) : q.code.toNat < 5 := by
  cases q <;> decide

theorem Protocol.code_injective {q q' : Protocol} (h : q.code = q'.code) : q = q' := by
  cases q <;> cases q' <;> first | rfl | (revert h; decide)

theorem toNat_ruleKey (p : UInt8) (q : Protocol) :
    (ruleKey p q).toNat = p.toNat + q.code.toNat * 2 ^ 8 := by
  have hp := p.toNat_lt
  have hq := q.code_lt
  exact Word.toNat_or_shiftLeft16 (k := 8) (by decide) (by simpa using hp) (by simp; omega)

theorem ruleKey_injective {p p' : UInt8} {q q' : Protocol}
    (h : ruleKey p q = ruleKey p' q') : p = p' ∧ q = q' := by
  have hnat := congrArg UInt16.toNat h
  rw [toNat_ruleKey, toNat_ruleKey] at hnat
  have hp := p.toNat_lt
  have hp' := p'.toNat_lt
  refine ⟨UInt8.toNat_inj.mp (by omega), Protocol.code_injective (UInt8.toNat_inj.mp (by omega))⟩

theorem protocolMap_lookup {s : Text} {q : Protocol} :
    protocolMap.lookup s = some q ↔ s = q.name := by
  constructor
  · intro h
    obtain ⟨l₁, l₂, hmap, -⟩ := List.lookup_eq_some_iff.mp h
    have hmem : (s, q) ∈ protocolMap := by
      rw [hmap]
      simp
    obtain ⟨q', -, heq⟩ := List.mem_map.mp hmem
    cases heq
    rfl
  · rintro rfl
    cases q <;> rfl

/-! ## What a line names -/

/-- Without its spaces the line reads `left:right`, and the left part
`port,PROTOCOL` with the number of port `p` and the name of `q`. -/
def Names (line : Text) (p : UInt8) (q : Protocol) (right : Text) : Prop :=
  ∃ left portS, cut ':' (line.filter (· != ' ')) = some (left, right)
    ∧ cut ',' left = some (portS, q.name) ∧ parseInt portS = some (p.toNat + 1)

theorem parsePortAndProtocol_eq_some {nbPorts : UInt8} {str : Text} {key : UInt16} :
    parsePortAndProtocol nbPorts str = some key ↔
      ∃ (p : UInt8) (q : Protocol) (portS : Text), p.toNat < nbPorts.toNat
        ∧ cut ',' str = some (portS, q.name) ∧ parseInt portS = some (p.toNat + 1)
        ∧ key = ruleKey p q := by
  simp only [parsePortAndProtocol, Option.bind_eq_bind, Option.bind_eq_some_iff,
    Option.pure_def, Option.some.injEq, Option.guard_eq_some', protocolMap_lookup,
    portIdIsValid, Bool.and_eq_true, decide_eq_true_eq]
  constructor
  · rintro ⟨⟨portS, protocolS⟩, hcut, n, hn, -, ⟨hpos, hle⟩, q, rfl, rfl⟩
    have hp : (UInt8.ofNat (n - 1)).toNat = n - 1 := by
      have := nbPorts.toNat_lt
      rw [UInt8.toNat_ofNat', Nat.mod_eq_of_lt (by omega)]
    refine ⟨UInt8.ofNat (n - 1), q, portS, by omega, hcut, ?_, rfl⟩
    rw [hn, hp, Nat.sub_add_cancel hpos]
  · rintro ⟨p, q, portS, hp, hcut, hn, rfl⟩
    refine ⟨_, hcut, _, hn, (), ⟨by omega, hp⟩, q, rfl, ?_⟩
    rw [Nat.add_sub_cancel, UInt8.ofNat_toNat]
    rfl

/-- Reading a line is reading the port and the protocol it names. -/
theorem parseLine_eq_some {nbPorts : UInt8} {line right : Text} {key : UInt16} :
    parseLine nbPorts line = some (key, right) ↔
      ∃ p q, p.toNat < nbPorts.toNat ∧ Names line p q right ∧ key = ruleKey p q := by
  simp only [parseLine, Option.bind_eq_bind, Option.bind_eq_some_iff, Option.pure_def,
    Option.some.injEq, Prod.mk.injEq, parsePortAndProtocol_eq_some]
  constructor
  · rintro ⟨⟨left, right'⟩, hcut, key', ⟨p, q, portS, hp, hleft, hn, rfl⟩, rfl, rfl⟩
    exact ⟨p, q, hp, ⟨left, portS, hcut, hleft, hn⟩, rfl⟩
  · rintro ⟨p, q, hp, ⟨left, portS, hcut, hleft, hn⟩, rfl⟩
    exact ⟨_, hcut, _, ⟨p, q, portS, hp, hleft, hn, rfl⟩, rfl, rfl⟩

theorem Names.unique {line right right' : Text} {p p' : UInt8} {q q' : Protocol}
    (h : Names line p q right) (h' : Names line p' q' right') :
    p = p' ∧ q = q' ∧ right = right' := by
  obtain ⟨left, portS, hcut, hleft, hn⟩ := h
  obtain ⟨left', portS', hcut', hleft', hn'⟩ := h'
  obtain ⟨rfl, rfl⟩ := Prod.mk.inj (Option.some.inj (hcut.symm.trans hcut'))
  obtain ⟨rfl, hname⟩ := Prod.mk.inj (Option.some.inj (hleft.symm.trans hleft'))
  have hp := Option.some.inj (hn.symm.trans hn')
  refine ⟨UInt8.toNat_inj.mp (by omega), ?_, rfl⟩
  have hq := (protocolMap_lookup (q := q)).mpr rfl
  rw [hname, protocolMap_lookup.mpr rfl] at hq
  exact (Option.some.inj hq).symm

/-! ## The table of a file -/

/-- The line can be read, and `e` is its entry. -/
def LineEntry (nbPorts : UInt8) (line : Text) (e : UInt16 × List Action) : Prop :=
  ∃ right, parseLine nbPorts line = some (e.1, right)
    ∧ parseActions nbPorts right = some e.2

theorem Rules.find_eq_some {rules : Rules} {key : UInt16} {actions : List Action} :
    rules.find key = some actions ↔ (key, actions) ∈ rules.entries := by
  constructor
  · intro h
    obtain ⟨l₁, l₂, hent, -⟩ := List.lookup_eq_some_iff.mp h
    rw [hent]
    simp
  · intro h
    obtain ⟨l₁, l₂, hent⟩ := List.append_of_mem h
    refine List.lookup_eq_some_iff.mpr ⟨l₁, l₂, hent, fun e he => ?_⟩
    -- an earlier entry of the same key would be a second one
    have hnodup := rules.nodup
    rw [hent, List.map_append, List.map_cons] at hnodup
    have hdisj := (List.nodup_append.mp hnodup).2.2
    simpa using (hdisj _ (List.mem_map_of_mem he) key (by simp)).symm

/-- The loop over the lines makes one entry of each, or none of any. -/
theorem initializeLines_eq_some {nbPorts : UInt8} :
    ∀ {lines : List Text} {rules rules' : Rules},
      initializeLines nbPorts lines rules = some rules' ↔
        ∃ es, List.Forall₂ (LineEntry nbPorts) lines es
          ∧ rules'.entries = es.reverse ++ rules.entries
  | [], rules, rules' => by
      simp only [initializeLines, Option.some.injEq, List.forall₂_nil_left_iff, exists_eq_left,
        List.reverse_nil, List.nil_append]
      constructor
      · rintro rfl
        rfl
      · intro h
        cases rules
        cases rules'
        cases h
        rfl
  | line :: lines, rules, rules' => by
      constructor
      · intro h
        rw [initializeLines] at h
        split at h
        · cases h
        · rename_i key right hline
          split at h
          · rename_i hnew
            split at h
            · cases h
            · rename_i actions hactions
              obtain ⟨es, hes, hent⟩ := initializeLines_eq_some.mp h
              refine ⟨(key, actions) :: es, List.Forall₂.cons ⟨right, hline, hactions⟩ hes, ?_⟩
              rw [hent, Rules.insert, List.reverse_cons, List.append_assoc]
              rfl
          · cases h
      · rintro ⟨es, hes, hent⟩
        cases hes with
        | @cons _ e _ es hline hes =>
            obtain ⟨right, hkey, hactions⟩ := hline
            have hnew : rules.find e.1 = none := by
              rw [Rules.find_eq_none]
              have hnodup := rules'.nodup
              rw [hent, List.map_append] at hnodup
              intro hmem
              exact (List.nodup_append.mp hnodup).2.2 e.1 (by simp) e.1 hmem rfl
            simp only [initializeLines, hkey, dif_pos hnew, hactions]
            refine initializeLines_eq_some.mpr ⟨es, hes, ?_⟩
            rw [hent, Rules.insert, List.reverse_cons, List.append_assoc]
            rfl

theorem initialize_eq_some {nbPorts : UInt8} {contents : Text} {rules : Rules} :
    configInitialize nbPorts (some contents) = some rules ↔
      ∃ es, List.Forall₂ (LineEntry nbPorts) (getlines contents) es
        ∧ rules.entries = es.reverse := by
  rw [configInitialize, initializeLines_eq_some]
  simp [Rules.empty]

theorem exists_mem_right {α β : Type} {r : α → β → Prop} {as : List α} {bs : List β}
    (h : List.Forall₂ r as bs) : ∀ a ∈ as, ∃ b ∈ bs, r a b := by
  induction h with
  | nil => simp
  | @cons a b as bs hab _ ih =>
      intro x hx
      rcases List.mem_cons.mp hx with rfl | hx
      · exact ⟨b, by simp, hab⟩
      · obtain ⟨y, hy, hxy⟩ := ih x hx
        exact ⟨y, by simp [hy], hxy⟩

theorem exists_mem_left {α β : Type} {r : α → β → Prop} {as : List α} {bs : List β}
    (h : List.Forall₂ r as bs) : ∀ b ∈ bs, ∃ a ∈ as, r a b :=
  exists_mem_right (r := fun b a => r a b) h.flip

/-- The lines of an accepted file and the entries of its table. -/
theorem entry_of_line {nbPorts : UInt8} {contents : Text} {rules : Rules}
    (h : configInitialize nbPorts (some contents) = some rules) :
    ∀ line ∈ getlines contents, ∃ e ∈ rules.entries, LineEntry nbPorts line e := by
  obtain ⟨es, hes, hent⟩ := initialize_eq_some.mp h
  intro line hline
  obtain ⟨e, he, hle⟩ := exists_mem_right hes line hline
  exact ⟨e, by rw [hent]; exact List.mem_reverse.mpr he, hle⟩

theorem line_of_entry {nbPorts : UInt8} {contents : Text} {rules : Rules}
    (h : configInitialize nbPorts (some contents) = some rules) :
    ∀ e ∈ rules.entries, ∃ line ∈ getlines contents, LineEntry nbPorts line e := by
  obtain ⟨es, hes, hent⟩ := initialize_eq_some.mp h
  intro e he
  rw [hent, List.mem_reverse] at he
  exact exists_mem_left hes e he

theorem line_of_getActions {nbPorts : UInt8} {file : Option Text} {rules : Rules} {key : UInt16}
    {actions : List Action} (h : configInitialize nbPorts file = some rules)
    (hget : getActions rules key = some actions) :
    ∃ line, LineEntry nbPorts line (key, actions) := by
  cases file with
  | none => cases h
  | some contents =>
      obtain ⟨line, -, hline⟩ := line_of_entry h _ (Rules.find_eq_some.mp hget)
      exact ⟨line, hline⟩

/-- Rules are for ports that exist. -/
theorem port_lt_of_getActions {nbPorts : UInt8} {file : Option Text} {rules : Rules} {p : UInt8}
    {q : Protocol} {actions : List Action} (h : configInitialize nbPorts file = some rules)
    (hget : getActions rules (ruleKey p q) = some actions) : p.toNat < nbPorts.toNat := by
  obtain ⟨line, right, hparse, -⟩ := line_of_getActions h hget
  obtain ⟨p', q', hp', -, hkey⟩ := parseLine_eq_some.mp hparse
  obtain ⟨rfl, -⟩ := ruleKey_injective hkey
  exact hp'

/-- The entry of a line sits under the key of the pair the line names,
and holds what its right part parses to. -/
theorem LineEntry.of_names {nbPorts : UInt8} {line right : Text} {e : UInt16 × List Action}
    {p : UInt8} {q : Protocol} (he : LineEntry nbPorts line e) (hn : Names line p q right) :
    e.1 = ruleKey p q ∧ parseActions nbPorts right = some e.2 := by
  obtain ⟨right', hline, hactions⟩ := he
  obtain ⟨p', q', -, hn', hkey⟩ := parseLine_eq_some.mp hline
  obtain ⟨rfl, rfl, rfl⟩ := hn.unique hn'
  exact ⟨hkey, hactions⟩

theorem LineEntry.names {nbPorts : UInt8} {line : Text} {e : UInt16 × List Action}
    {p : UInt8} {q : Protocol} (he : LineEntry nbPorts line e) (hkey : e.1 = ruleKey p q) :
    ∃ right, Names line p q right ∧ parseActions nbPorts right = some e.2 := by
  obtain ⟨right, hline, hactions⟩ := he
  obtain ⟨p', q', -, hn, hkey'⟩ := parseLine_eq_some.mp hline
  obtain ⟨rfl, rfl⟩ := ruleKey_injective (hkey.symm.trans hkey')
  exact ⟨right, hn, hactions⟩

theorem names_pairwise {nbPorts : UInt8} : ∀ {lines : List Text}
    {es : List (UInt16 × List Action)}, List.Forall₂ (LineEntry nbPorts) lines es →
    (es.map Prod.fst).Nodup →
    lines.Pairwise fun l l' => ∀ p q right right', Names l p q right → ¬ Names l' p q right'
  | [], _, _, _ => List.Pairwise.nil
  | line :: lines, _, @List.Forall₂.cons _ _ _ _ e _ es hline hes, hnodup => by
      rw [List.map_cons, List.nodup_cons] at hnodup
      refine List.pairwise_cons.mpr ⟨fun l' hl' p q right right' hn hn' => ?_,
        names_pairwise hes hnodup.2⟩
      obtain ⟨e', he', hle'⟩ := exists_mem_right hes l' hl'
      have hkey := (hline.of_names hn).1.trans (hle'.of_names hn').1.symm
      exact hnodup.1 (hkey ▸ List.mem_map_of_mem he')

/-- In an accepted file every line names one existing port and protocol
and no two lines the same, and the lookup of the packet loop returns
what the line naming the pair says, or nothing when there is no such
line. -/
theorem getActions_names {nbPorts : UInt8} {contents : Text} {rules : Rules}
    (h : configInitialize nbPorts (some contents) = some rules) :
    ((getlines contents).Pairwise fun l l' =>
        ∀ p q right right', Names l p q right → ¬ Names l' p q right')
      ∧ (∀ line ∈ getlines contents, ∃ p q right, p.toNat < nbPorts.toNat
        ∧ Names line p q right
        ∧ ∀ p' q' right', Names line p' q' right' → p' = p ∧ q' = q)
      ∧ ∀ (p : UInt8) (q : Protocol), p.toNat < nbPorts.toNat →
        (∀ line ∈ getlines contents, ∀ right, Names line p q right →
          ∃ actions, parseActions nbPorts right = some actions
            ∧ getActions rules (ruleKey p q) = some actions)
        ∧ (∀ actions, getActions rules (ruleKey p q) = some actions →
          ∃ line ∈ getlines contents, ∃ right, Names line p q right
            ∧ parseActions nbPorts right = some actions)
        ∧ (getActions rules (ruleKey p q) = none ↔
          ∀ line ∈ getlines contents, ∀ right, ¬ Names line p q right)
        ∧ ∀ p' q', ruleKey p' q' = ruleKey p q → p' = p ∧ q' = q := by
  refine ⟨?_, fun line hl => ?_, fun p q _ => ?_⟩
  · obtain ⟨es, hes, hent⟩ := initialize_eq_some.mp h
    have hnodup := rules.nodup
    rw [hent, List.map_reverse] at hnodup
    exact names_pairwise hes ((List.reverse_perm _).nodup_iff.mp hnodup)
  · obtain ⟨e, -, right, hline, -⟩ := entry_of_line h line hl
    obtain ⟨p, q, hp, hn, -⟩ := parseLine_eq_some.mp hline
    refine ⟨p, q, right, hp, hn, fun p' q' right' hn' => ?_⟩
    exact ⟨(hn'.unique hn).1, (hn'.unique hn).2.1⟩
  · have hfound : ∀ line ∈ getlines contents, ∀ right, Names line p q right →
        ∃ actions, parseActions nbPorts right = some actions
          ∧ getActions rules (ruleKey p q) = some actions := by
      intro line hline right hn
      obtain ⟨e, he, hle⟩ := entry_of_line h line hline
      obtain ⟨hkey, hactions⟩ := hle.of_names hn
      exact ⟨e.2, hactions, Rules.find_eq_some.mpr (hkey ▸ he)⟩
    have hline : ∀ actions, getActions rules (ruleKey p q) = some actions →
        ∃ line ∈ getlines contents, ∃ right, Names line p q right
          ∧ parseActions nbPorts right = some actions := by
      intro actions hget
      obtain ⟨line, hline, hle⟩ := line_of_entry h _ (Rules.find_eq_some.mp hget)
      exact ⟨line, hline, hle.names rfl⟩
    refine ⟨hfound, hline, ⟨fun hnone line hl right hn => ?_, fun hno => ?_⟩,
      fun p' q' hkey => ruleKey_injective hkey⟩
    · obtain ⟨actions, -, hget⟩ := hfound line hl right hn
      rw [hnone] at hget
      cases hget
    · rw [Option.eq_none_iff_forall_ne_some]
      intro actions hget
      obtain ⟨line, hl, right, hn, -⟩ := hline actions hget
      exact hno line hl right hn

/-- Leading zeros and spaces change the spelling of a line, not what it
names. -/
def twoRules : Text := " 1, HTTP : DROP;\n02,SIP:OUTPUT( 1 );\n".toList

theorem getActions_twoRules : ∃ rules, configInitialize 2 (some twoRules) = some rules
    ∧ getActions rules (ruleKey 1 .sip) = some [.output 0] := by
  have hinit : (configInitialize 2 (some twoRules)).isSome := by decide +kernel
  obtain ⟨rules, hrules⟩ := Option.isSome_iff_exists.mp hinit
  have hline : "02,SIP:OUTPUT( 1 );".toList ∈ getlines twoRules := by decide +kernel
  have hnames : Names "02,SIP:OUTPUT( 1 );".toList 1 .sip "OUTPUT(1);".toList :=
    ⟨"02,SIP".toList, "02".toList, by decide +kernel, by decide +kernel, by decide +kernel⟩
  obtain ⟨actions, hactions, hget⟩ :=
    ((getActions_names hrules).2.2 1 .sip (by decide)).1 _ hline _ hnames
  have hparse : parseActions 2 "OUTPUT(1);".toList = some [.output 0] := by decide +kernel
  obtain rfl := Option.some.inj (hactions.symm.trans hparse)
  exact ⟨rules, hrules, hget⟩

end Yapas
