import Yapas.CmdLine

/-!
# Completion

What `compareHints` finds among the hints and what it makes of it, for
hints and commands of any kind.

The flag for a hint of more than one word is never taken back, so a
command of one word is completed from the hints in front of the first
such hint only (`found`).

The loop that takes the main command out of the list searches from the
front every time, and what it finds need not be the head of a candidate.
Still a whole copy of the command is left for every round to come
(`Copies`): the search ends at the first copy or in front of it, and
what is erased is as long as the copy, so it ends where the copy does or
before.
-/

namespace Yapas

/-! ## Searching and erasing -/

theorem findText_append {pat b : Text} (h : pat <+: b) : ∀ a : Text,
    ∃ n, findText pat (a ++ b) = some n ∧ n ≤ a.length
  | [] => by
      refine ⟨0, ?_, Nat.le_refl 0⟩
      cases b with
      | nil => exact if_pos (List.prefix_nil.mp h)
      | cons c b => exact if_pos (List.isPrefixOf_iff_prefix.mpr h)
  | c :: a => by
      rw [List.cons_append, findText]
      split
      · exact ⟨0, rfl, Nat.zero_le _⟩
      · obtain ⟨n, hn, hle⟩ := findText_append h a
        exact ⟨n + 1, by rw [hn, Option.map_some], Nat.succ_le_succ hle⟩

theorem erase_append (a pat b : Text) :
    erase (a ++ pat ++ b) a.length (some pat.length) = some (a ++ b) := by
  have hpos : (0 : Int) ≤ a.length ∧ (a.length : Int) ≤ (a ++ pat ++ b).length := by
    simp only [List.length_append]
    omega
  rw [erase, if_pos hpos, Int.toNat_natCast, Option.elim_some, ← List.length_append,
    List.drop_left, List.append_assoc, List.take_left]

/-- An erasure as long as `pat` that begins at `pat` or in front of it
does not reach what is behind. -/
theorem erase_append_le {a pat : Text} {n : Nat} (b : Text) (h : n ≤ a.length) :
    ∃ a', erase (a ++ pat ++ b) n (some pat.length) = some (a' ++ b) ∧ a' ⊆ a ++ pat := by
  have hlen : n + pat.length ≤ (a ++ pat).length := by
    rw [List.length_append]
    omega
  have hpos : (0 : Int) ≤ n ∧ (n : Int) ≤ (a ++ pat ++ b).length := by
    rw [List.length_append]
    omega
  refine ⟨(a ++ pat).take n ++ (a ++ pat).drop (n + pat.length), ?_, fun c hc => ?_⟩
  · rw [erase, if_pos hpos, Int.toNat_natCast, Option.elim_some,
      List.take_append_of_le_length (by omega), List.drop_append_of_le_length hlen,
      List.append_assoc]
  · exact (List.mem_append.mp hc).elim List.mem_of_mem_take List.mem_of_mem_drop

theorem takeWhile_concat {α : Type} (p : α → Bool) (x : α) : ∀ l : List α,
    (l ++ [x]).takeWhile p = l.takeWhile p ++ if ∀ y ∈ l ++ [x], p y = true then [x] else []
  | [] => by by_cases hx : p x = true <;> simp [hx]
  | y :: l => by
      by_cases hy : p y = true
      · rw [List.cons_append, List.takeWhile_cons_of_pos hy, List.takeWhile_cons_of_pos hy,
          takeWhile_concat p x l]
        simp only [List.forall_mem_cons, hy, true_and, List.cons_append]
      · simp [hy]

/-- So many copies of `pat` stand in the text, one behind the other. -/
def Copies (pat : Text) : Nat → Text → Prop
  | 0, _ => True
  | n + 1, s => ∃ a b, s = a ++ pat ++ b ∧ Copies pat n b

theorem Copies.append_left {pat : Text} : ∀ {n : Nat} (a : Text) {s : Text}, Copies pat n s →
    Copies pat n (a ++ s)
  | 0, _, _, _ => trivial
  | _ + 1, a, _, ⟨a', b, hs, hb⟩ => ⟨a ++ a', b, by simp [hs], hb⟩

/-! ## Common prefixes -/

/-- `p` is the longest of the prefixes that all of `ts` share. -/
structure LongestCommonPrefix {α : Type} (ts : List (List α)) (p : List α) : Prop where
  shared : ∀ t ∈ ts, p <+: t
  longest : ∀ q, (∀ t ∈ ts, q <+: t) → q.length ≤ p.length

theorem isPrefix_concat {α : Type} {p t : List α} {x : α} (h : p <+: t)
    (hx : t[p.length]? = some x) : p ++ [x] <+: t := by
  obtain ⟨b, rfl⟩ := h
  rw [List.getElem?_append_right (Nat.le_refl _), Nat.sub_self] at hx
  cases b with
  | nil => cases hx
  | cons y b =>
      obtain rfl := Option.some.inj hx
      exact ⟨b, by simp⟩

namespace CmdLine

/-! ## The loop over the hints -/

/-- The hint goes on behind the command. -/
def Continues (cmd hint : Text) : Prop := cmd <+: hint ∧ cmd ≠ hint

instance (cmd hint : Text) : Decidable (Continues cmd hint) :=
  inferInstanceAs (Decidable (_ ∧ _))

theorem continues_iff {cmd hint : Text} : Continues cmd hint
    ↔ cmd.length < hint.length ∧ hint.take cmd.length = cmd := by
  constructor
  · rintro ⟨h, hne⟩
    refine ⟨Nat.lt_of_le_of_ne h.length_le fun hlen => hne (h.eq_of_length hlen), ?_⟩
    exact (List.prefix_iff_eq_take.mp h).symm
  · rintro ⟨hlt, htake⟩
    refine ⟨List.prefix_iff_eq_take.mpr htake.symm, ?_⟩
    rintro rfl
    exact absurd hlt (Nat.lt_irrefl _)

/-- The candidates. A command of one word gets none from behind a hint
with a space. -/
def found (cmd : Text) (hints : List Text) : List Text :=
  (if ' ' ∈ cmd then hints else hints.takeWhile (' ' ∉ ·)).filter (Continues cmd)

theorem found_concat (cmd : Text) (hints : List Text) (hint : Text) :
    found cmd (hints ++ [hint]) = found cmd hints
      ++ if Continues cmd hint ∧ (' ' ∈ cmd ∨ ∀ t ∈ hints ++ [hint], ' ' ∉ t) then [hint]
        else [] := by
  have hpass : (if ' ' ∈ cmd then hints ++ [hint] else (hints ++ [hint]).takeWhile (' ' ∉ ·))
      = (if ' ' ∈ cmd then hints else hints.takeWhile (' ' ∉ ·))
        ++ if ' ' ∈ cmd ∨ ∀ t ∈ hints ++ [hint], ' ' ∉ t then [hint] else [] := by
    by_cases hspace : ' ' ∈ cmd
    · simp only [if_pos hspace, if_pos (Or.inl hspace)]
    · rw [if_neg hspace, if_neg hspace, takeWhile_concat]
      simp only [hspace, false_or, decide_eq_true_eq]
  rw [found, hpass, List.filter_append, ← found]
  congr 1
  by_cases hcont : Continues cmd hint
  · simp only [hcont, true_and]
    split <;> simp [hcont]
  · simp only [hcont, false_and, if_false]
    split <;> simp [hcont]

/-- The list that is shown of the candidates. -/
def listed (common : List Text) : Text :=
  common.zipIdx.flatMap fun t => t.1 ++ [' '] ++ if (t.2 + 1) % 4 = 0 then ['\n'] else []

theorem listed_concat (common : List Text) (hint : Text) : listed (common ++ [hint])
    = listed common ++ hint ++ [' '] ++ if (common.length + 1) % 4 = 0 then ['\n'] else [] := by
  simp [listed, List.zipIdx_append]

/-- What the loop has found among the hints it has seen. -/
structure Matched (cmd : Text) (hints : List Text) (m : Matching) : Prop where
  haveSpace_eq : m.haveSpace = hints.any (' ' ∈ ·)
  common_eq : m.common = found cmd hints
  possible_eq : m.possible = listed m.common
  i_eq : m.i = m.common.length
  le_lenMin_iff : ∀ n, n ≤ m.lenMin ↔ n ≤ 65535 ∧ ∀ t ∈ m.common, n ≤ t.length

theorem matchHint_eq (cmd : Text) (willSubCmd : Bool) (m : Matching) (hint : Text) :
    matchHint cmd willSubCmd m hint
      = if Continues cmd hint ∧ (willSubCmd = true ∨ (m.haveSpace || hint.contains ' ') = false)
        then
          { haveSpace := m.haveSpace || hint.contains ' '
            common := m.common ++ [hint]
            possible := m.possible ++ hint ++ [' '] ++ (if (m.i + 1) % 4 = 0 then ['\n'] else [])
            i := m.i + 1
            lenMin := min hint.length m.lenMin }
        else { m with haveSpace := m.haveSpace || hint.contains ' ' } := by
  have hm : (if hint.contains ' ' then { m with haveSpace := true } else m)
      = { m with haveSpace := m.haveSpace || hint.contains ' ' } := by
    cases hint.contains ' ' with
    | true => rw [if_pos rfl, Bool.or_true]
    | false => rw [if_neg Bool.false_ne_true, Bool.or_false]
  rw [matchHint, hm]
  simp only [continues_iff, and_assoc]
  refine if_congr ?_ rfl rfl
  cases willSubCmd <;> simp

theorem Matched.concat {cmd : Text} {hints : List Text} {m : Matching} (hint : Text)
    (h : Matched cmd hints m) :
    Matched cmd (hints ++ [hint]) (matchHint cmd (cmd.contains ' ') m hint) := by
  obtain ⟨hspace, hcommon, hpossible, hi, hmin⟩ := h
  have hflag : (m.haveSpace || hint.contains ' ') = (hints ++ [hint]).any (' ' ∈ ·) := by
    rw [hspace, List.any_append]
    simp
  have hguard : (cmd.contains ' ' = true ∨ (m.haveSpace || hint.contains ' ') = false)
      ↔ ' ' ∈ cmd ∨ ∀ t ∈ hints ++ [hint], ' ' ∉ t := by
    rw [hflag, List.contains_iff_mem, List.any_eq_false]
    simp only [decide_eq_true_eq]
  rw [matchHint_eq]
  split
  · rename_i hcond
    rw [hguard] at hcond
    constructor
    · exact hflag
    · show m.common ++ [hint] = _
      rw [found_concat, if_pos hcond, hcommon]
    · show m.possible ++ hint ++ [' '] ++ _ = listed (m.common ++ [hint])
      rw [listed_concat, hpossible, hi]
    · show m.i + 1 = (m.common ++ [hint]).length
      rw [hi, List.length_append, List.length_singleton]
    · intro n
      show n ≤ min hint.length m.lenMin ↔ n ≤ 65535 ∧ ∀ t ∈ m.common ++ [hint], n ≤ t.length
      rw [Nat.le_min, hmin n, List.forall_mem_append, List.forall_mem_singleton]
      exact ⟨fun ⟨hn, hle, hall⟩ => ⟨hle, hall, hn⟩, fun ⟨hle, hall, hn⟩ => ⟨hn, hle, hall⟩⟩
  · rename_i hcond
    rw [hguard] at hcond
    refine ⟨hflag, ?_, hpossible, hi, hmin⟩
    rw [found_concat, if_neg hcond, List.append_nil]
    exact hcommon

theorem Matched.foldl {cmd : Text} : ∀ (rest : List Text) {hints : List Text} {m : Matching},
    Matched cmd hints m →
    Matched cmd (hints ++ rest) (rest.foldl (matchHint cmd (cmd.contains ' ')) m)
  | [], _, _, h => by rwa [List.append_nil]
  | hint :: rest, hints, _, h => by
      have hrest := Matched.foldl rest (h.concat hint)
      rwa [List.append_assoc, List.singleton_append] at hrest

/-- The loop over the hints. -/
def matching (s : CmdLine) : Matching :=
  s.hints.foldl (matchHint s.cmd (s.cmd.contains ' ')) ⟨false, [], [], 0, 65535⟩

theorem matching_matched (s : CmdLine) : Matched s.cmd s.hints s.matching := by
  have hnone : Matched s.cmd [] ⟨false, [], [], 0, 65535⟩ := by
    refine ⟨rfl, ?_, rfl, rfl, fun n => ⟨fun h => ⟨h, fun _ ht => ?_⟩, And.left⟩⟩
    · simp [found]
    · cases ht
  exact hnone.foldl s.hints

theorem continues_of_candidate {s : CmdLine} {t : Text} (h : t ∈ s.matching.common) :
    t ∈ s.hints ∧ Continues s.cmd t := by
  rw [s.matching_matched.common_eq, found, List.mem_filter, decide_eq_true_eq] at h
  refine ⟨?_, h.2⟩
  have hmem := h.1
  split at hmem
  · exact hmem
  · exact List.takeWhile_subset _ hmem

/-! ## The list that is shown -/

/-- What stands behind the `i`-th candidate. -/
def separator (i : Nat) : Text := ' ' :: if (i + 1) % 4 = 0 then ['\n'] else []

/-- The list from the `i`-th candidate on. -/
def listedFrom (i : Nat) (ts : List Text) : Text :=
  (ts.zipIdx i).flatMap fun t => t.1 ++ [' '] ++ if (t.2 + 1) % 4 = 0 then ['\n'] else []

theorem listedFrom_cons (i : Nat) (t : Text) (ts : List Text) :
    listedFrom i (t :: ts) = t ++ separator i ++ listedFrom (i + 1) ts := by
  rw [listedFrom, List.zipIdx_cons, List.flatMap_cons, List.append_assoc t, separator]
  rfl

theorem copies_listedFrom {pat : Text} (i : Nat) {ts : List Text} (h : ∀ t ∈ ts, pat <+: t) :
    Copies pat ts.length (listedFrom i ts) := by
  induction ts generalizing i with
  | nil => exact trivial
  | cons t ts ih =>
      obtain ⟨⟨y, rfl⟩, hts⟩ := List.forall_mem_cons.mp h
      rw [listedFrom_cons, List.append_assoc, List.append_assoc]
      exact ⟨[], y ++ (separator i ++ listedFrom (i + 1) ts), rfl,
        ((ih (i + 1) hts).append_left _).append_left _⟩

theorem copies_listed {pat : Text} {common : List Text} (h : ∀ t ∈ common, pat <+: t) :
    Copies pat common.length (listed common) :=
  copies_listedFrom 0 h

/-- A copy is left for every search, so none fails. -/
theorem eraseMainCmd_copies {mainCmd : Text} : ∀ {n : Nat} {possible : Text},
    Copies mainCmd n possible →
    ∃ possible', eraseMainCmd mainCmd n possible = some possible' ∧ possible' ⊆ possible
  | 0, possible, _ => ⟨possible, rfl, List.Subset.refl _⟩
  | n + 1, _, ⟨a, b, rfl, hb⟩ => by
      have hpre : cStr mainCmd <+: mainCmd ++ b :=
        (List.takeWhile_prefix _).trans (List.prefix_append _ _)
      obtain ⟨pos, hpos, hle⟩ := findText_append hpre a
      obtain ⟨a', herase, hsub⟩ := erase_append_le b hle
      obtain ⟨possible', hrun, hsub'⟩ := eraseMainCmd_copies (hb.append_left a')
      refine ⟨possible', ?_, fun c hc => ?_⟩
      · rw [eraseMainCmd, List.append_assoc, hpos, Option.map_some, Option.getD_some]
        rw [← List.append_assoc]
        show (erase (a ++ mainCmd ++ b) (pos : Int) (some mainCmd.length)).bind _ = _
        rw [herase, Option.bind_some, hrun]
      · rcases List.mem_append.mp (hsub' hc) with hc | hc
        · exact List.mem_append_left _ (hsub hc)
        · exact List.mem_append_right _ hc

/-! ## The characters all candidates share -/

theorem sameChar_spec (x : Char) {i : Nat} : ∀ {common : List Text},
    (∀ t ∈ common, i < t.length) →
    sameChar x i common = some x ∧ (∀ t ∈ common, t[i]? = some x)
      ∨ sameChar x i common = some '\x00' ∧ ∃ t ∈ common, t[i]? ≠ some x
  | [], _ => Or.inl ⟨rfl, fun _ ht => absurd ht List.not_mem_nil⟩
  | t :: common, h => by
      have hi : i < t.length := h t List.mem_cons_self
      have hchar : charAt t i = some t[i] := by
        rw [charAt, if_neg (Nat.ne_of_lt hi), List.getElem?_eq_getElem hi]
      rw [sameChar, hchar]
      show (if t[i] ≠ x then some '\x00' else sameChar x i common) = some x ∧ _
        ∨ (if t[i] ≠ x then some '\x00' else sameChar x i common) = some '\x00' ∧ _
      by_cases hx : t[i] = x
      · rw [if_neg (not_not_intro hx)]
        have ht : t[i]? = some x := by rw [List.getElem?_eq_getElem hi, hx]
        refine (sameChar_spec x fun t' ht' => h t' (List.mem_cons_of_mem t ht')).imp ?_ ?_
        · rintro ⟨hsame, hall⟩
          exact ⟨hsame, List.forall_mem_cons.mpr ⟨ht, hall⟩⟩
        · rintro ⟨hsame, t', ht', hne⟩
          exact ⟨hsame, t', List.mem_cons_of_mem t ht', hne⟩
      · rw [if_pos hx]
        refine Or.inr ⟨rfl, t, List.mem_cons_self, ?_⟩
        rw [List.getElem?_eq_getElem hi]
        exact fun heq => hx (Option.some.inj heq)

/-- Every candidate goes on with `r` behind `p`; up to `n` characters
there is no more they share, unless a NUL ends the loop. -/
structure SharedBehind (common : List Text) (n : Nat) (p r : Text) : Prop where
  shared : ∀ t ∈ common, p ++ r <+: t
  longest : (∀ t ∈ common, '\x00' ∉ t) → ∀ q, (∀ t ∈ common, q <+: t) →
    q.length ≤ p.length + n → q.length ≤ (p ++ r).length

theorem SharedBehind.stop {common : List Text} {p : Text} (n : Nat) (hp : ∀ t ∈ common, p <+: t)
    (h : (∀ t ∈ common, '\x00' ∉ t) → ∀ q, (∀ t ∈ common, q <+: t) →
      q.length ≤ p.length + n → q.length ≤ p.length) : SharedBehind common n p [] := by
  constructor <;> rw [List.append_nil]
  · exact hp
  · exact h

theorem SharedBehind.cons {common : List Text} {n : Nat} {p r : Text} {x : Char}
    (h : SharedBehind common n (p ++ [x]) r) : SharedBehind common (n + 1) p (x :: r) := by
  obtain ⟨hshared, hlongest⟩ := h
  rw [List.append_assoc, List.singleton_append] at hshared hlongest
  refine ⟨hshared, fun hfree q hq hle => hlongest hfree q hq ?_⟩
  rw [List.length_append, List.length_singleton]
  omega

theorem commonStr_spec {common : List Text} (hne : common ≠ []) : ∀ {n : Nat} {p : Text},
    (∀ t ∈ common, p <+: t) → (∀ t ∈ common, p.length + n ≤ t.length) →
    ∃ r, commonStr common n p.length = some r ∧ SharedBehind common n p r
  | 0, p, hp, _ => ⟨[], rfl, .stop 0 hp fun _ _ _ hq => hq⟩
  | n + 1, p, hp, h => by
      obtain ⟨t, ts, rfl⟩ := List.exists_cons_of_ne_nil hne
      have hlt : ∀ t' ∈ t :: ts, p.length < t'.length := fun t' ht' => by
        have := h t' ht'
        omega
      have hi : p.length < t.length := hlt t List.mem_cons_self
      have hx : t[p.length]? = some t[p.length] := List.getElem?_eq_getElem hi
      have hchar : charAt t p.length = some t[p.length] := by
        rw [charAt, if_neg (Nat.ne_of_lt hi), hx]
      simp only [commonStr, List.head?_cons, Option.bind_eq_bind, Option.bind_some, hchar]
      generalize t[p.length] = x at hx
      rcases sameChar_spec x hlt with ⟨hsame, hall⟩ | ⟨hsame, t', ht', hdiffer⟩
      · rw [hsame, Option.bind_some]
        by_cases hnul : x = '\x00'
        · rw [if_neg (not_not_intro hnul)]
          refine ⟨[], rfl, .stop _ hp fun hfree _ _ _ => ?_⟩
          exact absurd (hnul ▸ List.mem_of_getElem? hx) (hfree t List.mem_cons_self)
        · rw [if_pos hnul]
          have hp' : ∀ t' ∈ t :: ts, p ++ [x] <+: t' := fun t' ht' =>
            isPrefix_concat (hp t' ht') (hall t' ht')
          have hlen : (p ++ [x]).length = p.length + 1 := by
            rw [List.length_append, List.length_singleton]
          have hroom : ∀ t' ∈ t :: ts, (p ++ [x]).length + n ≤ t'.length := fun t' ht' => by
            have := h t' ht'
            omega
          obtain ⟨r, hr, hshared⟩ := commonStr_spec hne hp' hroom
          rw [hlen] at hr
          exact ⟨x :: r, by rw [hr]; rfl, hshared.cons⟩
      · rw [hsame]
        -- a longer prefix of all would hold the character at which two differ
        refine ⟨[], rfl, .stop _ hp fun _ q hq _ => Nat.le_of_not_lt fun hlong => hdiffer ?_⟩
        rw [List.prefix_iff_getElem?.mp (hq t' ht') _ hlong,
          ← List.prefix_iff_getElem?.mp (hq t List.mem_cons_self) _ hlong, hx]

/-! ## What is returned -/

theorem compareHints_few {s : CmdLine} (hcmd : s.cmd ≠ [])
    (h : s.matching.common.length < 2) (possible appendStr : Text) :
    s.compareHints possible appendStr
      = some (s.matching.common.length, s.matching.possible, appendStr) := by
  rw [compareHints, if_neg (mt List.length_eq_zero_iff.mp hcmd)]
  exact if_pos h

theorem compareHints_many {s : CmdLine} (hcmd : s.cmd ≠ [])
    (h : ¬s.matching.common.length < 2) {listing common : Text}
    (hlisting : (if s.cmd.contains ' ' then
      eraseMainCmd (s.cmd.takeWhile (· ≠ ' ')) s.matching.i s.matching.possible
      else some s.matching.possible) = some listing)
    (hcommon : commonStr s.matching.common (s.matching.lenMin - s.cmd.length) s.cmd.length
      = some common) (possible appendStr : Text) :
    s.compareHints possible appendStr
      = some (s.matching.common.length, listing, appendStr ++ common) := by
  rw [compareHints, if_neg (mt List.length_eq_zero_iff.mp hcmd)]
  refine (if_neg h).trans ?_
  have hjoin : ∀ o : Option Text, o = some listing → o.bind (fun possible =>
      (commonStr s.matching.common (s.matching.lenMin - s.cmd.length) s.cmd.length).bind fun c =>
        some (s.matching.common.length, possible, appendStr ++ c))
      = some (s.matching.common.length, listing, appendStr ++ common) := by
    rintro o rfl
    rw [Option.bind_some, hcommon, Option.bind_some]
  split at hlisting
  · rename_i hspace
    exact (if_pos hspace).trans (hjoin _ hlisting)
  · rename_i hspace
    exact (if_neg hspace).trans (hjoin _ hlisting)

/-- What `compareHints` leaves in its arguments: the list of the
candidates, and what is to be added to the command. -/
structure Completed (s : CmdLine) (listing r : Text) : Prop where
  listing_subset : listing ⊆ listed s.matching.common
  listing_eq : s.matching.common.length < 2 ∨ ' ' ∉ s.cmd → listing = listed s.matching.common
  few : s.matching.common.length < 2 → r = []
  many : 2 ≤ s.matching.common.length →
    SharedBehind s.matching.common (s.matching.lenMin - s.cmd.length) s.cmd r

theorem listing_of_matched {cmd : Text} {hints : List Text} {m : Matching}
    (h : Matched cmd hints m) (hbegin : ∀ t ∈ m.common, cmd <+: t) :
    ∃ listing, (if cmd.contains ' ' then eraseMainCmd (cmd.takeWhile (· ≠ ' ')) m.i m.possible
      else some m.possible) = some listing
      ∧ listing ⊆ listed m.common ∧ (' ' ∉ cmd → listing = listed m.common) := by
  rw [h.i_eq, h.possible_eq]
  split
  · rename_i hspace
    have hcopies : Copies (cmd.takeWhile (· ≠ ' ')) m.common.length (listed m.common) :=
      copies_listed fun t ht => (List.takeWhile_prefix _).trans (hbegin t ht)
    obtain ⟨listing, hlisting, hsub⟩ := eraseMainCmd_copies hcopies
    exact ⟨listing, hlisting, hsub, fun hno => absurd (List.contains_iff_mem.mp hspace) hno⟩
  · exact ⟨_, rfl, List.Subset.refl _, fun _ => rfl⟩

theorem compareHints_completed {s : CmdLine} (hcmd : s.cmd ≠ []) (possible appendStr : Text) :
    ∃ listing r, s.compareHints possible appendStr
      = some (s.matching.common.length, listing, appendStr ++ r) ∧ Completed s listing r := by
  have hm := s.matching_matched
  by_cases hlt : s.matching.common.length < 2
  · refine ⟨s.matching.possible, [], ?_, ?_⟩
    · rw [List.append_nil]
      exact compareHints_few hcmd hlt possible appendStr
    · exact ⟨hm.possible_eq ▸ List.Subset.refl _, fun _ => hm.possible_eq, fun _ => rfl,
        fun hle => absurd hlt (Nat.not_lt_of_le hle)⟩
  · have hne : s.matching.common ≠ [] := by
      intro hnil
      rw [hnil] at hlt
      exact hlt Nat.zero_lt_two
    have hbegin : ∀ t ∈ s.matching.common, s.cmd <+: t := fun t ht =>
      (continues_of_candidate ht).2.1
    have hroom : ∀ t ∈ s.matching.common,
        s.cmd.length + (s.matching.lenMin - s.cmd.length) ≤ t.length := fun t ht => by
      have := ((hm.le_lenMin_iff _).mp (Nat.le_refl _)).2 t ht
      have := (hbegin t ht).length_le
      omega
    obtain ⟨r, hr, hshared⟩ := commonStr_spec hne hbegin hroom
    obtain ⟨listing, hlisting, hsub, heq⟩ := listing_of_matched hm hbegin
    exact ⟨listing, r, compareHints_many hcmd hlt hlisting hr possible appendStr, hsub,
      fun h => heq (h.resolve_left hlt), fun h => absurd h hlt, fun _ => hshared⟩

/-- With two candidates or more the line is completed to the longest
prefix they share. -/
theorem compareHints_longest {s : CmdLine} (hcmd : s.cmd ≠ [])
    (hmany : 2 ≤ s.matching.common.length)
    (hcandidate : ∀ t ∈ s.matching.common, t.length < 65535 ∧ '\x00' ∉ t) (possible : Text) :
    ∃ listing r, s.compareHints possible [] = some (s.matching.common.length, listing, r)
      ∧ LongestCommonPrefix s.matching.common (s.cmd ++ r) := by
  obtain ⟨listing, r, hrun, hc⟩ := compareHints_completed hcmd possible []
  obtain ⟨hshared, hlongest⟩ := hc.many hmany
  refine ⟨listing, r, hrun, hshared, fun q hq => ?_⟩
  refine hlongest (fun t ht => (hcandidate t ht).2) q hq ?_
  -- no prefix of all candidates is longer than the shortest of them
  have hmin : q.length ≤ s.matching.lenMin := by
    refine (s.matching_matched.le_lenMin_iff _).mpr ⟨?_, fun t ht => (hq t ht).length_le⟩
    obtain ⟨t, ht⟩ := List.exists_mem_of_length_pos (Nat.lt_of_lt_of_le Nat.zero_lt_two hmany)
    exact Nat.le_of_lt (Nat.lt_of_le_of_lt (hq t ht).length_le (hcandidate t ht).1)
  omega

/-- The hints and the prompt of `cmdline_test`. -/
def testHints : List Text := ["help".toList, "ls".toList, "pwd".toList, "env".toList]

def testPrompt : Text := "> ".toList

/-- A command has been typed. -/
def typed (hints : List Text) (cmd : Text) : CmdLine :=
  { new testPrompt hints 0 with cmd := cmd, cmdBuffer := cmd, mIndex := cmd.length }

def startHints : List Text := ["start".toList, "stats".toList, "help".toList, "stop".toList]

theorem compareHints_longest_start : ∃ listing r,
    (typed startHints ['s']).compareHints [] [] = some (3, listing, r)
      ∧ LongestCommonPrefix ["start".toList, "stats".toList, "stop".toList] ('s' :: r) := by
  have hcommon : (typed startHints ['s']).matching.common
      = ["start".toList, "stats".toList, "stop".toList] := by decide
  have hcandidate : ∀ t ∈ (typed startHints ['s']).matching.common,
      t.length < 65535 ∧ '\x00' ∉ t := by decide
  have h := compareHints_longest (s := typed startHints ['s']) (List.cons_ne_nil _ _)
    (by decide) hcandidate []
  rw [hcommon] at h
  exact h

/-! ## What is to be offered -/

/-- A hint that goes on behind the command, of one word if the command is
of one word. -/
def Offered (cmd hint : Text) : Prop := Continues cmd hint ∧ (' ' ∈ cmd ∨ ' ' ∉ hint)

instance (cmd hint : Text) : Decidable (Offered cmd hint) :=
  inferInstanceAs (Decidable (_ ∧ _))

def offers (s : CmdLine) : List Text := s.hints.filter (Offered s.cmd)

/-- The candidates are the hints to be offered, and `compareHints`
returns how many they are. -/
structure Offers (s : CmdLine) : Prop where
  candidates : s.matching.common = s.offers
  returned : ∀ possible appendStr, ∃ listing appendStr',
    s.compareHints possible appendStr = some (s.offers.length, listing, appendStr')
      ∧ (s.offers.length < 2 ∨ ' ' ∉ s.cmd → listing = listed s.offers)

/-- The return value, which does not depend on the arguments. -/
def count (s : CmdLine) : Option Nat := (s.compareHints [] []).map (·.1)

/-- The hints may stand in any order. -/
def OrderFree (s : CmdLine) : Prop :=
  ∀ hints : List Text, hints.Perm s.hints → { s with hints := hints }.count = s.count

theorem offers_iff_common {s : CmdLine} (hcmd : s.cmd ≠ []) :
    s.Offers ↔ s.matching.common = s.offers := by
  refine ⟨Offers.candidates, fun h => ⟨h, fun possible appendStr => ?_⟩⟩
  obtain ⟨listing, r, hrun, hc⟩ := compareHints_completed hcmd possible appendStr
  rw [← h]
  exact ⟨listing, _, hrun, hc.listing_eq⟩

theorem count_eq {s : CmdLine} (hcmd : s.cmd ≠ []) :
    s.count = some (found s.cmd s.hints).length := by
  obtain ⟨listing, r, hrun, -⟩ := compareHints_completed hcmd [] []
  rw [count, hrun, s.matching_matched.common_eq, Option.map_some]

theorem found_of_space {cmd : Text} (h : ' ' ∈ cmd) (hints : List Text) :
    found cmd hints = hints.filter (Offered cmd) := by
  rw [found, if_pos h]
  refine List.filter_congr fun t _ => decide_eq_decide.mpr ?_
  exact ⟨fun ht => ⟨ht, Or.inl h⟩, And.left⟩

/-- Every hint in front of the first one with a space is looked at, and
none behind it. -/
theorem found_eq_iff {cmd : Text} (h : ' ' ∉ cmd) : ∀ {hints : List Text},
    found cmd hints = hints.filter (Offered cmd)
      ↔ hints.Pairwise fun t u => ' ' ∈ t → ¬ Offered cmd u
  | [] => by simp [found]
  | t :: hints => by
      have hrest : found cmd hints = hints.filter (Offered cmd) ↔ _ := found_eq_iff h
      rw [found, if_neg h] at hrest
      rw [found, if_neg h, List.pairwise_cons]
      by_cases ht : ' ' ∈ t
      · have hno : ¬ Offered cmd t := fun ho => ho.2.elim h fun hnot => hnot ht
        rw [List.takeWhile_cons_of_neg (by simpa using ht), List.filter_nil,
          List.filter_cons_of_neg (by simpa using hno), eq_comm, List.filter_eq_nil_iff]
        simp only [decide_eq_true_eq]
        constructor
        · intro hnone
          refine ⟨fun u hu _ => hnone u hu, ?_⟩
          exact List.pairwise_of_forall_mem_list fun _ _ u hu _ => hnone u hu
        · exact fun ⟨hnone, _⟩ u hu => hnone u hu ht
      · have hoffered : decide (Offered cmd t) = decide (Continues cmd t) :=
          decide_eq_decide.mpr ⟨And.left, fun hc => ⟨hc, Or.inr ht⟩⟩
        rw [List.takeWhile_cons_of_pos (by simpa using ht), List.filter_cons, List.filter_cons,
          hoffered, ← hrest]
        have hfree : ∀ u ∈ hints, ' ' ∈ t → ¬ Offered cmd u := fun _ _ hspace => absurd hspace ht
        split
        · simp only [List.cons.injEq, true_and, and_iff_right hfree]
        · exact (and_iff_right hfree).symm

theorem offers_iff {s : CmdLine} (hcmd : s.cmd ≠ []) :
    s.Offers ↔ ' ' ∈ s.cmd ∨ s.hints.Pairwise fun t u => ' ' ∈ t → ¬ Offered s.cmd u := by
  rw [offers_iff_common hcmd, s.matching_matched.common_eq, offers]
  by_cases hspace : ' ' ∈ s.cmd
  · exact iff_of_true (found_of_space hspace s.hints) (Or.inl hspace)
  · rw [found_eq_iff hspace, or_iff_right hspace]

theorem orderFree_iff {s : CmdLine} (hcmd : s.cmd ≠ []) :
    s.OrderFree ↔ ' ' ∈ s.cmd ∨ (∀ t ∈ s.hints, ' ' ∉ t)
      ∨ ∀ t ∈ s.hints, ¬ Offered s.cmd t := by
  have hcount : ∀ hints : List Text, { s with hints := hints }.count
      = some (found s.cmd hints).length :=
    fun hints => count_eq (s := { s with hints := hints }) hcmd
  constructor
  · intro hfree
    by_contra! hmixed
    obtain ⟨hspace, ⟨t, ht, htspace⟩, u, hu, hoffered⟩ := hmixed
    -- a hint with a space in front keeps all of them out, one that is offered does not
    have hnone := hfree _ (List.perm_cons_erase ht).symm
    have hsome := hfree _ (List.perm_cons_erase hu).symm
    have huspace : ' ' ∉ u := hoffered.2.resolve_left hspace
    have hempty : found s.cmd (t :: s.hints.erase t) = [] := by
      rw [found, if_neg hspace, List.takeWhile_cons_of_neg (by simpa using htspace),
        List.filter_nil]
    have hcons : found s.cmd (u :: s.hints.erase u)
        = u :: found s.cmd (s.hints.erase u) := by
      rw [found, if_neg hspace, List.takeWhile_cons_of_pos (by simpa using huspace),
        List.filter_cons_of_pos (by simpa using hoffered.1), found, if_neg hspace]
    rw [hcount, hempty] at hnone
    rw [hcount, hcons, ← hnone] at hsome
    cases hsome
  · intro hcond hints hperm
    have hall : ∀ hints' : List Text, hints'.Perm s.hints →
        found s.cmd hints' = hints'.filter (Offered s.cmd) := fun hints' hperm' => by
      by_cases hspace : ' ' ∈ s.cmd
      · exact found_of_space hspace hints'
      · refine (found_eq_iff hspace).mpr (List.pairwise_of_forall_mem_list fun t ht u hu => ?_)
        rcases hcond.resolve_left hspace with hwords | hnone
        · exact fun htspace => absurd htspace (hwords t (hperm'.mem_iff.mp ht))
        · exact fun _ => hnone u (hperm'.mem_iff.mp hu)
    rw [hcount, count_eq hcmd, hall hints hperm, hall s.hints (.refl _),
      (hperm.filter _).length_eq]

/-- The hints to be offered are the candidates, in the order of the list
and whatever the order is, exactly when no hint with a space gets in the
way of a command of one word. -/
theorem offers_orderFree_iff {s : CmdLine} (hcmd : s.cmd ≠ []) :
    (s.Offers ↔ ' ' ∈ s.cmd ∨ s.hints.Pairwise fun t u => ' ' ∈ t → ¬ Offered s.cmd u)
    ∧ (s.OrderFree ↔ ' ' ∈ s.cmd ∨ (∀ t ∈ s.hints, ' ' ∉ t)
      ∨ ∀ t ∈ s.hints, ¬ Offered s.cmd t) :=
  ⟨offers_iff hcmd, orderFree_iff hcmd⟩

theorem offers_testHints : (typed testHints ['l']).Offers ∧ (typed testHints ['l']).OrderFree := by
  have hwords : ∀ t ∈ testHints, ' ' ∉ t := by decide
  obtain ⟨hoffers, hfree⟩ :=
    offers_orderFree_iff (s := typed testHints ['l']) (List.cons_ne_nil _ _)
  refine ⟨hoffers.mpr (Or.inr ?_), hfree.mpr (Or.inr (Or.inl hwords))⟩
  exact List.pairwise_of_forall_mem_list fun t ht _ _ hspace => absurd hspace (hwords t ht)

/-- A hint of two words in front of one of one word. -/
def mixedHints : List Text := ["show port".toList, "shutdown".toList]

theorem not_offers_mixedHints : ¬ (typed mixedHints ['s', 'h']).Offers
    ∧ ¬ (typed mixedHints ['s', 'h']).OrderFree := by
  constructor
  · intro h
    exact absurd h.candidates (by decide)
  · intro h
    exact absurd (h mixedHints.reverse (List.reverse_perm _)) (by decide)

end CmdLine

end Yapas
