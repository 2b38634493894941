import Yapas.EditAppend
import Yapas.KeyedList
import Yapas.Session

/-!
# A configuration file over many calls

`main` of `edit_config.cc`, which replaces, deletes or appends. A file is
good for its settings, and to them each call is an update of a list of
keyed values. So it is for every sequence of calls: what they return and
the settings they leave are those of the updates (`session_settings`),
and a key has the value of the last call that appends it
(`settings_of_last_call`).

The calls name a key, and neither they nor the file have the byte that
ends a line or is taken for one; `ReplacesStably` is about the others.
-/

namespace Yapas

/-- `argv` behind the name of the file. -/
structure EditCall where
  keyValue : Text
  option : Option Text

namespace EditCall

/-- `strncmp` with the length of the word. -/
def hasOption (c : EditCall) (word : String) : Bool := c.option.any word.toList.isPrefixOf

def app (c : EditCall) : Bool := c.hasOption "app"

def del (c : EditCall) : Bool := !c.app && c.hasOption "del"

end EditCall

/-- `main`: what it returns, and the content of the file. -/
def editMain (content : Text) (c : EditCall) : Int × Text :=
  match configReplace content c.keyValue c.del with
  | none => (-1, content)
  | some (n, content) =>
      if n = 0 ∧ c.app = true then (n, (configAppend content c.keyValue).getD content)
      else (n, content)

namespace EditCall

/-- What a call does to the settings, unless it has no equal sign. -/
def update (c : EditCall) : Option (Update Text Text) :=
  (cut '=' c.keyValue).map fun kv =>
    if c.app then .define (trim kv.1) (trim kv.2)
    else if c.del then .erase (trim kv.1)
    else .assign (trim kv.1) (trim kv.2)

/-- The number of settings that the key has, and what becomes of them
all. -/
def updateSettings (kvs : List (Text × Text)) (c : EditCall) : Int × List (Text × Text) :=
  c.update.elim (-1, kvs) fun u => ((valuesOf u.key kvs).length, u.apply kvs)

structure Clean (c : EditCall) : Prop where
  newline : '\n' ∉ c.keyValue
  eofByte : eofByte ∉ c.keyValue
  named : ∀ u ∈ c.update, u.key ≠ []

instance (c : EditCall) : Decidable c.Clean :=
  decidable_of_iff ('\n' ∉ c.keyValue ∧ Yapas.eofByte ∉ c.keyValue ∧ ∀ u ∈ c.update, u.key ≠ [])
    ⟨fun ⟨hnl, hff, hnamed⟩ => ⟨hnl, hff, hnamed⟩, fun ⟨hnl, hff, hnamed⟩ => ⟨hnl, hff, hnamed⟩⟩

end EditCall

/-! ## The settings of an edited file -/

theorem settings_line_cons {body : Text} (h : '\n' ∉ body) (rest : Text) :
    settings (body ++ '\n' :: rest) = (setting body).toList ++ settings rest := by
  rw [settings_newline, settings_eq body, physicalLines_last h, List.filterMap_cons]
  cases setting body <;> rfl

theorem settings_last {body : Text} (h : '\n' ∉ body) : settings body = (setting body).toList := by
  rw [settings_eq, physicalLines_last h, List.filterMap_cons]
  cases setting body <;> rfl

section Edited

variable {key v : Text} (ifDel : Bool)

/-- What becomes of a setting. -/
def editSetting (key : Text) (ifDel : Bool) (v : Text) (kv : Text × Text) : List (Text × Text) :=
  if kv.1 = key then if ifDel then [] else [(key, v)] else [kv]

theorem flatMap_editSetting (kvs : List (Text × Text)) :
    kvs.flatMap (editSetting key ifDel v)
      = if ifDel then eraseAll key kvs else assignAll key v kvs := by
  induction kvs with
  | nil => cases ifDel <;> rfl
  | cons kv kvs ih =>
      rw [List.flatMap_cons, ih]
      by_cases hk : kv.1 = key
      · cases ifDel <;> simp [editSetting, eraseAll, assignAll, hk]
      · cases ifDel <;> simp [editSetting, eraseAll, assignAll, hk]

variable (hkey : key ≠ []) (hv : trim v = v) (hnl : '\n' ∉ v)

include hkey hv hnl

/-- One line, at the end of the file or with its newline. -/
theorem settings_editedPiece {body : Text} (hbody : '\n' ∉ body) (rest : Text) :
    settings (editedPiece key ifDel (' ' :: v) body)
        = (setting body).toList.flatMap (editSetting key ifDel v) ∧
      settings (editedPiece key ifDel (' ' :: v) (body ++ ['\n']) ++ rest)
        = (setting body).toList.flatMap (editSetting key ifDel v) ++ settings rest := by
  by_cases hmem : '=' ∈ body
  · obtain ⟨before, after, rfl, hbefore⟩ := List.eq_append_cons_of_mem hmem
    have hcut : ∀ tail, cut '=' (before ++ '=' :: after ++ tail) = some (before, after ++ tail) :=
      fun tail => by rw [List.append_assoc, List.cons_append, cut_append _ hbefore]
    have hcut' := hcut []
    rw [List.append_nil, List.append_nil] at hcut'
    have hsetting : setting (before ++ '=' :: after) = some (trim before, trim after) := by
      rw [setting, hcut', Option.map_some]
    rw [editedPiece, hcut', editedPiece, hcut, hsetting, Option.toList_some,
      List.flatMap_singleton]
    by_cases hk : trim before = key
    · simp only [hk, if_true, editSetting]
      cases ifDel with
      | true => exact ⟨rfl, rfl⟩
      | false =>
          have hline : '\n' ∉ before ++ '=' :: ' ' :: v := by
            simp only [List.mem_append, List.mem_cons, not_or] at hbody ⊢
            exact ⟨hbody.1, by decide, by decide, hnl⟩
          have hblank : ∀ c ∈ [' '], isBlank c = true := List.all_eq_true.mp rfl
          have hnew : setting (before ++ '=' :: ' ' :: v) = some (key, v) := by
            rw [setting, cut_append _ hbefore, Option.map_some, hk,
              show ' ' :: v = [' '] ++ v from rfl, trim_append_left hblank, hv]
          constructor
          · have hset := settings_line_cons hline []
            rw [hnew] at hset
            simpa [settings, lines, physicalLines] using hset
          · have hset := settings_line_cons hline rest
            rw [hnew] at hset
            simpa using hset
    · simp only [hk, if_false, editSetting]
      refine ⟨by rw [settings_last hbody, hsetting]; rfl, ?_⟩
      rw [List.append_assoc, List.singleton_append, settings_line_cons hbody, hsetting]
      rfl
  · have hmem' : '=' ∉ body ++ ['\n'] := by
      rw [List.mem_append, not_or]
      exact ⟨hmem, by decide⟩
    have hsetting : setting body = none := by rw [setting, cut_eq_none.mpr hmem]; rfl
    rw [editedPiece, cut_eq_none.mpr hmem, editedPiece, cut_eq_none.mpr hmem', hsetting]
    simp only [hkey, false_and, if_false]
    refine ⟨by rw [settings_last hbody, hsetting]; rfl, ?_⟩
    rw [List.append_assoc, List.singleton_append, settings_line_cons hbody, hsetting]
    rfl

theorem settings_newContent {content : Text} (hff : eofByte ∉ content) :
    settings (newContent key ifDel (' ' :: v) (pieces content))
      = if ifDel then eraseAll key (settings content)
        else assignAll key v (settings content) := by
  have hflat : ∀ ps : List Text, newContent key ifDel (' ' :: v) ps
      = ps.flatMap (editedPiece key ifDel (' ' :: v)) := by
    intro ps
    induction ps with
    | nil => rfl
    | cons p ps ih => rw [newContent, valueAfter_of_ne hkey, ih, List.flatMap_cons]
  rw [pieces_eq_physicalLines hff, hflat, ← flatMap_editSetting]
  clear hff
  induction content using linesInduction with
  | last body hbody =>
      rw [physicalLines_last hbody, List.flatMap_singleton, settings_last hbody]
      exact (settings_editedPiece ifDel hkey hv hnl hbody []).1
  | line body rest hbody ih =>
      rw [physicalLines_line rest hbody, List.flatMap_cons, settings_line_cons hbody,
        List.flatMap_append, ← ih]
      exact (settings_editedPiece ifDel hkey hv hnl hbody _).2

end Edited

/-! ## One call -/

theorem isKeyLine_eq (key line : Text) :
    isKeyLine key line = ((setting line).map fun kv => decide (kv.1 = key)).getD false := by
  rw [isKeyLine, setting]
  cases cut '=' line with
  | none => rfl
  | some kv => exact beq_eq_decide (trim kv.1) key

theorem countP_isKeyLine {content : Text} (hff : eofByte ∉ content) (key : Text) :
    (pieces content).countP (isKeyLine key) = (valuesOf key (settings content)).length := by
  rw [pieces_eq_physicalLines hff, length_valuesOf, settings_eq, List.countP_filterMap]
  exact List.countP_congr fun line _ => by rw [isKeyLine_eq]

theorem eofByte_not_mem_edited (key : Text) {value : Text} (hvalue : eofByte ∉ value)
    (ifDel : Bool) (content : Text) : eofByte ∉ newContent key ifDel value (pieces content) := by
  cases ifDel with
  | false =>
      exact eofByte_not_mem_newContent (fun p hp => eofByte_not_mem_piece hp) fun _ => hvalue
  | true =>
      rw [newContent_delete]
      intro hmem
      obtain ⟨p, hp, hin⟩ := List.mem_flatMap.mp hmem
      split at hin
      · cases hin
      · exact eofByte_not_mem_piece hp hin

theorem eofByte_not_mem_configAppend {content content' k v : Text} (hk : '=' ∉ k)
    (hff : eofByte ∉ content) (hkv : eofByte ∉ k ++ v)
    (h : configAppend content (k ++ '=' :: v) = some content') : eofByte ∉ content' := by
  have hline : eofByte ∉ trim k ++ "  =  ".toList ++ trim v := by
    simp only [List.mem_append, not_or] at hkv ⊢
    exact ⟨⟨fun h => hkv.1 (mem_of_mem_trim h), by decide⟩, fun h => hkv.2 (mem_of_mem_trim h)⟩
  rw [configAppend, getKeyValueByEqualSign, cut_append v hk] at h
  obtain rfl := Option.some.inj h
  rw [List.mem_append, not_or]
  refine ⟨hff, ?_⟩
  split
  · exact hline
  · rw [List.mem_cons, not_or]
    exact ⟨by decide, hline⟩

/-- A call returns how often its key stands in the file, and updates the
settings. -/
theorem editMain_updateSettings {content : Text} (hff : eofByte ∉ content) {c : EditCall}
    (hc : c.Clean) :
    (editMain content c).1 = (c.updateSettings (settings content)).1 ∧
      settings (editMain content c).2 = (c.updateSettings (settings content)).2 ∧
      eofByte ∉ (editMain content c).2 := by
  obtain ⟨hnewline, heof, hnamed⟩ := hc
  rw [EditCall.updateSettings]
  rw [EditCall.update] at hnamed ⊢
  by_cases hmem : '=' ∈ c.keyValue
  · obtain ⟨k, v, hkv, hk⟩ := List.eq_append_cons_of_mem hmem
    have hcut : cut '=' c.keyValue = some (k, v) := by rw [hkv, cut_append v hk]
    have hsub : k ++ v ⊆ c.keyValue := by
      rw [hkv]
      exact List.append_subset.mpr
        ⟨List.subset_append_left _ _, fun x hx => by simp [hx]⟩
    have hnl : '\n' ∉ k ++ v := fun h => hnewline (hsub h)
    have hnl' : '\n' ∉ trim v := fun h =>
      hnl (List.mem_append_right k (mem_of_mem_trim h))
    have hff' : eofByte ∉ k ++ v := fun h => heof (hsub h)
    have heofv : eofByte ∉ ' ' :: trim v := by
      rw [List.mem_cons, not_or]
      exact ⟨by decide, fun h => hff' (List.mem_append_right k (mem_of_mem_trim h))⟩
    rw [hcut] at hnamed ⊢
    have hkey : trim k ≠ [] := by
      have hkey := hnamed _ rfl
      cases happ : c.app <;> cases hdel : c.del <;> rw [happ, hdel] at hkey <;> exact hkey
    have hedit := settings_newContent c.del hkey (trim_trim v) hnl' hff
    have hclean := eofByte_not_mem_edited (trim k) heofv c.del content
    rw [editMain, configReplace_eq, hcut]
    simp only [Option.map_some, Option.elim_some, countP_isKeyLine hff]
    cases happ : c.app with
    | false =>
        simp only [Bool.false_eq_true, and_false, if_false]
        refine ⟨?_, ?_, hclean⟩ <;> cases hdel : c.del <;> rw [hdel] at hedit
        · rfl
        · rfl
        · exact hedit
        · exact hedit
    | true =>
        have hdel : c.del = false := by rw [EditCall.del, happ]; rfl
        rw [hdel] at hedit hclean ⊢
        simp only [and_true, if_true, Update.key, Update.apply, List.isEmpty_iff_length_eq_zero]
        by_cases hzero : (valuesOf (trim k) (settings content)).length = 0
        · rw [if_pos hzero, if_pos hzero]
          obtain ⟨content', happend, hset⟩ := settings_configAppend
            (newContent (trim k) false (' ' :: trim v) (pieces content)) hk hnl
          rw [hkv, happend]
          refine ⟨rfl, ?_, eofByte_not_mem_configAppend hk hclean hff' happend⟩
          rw [Option.getD_some, hset, hedit, if_neg Bool.false_ne_true,
            assignAll_of_valuesOf_nil (List.length_eq_zero_iff.mp hzero)]
        · rw [if_neg hzero, if_neg hzero]
          exact ⟨rfl, hedit, hclean⟩
  · have hnone : configReplace content c.keyValue c.del = none := by
      rw [configReplace_eq, cut_eq_none.mpr hmem, Option.map_none]
    rw [editMain, hnone, cut_eq_none.mpr hmem]
    exact ⟨rfl, rfl, hff⟩

/-! ## Sessions -/

/-- The file is clean, and these are its settings. -/
def HasSettings (content : Text) (kvs : List (Text × Text)) : Prop :=
  eofByte ∉ content ∧ settings content = kvs

theorem session_hasSettings {content : Text} (hff : eofByte ∉ content) {cs : List EditCall}
    (hcs : ∀ c ∈ cs, c.Clean) :
    (session editMain content cs).1 = (session EditCall.updateSettings (settings content) cs).1 ∧
      HasSettings (session editMain content cs).2
        (session EditCall.updateSettings (settings content) cs).2 := by
  have hstep : ∀ (content : Text) (kvs : List (Text × Text)) (c : EditCall),
      HasSettings content kvs → c.Clean →
      (editMain content c).1 = (c.updateSettings kvs).1 ∧
        HasSettings (editMain content c).2 (c.updateSettings kvs).2 := by
    rintro content kvs c ⟨hff, rfl⟩ hc
    obtain ⟨hret, hset, hclean⟩ := editMain_updateSettings hff hc
    exact ⟨hret, hclean, hset⟩
  exact session_refines hstep cs ⟨hff, rfl⟩ hcs

/-- A sequence of calls updates the settings, and each call returns how
often its key stood in the file by then. -/
theorem session_settings {content : Text} (hff : eofByte ∉ content) {cs : List EditCall}
    (hcs : ∀ c ∈ cs, c.Clean) :
    (session editMain content cs).1 = (session EditCall.updateSettings (settings content) cs).1 ∧
      settings (session editMain content cs).2
        = (session EditCall.updateSettings (settings content) cs).2 :=
  (session_hasSettings hff hcs).imp_right And.right

theorem session_settings_calls :
    (session editMain "a = 1\n#\n".toList [⟨"a=2".toList, none⟩,
      ⟨"b = 3".toList, some "app".toList⟩, ⟨"a=".toList, some "del".toList⟩]).1 = [1, 0, 1] ∧
    settings (session editMain "a = 1\n#\n".toList [⟨"a=2".toList, none⟩,
      ⟨"b = 3".toList, some "app".toList⟩, ⟨"a=".toList, some "del".toList⟩]).2
        = [("b".toList, "3".toList)] :=
  ⟨(session_settings (by decide) (by decide)).1.trans rfl,
    (session_settings (by decide) (by decide)).2.trans rfl⟩

theorem session_updateSettings (kvs : List (Text × Text)) (cs : List EditCall) :
    (session EditCall.updateSettings kvs cs).2
      = (cs.filterMap EditCall.update).foldl (fun kvs u => u.apply kvs) kvs := by
  rw [session_snd]
  induction cs generalizing kvs with
  | nil => rfl
  | cons c cs ih =>
      rw [List.foldl_cons, ih, List.filterMap_cons, EditCall.updateSettings]
      cases c.update <;> rfl

theorem settings_session {content : Text} (hff : eofByte ∉ content) {cs : List EditCall}
    (hcs : ∀ c ∈ cs, c.Clean) :
    settings (session editMain content cs).2
      = (cs.filterMap EditCall.update).foldl (fun kvs u => u.apply kvs) (settings content) := by
  rw [(session_hasSettings hff hcs).2.2, session_updateSettings]

/-- The call is about the key. -/
def EditCall.names (key : Text) (c : EditCall) : Bool := c.update.any (·.key = key)

/-- The calls about other keys make no difference to a key. -/
theorem valuesOf_session_names {content : Text} (hff : eofByte ∉ content) {cs : List EditCall}
    (hcs : ∀ c ∈ cs, c.Clean) (key : Text) :
    valuesOf key (settings (session editMain content cs).2)
      = valuesOf key (settings (session editMain content (cs.filter (·.names key))).2) := by
  rw [settings_session hff hcs,
    settings_session hff fun c hc => hcs c (List.mem_filter.mp hc).1,
    valuesOf_applyAll, valuesOf_applyAll]
  congr 1
  rw [List.filterMap_filter, List.filter_filterMap, List.filter_filterMap]
  refine List.filterMap_congr fun c _ => ?_
  rw [EditCall.names]
  cases c.update with
  | none => rfl
  | some u => by_cases hu : u.key = key <;> simp [hu, Option.filter]

theorem valuesOf_session_names_calls : valuesOf "b".toList (settings (session editMain
      "a = 1\n".toList [⟨"b=2".toList, some "app".toList⟩, ⟨"a=3".toList, none⟩]).2)
    = valuesOf "b".toList (settings (session editMain
      "a = 1\n".toList [⟨"b=2".toList, some "app".toList⟩]).2) :=
  valuesOf_session_names (by decide) (by decide) _

/-- Behind the last call for a key, if it may append, every line of the
key has the value, and there is one. -/
theorem settings_of_last_call {content : Text} (hff : eofByte ∉ content)
    (before : List EditCall) {after : List EditCall} {c : EditCall} {k v : Text}
    (hcs : ∀ c' ∈ before ++ c :: after, c'.Clean) (hkv : c.keyValue = k ++ '=' :: v)
    (hk : '=' ∉ k) (happ : c.app = true) (hlast : ∀ c' ∈ after, c'.names (trim k) = false) :
    ∃ n, valuesOf (trim k) (settings (session editMain content (before ++ c :: after)).2)
      = List.replicate (n + 1) (trim v) := by
  have hupdate : c.update = some (.define (trim k) (trim v)) := by
    rw [EditCall.update, hkv, cut_append v hk, Option.map_some, if_pos happ]
  have hafter : ∀ u ∈ after.filterMap EditCall.update, u.key ≠ trim k := by
    intro u hu heq
    obtain ⟨c', hc', hu⟩ := List.mem_filterMap.mp hu
    have hnot := hlast c' hc'
    rw [EditCall.names, hu, Option.any_some, heq] at hnot
    simp at hnot
  rw [settings_session hff hcs, List.filterMap_append, List.filterMap_cons, hupdate]
  exact valuesOf_define (trim k) (trim v) hafter _ _

theorem settings_of_last_call_calls : ∃ n, valuesOf "b".toList (settings (session editMain
      "b = 1\nb=\n".toList [⟨"b=2".toList, some "app".toList⟩, ⟨"a=3".toList, none⟩]).2)
    = List.replicate (n + 1) "2".toList :=
  settings_of_last_call (k := "b".toList) (v := "2".toList) (by decide) [] (by decide) rfl
    (by decide) rfl (by decide)

end Yapas
