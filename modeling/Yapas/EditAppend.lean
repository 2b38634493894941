import Yapas.ReadBack

/-!
# Appending a setting

`configAppend`, on the content of the file. The line is appended without
a newline, so the next call looks at the last byte and begins with one if
it is not there. In an empty file there is no last byte: the file then
begins with an empty line.

The settings of a file are read line by line, so they are those in front
of a newline and those behind it (`settings_newline`), and the newline
that ends a line is trimmed off.
-/

namespace Yapas

/-- `configAppend`: the new content, `none` for `-1`. -/
def configAppend (content keyValue : Text) : Option Text :=
  let (rc, key, value) := getKeyValueByEqualSign keyValue
  if rc ≠ 0 then none
  else
    let lineStr := key ++ "  =  ".toList ++ value
    some (content ++ if content.getLast? = some '\n' then lineStr else '\n' :: lineStr)

/-- The key and the value of a line. -/
def setting (line : Text) : Option (Text × Text) :=
  (cut '=' line).map fun kv => (trim kv.1, trim kv.2)

/-- The settings of a file. -/
def settings (content : Text) : List (Text × Text) := (lines content).filterMap setting

theorem settings_eq (content : Text) :
    settings content = (physicalLines content).filterMap setting := by
  have hnil : ∀ line ∈ physicalLines content,
      (if line ≠ [] then setting line else none) = setting line := fun line _ => by
    by_cases hline : line = []
    · rw [hline]
      rfl
    · rw [if_pos hline]
  rw [settings, lines, List.filterMap_filter]
  exact List.filterMap_congr fun line hline => by simpa using hnil line hline

theorem setting_newline (body : Text) : setting (body ++ ['\n']) = setting body := by
  have hblank : ∀ c ∈ ['\n'], isBlank c = true := List.all_eq_true.mp rfl
  by_cases hmem : '=' ∈ body
  · obtain ⟨before, after, rfl, hbefore⟩ := List.eq_append_cons_of_mem hmem
    rw [setting, setting, List.append_assoc, List.cons_append, cut_append _ hbefore,
      cut_append _ hbefore, Option.map_some, Option.map_some, trim_append_right hblank]
  · have hmem' : '=' ∉ body ++ ['\n'] := by
      rw [List.mem_append, not_or]
      exact ⟨hmem, by decide⟩
    rw [setting, setting, cut_eq_none.mpr hmem, cut_eq_none.mpr hmem']

/-- A newline ends a line wherever it stands. -/
theorem settings_newline (a b : Text) : settings (a ++ '\n' :: b) = settings a ++ settings b := by
  rw [settings_eq, settings_eq, settings_eq]
  induction a using linesInduction with
  | last body hbody =>
      rw [physicalLines_line b hbody, physicalLines_last hbody, ← List.singleton_append,
        List.filterMap_append]
      congr 1
      rw [List.filterMap_cons, List.filterMap_cons, setting_newline]
  | line body rest hbody ih =>
      rw [List.append_assoc, List.cons_append, physicalLines_line _ hbody,
        physicalLines_line _ hbody, ← List.singleton_append, List.filterMap_append, ih,
        ← List.append_assoc, ← List.filterMap_append, List.singleton_append]

theorem settings_line {key value : Text} (hkey : '=' ∉ key) (hnl : '\n' ∉ key ++ value) :
    settings (key ++ "  =  ".toList ++ value) = [(trim key, trim value)] := by
  have hblank : ∀ c ∈ [' ', ' '], isBlank c = true := List.all_eq_true.mp rfl
  have hline : key ++ "  =  ".toList ++ value
      = key ++ [' ', ' '] ++ '=' :: ([' ', ' '] ++ value) := by
    rw [List.append_assoc, List.append_assoc]
    rfl
  have hbefore : '=' ∉ key ++ [' ', ' '] := by
    rw [List.mem_append, not_or]
    exact ⟨hkey, by decide⟩
  have hfree : '\n' ∉ key ++ [' ', ' '] ++ '=' :: ([' ', ' '] ++ value) := by
    rw [List.mem_append, not_or] at hnl
    simp [hnl.1, hnl.2]
  rw [settings_eq, hline, physicalLines_last hfree, List.filterMap_cons, setting,
    cut_append _ hbefore, Option.map_some, trim_append_right hblank, trim_append_left hblank]
  rfl

/-- The settings are those before, and the new one behind them. -/
theorem settings_configAppend (content : Text) {k v : Text} (hk : '=' ∉ k)
    (hnl : '\n' ∉ k ++ v) :
    ∃ content', configAppend content (k ++ '=' :: v) = some content'
      ∧ settings content' = settings content ++ [(trim k, trim v)] := by
  have hkey : '=' ∉ trim k := fun h => hk (mem_of_mem_trim h)
  have hfree : '\n' ∉ trim k ++ trim v := fun h => hnl (by
    rcases List.mem_append.mp h with h | h
    · exact List.mem_append_left v (mem_of_mem_trim h)
    · exact List.mem_append_right k (mem_of_mem_trim h))
  have hline := settings_line hkey hfree
  rw [trim_trim, trim_trim] at hline
  rw [configAppend, getKeyValueByEqualSign, cut_append v hk]
  refine ⟨_, rfl, ?_⟩
  split
  · rename_i hlast
    obtain ⟨body, rfl⟩ := List.getLast?_eq_some_iff.mp hlast
    rw [List.append_assoc, List.singleton_append, settings_newline, settings_newline, hline]
    simp [settings, lines, physicalLines]
  · rw [settings_newline, hline]

/-- A file with a comment, whose last line does not end. -/
theorem settings_configAppend_unterminated : ∃ content',
    configAppend "# test\nKEY1 = a\nKEY2=b".toList "KEY3 =hello".toList = some content'
      ∧ settings content' = [("KEY1".toList, "a".toList), ("KEY2".toList, "b".toList),
        ("KEY3".toList, "hello".toList)] :=
  settings_configAppend "# test\nKEY1 = a\nKEY2=b".toList (k := "KEY3 ".toList)
    (v := "hello".toList) (by decide) (by decide)

end Yapas
