import TreeText.Proofs.Settings.Layers
import TreeText.Proofs.Toml.Entry

/-!
# Settings as they are written

Settings are written as two lines of a settings file: the name of the layout between quotes, and the
indent in decimal digits. The file holds these two entries if the indent is in the range of its
integers. Where the environment says nothing about settings, they are decided on by these entries, and
the settings that were written are loaded back.

Results:
* `toToml_eq_ok_iff`: the settings that can be written, and as which text.
* `fileLayer_written`: the entries of this text.
* `load_written`: the text is loaded as the settings that were written.
* `toToml_round_trip`: writing and loading are inverse, up to the largest integer of a settings file.
-/

namespace TreeText.Settings

/-! ## Two lines -/

theorem isPlainText_name (l : Layout) : Toml.IsPlainText l.name := by
  have hall : l.name.toList.all (fun c => Toml.isPrintable c && c != '"' && c != '\\') = true := by
    cases l <;> rfl
  simpa [Toml.IsPlainText, and_assoc] using hall

/-- The line of a layout. -/
def layoutLine (l : Layout) : Toml.EntryLine where
  key := layoutKey
  chars := '"' :: (l.name.toList ++ ['"'])
  value := .text l.name
  isBareKey := ⟨isPlain_layoutKey.ne_empty, List.all_eq_true.mp rfl⟩
  spells := Toml.spells_plain (isPlainText_name l)

/-- The line of an indent. -/
def indentLine (n : Nat) (hn : n ≤ maxInt64) : Toml.EntryLine where
  key := indentKey
  chars := n.repr.toList
  value := .integer n
  isBareKey := ⟨isPlain_indentKey.ne_empty, List.all_eq_true.mp rfl⟩
  spells := Toml.spells_repr (Numeral.fitsInt64_iff.mpr hn)

/-- The lines of settings that can be written. -/
def writtenLines (s : Settings) (hs : s.indent.toNat ≤ maxInt64) : List Toml.EntryLine :=
  [layoutLine s.layout, indentLine s.indent.toNat hs]

/-- The entries of settings. -/
def entries (s : Settings) : Layer :=
  [(layoutKey, .text s.layout.name), (indentKey, .integer s.indent.toNat)]

theorem toToml_of_le {s : Settings} (hs : s.indent.toNat ≤ maxInt64) :
    s.toToml = .ok (String.ofList ((writtenLines s hs).flatMap Toml.EntryLine.text)) := by
  rw [toToml, if_pos hs, Except.ok.injEq, ← String.toList_inj]
  simp [writtenLines, layoutLine, indentLine, Toml.EntryLine.text]

theorem toToml_eq_ok_iff {s : Settings} {text : String} :
    s.toToml = .ok text ↔ ∃ hs : s.indent.toNat ≤ maxInt64,
      text = String.ofList ((writtenLines s hs).flatMap Toml.EntryLine.text) := by
  constructor
  · intro h
    by_cases hs : s.indent.toNat ≤ maxInt64
    · rw [toToml_of_le hs, Except.ok.injEq] at h
      exact ⟨hs, h.symm⟩
    · rw [toToml, if_neg hs] at h
      nomatch h
  · rintro ⟨hs, rfl⟩
    exact toToml_of_le hs

theorem fileLayer_written {s : Settings} {text : String} (h : s.toToml = .ok text) :
    fileLayer (some text) = .ok s.entries := by
  obtain ⟨hs, rfl⟩ := toToml_eq_ok_iff.mp h
  have hkeys : ((writtenLines s hs).map Toml.EntryLine.key).Nodup := by
    show [layoutKey, indentKey].Nodup
    decide
  rw [fileLayer, Toml.document_flatMap_text hkeys]
  rfl

/-! ## The two values -/

theorem layoutOf_name (l : Layout) : layoutOf (.text l.name) = .ok l := by
  cases l <;> cbv

theorem givesOnce_entries (s : Settings) (key : String) : GivesOnce s.entries key := by
  have hlower : s.entries.map (fun e => e.1.toList.map lowerChar)
      = [layoutKey.toList, indentKey.toList] := by
    rw [entries, List.map_cons, List.map_singleton, isPlain_layoutKey.lowerChar,
      isPlain_indentKey.lowerChar]
  have hname {key : String} (hkey : IsPlain key) :
      key ≠ "" ∧ (key.toList.map lowerChar).all isNameChar = true := by
    rw [hkey.lowerChar]
    exact ⟨hkey.ne_empty, hkey.isNameChar⟩
  refine givesOnce_of_nodup ?_ ?_ (by simp [entries]) key
  · rw [hlower]
    decide
  · rw [entries, List.forall_mem_cons, List.forall_mem_singleton]
    exact ⟨hname isPlain_layoutKey, hname isPlain_indentKey⟩

theorem given?_layoutKey (s : Settings) : given? s.entries layoutKey = some (.text s.layout.name) :=
  given?_cons_self (lowerCase_eq_self isPlain_layoutKey.lowerChar) _

theorem given?_indentKey (s : Settings) :
    given? s.entries indentKey = some (.integer s.indent.toNat) := by
  have hne : lowerCase layoutKey ≠ indentKey := by
    rw [lowerCase_eq_self isPlain_layoutKey.lowerChar]
    decide
  rw [entries, given?_cons_of_ne hne]
  exact given?_cons_self (lowerCase_eq_self isPlain_indentKey.lowerChar) _

/-! ## Loading -/

/-- No variable is about settings, in letters of either case. -/
def IsSilent (vars : List (String × String)) : Prop :=
  ∀ v ∈ vars, ¬ variablePrefix.toList <+: (lowerCase v.1).toList

variable {vars : List (String × String)}

theorem IsSilent.lowerCase_ne (h : IsSilent vars) {v : String × String} (hv : v ∈ vars)
    (key : String) : lowerCase v.1 ≠ variablePrefix ++ key := by
  intro hname
  refine h v hv ?_
  rw [hname, String.toList_append]
  exact List.prefix_append ..

theorem IsSilent.fromVariable? (h : IsSilent vars) (key : String) :
    Settings.fromVariable? vars key = none := by
  rw [Settings.fromVariable?, List.find?_eq_none.mpr, Option.map_none]
  intro v hv
  simpa using h.lowerCase_ne hv key

theorem IsSilent.givenPlainly (h : IsSilent vars) {layer : Layer} {key : String}
    (hlayer : GivesOnce layer key) : GivenPlainly layer vars key where
  entries_once := hlayer
  variable_once := by
    rw [List.countP_eq_zero.mpr fun v hv => by simpa using h.lowerCase_ne hv key]
    exact Nat.zero_le 1
  variable_not_below v hv _ hk := absurd (variableKey?_eq_some.mp hk).1 (h v hv)

/-- A settings file decides where the environment is silent. -/
theorem IsSilent.decided (h : IsSilent vars) {layer : Layer} {key : String} {v : Value}
    (hgiven : given? layer key = some v) (default : Value) :
    Settings.decided layer vars key default = v := by
  rw [Settings.decided, h.fromVariable?, hgiven, Option.getD_none, Option.getD_some]

theorem load_written {s : Settings} {text : String} (h : s.toToml = .ok text)
    (hvars : IsSilent vars) : load (some text) vars = .ok s := by
  rw [load_eq (fileLayer_written h) (hvars.givenPlainly (givesOnce_entries s layoutKey))
    (hvars.givenPlainly (givesOnce_entries s indentKey)), ofTable_eq_ok_iff]
  constructor
  · show layoutOf (Settings.decided s.entries vars layoutKey _) = _
    rw [hvars.decided (given?_layoutKey s), layoutOf_name]
  · show indentOf (Settings.decided s.entries vars indentKey _) = _
    rw [hvars.decided (given?_indentKey s), indentOf_integer]

/-- **Written settings load back.** Settings can be written exactly if the indent is at most
`2 ^ 63 - 1`, and else writing them is an error of rendering. From the text that is written the same
settings are loaded where no variable is about settings, so different settings are written as
different texts. -/
theorem toToml_round_trip (s : Settings) :
    ((∃ text, s.toToml = .ok text) ↔ s.indent.toNat ≤ 2 ^ 63 - 1) ∧
    (2 ^ 63 - 1 < s.indent.toNat → ∃ reason, s.toToml = .error (.render reason)) ∧
    ∀ text, s.toToml = .ok text →
      (∀ vars, IsSilent vars → load (some text) vars = .ok s) ∧
      ∀ s' : Settings, s'.toToml = .ok text → s' = s := by
  have hmax : maxInt64 = 2 ^ 63 - 1 := rfl
  refine ⟨?_, fun hlt => ?_, fun text h => ⟨fun vars => load_written h, fun s' h' => ?_⟩⟩
  · rw [← hmax]
    constructor
    · rintro ⟨text, h⟩
      exact (toToml_eq_ok_iff.mp h).1
    · intro hs
      exact ⟨_, toToml_of_le hs⟩
  · rw [← hmax] at hlt
    exact ⟨_, toToml_eq_error_iff.mpr ⟨hlt, rfl⟩⟩
  · -- In an empty environment the one text is loaded as both.
    have hsilent : IsSilent [] := fun v hv => absurd hv List.not_mem_nil
    have hload := load_written h' hsilent
    rw [load_written h hsilent, Except.ok.injEq] at hload
    exact hload.symm

/-- The prefix counts at the start of a name only. -/
theorem isSilent_prefix_inside : IsSilent [("HOME", "/root"), ("MY_ARBOR_INDENT", "3")] := by
  have hlower : [("HOME", "/root"), ("MY_ARBOR_INDENT", "3")].all (fun v : String × String =>
      !variablePrefix.toList.isPrefixOf (v.1.toList.map lowerChar)) = true := rfl
  intro v hv
  rw [toList_lowerCase, ← List.isPrefixOf_iff_prefix, Bool.not_eq_true, ← Bool.not_eq_true']
  exact List.all_eq_true.mp hlower v hv

/-- The largest indent that can be written is loaded back, and the next one cannot be written. -/
theorem toToml_round_trip_largest :
    (∃ text, toToml ⟨.indented, 9223372036854775807⟩ = .ok text ∧
      load (some text) [("HOME", "/root"), ("MY_ARBOR_INDENT", "3")]
        = .ok ⟨.indented, 9223372036854775807⟩ ∧
      toToml ⟨.drawn, 9223372036854775807⟩ ≠ .ok text) ∧
    ∃ reason, toToml ⟨.drawn, 9223372036854775808⟩ = .error (.render reason) := by
  obtain ⟨hwritten, -, hround⟩ := toToml_round_trip ⟨.indented, 9223372036854775807⟩
  obtain ⟨text, htext⟩ := hwritten.mpr (by decide)
  obtain ⟨hload, hunique⟩ := hround text htext
  refine ⟨⟨text, htext, hload _ isSilent_prefix_inside, fun h => ?_⟩,
    (toToml_round_trip ⟨.drawn, 9223372036854775808⟩).2.1 (by decide)⟩
  exact absurd (hunique _ h) (by decide)

end TreeText.Settings
