import Mathlib
import TreeText.Proofs.Reader
import TreeText.Settings.Load

/-!
# Layers of settings, key by key

What a key of the settings is set to can be told without laying the layers over each other: the
environment decides if it gives the key, else the settings file, else the default, and each key is
decided on its own. This holds where the layers are plain: each gives a key at most once, the settings
file not by a table, and nothing leads below it, as `indent.x` leads below `indent`.

Only what is decided on is converted, so a value that another one overrides does not matter.

Results:
* `keyPath_eq_name_iff`: the names that are a key of the settings itself.
* `get_addLayer`: what one layer does to one key.
* `variableKey?_eq_some_iff`: the variables that give a key.
* `load_iff_converts`: which settings are loaded.
-/

namespace TreeText

namespace Settings

/-! ## Keys -/

theorem toList_lowerCase (name : String) : (lowerCase name).toList = name.toList.map lowerChar :=
  String.toList_map

theorem lowerCase_eq_self {name : String} (h : name.toList.map lowerChar = name.toList) :
    lowerCase name = name := by
  rw [← String.toList_inj, toList_lowerCase, h]

/-- The form of the keys of the settings: names in lower case that variables spell as they are. -/
structure IsPlain (key : String) : Prop where
  ne_empty : key ≠ ""
  isNameChar : key.toList.all Settings.isNameChar = true
  lowerChar : key.toList.map Settings.lowerChar = key.toList
  pointed : Settings.pointed key.toList = key.toList

theorem isPlain_layoutKey : IsPlain layoutKey := ⟨by decide, rfl, rfl, rfl⟩

theorem isPlain_indentKey : IsPlain indentKey := ⟨by decide, rfl, rfl, rfl⟩

/-- A name is the path to something below a key. -/
def LeadsBelow (key name : String) : Prop := ∃ step steps, keyPath name = .name key :: step :: steps

theorem nameStep_eq (cs : List Char) :
    nameStep cs = if (cs.takeWhile isNameChar).isEmpty then none
      else some (.name (String.ofList (cs.takeWhile isNameChar)), cs.dropWhile isNameChar) := by
  simp only [nameStep, bind, StateT.bind, Reader.takeWhile1]
  split <;> rfl

theorem path?_eq_some {cs : List Char} {path : List KeyStep} (h : path? cs = some path) :
    ∃ k steps, path = .name k :: steps ∧ (steps = [] → k = String.ofList cs) := by
  rw [path?, nameStep_eq] at h
  split at h
  · cases h
  · rename_i first rest hfirst
    split at hfirst
    · cases hfirst
    · obtain ⟨rfl, rfl⟩ := Prod.mk.inj (Option.some.inj hfirst)
      simp only [List.isEmpty_iff] at h
      split at h
      · rename_i hend
        obtain rfl := Option.some.inj h
        refine ⟨_, _, rfl, fun hsteps => ?_⟩
        -- Where no steps follow, the name goes on to the end.
        rw [Reader.many_eq_nil hsteps] at hend
        have hsplit := @List.takeWhile_append_dropWhile _ isNameChar cs
        rw [hend, List.append_nil] at hsplit
        rw [hsplit]
      · cases h

/-- A path starts with a name, and a path of one step is the name in lower case. -/
theorem keyPath_eq_cons (name : String) :
    ∃ k steps, keyPath name = .name k :: steps ∧ (steps = [] → k = lowerCase name) := by
  cases hpath : path? (lowerCase name).toList with
  | none => exact ⟨lowerCase name, [], by rw [keyPath, hpath, Option.getD_none], fun _ => rfl⟩
  | some path =>
    obtain ⟨k, steps, rfl, hk⟩ := path?_eq_some hpath
    rw [String.ofList_toList] at hk
    exact ⟨k, steps, by rw [keyPath, hpath, Option.getD_some], hk⟩

theorem keyPath_of_isNameChar {name : String} (hne : name ≠ "")
    (h : ∀ c ∈ (lowerCase name).toList, isNameChar c = true) :
    keyPath name = [.name (lowerCase name)] := by
  have hcs : (lowerCase name).toList ≠ [] := by
    rw [toList_lowerCase]
    simpa using hne
  rw [keyPath, path?_of_name hcs h, Option.getD_some, String.ofList_toList]

/-- The names that are a key of the settings itself are its spellings in letters of any case. -/
theorem keyPath_eq_name_iff {key : String} (hkey : IsPlain key) {name : String} :
    keyPath name = [.name key] ↔ lowerCase name = key := by
  constructor
  · intro h
    obtain ⟨k, steps, hpath, hk⟩ := keyPath_eq_cons name
    rw [hpath] at h
    obtain ⟨hname, rfl⟩ := List.cons.inj h
    rw [← hk rfl]
    exact KeyStep.name.inj hname
  · rintro rfl
    refine keyPath_of_isNameChar ?_ (List.all_eq_true.mp hkey.isNameChar)
    rintro rfl
    exact hkey.ne_empty (lowerCase_eq_self rfl)

/-! ## One layer -/

/-- The value that a layer gives to a key. -/
def given? (layer : Layer) (key : String) : Option Value :=
  (layer.find? fun e => lowerCase e.1 = key).map Prod.snd

/-- A layer gives a key at most once and not by a table, and it does not lead below the key. -/
structure GivesOnce (layer : Layer) (key : String) : Prop where
  once : (layer.countP fun e => lowerCase e.1 = key) ≤ 1
  not_table : ∀ e ∈ layer, lowerCase e.1 = key → ∀ es, e.2 ≠ .table es
  not_below : ∀ e ∈ layer, ¬ LeadsBelow key e.1

/-- A name without points and brackets leads below no key. -/
theorem not_leadsBelow_of_isNameChar {key name : String} (hne : name ≠ "")
    (h : (name.toList.map lowerChar).all isNameChar = true) : ¬ LeadsBelow key name := by
  rintro ⟨step, steps, hpath⟩
  rw [keyPath_of_isNameChar hne (by simpa [toList_lowerCase] using h)] at hpath
  cases hpath

/-- Entries under different names without points and brackets give each key once. -/
theorem givesOnce_of_nodup {layer : Layer}
    (hnodup : (layer.map fun e => e.1.toList.map lowerChar).Nodup)
    (hnames : ∀ e ∈ layer, e.1 ≠ "" ∧ (e.1.toList.map lowerChar).all isNameChar = true)
    (htables : ∀ e ∈ layer, ∀ es, e.2 ≠ .table es) (key : String) : GivesOnce layer key where
  once := by
    have hlower : (layer.map fun e => lowerCase e.1).Nodup := by
      refine List.Nodup.of_map String.toList ?_
      simpa [Function.comp_def, toList_lowerCase] using hnodup
    have hcount := List.nodup_iff_count_le_one.mp hlower key
    rwa [List.count_eq_countP, List.countP_map] at hcount
  not_table e he _ := htables e he
  not_below e he := not_leadsBelow_of_isNameChar (hnames e he).1 (hnames e he).2

theorem merge_of_not_table {v : Value} (h : ∀ es, v ≠ .table es) (old : Value) :
    old.merge v = v := by
  cases v with
  | table es => exact absurd rfl (h es)
  | _ => rw [Value.merge]; simp

theorem get_assign_self {key : String} (hkey : IsPlain key) {name : String}
    (hname : lowerCase name = key) {v : Value} (hv : ∀ es, v ≠ .table es) (root : Value) :
    (Value.assign v root (keyPath name)).get key = v := by
  rw [(keyPath_eq_name_iff hkey).mpr hname, Value.assign, Value.get_setName, merge_of_not_table hv]

theorem get_assign_of_ne {key name : String} (hname : lowerCase name ≠ key)
    (hbelow : ¬ LeadsBelow key name) (v root : Value) :
    (Value.assign v root (keyPath name)).get key = root.get key := by
  obtain ⟨k, steps, hpath, hk⟩ := keyPath_eq_cons name
  have hne : key ≠ k := by
    rintro rfl
    cases steps with
    | nil => exact hname (hk rfl).symm
    | cons step steps => exact hbelow ⟨step, steps, hpath⟩
  rw [hpath]
  cases steps with
  | nil => exact Value.get_setName_of_ne root hne _
  | cons step steps => exact Value.get_setName_of_ne root hne _

theorem addLayer_cons (root : Value) (e : String × Value) (layer : Layer) :
    addLayer root (e :: layer) = addLayer (Value.assign e.2 root (keyPath e.1)) layer := rfl

theorem given?_cons_of_ne {e : String × Value} {key : String} (h : lowerCase e.1 ≠ key)
    (layer : Layer) : given? (e :: layer) key = given? layer key := by
  simp [given?, h]

theorem given?_cons_self {e : String × Value} {key : String} (h : lowerCase e.1 = key)
    (layer : Layer) : given? (e :: layer) key = some e.2 := by
  simp [given?, h]

/-- A layer that does not give a key leaves it alone. -/
theorem get_addLayer_of_ne {layer : Layer} {key : String} (hne : ∀ e ∈ layer, lowerCase e.1 ≠ key)
    (hbelow : ∀ e ∈ layer, ¬ LeadsBelow key e.1) (root : Value) :
    (addLayer root layer).get key = root.get key := by
  induction layer generalizing root with
  | nil => rfl
  | cons e layer ih =>
    rw [addLayer_cons, ih (fun d hd => hne d (List.mem_cons_of_mem e hd))
      (fun d hd => hbelow d (List.mem_cons_of_mem e hd))]
    exact get_assign_of_ne (hne e (List.mem_cons_self ..)) (hbelow e (List.mem_cons_self ..)) _ _

/-- A layer sets a key to the value that it gives, and else leaves it alone. -/
theorem get_addLayer {layer : Layer} {key : String} (hkey : IsPlain key) (h : GivesOnce layer key)
    (root : Value) :
    (addLayer root layer).get key = (given? layer key).getD (root.get key) := by
  induction layer generalizing root with
  | nil => rfl
  | cons e layer ih =>
    obtain ⟨honce, htable, hbelow⟩ := h
    have hbelow' : ∀ d ∈ layer, ¬ LeadsBelow key d.1 :=
      fun d hd => hbelow d (List.mem_cons_of_mem e hd)
    by_cases he : lowerCase e.1 = key
    · have hrest : ∀ d ∈ layer, lowerCase d.1 ≠ key := by
        rw [List.countP_cons_of_pos (by simpa using he)] at honce
        have hzero := List.countP_eq_zero.mp (Nat.le_zero.mp (Nat.le_of_succ_le_succ honce))
        simpa using hzero
      rw [addLayer_cons, get_addLayer_of_ne hrest hbelow', given?_cons_self he, Option.getD_some]
      exact get_assign_self hkey he (htable e (List.mem_cons_self ..) he) root
    · rw [List.countP_cons_of_neg (by simpa using he)] at honce
      rw [addLayer_cons, given?_cons_of_ne he,
        ih ⟨honce, fun d hd => htable d (List.mem_cons_of_mem e hd), hbelow'⟩,
        get_assign_of_ne he (hbelow e (List.mem_cons_self ..))]

/-! ## The environment -/

/-- The sign of the unit kelvin is no lower case of another character. -/
theorem toLower_ne_kelvin {c : Char} (h : c ≠ '\u212a') : c.toLower ≠ '\u212a' := by
  intro hlower
  have hupper : ¬ c.isUpper = true := by
    intro hupper
    have halpha : c.toLower.isAlpha = true := by
      rw [Char.isAlpha_toLower_eq_isAlpha, Char.isAlpha, hupper, Bool.true_or]
    rw [hlower] at halpha
    exact absurd halpha (by decide)
  exact h ((Char.toLower_eq_of_not_isUpper hupper).symm.trans hlower)

theorem lowerChar_lowerChar (c : Char) : lowerChar (lowerChar c) = lowerChar c := by
  by_cases hc : c = '\u212a'
  · rw [hc]
    rfl
  · have hlower : lowerChar c = c.toLower := if_neg hc
    rw [hlower, lowerChar, if_neg (toLower_ne_kelvin hc), Char.toLower_toLower_eq_toLower]

theorem mem_pointed {cs : List Char} {c : Char} (h : c ∈ pointed cs) : c = '.' ∨ c ∈ cs := by
  fun_induction pointed cs with
  | case1 rest ih =>
    rcases List.mem_cons.mp h with rfl | h
    · exact .inl rfl
    · exact (ih h).imp_right fun h => List.mem_cons_of_mem _ (List.mem_cons_of_mem _ h)
  | case2 d rest _ ih =>
    rcases List.mem_cons.mp h with rfl | h
    · exact .inr (List.mem_cons_self ..)
    · exact (ih h).imp_right (List.mem_cons_of_mem d)
  | case3 => exact .inr h

/-- Where no points come up, no underscores stand in pairs. -/
theorem pointed_eq_self {cs : List Char} (h : '.' ∉ pointed cs) : pointed cs = cs := by
  fun_induction pointed cs with
  | case1 rest ih => exact absurd (List.mem_cons_self ..) h
  | case2 d rest _ ih => rw [ih fun hmem => h (List.mem_cons_of_mem d hmem)]
  | case3 => rfl

theorem variableKey?_eq_some {name k : String} :
    variableKey? name = some k ↔ variablePrefix.toList <+: (lowerCase name).toList ∧
      pointed ((lowerCase name).toList.drop variablePrefix.length) = k.toList := by
  simp only [variableKey?, ← String.toList_inj, Option.ite_none_right_eq_some,
    List.isPrefixOf_iff_prefix, Option.some.injEq, String.toList_ofList]

theorem lowerCase_of_variableKey? {name k : String} (h : variableKey? name = some k) :
    lowerCase k = k := by
  refine lowerCase_eq_self ((List.map_congr_left fun c hc => ?_).trans (List.map_id _))
  rw [← (variableKey?_eq_some.mp h).2] at hc
  rcases mem_pointed hc with rfl | hc
  · rfl
  · have hmem := List.mem_of_mem_drop hc
    rw [toList_lowerCase] at hmem
    obtain ⟨d, -, rfl⟩ := List.mem_map.mp hmem
    exact lowerChar_lowerChar d

/-- The variables that give a key are the spellings of its name behind the prefix. -/
theorem variableKey?_eq_some_iff {key : String} (hkey : IsPlain key) {name : String} :
    variableKey? name = some key ↔ lowerCase name = variablePrefix ++ key := by
  rw [variableKey?_eq_some, ← String.toList_inj, String.toList_append]
  constructor
  · rintro ⟨hstart, hrest⟩
    have hpoint : '.' ∉ pointed ((lowerCase name).toList.drop variablePrefix.length) := by
      rw [hrest]
      exact fun h => absurd (List.all_eq_true.mp hkey.isNameChar '.' h) (by decide)
    rw [← hrest, pointed_eq_self hpoint]
    exact (List.prefix_iff_eq_append.mp hstart).symm
  · intro h
    rw [h, ← String.length_toList, List.drop_left, hkey.pointed]
    exact ⟨List.prefix_append .., rfl⟩

theorem variableValue_ne_table (text : String) (es : List (String × Value)) :
    variableValue text ≠ .table es := by
  intro h
  simp only [variableValue] at h
  repeat' split at h
  all_goals cases h

/-- The value of the variable that gives a key. -/
def fromVariable? (vars : List (String × String)) (key : String) : Option Value :=
  (vars.find? fun v => lowerCase v.1 = variablePrefix ++ key).map fun v => variableValue v.2

theorem lowerCase_eq_iff_of_variableKey? {key : String} (hkey : IsPlain key) {name k : String}
    (h : variableKey? name = some k) :
    lowerCase k = key ↔ lowerCase name = variablePrefix ++ key := by
  rw [lowerCase_of_variableKey? h, ← variableKey?_eq_some_iff hkey, h, Option.some_inj]

/-- Of the variables only those with the prefix are entries of their layer. -/
theorem given?_environmentLayer {key : String} (hkey : IsPlain key) (vars : List (String × String)) :
    given? (environmentLayer vars) key = fromVariable? vars key := by
  induction vars with
  | nil => rfl
  | cons v vars ih =>
    by_cases hv : lowerCase v.1 = variablePrefix ++ key
    · have hname := (variableKey?_eq_some_iff hkey).mpr hv
      have hlayer : environmentLayer (v :: vars)
          = (key, variableValue v.2) :: environmentLayer vars := by
        simp [environmentLayer, hname]
      rw [hlayer, given?_cons_self (lowerCase_of_variableKey? hname)]
      simp [fromVariable?, hv]
    · have hrest : fromVariable? (v :: vars) key = fromVariable? vars key := by
        simp [fromVariable?, hv]
      rw [hrest, ← ih]
      cases hname : variableKey? v.1 with
      | none => simp [environmentLayer, hname]
      | some k =>
        have hlayer : environmentLayer (v :: vars)
            = (k, variableValue v.2) :: environmentLayer vars := by
          simp [environmentLayer, hname]
        rw [hlayer, given?_cons_of_ne]
        rwa [Ne, lowerCase_eq_iff_of_variableKey? hkey hname]

theorem mem_environmentLayer {vars : List (String × String)} {e : String × Value}
    (h : e ∈ environmentLayer vars) :
    ∃ v ∈ vars, variableKey? v.1 = some e.1 ∧ e.2 = variableValue v.2 := by
  obtain ⟨v, hv, hentry⟩ := List.mem_filterMap.mp h
  obtain ⟨k, hk, rfl⟩ := Option.map_eq_some_iff.mp hentry
  exact ⟨v, hv, hk, rfl⟩

theorem givesOnce_environmentLayer {key : String} (hkey : IsPlain key) {vars : List (String × String)}
    (honce : (vars.countP fun v => lowerCase v.1 = variablePrefix ++ key) ≤ 1)
    (hbelow : ∀ v ∈ vars, ∀ k, variableKey? v.1 = some k → ¬ LeadsBelow key k) :
    GivesOnce (environmentLayer vars) key where
  once := by
    refine le_trans ?_ honce
    rw [environmentLayer, List.countP_filterMap]
    refine List.countP_mono_left fun v _ hv => ?_
    cases hname : variableKey? v.1 with
    | none => simp [hname] at hv
    | some k => simpa [hname, lowerCase_eq_iff_of_variableKey? hkey hname] using hv
  not_table := by
    intro e he _ es
    obtain ⟨v, -, -, hvalue⟩ := mem_environmentLayer he
    rw [hvalue]
    exact variableValue_ne_table v.2 es
  not_below := by
    intro e he
    obtain ⟨v, hv, hname, -⟩ := mem_environmentLayer he
    exact hbelow v hv e.1 hname

/-! ## Loading -/

theorem addLayer_defaultLayer : addLayer (.table []) defaultLayer = .table defaultLayer := by
  have hpath {key : String} (hkey : IsPlain key) : keyPath key = [.name key] :=
    (keyPath_eq_name_iff hkey).mpr (lowerCase_eq_self hkey.lowerChar)
  rw [defaultLayer, addLayer_cons, addLayer_cons, hpath isPlain_layoutKey, hpath isPlain_indentKey]
  rfl

/-- The settings file and the environment give a key without doubt: each of the two gives it at most
once, in letters of any case, the file not by a table, and neither leads below it. -/
structure GivenPlainly (entries : Layer) (vars : List (String × String)) (key : String) : Prop where
  entries_once : GivesOnce entries key
  variable_once : (vars.countP fun v => lowerCase v.1 = variablePrefix ++ key) ≤ 1
  variable_not_below : ∀ v ∈ vars, ∀ k, variableKey? v.1 = some k → ¬ LeadsBelow key k

/-- The value that is decided on for a key: that of the environment, else that of the settings file,
else the default. -/
def decided (entries : Layer) (vars : List (String × String)) (key : String) (default : Value) :
    Value :=
  (fromVariable? vars key).getD ((given? entries key).getD default)

/-- The layers decide on each key on its own, the last one that gives it first. -/
theorem GivenPlainly.get_collect {entries : Layer} {vars : List (String × String)} {key : String}
    (h : GivenPlainly entries vars key) (hkey : IsPlain key) :
    (collect [defaultLayer, entries, environmentLayer vars]).get key
      = decided entries vars key ((Value.table defaultLayer).get key) := by
  have hvars := givesOnce_environmentLayer hkey h.variable_once h.variable_not_below
  rw [collect, List.foldl_cons, List.foldl_cons, List.foldl_cons, List.foldl_nil,
    get_addLayer hkey hvars, get_addLayer hkey h.entries_once, addLayer_defaultLayer,
    given?_environmentLayer hkey, decided]

theorem ofTable_eq_ok_iff {root : Value} {s : Settings} :
    ofTable root = .ok s ↔ layoutOf (root.get layoutKey) = .ok s.layout ∧
      indentOf (root.get indentKey) = .ok s.indent := by
  obtain ⟨layout, indent⟩ := s
  unfold ofTable
  cases layoutOf (root.get layoutKey) with
  | error e => simp
  | ok l =>
    cases indentOf (root.get indentKey) with
    | error e => simp
    | ok n => simp

theorem exists_reason_of_layoutOf {v : Value} {e : SettingsError} (h : layoutOf v = .error e) :
    ∃ reason, e = .load reason := by
  unfold layoutOf at h
  split at h
  all_goals try split at h
  all_goals cases h
  all_goals exact ⟨_, rfl⟩

theorem exists_reason_of_indentOf {v : Value} {e : SettingsError} (h : indentOf v = .error e) :
    ∃ reason, e = .load reason := by
  unfold indentOf at h
  split at h
  all_goals try split at h
  all_goals cases h
  all_goals exact ⟨_, rfl⟩

/-- Values that stand for no settings are an error of loading. -/
theorem exists_reason_of_ofTable {root : Value} {e : SettingsError} (h : ofTable root = .error e) :
    ∃ reason, e = .load reason := by
  unfold ofTable at h
  split at h
  · rename_i hlayout
    cases h
    exact exists_reason_of_layoutOf hlayout
  · split at h
    · rename_i hindent
      cases h
      exact exists_reason_of_indentOf hindent
    · cases h

theorem load_of_fileLayer {file : Option String} {entries : Layer}
    (hfile : fileLayer file = .ok entries) (vars : List (String × String)) :
    load file vars = ofTable (collect [defaultLayer, entries, environmentLayer vars]) := by
  rw [load, hfile]

theorem ofTable_congr {root root' : Value} (hlayout : root.get layoutKey = root'.get layoutKey)
    (hindent : root.get indentKey = root'.get indentKey) : ofTable root = ofTable root' := by
  rw [ofTable, ofTable, hlayout, hindent]

/-- Loading converts the two values that are decided on, and nothing else. -/
theorem load_eq {file : Option String} {vars : List (String × String)} {entries : Layer}
    (hfile : fileLayer file = .ok entries) (hlayout : GivenPlainly entries vars layoutKey)
    (hindent : GivenPlainly entries vars indentKey) :
    load file vars = ofTable (.table [(layoutKey, decided entries vars layoutKey (.text "termtree")),
      (indentKey, decided entries vars indentKey (.integer 1))]) := by
  rw [load_of_fileLayer hfile]
  exact ofTable_congr (hlayout.get_collect isPlain_layoutKey) (hindent.get_collect isPlain_indentKey)

/-- Where the environment gives a key, the settings file does not matter. -/
theorem decided_congr {entries entries' : Layer} {vars : List (String × String)} {key : String}
    (h : fromVariable? vars key = none → given? entries' key = given? entries key) (default : Value) :
    decided entries' vars key default = decided entries vars key default := by
  rw [decided, decided]
  cases hvar : fromVariable? vars key with
  | none => rw [h hvar]
  | some v => rfl

/-- **Settings are decided on key by key.** A malformed settings file is an error of loading, whatever
the environment is. Otherwise, if the file and the environment give the two keys plainly, the settings
that are loaded are those that the two decided values stand for: the value of the environment, else
that of the file, else the default. If one of the two stands for nothing, this is an error of loading
too. What the file says about keys that the environment gives does not matter. -/
theorem load_iff_converts (file : Option String) (vars : List (String × String)) :
    (∀ source, file = some source → Toml.document source = none →
      ∃ reason, load file vars = .error (.load reason)) ∧
    ∀ entries, fileLayer file = .ok entries →
      GivenPlainly entries vars layoutKey → GivenPlainly entries vars indentKey →
      (∀ s : Settings, load file vars = .ok s ↔
        layoutOf (decided entries vars layoutKey (.text "termtree")) = .ok s.layout ∧
          indentOf (decided entries vars indentKey (.integer 1)) = .ok s.indent) ∧
      ((∀ s, load file vars ≠ .ok s) → ∃ reason, load file vars = .error (.load reason)) ∧
      ∀ file' entries', fileLayer file' = .ok entries' →
        GivenPlainly entries' vars layoutKey → GivenPlainly entries' vars indentKey →
        (∀ key ∈ [layoutKey, indentKey], fromVariable? vars key = none →
          given? entries' key = given? entries key) →
        load file' vars = load file vars := by
  refine ⟨?_, fun entries hfile hlayout hindent => ?_⟩
  · rintro source rfl h
    exact load_of_malformed h vars
  · have hload := load_eq hfile hlayout hindent
    refine ⟨fun s => ?_, fun hfails => ?_, fun file' entries' hfile' hlayout' hindent' hsame => ?_⟩
    · rw [hload]
      exact ofTable_eq_ok_iff
    · cases hresult : load file vars with
      | ok s => exact absurd hresult (hfails s)
      | error e =>
        rw [hload] at hresult
        obtain ⟨reason, rfl⟩ := exists_reason_of_ofTable hresult
        exact ⟨reason, rfl⟩
    · rw [hload, load_eq hfile' hlayout' hindent',
        decided_congr (hsame layoutKey (by simp)), decided_congr (hsame indentKey (by simp))]

/-- A variable in letters of either case. -/
def indentVariable : List (String × String) := [("arbor_Indent", "+12")]

theorem fromVariable?_indentVariable :
    fromVariable? indentVariable indentKey = some (.integer 12) ∧
      fromVariable? indentVariable layoutKey = none := by
  have hname : lowerCase "arbor_Indent" = variablePrefix ++ indentKey := by cbv
  have hword : "+12".map Char.toLower = "+12" := by cbv
  have hvalue : variableValue "+12" = .integer 12 :=
    variableValue_of_integer (by cbv) (by rw [hword]; decide)
  exact ⟨by simp [fromVariable?, indentVariable, hname, hvalue], by cbv⟩

theorem givenPlainly_indentVariable {entries : Layer} {key : String} (h : GivesOnce entries key) :
    GivenPlainly entries indentVariable key where
  entries_once := h
  variable_once := List.countP_le_length
  variable_not_below := by
    intro v hv k hk
    obtain rfl := List.mem_singleton.mp hv
    have hname : variableKey? "arbor_Indent" = some "indent" := by cbv
    obtain rfl := Option.some.inj (hname.symm.trans hk)
    exact not_leadsBelow_of_isNameChar (by decide) rfl

/-- A settings file with names in capitals and an indent that is no number. -/
def capitalFile : String := "Indent = [1]\n\"SHOW_STYLE\" = \"INDENT\"\n"

/-- What the file holds. -/
def capitalEntries : Layer := [("Indent", .array [.integer 1]), ("SHOW_STYLE", .text "INDENT")]

theorem fileLayer_capitalFile : fileLayer (some capitalFile) = .ok capitalEntries := by
  cbv

/-- An indent that the environment overrides need not be a number and may as well be left out. In an
empty environment it is decided on, and cannot be loaded. A file with a zero in front of a number is
malformed all the same. -/
theorem load_iff_converts_capitalFile :
    load (some capitalFile) indentVariable = .ok ⟨.indented, 12⟩ ∧
      load (some "show_style = 'INDENT'") indentVariable = load (some capitalFile) indentVariable ∧
      (∃ reason, load (some capitalFile) [] = .error (.load reason)) ∧
      ∃ reason, load (some "indent = 01") indentVariable = .error (.load reason) := by
  obtain ⟨hindent, hlayout⟩ := fromVariable?_indentVariable
  have hgiven : given? capitalEntries layoutKey = some (.text "INDENT") := by cbv
  have honce (key : String) : GivesOnce capitalEntries key :=
    givesOnce_of_nodup (by decide) (by decide) (by simp [capitalEntries]) key
  have hplain (key : String) : GivenPlainly capitalEntries indentVariable key :=
    givenPlainly_indentVariable (honce key)
  have halone (key : String) : GivenPlainly capitalEntries [] key := ⟨honce key, by simp, by simp⟩
  have hother : fileLayer (some "show_style = 'INDENT'") = .ok [("show_style", .text "INDENT")] := by
    cbv
  have hplain' (key : String) : GivenPlainly [("show_style", .text "INDENT")] indentVariable key :=
    givenPlainly_indentVariable (givesOnce_of_nodup (by decide) (by decide) (by simp) key)
  obtain ⟨hloads, -, hsame⟩ := (load_iff_converts (some capitalFile) indentVariable).2 _
    fileLayer_capitalFile (hplain layoutKey) (hplain indentKey)
  obtain ⟨hconverts, hfails, -⟩ := (load_iff_converts (some capitalFile) []).2 _
    fileLayer_capitalFile (halone layoutKey) (halone indentKey)
  refine ⟨(hloads ⟨.indented, 12⟩).mpr ⟨?_, ?_⟩,
    hsame _ _ hother (hplain' layoutKey) (hplain' indentKey) ?_, hfails fun s h => ?_,
    (load_iff_converts (some "indent = 01") indentVariable).1 _ rfl (by cbv)⟩
  · rw [decided, hlayout, hgiven]
    cbv
  · rw [decided, hindent]
    rfl
  · intro key hkey hnone
    simp only [List.mem_cons, List.not_mem_nil, or_false] at hkey
    rcases hkey with rfl | rfl
    · rw [hgiven]
      cbv
    · rw [hindent] at hnone
      cases hnone
  · have harray : decided capitalEntries [] indentKey (.integer 1) = .array [.integer 1] := by cbv
    obtain ⟨-, hnumber⟩ := (hconverts s).mp h
    rw [harray] at hnumber
    cases hnumber

end Settings

end TreeText
